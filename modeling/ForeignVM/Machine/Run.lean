import ForeignVM.Machine.Step

/-!
# ForeignVM.Machine.Run

Whole runs. The fuel bounds the number of instructions, so every run ends; whatever a failed run
leaves on the stacks is cleared away.

* `Machine.run`      — instructions one after the other, until the host gets its result.
* `Machine.execute`  — a routine called by the host.
* `Machine.callFrom` — a proc called by the host.
-/

namespace ForeignVM
namespace Machine

open ForeignVM.Action

variable {σ τ : Type} (m : Machine σ) (watch : Observer τ)

/-- Fetches an instruction and executes it. -/
def cycle : Action σ τ (Option Value) := do
  let l ← check .code (decodeAt m.program.code (← get).ip)
  emit watch (.instr l)
  jump l.next
  m.step watch l

/-- Executes at most `fuel` instructions. -/
def run : Nat → State σ τ → EStateM.Result RuntimeError (State σ τ) Value
  | 0, s => .error (.fuelExhausted m.limits.fuel) s
  | fuel + 1, s =>
    match m.cycle watch s with
    | .error e s => .error e s
    | .ok (some v) s => .ok v s
    | .ok none s => run fuel s

/-- The memory without the blocks of some frames. -/
def releaseFrames : List Frame → Memory → Memory
  | [], memory => memory
  | f :: rest, memory =>
    match memory.free f.locals with
    | .ok memory => releaseFrames rest memory
    | .error _ => releaseFrames rest memory

/-- The state after a failed run: no frames, no operands. -/
def unwind (s : State σ τ) : State σ τ :=
  { s with
    memory := releaseFrames s.calls.frames s.memory
    calls := .empty
    operands := .empty }

def execute (id : RoutineId) (args : List Value) (s : State σ τ) :
    EStateM.Result RuntimeError (State σ τ) Value :=
  match m.enter watch id args .host { s with operands := .empty } with
  | .error e s => .error e (unwind s)
  | .ok () s =>
    match m.run watch m.limits.fuel.toNat s with
    | .error e s => .error e (unwind s)
    | .ok v s => .ok v s

/-- Calls a proc; nothing is converted for a native. -/
def callFrom (p : ProcRef) (args : List Value) (s : State σ τ) :
    EStateM.Result RuntimeError (State σ τ) Value :=
  match p.target with
  | none => .error .nilProc s
  | some (.routine id) =>
    if p.context ≠ 0 then .error (.routineContext id) s
    else m.execute watch id args s
  | some (.native id) => m.callNative watch id args p.context s

end Machine
end ForeignVM
