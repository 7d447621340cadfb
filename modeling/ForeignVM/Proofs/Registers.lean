import ForeignVM.Proofs.Residue

/-!
# ForeignVM.Proofs.Registers

Between two calls by the host a machine keeps all its registers, also those that nobody asks for:
what a failed run has left of the address, of the fuel and of the address of the last instruction.
Runs that start from such registers and leave registers behind are the runs of states; the two
registers that a state does not have tell them nothing.

* `Registers`                       — what a machine keeps.
* `cycleKept`, `runKept`, `executeKept`, `callFromKept` — instructions, runs and calls by the host.
* `Registers.Tells`                 — they do what is done with a state; `tells_executeKept`.
* `Machine.Between`                 — the registers that there can be between two calls by the host.
* `Between.idle`                    — no call is open then.
-/

namespace ForeignVM

structure Registers (σ : Type) where
  memory : Memory
  pool : Pool
  host : σ
  calls : CallStack
  operands : Operands
  ip : UInt32
  /-- The address of the instruction that is executed, which errors of the operands tell. -/
  instrIp : UInt32
  fuel : Nat

namespace Registers

variable {σ τ α : Type}

/-- The state of a run that goes on from the registers. -/
def state (r : Registers σ) (trace : τ) : State σ τ :=
  ⟨r.memory, r.pool, r.host, r.calls, r.operands, r.ip, trace⟩

/-- The registers as a state has changed them. -/
def keep (r : Registers σ) (s : State σ τ) : Registers σ :=
  ⟨s.memory, s.pool, s.host, s.calls, s.operands, s.ip, r.instrIp, r.fuel⟩

/-- What a change of the state comes to: its result, the trace, and the registers. -/
def keepResult (r : Registers σ) :
    EStateM.Result RuntimeError (State σ τ) α → Except RuntimeError α × τ × Registers σ
  | .ok a s => (.ok a, s.trace, r.keep s)
  | .error e s => (.error e, s.trace, r.keep s)

end Registers

namespace Machine

open ForeignVM.Action

variable {σ τ : Type} (m : Machine σ) (watch : Observer τ)

/-- Fetches an instruction, notes its address and executes it. -/
def cycleKept (r : Registers σ) (trace : τ) :
    Except RuntimeError (Option Value) × τ × Registers σ :=
  match decodeAt m.program.code r.ip with
  | .error e => (.error (.code e), trace, r)
  | .ok l =>
    let noted := { r with ip := l.next, instrIp := l.ip }
    noted.keepResult
      (m.step watch { l with ip := noted.instrIp } (noted.state (watch (.instr l) trace)))

/-- Instructions one after the other, until the register of the fuel is at zero. -/
def runKept (r : Registers σ) (trace : τ) : Except RuntimeError Value × τ × Registers σ :=
  match _ : r.fuel with
  | 0 => (.error (.fuelExhausted m.limits.fuel), trace, r)
  | fuel + 1 =>
    match m.cycleKept watch { r with fuel := fuel } trace with
    | (.error e, trace, r) => (.error e, trace, r)
    | (.ok (some v), trace, r) => (.ok v, trace, r)
    -- no instruction writes the fuel
    | (.ok none, trace, r) => runKept { r with fuel := fuel } trace
termination_by r.fuel

def unwindKept (r : Registers σ) : Registers σ := r.keep (unwind (r.state ()))

/-- A routine called by the host: the operands are cleared and the fuel is filled up; the other
registers are as they were left. -/
def executeKept (id : RoutineId) (args : List Value) (r : Registers σ) (trace : τ) :
    Except RuntimeError Value × τ × Registers σ :=
  let fresh := { r with operands := .empty, fuel := m.limits.fuel.toNat }
  match fresh.keepResult (m.enter watch id args .host (fresh.state trace)) with
  | (.error e, trace, r) => (.error e, trace, unwindKept r)
  | (.ok (), trace, r) =>
    match m.runKept watch r trace with
    | (.error e, trace, r) => (.error e, trace, unwindKept r)
    | (.ok v, trace, r) => (.ok v, trace, r)

def callFromKept (p : ProcRef) (args : List Value) (r : Registers σ) (trace : τ) :
    Except RuntimeError Value × τ × Registers σ :=
  match p.target with
  | none => (.error .nilProc, trace, r)
  | some (.routine id) =>
    if p.context ≠ 0 then (.error (.routineContext id), trace, r)
    else m.executeKept watch id args r trace
  | some (.native id) => r.keepResult (m.callNative watch id args p.context (r.state trace))

end Machine

/-! ## Runs of states -/

namespace Registers

variable {σ τ α : Type}

/-- The outcome with registers tells what the change of a state comes to. -/
def Tells (k : Except RuntimeError α × τ × Registers σ)
    (r : EStateM.Result RuntimeError (State σ τ) α) : Prop :=
  match r with
  | .ok a s => k.1 = .ok a ∧ k.2.2.state k.2.1 = s
  | .error e s => k.1 = .error e ∧ k.2.2.state k.2.1 = s

theorem tells_keepResult (r : Registers σ) (res : EStateM.Result RuntimeError (State σ τ) α) :
    Tells (r.keepResult res) res := by
  cases res with
  | ok a s => exact ⟨rfl, rfl⟩
  | error e s => exact ⟨rfl, rfl⟩

theorem Tells.finalState {k : Except RuntimeError α × τ × Registers σ}
    {r : EStateM.Result RuntimeError (State σ τ) α} (h : Tells k r) :
    k.2.2.state k.2.1 = Action.finalState r := by
  cases r with
  | ok a s => exact h.2
  | error e s => exact h.2

end Registers

namespace Machine

open Registers ForeignVM.Action

variable {σ τ : Type} (m : Machine σ) (watch : Observer τ)

theorem tells_cycleKept (r : Registers σ) (trace : τ) :
    Tells (m.cycleKept watch r trace) (m.cycle watch (r.state trace)) := by
  have hip : (r.state trace).ip = r.ip := rfl
  rw [cycleKept, cycle_eq, hip]
  cases decodeAt m.program.code r.ip with
  | error e => exact ⟨rfl, rfl⟩
  | ok l => exact tells_keepResult _ _

/-- By induction on the fuel that the register holds. -/
theorem tells_runKept {fuel : Nat} (r : Registers σ) (hfuel : r.fuel = fuel) (trace : τ) :
    Tells (m.runKept watch r trace) (m.run watch fuel (r.state trace)) := by
  induction fuel generalizing r trace with
  | zero =>
    rw [runKept, run]
    split
    · exact ⟨rfl, rfl⟩
    · next h => cases h.symm.trans hfuel
  | succ fuel ih =>
    rw [runKept, run]
    split
    · next h => cases h.symm.trans hfuel
    · next n h =>
      obtain rfl : n = fuel := Nat.succ.inj (h.symm.trans hfuel)
      have hcycle : Tells _ (m.cycle watch (r.state trace)) :=
        m.tells_cycleKept watch { r with fuel := n } trace
      generalize m.cycleKept watch { r with fuel := n } trace = k at hcycle
      obtain ⟨result, trace', next⟩ := k
      cases hc : m.cycle watch (r.state trace) with
      | error e s =>
        rw [hc] at hcycle
        obtain ⟨rfl, rfl⟩ := hcycle
        exact ⟨rfl, rfl⟩
      | ok o s =>
        rw [hc] at hcycle
        obtain ⟨rfl, rfl⟩ := hcycle
        cases o with
        | some v => exact ⟨rfl, rfl⟩
        | none => exact ih { next with fuel := n } rfl trace'

theorem tells_executeKept (id : RoutineId) (args : List Value) (r : Registers σ) (trace : τ) :
    Tells (m.executeKept watch id args r trace) (m.execute watch id args (r.state trace)) := by
  unfold executeKept
  have hstart : m.start watch id args (r.state trace) = m.enter watch id args .host
      (state { r with operands := .empty, fuel := m.limits.fuel.toNat } trace) := rfl
  dsimp only
  rw [← hstart]
  cases hs : m.start watch id args (r.state trace) with
  | error e t =>
    rw [m.execute_of_refused watch hs]
    exact ⟨rfl, rfl⟩
  | ok _ t =>
    rw [m.execute_of_start watch hs]
    have hrun := m.tells_runKept watch
      (keep { r with operands := .empty, fuel := m.limits.fuel.toNat } t) rfl t.trace
    change Tells _ (m.run watch m.limits.fuel.toNat t) at hrun
    simp only [keepResult]
    generalize m.runKept watch _ t.trace = k at hrun
    obtain ⟨result, trace', last⟩ := k
    cases hr : m.run watch m.limits.fuel.toNat t with
    | error e u =>
      rw [hr] at hrun
      obtain ⟨rfl, rfl⟩ := hrun
      exact ⟨rfl, rfl⟩
    | ok v u =>
      rw [hr] at hrun
      obtain ⟨rfl, rfl⟩ := hrun
      exact ⟨rfl, rfl⟩

/-! ## Between calls by the host -/

/-- The registers of a machine that has just been built. -/
def registers (pool : Pool) (host : σ) : Registers σ :=
  ⟨.empty, pool, host, .empty, .empty, 0, 0, m.limits.fuel.toNat⟩

/-- What the registers can be while nothing runs: a machine has been built on any pool, and then
the host has called routines and procs in any way, each call with an observer of its own, and has
changed the memory and the state of the natives. -/
inductive Between : Registers σ → Prop where
  | built (pool : Pool) (host : σ) : Between (m.registers pool host)
  | executed {τ : Type} (watch : Observer τ) (id : RoutineId) (args : List Value) (trace : τ)
      {r : Registers σ} (h : Between r) : Between (m.executeKept watch id args r trace).2.2
  | called {τ : Type} (watch : Observer τ) (p : ProcRef) (args : List Value) (trace : τ)
      {r : Registers σ} (h : Between r) : Between (m.callFromKept watch p args r trace).2.2
  | changed (memory : Memory) (host : σ) {r : Registers σ} (h : Between r) :
      Between { r with memory := memory, host := host }

variable {m}

theorem calls_executeKept (id : RoutineId) (args : List Value) {r : Registers σ}
    (hidle : r.calls = .empty) (trace : τ) :
    (m.executeKept watch id args r trace).2.2.calls = .empty := by
  obtain ⟨u, _, hu⟩ := m.execute_walk watch id args (s := r.state trace) hidle
  have htells := (m.tells_executeKept watch id args r trace).finalState
  rw [hu] at htells
  exact congrArg State.calls htells

theorem calls_callNative (id : NativeId) (args : List Value) (context : UInt64) (s : State σ τ) :
    (finalState (m.callNative watch id args context s)).calls = s.calls := by
  obtain ⟨e, h⟩ | ⟨t, outcome, hrun, h⟩ := m.callNative_cases watch id args context s
  · rw [h]
    rfl
  · rw [h]
    cases outcome with
    | ok v => exact hrun.calls
    | error e => exact hrun.calls

/-- Each call by the host, however it ends, has closed all calls. -/
theorem Between.idle {r : Registers σ} (h : m.Between r) : r.calls = .empty := by
  induction h with
  | built pool host => rfl
  | executed watch id args trace _ ih => exact calls_executeKept watch id args ih trace
  | @called τ watch p args trace r _ ih =>
    unfold callFromKept
    split
    · exact ih
    · split
      · exact ih
      · exact calls_executeKept watch _ args ih trace
    · next id _ =>
      have htells := tells_keepResult r (m.callNative watch id args p.context (r.state trace))
      have hcalls := congrArg State.calls htells.finalState
      exact hcalls.trans ((calls_callNative watch id args p.context _).trans ih)
  | changed memory host _ ih => exact ih

end Machine
end ForeignVM
