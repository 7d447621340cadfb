import ForeignVM.Code.Instr
import ForeignVM.Machine.Basic
import ForeignVM.Pool.Basic

/-!
# ForeignVM.Machine.State

The state of a run and the elementary actions on it. All calls share one stack of operands; each
frame remembers how high it was at the entry, and takes nothing from below.

* `Operands`           — the stack of operands.
* `Frame`, `CallStack` — the calls that have not returned, innermost first.
* `Event`              — what an observer is told about a run.
* `State`              — memory, pool, state of the natives, calls, operands, address and trace.
* `Action`             — a change of the state that has a result or fails.
-/

namespace ForeignVM

/-- The operands of all calls, the top first. -/
structure Operands where
  values : List Value
  height : Nat
  height_eq : height = values.length

namespace Operands

def empty : Operands := ⟨[], 0, rfl⟩

def push (o : Operands) (v : Value) : Operands :=
  ⟨v :: o.values, o.height + 1, by rw [o.height_eq, List.length_cons]⟩

/-- The operands without the upper `n`. -/
def drop (o : Operands) (n : Nat) : Operands :=
  ⟨o.values.drop n, o.height - n, by rw [o.height_eq, List.length_drop]⟩

/-- The lowest `height` operands. -/
def cut (o : Operands) (height : Nat) : Operands := o.drop (o.height - height)

end Operands

/-- Why a frame was entered, which settles what becomes of its result. -/
inductive FrameKind where
  | host
  | call
  | procCall (ret : Option TypeId)
  | constant (offset : UInt32)
  deriving DecidableEq, Repr

/-- A call that has not returned; `base` is the height of the operands at its entry. -/
structure Frame where
  routine : RoutineId
  kind : FrameKind
  returnIp : UInt32
  locals : UInt64
  base : Nat

structure CallStack where
  frames : List Frame
  depth : Nat
  depth_eq : depth = frames.length

namespace CallStack

def empty : CallStack := ⟨[], 0, rfl⟩

def push (c : CallStack) (f : Frame) : CallStack :=
  ⟨f :: c.frames, c.depth + 1, by rw [c.depth_eq, List.length_cons]⟩

def current? (c : CallStack) : Option Frame := c.frames.head?

/-- The height below which the current frame takes no operand. -/
def base (c : CallStack) : Nat :=
  match c.current? with
  | some f => f.base
  | none => 0

/-- The calls without the innermost. -/
def tail (c : CallStack) : CallStack :=
  ⟨c.frames.tail, c.depth - 1, by rw [c.depth_eq, List.length_tail]⟩

end CallStack

inductive Event where
  | instr (located : Located)
  | called (routine : RoutineId)
  | returned (value : Value)
  | constInit (offset : UInt32)
  | constReady (offset : UInt32)
  | constHit (offset : UInt32)
  | native (id : NativeId)
  | allocated (address : UInt64) (size : Nat)

/-- How events change a trace. -/
abbrev Observer (τ : Type) := Event → τ → τ

namespace Observer

def silent {τ : Type} : Observer τ := fun _ t => t

/-- Keeps all events, the last one first. -/
def recorder : Observer (List Event) := fun e events => e :: events

end Observer

structure State (σ τ : Type) where
  memory : Memory
  pool : Pool
  host : σ
  calls : CallStack
  operands : Operands
  ip : UInt32
  trace : τ

namespace State

variable {σ τ : Type}

/-- A state in which nothing runs. -/
def idle (memory : Memory) (pool : Pool) (host : σ) (trace : τ) : State σ τ :=
  ⟨memory, pool, host, .empty, .empty, 0, trace⟩

def withTrace {υ : Type} (s : State σ τ) (trace : υ) : State σ υ := { s with trace := trace }

end State

/-- A change of the state. What has been done before a failure stays done. -/
abbrev Action (σ τ α : Type) := EStateM RuntimeError (State σ τ) α

namespace Action

variable {σ τ α ε : Type}

/-- The result of a computation that does not touch the state. -/
def check (cause : ε → RuntimeError) : Except ε α → Action σ τ α
  | .ok a => pure a
  | .error e => throw (cause e)

def ofResult : Except RuntimeError α → Action σ τ α := check fun e => e

def emit (watch : Observer τ) (e : Event) : Action σ τ Unit :=
  modify fun s => { s with trace := watch e s.trace }

def jump (ip : UInt32) : Action σ τ Unit := modify fun s => { s with ip := ip }

def setMemory (memory : Memory) : Action σ τ Unit := modify fun s => { s with memory := memory }

def changePool (change : Pool → Pool.Result α) : Action σ τ α := fun s =>
  match change s.pool with
  | .ok a pool => .ok a { s with pool := pool }
  | .error cause pool => .error (.pool cause) { s with pool := pool }

def push (v : Value) : Action σ τ Unit :=
  modify fun s => { s with operands := s.operands.push v }

/-- Takes the top operand of the current frame; `ip` is the address of the instruction. -/
def pop (ip : UInt32) : Action σ τ Value := do
  let s ← get
  if s.operands.height ≤ s.calls.base then throw (.stackUnderflow ip)
  match s.operands.values with
  | v :: _ =>
    set { s with operands := s.operands.drop 1 }
    pure v
  | [] => throw (.stackUnderflow ip)

/-- Takes the upper `n` operands, the lowest of them first. -/
def popMany (ip : UInt32) (n : Nat) : Action σ τ (List Value) := do
  let s ← get
  if s.operands.height < s.calls.base + n then throw (.stackUnderflow ip)
  set { s with operands := s.operands.drop n }
  pure (s.operands.values.take n).reverse

def popPointer (ip : UInt32) : Action σ τ Pointer := do
  match ← pop ip with
  | .pointer p => pure p
  | other => throw (other.mismatch "pointer")

def popProc (ip : UInt32) : Action σ τ ProcRef := do
  match ← pop ip with
  | .proc p => pure p
  | other => throw (other.mismatch "proc")

def popBool (ip : UInt32) : Action σ τ Bool := do
  match ← pop ip with
  | .bool b => pure b
  | other => throw (other.mismatch "bool")

/-- The error of an operand that is not an aggregate of the type. Its message names the type; a
name without an end is never made. -/
def notOfType (types : TypeTable) (ty : TypeId) (v : Value) : RuntimeError :=
  match types.name? ty with
  | some name => v.mismatch name
  | none => .abort (.endlessName ty)

/-- Takes an aggregate of one type. -/
def popAggregate (types : TypeTable) (ip : UInt32) (ty : TypeId) : Action σ τ Aggregate := do
  match ← pop ip with
  | .aggregate a => if a.ty = ty then pure a else throw (notOfType types ty (.aggregate a))
  | other => throw (notOfType types ty other)

def load (address : UInt64) (s : Shape) : Action σ τ Value := do
  ofResult ((← get).memory.load address s)

def store (address : UInt64) (s : Shape) (v : Value) : Action σ τ Unit := do
  setMemory (← ofResult ((← get).memory.store address s v))

def allocate (size : Nat) : Action σ τ UInt64 := do
  let (address, memory) ← check .memory ((← get).memory.alloc size)
  setMemory memory
  pure address

def release (address : UInt64) : Action σ τ Unit := do
  setMemory (← check .memory ((← get).memory.free address))

end Action
end ForeignVM
