import ForeignVM.Machine.State

/-!
# ForeignVM.Machine.Call

Calls and returns. A call allocates a block for the locals of the routine, stores the arguments
in the leading ones, and sets the address to the entry; the return releases the block.

* `enter`      — a call of a routine.
* `leave`      — the return from the current frame.
* `constGet`   — the value of a constant, or a call of its initializer.
* `callNative` — a call of a procedure of the host.
* `callProc`   — a call through a proc value.
-/

namespace ForeignVM
namespace Machine

open ForeignVM.Action

variable {σ τ : Type} (m : Machine σ) (watch : Observer τ)

def callee (id : RoutineId) : Action σ τ Callee :=
  match m.callee? id with
  | some c => pure c
  | none => throw (.unknownRoutine id)

def shape (ty : TypeId) : Action σ τ Shape := check .type (m.layouts.shape ty)

/-- Stores arguments into the leading slots of a block of locals, which is released if one of them
does not fit its slot. -/
def storeArgs (locals : UInt64) : List Slot → List Value → Action σ τ Unit
  | slot :: slots, arg :: args => do
    let address ← check .memory (Address.advance locals slot.offset)
    let _ ← check .memory ((← get).memory.blockAt address slot.shape.size)
    match slot.shape.encode arg with
    | .ok bytes =>
      setMemory (← check .memory ((← get).memory.write address bytes))
      storeArgs locals slots args
    | .error e =>
      release locals
      throw e
  | _, _ => pure ()

/-- Allocates the block of a frame and stores the arguments. -/
def newLocals (frame : FrameLayout) (args : List Value) : Action σ τ UInt64 := do
  let locals ← allocate frame.size
  storeArgs locals frame.slots.toList args
  pure locals

def enter (id : RoutineId) (args : List Value) (kind : FrameKind) : Action σ τ Unit := do
  let c ← m.callee id
  if m.limits.recursion.toNat ≤ (← get).calls.depth then
    throw (.recursionLimit m.limits.recursion)
  let expected := c.routine.params.toNat
  if args.length ≠ expected then
    throw (.arityMismatch c.routine.name expected args.length)
  let locals ← newLocals c.frame args
  modify fun s =>
    { s with
      calls := s.calls.push ⟨id, kind, s.ip, locals, s.operands.height⟩
      ip := c.routine.entry }
  emit watch (.called id)

/-- The result of a routine, converted to its type. -/
def result (ip : UInt32) : Option TypeId → Action σ τ Value
  | some ty => do
    let v ← pop ip
    ofResult ((← m.shape ty).coerce v)
  | none => pure .void

/-- Puts the value of a constant that has just been computed into the pool. -/
def storeConstant (offset : UInt32) (v : Value) : Action σ τ Value := do
  let entry ← check .pool ((← get).pool.entry offset)
  let s ← m.shape entry.ty
  let bytes ← ofResult (s.encode v)
  changePool (·.store offset bytes)
  emit watch (.constReady offset)
  pure (s.decode bytes)

/-- Hands the result of a frame to the frame below it. -/
def deliver (v : Value) : FrameKind → Action σ τ Unit
  | .host => pure ()
  | .call =>
    match v with
    | .void => pure ()
    | v => push v
  | .procCall none => pure ()
  | .procCall (some ty) => do push (← ofResult ((← m.shape ty).coerce v))
  | .constant offset => do push (← m.storeConstant watch offset v)

/-- Returns from the current frame; if the host entered it, its result ends the run. -/
def leave (ip : UInt32) : Action σ τ (Option Value) := do
  match (← get).calls.current? with
  | none => throw (.stackUnderflow ip)
  | some frame =>
    let c ← m.callee frame.routine
    let v ← m.result ip c.routine.ret
    modify fun s => { s with calls := s.calls.tail, operands := s.operands.cut frame.base }
    release frame.locals
    emit watch (.returned v)
    match frame.kind with
    | .host => pure (some v)
    | kind => do
      m.deliver watch v kind
      jump frame.returnIp
      pure none

def constGet (offset : UInt32) : Action σ τ Unit := do
  let pool := (← get).pool
  if ← check .pool (pool.isInitialized offset) then
    let entry ← check .pool (pool.entry offset)
    let s ← m.shape entry.ty
    let bytes ← check .pool (pool.data offset)
    emit watch (.constHit offset)
    push (s.decode bytes)
  else
    let initializer ← check .pool (pool.initializer offset)
    emit watch (.constInit offset)
    m.enter watch initializer [] (.constant offset)

def callNative (id : NativeId) (args : List Value) (context : UInt64) : Action σ τ Value := do
  match m.native? id with
  | none => throw (.unknownNative ("#" ++ toString id.position))
  | some (name, native) =>
    emit watch (.native id)
    let s ← get
    let (outcome, memory, host) := native ⟨name, args, context, m.layouts⟩ s.memory s.host
    set { s with memory := memory, host := host }
    ofResult outcome

/-- Converts arguments to the types of the parameters. -/
def coerceArgs : List Shape → List Value → Except RuntimeError (List Value)
  | s :: shapes, arg :: args => do
    let v ← s.coerce arg
    let rest ← coerceArgs shapes args
    pure (v :: rest)
  | _, _ => pure []

/-- Calls what a proc refers to; the shape is that of the expected result. -/
def callTarget (p : ProcRef) (args : List Value) (ret : Option TypeId) (shape? : Option Shape) :
    Action σ τ Unit :=
  match p.target with
  | none => throw .nilProc
  | some (.routine id) =>
    if p.context ≠ 0 then throw (.routineContext id)
    else m.enter watch id args (.procCall ret)
  | some (.native id) => do
    let v ← m.callNative watch id args p.context
    match shape? with
    | some s => push (← ofResult (s.coerce v))
    | none => pure ()

/-- Calls the proc that lies below the arguments. -/
def callProc (ip : UInt32) (ty : TypeId) : Action σ τ Unit := do
  let (params, ret) ← check .type (m.layouts.types.signature ty)
  let shapes ← check .type (params.mapM m.layouts.shape)
  let shape? ← check .type (ret.mapM m.layouts.shape)
  let raw ← popMany ip shapes.length
  let p ← popProc ip
  let args ← ofResult (coerceArgs shapes raw)
  m.callTarget watch p args ret shape?

end Machine
end ForeignVM
