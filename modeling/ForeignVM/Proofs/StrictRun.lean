import ForeignVM.Machine.Run
import ForeignVM.Proofs.Accessors
import ForeignVM.Proofs.StrictStorage

/-!
# ForeignVM.Proofs.StrictRun

The machine on a host that checks its own steps. What a run looks up by an index it has not looked
at, takes out of a byte string or copies, is looked up, taken and copied in the strict way. The
instructions that do none of this, and all errors, are those of the plain machine.

A run that is stuck in a name without end is so on this host, too. Left out is room: byte strings
are as long as they are asked to be.

* `Strict`                  — actions that may also end in a panic; `plainly`, `fail` and `ask` make
  them of actions, errors and partial results.
* `enterStrict`, `leaveStrict`, `constGetStrict`, `callProcStrict` — calls and returns.
* `performStrict`, `stepStrict`, `cycleStrict` — instructions.
* `runStrict`, `executeStrict`, `callFromStrict` — whole runs.
-/

namespace ForeignVM

/-- An action that fails with an error, or ends in a panic. -/
abbrev Strict (σ τ α : Type) := EStateM Fault (State σ τ) α

section

variable {σ τ α : Type}

/-- A result in which there has been no panic. -/
def calm : EStateM.Result RuntimeError (State σ τ) α → EStateM.Result Fault (State σ τ) α
  | .ok a s => .ok a s
  | .error e s => .error (.error e) s

namespace Strict

/-- A plain action. -/
def plainly (a : Action σ τ α) : Strict σ τ α := fun s => calm (a s)

def fail (e : RuntimeError) : Strict σ τ α := throw (.error e)

def ask : Except Fault α → Strict σ τ α
  | .ok a => pure a
  | .error e => throw e

instance : MonadLift (Except Fault) (EStateM Fault (State σ τ)) := ⟨ask⟩

end Strict

end

namespace Action

open ForeignVM.Strict

variable {σ τ : Type}

/-- Takes the upper `n` operands; they are cut off in one piece. -/
def popManyStrict (ip : UInt32) (n : Nat) : Strict σ τ (List Value) := do
  let s ← get
  if s.operands.height < s.calls.base + n then fail (.stackUnderflow ip)
  let taken ← Panic.front n s.operands.values
  set { s with operands := s.operands.drop n }
  pure taken.reverse

def loadStrict (address : UInt64) (s : Shape) : Strict σ τ Value := do
  (← get).memory.loadStrict address s

def storeStrict (address : UInt64) (s : Shape) (v : Value) : Strict σ τ Unit := do
  plainly (setMemory (← (← get).memory.storeStrict address s v))

def changePoolStrict (change : Pool → Except Fault Pool) : Strict σ τ Unit := do
  let pool ← change (← get).pool
  modify fun s => { s with pool := pool }

def releaseStrict (address : UInt64) : Strict σ τ Unit := do
  plainly (setMemory (← (← get).memory.freeStrict address))

end Action

namespace Machine

open ForeignVM.Action ForeignVM.Strict

variable {σ τ : Type} (m : Machine σ) (watch : Observer τ)

/-! ## Calls and returns -/

/-- The routine of a number, which may be any. -/
def routineStrict (id : RoutineId) : Strict σ τ Routine :=
  match m.program.routines[id.position]? with
  | some r => pure r
  | none => fail (.unknownRoutine id)

/-- The frame of a routine, which is there if the routine is. -/
def frameStrict (id : RoutineId) : Strict σ τ FrameLayout := do
  return (← Panic.element m.callees.toList id.position).frame

def storeArgsStrict (locals : UInt64) : List Slot → List Value → Strict σ τ Unit
  | slot :: slots, arg :: args => do
    let address ← plainly (check .memory (Address.advance locals slot.offset))
    let place ← (← get).memory.readStrict address slot.shape.size
    match slot.shape.writeStrict arg place with
    | .ok bytes =>
      plainly (setMemory (← (← get).memory.writeStrict address bytes))
      storeArgsStrict locals slots args
    | .error (.error e) =>
      releaseStrict locals
      fail e
    | .error (.panic p) => throw (.panic p)
  | _, _ => pure ()

def newLocalsStrict (frame : FrameLayout) (args : List Value) : Strict σ τ UInt64 := do
  let locals ← plainly (allocate frame.size)
  storeArgsStrict locals frame.slots.toList args
  pure locals

def enterStrict (id : RoutineId) (args : List Value) (kind : FrameKind) : Strict σ τ Unit := do
  let r ← m.routineStrict id
  if m.limits.recursion.toNat ≤ (← get).calls.depth then
    fail (.recursionLimit m.limits.recursion)
  let expected := r.params.toNat
  if args.length ≠ expected then
    fail (.arityMismatch r.name expected args.length)
  let locals ← newLocalsStrict (← m.frameStrict id) args
  modify fun s =>
    { s with
      calls := s.calls.push ⟨id, kind, s.ip, locals, s.operands.height⟩
      ip := r.entry }
  plainly (emit watch (.called id))

def resultStrict (ip : UInt32) : Option TypeId → Strict σ τ Value
  | some ty => do
    let v ← plainly (pop ip)
    let s ← plainly (m.shape ty)
    s.coerceStrict v
  | none => pure .void

def storeConstantStrict (offset : UInt32) (v : Value) : Strict σ τ Value := do
  let entry ← (← get).pool.entryStrict offset
  let s ← plainly (m.shape entry.ty)
  let bytes ← s.writeStrict v (List.replicate s.size 0)
  changePoolStrict (·.storeStrict offset bytes)
  plainly (emit watch (.constReady offset))
  s.readStrict bytes

def deliverStrict (v : Value) : FrameKind → Strict σ τ Unit
  | .host => pure ()
  | .call =>
    match v with
    | .void => pure ()
    | v => plainly (push v)
  | .procCall none => pure ()
  | .procCall (some ty) => do
    let s ← plainly (m.shape ty)
    plainly (push (← s.coerceStrict v))
  | .constant offset => do plainly (push (← m.storeConstantStrict watch offset v))

def leaveStrict (ip : UInt32) : Strict σ τ (Option Value) := do
  match (← get).calls.current? with
  | none => fail (.stackUnderflow ip)
  | some frame =>
    let r ← m.routineStrict frame.routine
    let v ← m.resultStrict ip r.ret
    modify fun s => { s with calls := s.calls.tail, operands := s.operands.cut frame.base }
    releaseStrict frame.locals
    plainly (emit watch (.returned v))
    match frame.kind with
    | .host => pure (some v)
    | kind => do
      m.deliverStrict watch v kind
      plainly (jump frame.returnIp)
      pure none

def constGetStrict (offset : UInt32) : Strict σ τ Unit := do
  let pool := (← get).pool
  if ← pool.isInitializedStrict offset then
    let entry ← pool.entryStrict offset
    let s ← plainly (m.shape entry.ty)
    let v ← s.readStrict (← pool.dataStrict offset)
    plainly (emit watch (.constHit offset))
    plainly (push v)
  else
    let initializer ← pool.initializerStrict offset
    plainly (emit watch (.constInit offset))
    m.enterStrict watch initializer [] (.constant offset)

/-- The name of a native is looked up where the program lists its natives. -/
def callNativeStrict (id : NativeId) (args : List Value) (context : UInt64) : Strict σ τ Value := do
  match m.native? id with
  | none => fail (.unknownNative ("#" ++ toString id.position))
  | some (_, native) =>
    let name ← Panic.element m.program.natives.toList id.position
    plainly (emit watch (.native id))
    let s ← get
    let (outcome, memory, host) := native ⟨name, args, context, m.layouts⟩ s.memory s.host
    set { s with memory := memory, host := host }
    outcome

def coerceArgsStrict : List Shape → List Value → Except Fault (List Value)
  | s :: shapes, arg :: args => do
    let v ← s.coerceStrict arg
    let rest ← coerceArgsStrict shapes args
    pure (v :: rest)
  | _, _ => pure []

def callTargetStrict (p : ProcRef) (args : List Value) (ret : Option TypeId)
    (shape? : Option Shape) : Strict σ τ Unit :=
  match p.target with
  | none => fail .nilProc
  | some (.routine id) =>
    if p.context ≠ 0 then fail (.routineContext id)
    else m.enterStrict watch id args (.procCall ret)
  | some (.native id) => do
    let v ← m.callNativeStrict watch id args p.context
    match shape? with
    | some s => plainly (push (← s.coerceStrict v))
    | none => pure ()

def callProcStrict (ip : UInt32) (ty : TypeId) : Strict σ τ Unit := do
  let (params, ret) ← plainly (check .type (m.layouts.types.signature ty))
  let shapes ← plainly (check .type (params.mapM m.layouts.shape))
  let shape? ← plainly (check .type (ret.mapM m.layouts.shape))
  let raw ← popManyStrict ip shapes.length
  let p ← plainly (popProc ip)
  let args ← coerceArgsStrict shapes raw
  m.callTargetStrict watch p args ret shape?

/-! ## Instructions -/

def localSlotStrict (ip : UInt32) (i : UInt16) : Strict σ τ (UInt64 × Slot) := do
  match (← get).calls.current? with
  | none => fail (.stackUnderflow ip)
  | some frame =>
    let layout ← m.frameStrict frame.routine
    match layout.slots[i.toNat]? with
    | none =>
      let r ← m.routineStrict frame.routine
      fail (.unknownLocal r.name i)
    | some slot =>
      let address ← plainly (check .memory (Address.advance frame.locals slot.offset))
      pure (address, slot)

def castStrict (ip : UInt32) (kinds : UInt8) : Strict σ τ Unit := do
  match Cast.unpack? kinds with
  | none => fail (.invalidCast kinds)
  | some (source, target) =>
    let v ← plainly (pop ip)
    if v.isOfKind source then plainly (push (← (Shape.scalar target).coerceStrict v))
    else fail (v.mismatch source.name)

/-- An instruction that is not listed takes operands, computes and gives operands, and all it looks
at it has asked for before. -/
def performStrict (ip : UInt32) : Instr → Strict σ τ Unit
  | .pushZero ty => do
    let s ← plainly (m.shape ty)
    plainly (push (← s.zeroStrict))
  | .localGet i => do
    let (address, slot) ← m.localSlotStrict ip i
    plainly (push (← loadStrict address slot.shape))
  | .localSet i => do
    let v ← plainly (pop ip)
    let (address, slot) ← m.localSlotStrict ip i
    storeStrict address slot.shape v
  | .localAddr i => do
    let (address, slot) ← m.localSlotStrict ip i
    plainly (push (.pointer ⟨address, slot.ty⟩))
  | .cast kinds => castStrict ip kinds
  | .call id => do
    let r ← m.routineStrict id
    let args ← popManyStrict ip r.params.toNat
    m.enterStrict watch id args .call
  | .constGet offset => m.constGetStrict watch offset
  | .fieldGet ty field => do
    let a ← plainly (popAggregate m.layouts.types ip ty)
    plainly (push (← a.getStrict field))
  | .fieldSet ty field => do
    let v ← plainly (pop ip)
    let a ← plainly (popAggregate m.layouts.types ip ty)
    plainly (push (.aggregate (← a.setStrict field v)))
  | .load ty => do
    let p ← plainly (popPointer ip)
    plainly (push (← loadStrict p.address (← plainly (m.shape ty))))
  | .store ty => do
    let v ← plainly (pop ip)
    let p ← plainly (popPointer ip)
    storeStrict p.address (← plainly (m.shape ty)) v
  | .procRef id ty => do
    let _ ← m.routineStrict id
    let _ ← plainly (check .type (m.layouts.types.signature ty))
    plainly (push (.proc (.routine id)))
  | .callProc ty => m.callProcStrict watch ip ty
  | i => plainly (m.perform watch ip i)

def stepStrict (l : Located) : Strict σ τ (Option Value) :=
  match l.instr with
  | .ret => m.leaveStrict watch l.ip
  | i => do
    m.performStrict watch l.ip i
    pure none

/-! ## Runs -/

def cycleStrict : Strict σ τ (Option Value) := do
  let l ← decodeStrict m.program.code (← get).ip
  plainly (emit watch (.instr l))
  plainly (jump l.next)
  m.stepStrict watch l

def runStrict : Nat → State σ τ → EStateM.Result Fault (State σ τ) Value
  | 0, s => .error (.error (.fuelExhausted m.limits.fuel)) s
  | fuel + 1, s =>
    match m.cycleStrict watch s with
    | .error e s => .error e s
    | .ok (some v) s => .ok v s
    | .ok none s => runStrict fuel s

def releaseFramesStrict : List Frame → Memory → Except Panic Memory
  | [], memory => .ok memory
  | f :: rest, memory =>
    match memory.freeStrict f.locals with
    | .ok memory => releaseFramesStrict rest memory
    | .error (.error _) => releaseFramesStrict rest memory
    | .error (.panic p) => .error p

/-- What a failed run ends with; after a panic nothing more is done. -/
def unwindStrict : Fault → State σ τ → EStateM.Result Fault (State σ τ) Value
  | .panic p, s => .error (.panic p) s
  | .error e, s =>
    match releaseFramesStrict s.calls.frames s.memory with
    | .ok memory => .error (.error e) { s with
        memory := memory
        calls := .empty
        operands := .empty }
    | .error p => .error (.panic p) s

def executeStrict (id : RoutineId) (args : List Value) (s : State σ τ) :
    EStateM.Result Fault (State σ τ) Value :=
  match m.enterStrict watch id args .host { s with operands := .empty } with
  | .error e s => unwindStrict e s
  | .ok () s =>
    match m.runStrict watch m.limits.fuel.toNat s with
    | .error e s => unwindStrict e s
    | .ok v s => .ok v s

def callFromStrict (p : ProcRef) (args : List Value) (s : State σ τ) :
    EStateM.Result Fault (State σ τ) Value :=
  match p.target with
  | none => .error (.error .nilProc) s
  | some (.routine id) =>
    if p.context ≠ 0 then .error (.error (.routineContext id)) s
    else m.executeStrict watch id args s
  | some (.native id) => m.callNativeStrict watch id args p.context s

end Machine
end ForeignVM
