import ForeignVM.Code.Cast
import ForeignVM.Machine.Call
import ForeignVM.Value.Aggregate

/-!
# ForeignVM.Machine.Step

What each instruction does.

* `Arithmetic.apply`, `Value.less`, `Value.castTo` — operators on values.
* `Machine.step`                                  — one instruction; the return to the host
  gives the result of the run.
-/

namespace ForeignVM

inductive Arithmetic where
  | add
  | sub
  | mul
  deriving DecidableEq, Repr

namespace Arithmetic

/-- Integers wrap. Both operands have to be of one kind. -/
def apply : Arithmetic → Value → Value → Except RuntimeError Value
  | .add, .int a, .int b => .ok (.int (a + b))
  | .sub, .int a, .int b => .ok (.int (a - b))
  | .mul, .int a, .int b => .ok (.int (a * b))
  | .add, .uint a, .uint b => .ok (.uint (a + b))
  | .sub, .uint a, .uint b => .ok (.uint (a - b))
  | .mul, .uint a, .uint b => .ok (.uint (a * b))
  | .add, .float a, .float b => .ok (.float (a.add b))
  | .sub, .float a, .float b => .ok (.float (a.sub b))
  | .mul, .float a, .float b => .ok (.float (a.mul b))
  | _, a, b => .error (b.mismatch a.kindName)

end Arithmetic

namespace Value

def less : Value → Value → Except RuntimeError Bool
  | .int a, .int b => .ok (decide (a < b))
  | .uint a, .uint b => .ok (decide (a < b))
  | .float a, .float b => .ok (a.less b)
  | a, b => .error (b.mismatch a.kindName)

/-- Equality of values of one kind. -/
def same (a b : Value) : Except RuntimeError Bool :=
  if a.sameKind b then .ok (a.equal b) else .error (b.mismatch a.kindName)

/-- Whether a value can be what a cast converts from. -/
def isOfKind : Value → ScalarKind → Bool
  | .bool _, k => k = .bool
  | .int _, k => k.isSigned && !k.isFloat
  | .uint _, k => !k.isSigned && k ≠ .bool
  | .float _, k => k.isFloat
  | _, _ => false

def castTo (v : Value) (source target : ScalarKind) : Except RuntimeError Value :=
  if v.isOfKind source then (Shape.scalar target).coerce v
  else .error (v.mismatch source.name)

/-- The word that becomes the context of a closure. -/
def contextWord? : Value → Option UInt64
  | .pointer p => some p.address
  | v => v.int64?.map Int64.toUInt64

end Value

namespace Machine

open ForeignVM.Action

variable {σ τ : Type} (m : Machine σ) (watch : Observer τ)

/-- The address and the slot of a local of the current frame. -/
def localSlot (ip : UInt32) (i : UInt16) : Action σ τ (UInt64 × Slot) := do
  match (← get).calls.current? with
  | none => throw (.stackUnderflow ip)
  | some frame =>
    let c ← m.callee frame.routine
    match c.frame.slots[i.toNat]? with
    | none => throw (.unknownLocal c.routine.name i)
    | some slot =>
      let address ← check .memory (Address.advance frame.locals slot.offset)
      pure (address, slot)

/-- Replaces the upper two operands. -/
def binary (ip : UInt32) (f : Value → Value → Except RuntimeError Value) : Action σ τ Unit := do
  let b ← pop ip
  let a ← pop ip
  push (← ofResult (f a b))

/-- The number of bytes that `count` values of a type take. -/
def allocationSize (ty : TypeId) (count : UInt32) : Except RuntimeError Nat :=
  match m.layouts.sizeOf ty with
  | .error e => .error (.type e)
  | .ok size =>
    let total := size * count.toNat
    if total < 2 ^ 64 then .ok total else .error (.memory (.allocationTooLarge (2 ^ 64 - 1)))

def malloc (ty : TypeId) (count : UInt32) : Action σ τ Unit := do
  let size ← ofResult (m.allocationSize ty count)
  let address ← allocate size
  emit watch (.allocated address size)
  push (.pointer ⟨address, ty⟩)

def fieldAddr (ip : UInt32) (ty : TypeId) (field : UInt16) : Action σ τ Unit := do
  let p ← popPointer ip
  if p.pointee ≠ ty then throw ((Value.pointer p).mismatch (ty.text ++ "*"))
  push (.pointer (← ofResult (p.field m.layouts field)))

def ptrIndex (ip : UInt32) (ty : TypeId) : Action σ τ Unit := do
  let index ← pop ip
  match index.int64? with
  | none => throw (index.mismatch "integer")
  | some i =>
    let p ← popPointer ip
    push (.pointer (← ofResult (Pointer.index ⟨p.address, ty⟩ m.layouts i)))

def nativeRef (id : NativeId) (ty : TypeId) : Action σ τ Unit := do
  if (m.native? id).isNone then throw (.unknownNative ("#" ++ toString id.position))
  let _ ← check .type (m.layouts.types.signature ty)
  push (.proc (.native id))

def procContext (ip : UInt32) : Action σ τ Unit := do
  let v ← pop ip
  match v.contextWord? with
  | none => throw (v.mismatch "context word")
  | some context =>
    let p ← popProc ip
    push (.proc { p with context := context })

def cast (ip : UInt32) (kinds : UInt8) : Action σ τ Unit := do
  match Cast.unpack? kinds with
  | none => throw (.invalidCast kinds)
  | some (source, target) =>
    let v ← pop ip
    push (← ofResult (v.castTo source target))

/-- The effect of an instruction after which the same run goes on; a return is left to `step`. -/
def perform (ip : UInt32) : Instr → Action σ τ Unit
  | .nop | .ret => pure ()
  | .pushI64 v => push (.int v)
  | .pushU64 v => push (.uint v)
  | .pushF64 x => push (.float x)
  | .pushBool b => push (.bool (b ≠ 0))
  | .pushZero ty => do push (← m.shape ty).zero
  | .pop => do let _ ← pop ip
  | .dup => do
    let v ← pop ip
    push v
    push v
  | .swap => do
    let b ← pop ip
    let a ← pop ip
    push b
    push a
  | .localGet i => do
    let (address, slot) ← m.localSlot ip i
    push (← load address slot.shape)
  | .localSet i => do
    let v ← pop ip
    let (address, slot) ← m.localSlot ip i
    store address slot.shape v
  | .localAddr i => do
    let (address, slot) ← m.localSlot ip i
    push (.pointer ⟨address, slot.ty⟩)
  | .add => binary ip Arithmetic.add.apply
  | .sub => binary ip Arithmetic.sub.apply
  | .mul => binary ip Arithmetic.mul.apply
  | .lt => binary ip fun a b => (a.less b).map .bool
  | .eq => binary ip fun a b => (a.same b).map .bool
  | .not => do push (.bool !(← popBool ip))
  | .cast kinds => cast ip kinds
  | .jump target => Action.jump target
  | .jumpIfFalse target => do
    if !(← popBool ip) then Action.jump target
  | .call id => do
    let c ← m.callee id
    let args ← popMany ip c.routine.params.toNat
    m.enter watch id args .call
  | .constGet offset => m.constGet watch offset
  | .fieldGet ty field => do
    let a ← popAggregate m.layouts.types ip ty
    push (← ofResult (a.get field))
  | .fieldSet ty field => do
    let v ← pop ip
    let a ← popAggregate m.layouts.types ip ty
    push (.aggregate (← ofResult (a.set field v)))
  | .fieldAddr ty field => m.fieldAddr ip ty field
  | .load ty => do
    let p ← popPointer ip
    push (← load p.address (← m.shape ty))
  | .store ty => do
    let v ← pop ip
    let p ← popPointer ip
    store p.address (← m.shape ty) v
  | .malloc ty count => m.malloc watch ty count
  | .ptrIndex ty => m.ptrIndex ip ty
  | .procRef id ty => do
    let _ ← m.callee id
    let _ ← check .type (m.layouts.types.signature ty)
    push (.proc (.routine id))
  | .nativeRef id ty => m.nativeRef id ty
  | .procContext => procContext ip
  | .callProc ty => m.callProc watch ip ty

/-- Executes an instruction; a result ends the run. -/
def step (l : Located) : Action σ τ (Option Value) :=
  match l.instr with
  | .ret => m.leave watch l.ip
  | i => do
    m.perform watch l.ip i
    pure none

end Machine
end ForeignVM
