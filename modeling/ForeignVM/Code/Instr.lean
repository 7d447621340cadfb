import ForeignVM.Code.Opcode
import ForeignVM.Float.Double
import ForeignVM.Types.Id

/-!
# ForeignVM.Code.Instr

Instructions with operands of their own types, and their encoding.

* `Instr`             — one constructor per opcode.
* `Instr.ofOperands`  — the instruction of an opcode and an operand list that fits the table.
* `Instr.encode`      — tag byte and operands.
* `decodeAt`          — the instruction at an address of the code.
* `decodeAll`         — all instructions from address zero on, up to the end or an error.
-/

namespace ForeignVM

inductive CodecError where
  | operandCount (opcode : Opcode) (got : Nat)
  | operandType (opcode : Opcode) (slot : OperandSlot) (got : OperandType)
  | unknownOpcode (ip : UInt32) (byte : UInt8)
  | truncated (ip : UInt32) (needed available : Nat)
  | unboundLabel (label : Nat)
  deriving DecidableEq, Repr

inductive Instr where
  | nop
  | pushI64 (value : Int64)
  | pushU64 (value : UInt64)
  | pushF64 (value : Double)
  | pushBool (value : UInt8)
  | pushZero (ty : TypeId)
  | pop
  | dup
  | swap
  | localGet (slot : UInt16)
  | localSet (slot : UInt16)
  | localAddr (slot : UInt16)
  | add
  | sub
  | mul
  | lt
  | eq
  | not
  | cast (kinds : UInt8)
  | jump (target : UInt32)
  | jumpIfFalse (target : UInt32)
  | call (routine : RoutineId)
  | ret
  | constGet (offset : UInt32)
  | fieldGet (ty : TypeId) (field : UInt16)
  | fieldSet (ty : TypeId) (field : UInt16)
  | fieldAddr (ty : TypeId) (field : UInt16)
  | load (ty : TypeId)
  | store (ty : TypeId)
  | malloc (ty : TypeId) (count : UInt32)
  | ptrIndex (ty : TypeId)
  | procRef (routine : RoutineId) (ty : TypeId)
  | nativeRef (native : NativeId) (ty : TypeId)
  | procContext
  | callProc (ty : TypeId)
  deriving DecidableEq, Repr, Inhabited

namespace Instr

def opcode : Instr → Opcode
  | .nop => .nop
  | .pushI64 _ => .pushI64
  | .pushU64 _ => .pushU64
  | .pushF64 _ => .pushF64
  | .pushBool _ => .pushBool
  | .pushZero _ => .pushZero
  | .pop => .pop
  | .dup => .dup
  | .swap => .swap
  | .localGet _ => .localGet
  | .localSet _ => .localSet
  | .localAddr _ => .localAddr
  | .add => .add
  | .sub => .sub
  | .mul => .mul
  | .lt => .lt
  | .eq => .eq
  | .not => .not
  | .cast _ => .cast
  | .jump _ => .jump
  | .jumpIfFalse _ => .jumpIfFalse
  | .call _ => .call
  | .ret => .ret
  | .constGet _ => .constGet
  | .fieldGet _ _ => .fieldGet
  | .fieldSet _ _ => .fieldSet
  | .fieldAddr _ _ => .fieldAddr
  | .load _ => .load
  | .store _ => .store
  | .malloc _ _ => .malloc
  | .ptrIndex _ => .ptrIndex
  | .procRef _ _ => .procRef
  | .nativeRef _ _ => .nativeRef
  | .procContext => .procContext
  | .callProc _ => .callProc

def operands : Instr → List Operand
  | .pushI64 value => [.i64 value]
  | .pushU64 value => [.u64 value]
  | .pushF64 value => [.u64 value.bits]
  | .pushBool value => [.u8 value]
  | .pushZero ty => [.u16 ty.index]
  | .localGet slot | .localSet slot | .localAddr slot => [.u16 slot]
  | .cast kinds => [.u8 kinds]
  | .jump target | .jumpIfFalse target => [.u32 target]
  | .call routine => [.u16 routine.index]
  | .constGet offset => [.u32 offset]
  | .fieldGet ty field | .fieldSet ty field | .fieldAddr ty field => [.u16 ty.index, .u16 field]
  | .load ty | .store ty | .ptrIndex ty | .callProc ty => [.u16 ty.index]
  | .malloc ty count => [.u16 ty.index, .u32 count]
  | .procRef routine ty => [.u16 routine.index, .u16 ty.index]
  | .nativeRef native ty => [.u16 native.index, .u16 ty.index]
  | .nop | .pop | .dup | .swap | .add | .sub | .mul | .lt | .eq | .not | .ret | .procContext => []

/-- The first slot that an operand of another type stands in. -/
def typeClash? : List OperandSlot → List Operand → Option (OperandSlot × OperandType)
  | slot :: slots, operand :: operands =>
    if slot.type = operand.type then typeClash? slots operands else some (slot, operand.type)
  | _, _ => none

/-- What is wrong with operands that do not fit the table: their number, or else the first type
that differs. -/
def shapeError (op : Opcode) (operands : List Operand) : CodecError :=
  if operands.length = op.slots.length then
    match typeClash? op.slots operands with
    | some (slot, got) => .operandType op slot got
    | none => .operandCount op operands.length
  else .operandCount op operands.length

def ofOperands : Opcode → List Operand → Except CodecError Instr
  | .nop, [] => .ok .nop
  | .pushI64, [.i64 value] => .ok (.pushI64 value)
  | .pushU64, [.u64 value] => .ok (.pushU64 value)
  | .pushF64, [.u64 bits] => .ok (.pushF64 ⟨bits⟩)
  | .pushBool, [.u8 value] => .ok (.pushBool value)
  | .pushZero, [.u16 ty] => .ok (.pushZero ⟨ty⟩)
  | .pop, [] => .ok .pop
  | .dup, [] => .ok .dup
  | .swap, [] => .ok .swap
  | .localGet, [.u16 slot] => .ok (.localGet slot)
  | .localSet, [.u16 slot] => .ok (.localSet slot)
  | .localAddr, [.u16 slot] => .ok (.localAddr slot)
  | .add, [] => .ok .add
  | .sub, [] => .ok .sub
  | .mul, [] => .ok .mul
  | .lt, [] => .ok .lt
  | .eq, [] => .ok .eq
  | .not, [] => .ok .not
  | .cast, [.u8 kinds] => .ok (.cast kinds)
  | .jump, [.u32 target] => .ok (.jump target)
  | .jumpIfFalse, [.u32 target] => .ok (.jumpIfFalse target)
  | .call, [.u16 routine] => .ok (.call ⟨routine⟩)
  | .ret, [] => .ok .ret
  | .constGet, [.u32 offset] => .ok (.constGet offset)
  | .fieldGet, [.u16 ty, .u16 field] => .ok (.fieldGet ⟨ty⟩ field)
  | .fieldSet, [.u16 ty, .u16 field] => .ok (.fieldSet ⟨ty⟩ field)
  | .fieldAddr, [.u16 ty, .u16 field] => .ok (.fieldAddr ⟨ty⟩ field)
  | .load, [.u16 ty] => .ok (.load ⟨ty⟩)
  | .store, [.u16 ty] => .ok (.store ⟨ty⟩)
  | .malloc, [.u16 ty, .u32 count] => .ok (.malloc ⟨ty⟩ count)
  | .ptrIndex, [.u16 ty] => .ok (.ptrIndex ⟨ty⟩)
  | .procRef, [.u16 routine, .u16 ty] => .ok (.procRef ⟨routine⟩ ⟨ty⟩)
  | .nativeRef, [.u16 native, .u16 ty] => .ok (.nativeRef ⟨native⟩ ⟨ty⟩)
  | .procContext, [] => .ok .procContext
  | .callProc, [.u16 ty] => .ok (.callProc ⟨ty⟩)
  | op, operands => .error (shapeError op operands)

def encode (i : Instr) : Bytes := i.opcode.tag :: i.operands.flatMap Operand.encode

def length (i : Instr) : Nat := i.opcode.length

theorem ofOperands_operands (i : Instr) : ofOperands i.opcode i.operands = .ok i := by
  cases i <;> rfl

end Instr

/-- An instruction with its address and the address after it. -/
structure Located where
  instr : Instr
  ip : UInt32
  next : UInt32
  deriving DecidableEq, Repr

/-- The operands that fill the slots, read from `offset` on. -/
def readOperands (code : Array UInt8) : List OperandSlot → Nat → List Operand
  | [], _ => []
  | slot :: slots, offset =>
    let stop := offset + slot.type.width
    .ofBytes slot.type (code.extract offset stop).toList :: readOperands code slots stop

/-- The instruction that starts at `ip`. -/
def decodeAt (code : Array UInt8) (ip : UInt32) : Except CodecError Located :=
  let start := ip.toNat
  let available := code.size - start
  match code[start]? with
  | none => .error (.truncated ip 1 available)
  | some tag =>
    match Opcode.ofTag? tag with
    | none => .error (.unknownOpcode ip tag)
    | some op =>
      if available < op.length then .error (.truncated ip op.length available)
      else
        match Instr.ofOperands op (readOperands code op.slots (start + 1)) with
        | .error e => .error e
        | .ok i => .ok ⟨i, ip, UInt32.ofNat (start + op.length)⟩

/-- Decodes from `ip` on, at most `fuel` instructions; `before` holds those already read, last
first. -/
def decodeFrom (code : Array UInt8) :
    Nat → UInt32 → List Located → List Located × Option CodecError
  | 0, _, before => (before.reverse, none)
  | fuel + 1, ip, before =>
    if code.size ≤ ip.toNat then (before.reverse, none)
    else
      match decodeAt code ip with
      | .error e => (before.reverse, some e)
      | .ok l => decodeFrom code fuel l.next (l :: before)

/-- The instructions of the code and the error that ends them, if one does. Every instruction
takes at least one byte. -/
def decodeAll (code : Array UInt8) : List Located × Option CodecError :=
  decodeFrom code (code.size + 1) 0 []

end ForeignVM
