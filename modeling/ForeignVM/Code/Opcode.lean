import ForeignVM.Code.Operand

/-!
# ForeignVM.Code.Opcode

The opcode table. An instruction is a tag byte, which is the opcode's place in the table,
followed by the operands that the table lists, without padding.

* `Opcode.name`, `Opcode.slots` — display name and operand slots.
* `Opcode.tag`, `Opcode.ofTag?` — the tag byte.
* `Opcode.length`, `Opcode.slotOffset` — sizes in the encoding.
* `Opcode.hasNote` — whether listings explain the operands.
-/

namespace ForeignVM

inductive Opcode where
  | nop
  | pushI64
  | pushU64
  | pushF64
  | pushBool
  | pushZero
  | pop
  | dup
  | swap
  | localGet
  | localSet
  | localAddr
  | add
  | sub
  | mul
  | lt
  | eq
  | not
  | cast
  | jump
  | jumpIfFalse
  | call
  | ret
  | constGet
  | fieldGet
  | fieldSet
  | fieldAddr
  | load
  | store
  | malloc
  | ptrIndex
  | procRef
  | nativeRef
  | procContext
  | callProc
  deriving DecidableEq, Repr, Inhabited

/-- A named operand of an opcode. -/
structure OperandSlot where
  name : String
  type : OperandType
  deriving DecidableEq, Repr

namespace Opcode

/-- All opcodes in the order of their tags. -/
def all : List Opcode :=
  [nop, pushI64, pushU64, pushF64, pushBool, pushZero, pop, dup, swap, localGet, localSet,
    localAddr, add, sub, mul, lt, eq, not, cast, jump, jumpIfFalse, call, ret, constGet, fieldGet,
    fieldSet, fieldAddr, load, store, malloc, ptrIndex, procRef, nativeRef, procContext, callProc]

def table : Array Opcode := all.toArray

def tag (op : Opcode) : UInt8 := UInt8.ofNat op.ctorIdx

def ofTag? (tag : UInt8) : Option Opcode := table[tag.toNat]?

def name : Opcode → String
  | nop => "NOP"
  | pushI64 => "PUSH_I64"
  | pushU64 => "PUSH_U64"
  | pushF64 => "PUSH_F64"
  | pushBool => "PUSH_BOOL"
  | pushZero => "PUSH_ZERO"
  | pop => "POP"
  | dup => "DUP"
  | swap => "SWAP"
  | localGet => "LOCAL_GET"
  | localSet => "LOCAL_SET"
  | localAddr => "LOCAL_ADDR"
  | add => "ADD"
  | sub => "SUB"
  | mul => "MUL"
  | lt => "LT"
  | eq => "EQ"
  | not => "NOT"
  | cast => "CAST"
  | jump => "JUMP"
  | jumpIfFalse => "JUMP_IF_FALSE"
  | call => "CALL"
  | ret => "RETURN"
  | constGet => "CONST_GET"
  | fieldGet => "FIELD_GET"
  | fieldSet => "FIELD_SET"
  | fieldAddr => "FIELD_ADDR"
  | load => "LOAD"
  | store => "STORE"
  | malloc => "MALLOC"
  | ptrIndex => "PTR_INDEX"
  | procRef => "PROC_REF"
  | nativeRef => "NATIVE_REF"
  | procContext => "PROC_CONTEXT"
  | callProc => "CALL_PROC"

def slots : Opcode → List OperandSlot
  | pushI64 => [⟨"value", .i64⟩]
  | pushU64 => [⟨"value", .u64⟩]
  | pushF64 => [⟨"bits", .u64⟩]
  | pushBool => [⟨"value", .u8⟩]
  | pushZero => [⟨"ty", .u16⟩]
  | localGet | localSet | localAddr => [⟨"slot", .u16⟩]
  | cast => [⟨"kinds", .u8⟩]
  | jump | jumpIfFalse => [⟨"target", .u32⟩]
  | call => [⟨"routine", .u16⟩]
  | constGet => [⟨"offset", .u32⟩]
  | fieldGet | fieldSet | fieldAddr => [⟨"ty", .u16⟩, ⟨"field", .u16⟩]
  | load | store | ptrIndex => [⟨"ty", .u16⟩]
  | malloc => [⟨"ty", .u16⟩, ⟨"count", .u32⟩]
  | procRef => [⟨"routine", .u16⟩, ⟨"ty", .u16⟩]
  | nativeRef => [⟨"native", .u16⟩, ⟨"ty", .u16⟩]
  | callProc => [⟨"ty", .u16⟩]
  | nop | pop | dup | swap | add | sub | mul | lt | eq | not | ret | procContext => []

def hasNote : Opcode → Bool
  | pushF64 | pushBool | cast | jump | jumpIfFalse | constGet => true
  | _ => false

/-- The encoded length, tag included. -/
def length (op : Opcode) : Nat := 1 + op.slots.foldr (fun slot n => slot.type.width + n) 0

/-- Where operand `i` lies, counted from the tag. -/
def slotOffset (op : Opcode) (i : Nat) : Nat :=
  1 + (op.slots.take i).foldr (fun slot n => slot.type.width + n) 0

theorem ofTag?_tag (op : Opcode) : ofTag? op.tag = some op := by cases op <;> rfl

end Opcode
end ForeignVM
