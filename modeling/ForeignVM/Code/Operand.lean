import ForeignVM.Data.LittleEndian

/-!
# ForeignVM.Code.Operand

Operands of instructions: numbers of a fixed width, little-endian in the code.

* `OperandType.width` — encoded bytes.
* `Operand.encode`, `Operand.ofBytes` — the two directions of the encoding.
-/

namespace ForeignVM

inductive OperandType where
  | u8
  | u16
  | u32
  | i64
  | u64
  deriving DecidableEq, Repr

namespace OperandType

def width : OperandType → Nat
  | u8 => 1
  | u16 => 2
  | u32 => 4
  | i64 | u64 => 8

def name : OperandType → String
  | u8 => "u8"
  | u16 => "u16"
  | u32 => "u32"
  | i64 => "i64"
  | u64 => "u64"

end OperandType

inductive Operand where
  | u8 (v : UInt8)
  | u16 (v : UInt16)
  | u32 (v : UInt32)
  | i64 (v : Int64)
  | u64 (v : UInt64)
  deriving DecidableEq, Repr

namespace Operand

def type : Operand → OperandType
  | .u8 _ => .u8
  | .u16 _ => .u16
  | .u32 _ => .u32
  | .i64 _ => .i64
  | .u64 _ => .u64

/-- The encoded bits, with zeros above them. -/
def bits : Operand → UInt64
  | .u8 v => v.toUInt64
  | .u16 v => v.toUInt64
  | .u32 v => v.toUInt64
  | .i64 v => v.toUInt64
  | .u64 v => v

def text : Operand → String
  | .u8 v => toString v.toNat
  | .u16 v => toString v.toNat
  | .u32 v => toString v.toNat
  | .i64 v => toString v.toInt
  | .u64 v => toString v.toNat

/-- The operand of a type with the low bits of `n`. -/
def ofNat (t : OperandType) (n : Nat) : Operand :=
  match t with
  | .u8 => .u8 (UInt8.ofNat n)
  | .u16 => .u16 (UInt16.ofNat n)
  | .u32 => .u32 (UInt32.ofNat n)
  | .i64 => .i64 (UInt64.ofNat n).toInt64
  | .u64 => .u64 (UInt64.ofNat n)

def encode (o : Operand) : Bytes := LittleEndian.encode o.type.width o.bits.toNat

def ofBytes (t : OperandType) (bytes : Bytes) : Operand := ofNat t (LittleEndian.decode bytes)

end Operand
end ForeignVM
