import ForeignVM.Wire.Reader

/-!
# ForeignVM.Wire.Writer

Writing the binary wire format, in the forms that `ForeignVM.Wire.Reader` reads.
-/

namespace ForeignVM
namespace WireWriter

/-- The groups of seven bits of a number, in as few bytes as it needs and at most `left`. -/
def varintGroups : Nat → Nat → Bytes
  | 0, _ => []
  | left + 1, n =>
    if n < 128 then [UInt8.ofNat n]
    else UInt8.ofNat (n % 128 + 128) :: varintGroups left (n / 128)

def varint (w : VarintWidth) (n : Nat) : Bytes := varintGroups w.bytes n

def u16 (v : UInt16) : Bytes := varint .u16 v.toNat

def u32 (v : UInt32) : Bytes := varint .u32 v.toNat

def length (n : Nat) : Bytes := varint .u64 n

def bytes (b : Bytes) : Bytes := length b.length ++ b

def text (s : String) : Bytes := bytes s.toUTF8.data.toList

def flag (b : Bool) : Bytes := [if b then 1 else 0]

def option {α : Type} (item : α → Bytes) : Option α → Bytes
  | none => [0]
  | some a => 1 :: item a

def list {α : Type} (item : α → Bytes) (items : List α) : Bytes :=
  length items.length ++ items.flatMap item

def pair {α β : Type} (first : α → Bytes) (second : β → Bytes) (p : α × β) : Bytes :=
  first p.1 ++ second p.2

end WireWriter
end ForeignVM
