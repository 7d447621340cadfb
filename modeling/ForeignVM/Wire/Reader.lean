import ForeignVM.Data.LittleEndian

/-!
# ForeignVM.Wire.Reader

Reading the binary wire format. A reader takes what it needs from the front of a byte string.

* `WireError`  — why reading stops.
* `varint`     — numbers in groups of seven bits, lowest first, within the bytes of a width.
* `text`, `bytes`, `option`, `flag`, `list` — strings, optional values, booleans, sequences.
-/

namespace ForeignVM

inductive WireError where
  | unexpectedEnd
  | badVarint
  | badText
  | badOption
  | badFlag
  | unknownVariant
  deriving DecidableEq, Repr

def WireError.message : WireError → String
  | .unexpectedEnd => "Hit the end of buffer, expected more data"
  | .badVarint =>
    "Found a varint that didn't terminate. Is the usize too big for this platform?"
  | .badText => "Tried to parse invalid utf-8"
  | .badOption => "Found an Option discriminant that wasn't 0 or 1"
  | .badFlag => "Found a bool that wasn't 0 or 1"
  | .unknownVariant => "Serde Deserialization Error"

/-- The widths of numbers: how many bytes at most, and the greatest value of the last of them. -/
structure VarintWidth where
  bytes : Nat
  lastMax : Nat
  deriving DecidableEq, Repr

namespace VarintWidth

def u16 : VarintWidth := ⟨3, 3⟩

def u32 : VarintWidth := ⟨5, 15⟩

def u64 : VarintWidth := ⟨10, 1⟩

end VarintWidth

abbrev WireReader (α : Type) := StateT Bytes (Except WireError) α

namespace WireReader

def byte : WireReader UInt8 := fun input =>
  match input with
  | [] => .error .unexpectedEnd
  | b :: rest => .ok (b, rest)

def take (n : Nat) : WireReader Bytes := fun input =>
  if n ≤ input.length then .ok (input.take n, input.drop n) else .error .unexpectedEnd

/-- The groups of a number of which at most `left` bytes are left. -/
def varintGroups (lastMax : Nat) : Nat → WireReader Nat
  | 0 => throw .badVarint
  | left + 1 => do
    let b ← byte
    if b.toNat < 128 then
      if left = 0 ∧ lastMax < b.toNat then throw .badVarint
      else pure b.toNat
    else
      let high ← varintGroups lastMax left
      pure (b.toNat - 128 + 128 * high)

def varint (w : VarintWidth) : WireReader Nat := varintGroups w.lastMax w.bytes

def u16 : WireReader UInt16 := UInt16.ofNat <$> varint .u16

def u32 : WireReader UInt32 := UInt32.ofNat <$> varint .u32

def length : WireReader Nat := varint .u64

def bytes : WireReader Bytes := do take (← length)

def text : WireReader String := do
  match String.fromUTF8? ⟨(← bytes).toArray⟩ with
  | some s => pure s
  | none => throw .badText

def flag : WireReader Bool := do
  match ← byte with
  | 0 => pure false
  | 1 => pure true
  | _ => throw .badFlag

def option {α : Type} (item : WireReader α) : WireReader (Option α) := do
  match ← byte with
  | 0 => pure none
  | 1 => some <$> item
  | _ => throw .badOption

def items {α : Type} (item : WireReader α) : Nat → WireReader (List α)
  | 0 => pure []
  | n + 1 => do
    let first ← item
    let rest ← items item n
    pure (first :: rest)

def list {α : Type} (item : WireReader α) : WireReader (List α) := do items item (← length)

def pair {α β : Type} (first : WireReader α) (second : WireReader β) : WireReader (α × β) := do
  let a ← first
  let b ← second
  pure (a, b)

end WireReader
end ForeignVM
