import ForeignVM.Value.Basic

/-!
# ForeignVM.Value.Scalar

Scalars in memory. Storing narrows a number to the kind of its place as a C conversion does:
integers keep their low bits, floating-point numbers lose their fraction and are clamped, and a
boolean is whether the number differs from zero. Reading widens again.

* `Value.number?`     — the number that a scalar value is.
* `ScalarKind.encode` — a number narrowed to a kind, as bytes.
* `ScalarKind.decode` — the value of stored bytes.
-/

namespace ForeignVM

inductive Number where
  | integer (z : Int)
  | real (x : Double)
  deriving DecidableEq, Repr

namespace Number

def isZero : Number → Bool
  | .integer z => z = 0
  | .real x => x.isZero

/-- The integer that is stored in a range. Only a number that is no integer is clamped. -/
def toInt (low high : Int) : Number → Int
  | .integer z => z
  | .real x => x.truncate low high

def toSingle : Number → Single
  | .integer z => .ofInt z
  | .real x => x.toSingle

def toDouble : Number → Double
  | .integer z => .ofInt z
  | .real x => x

end Number

def Value.number? : Value → Option Number
  | .bool b => some (.integer b.toInt)
  | .int v => some (.integer v.toInt)
  | .uint v => some (.integer v.toNat)
  | .float x => some (.real x)
  | _ => none

namespace ScalarKind

/-- The number of patterns of a kind. -/
def modulus (k : ScalarKind) : Nat := 256 ^ k.size

/-- The least integer of an integer kind. -/
def low (k : ScalarKind) : Int := if k.isSigned then -(k.modulus / 2 : Nat) else 0

/-- The greatest integer of an integer kind. -/
def high (k : ScalarKind) : Int := k.low + k.modulus - 1

/-- The pattern in which a number is stored. -/
def pattern (k : ScalarKind) (n : Number) : Nat :=
  match k with
  | .bool => if n.isZero then 0 else 1
  | .f32 => n.toSingle.bits.toNat
  | .f64 => n.toDouble.bits.toNat
  | k => (n.toInt k.low k.high % k.modulus).toNat

/-- The value of a pattern. -/
def ofPattern (k : ScalarKind) (pattern : Nat) : Value :=
  match k with
  | .bool => .bool (pattern != 0)
  | .f32 => .float (Single.toDouble ⟨UInt32.ofNat pattern⟩)
  | .f64 => .float ⟨UInt64.ofNat pattern⟩
  | k =>
    if k.isSigned then .int (Int64.ofInt (Int.bmod pattern k.modulus))
    else .uint (UInt64.ofNat pattern)

def encode (k : ScalarKind) (n : Number) : Bytes := LittleEndian.encode k.size (k.pattern n)

/-- The value at the front of some bytes. -/
def decode (k : ScalarKind) (bytes : Bytes) : Value :=
  k.ofPattern (LittleEndian.decode (bytes.take k.size))

@[simp] theorem length_encode (k : ScalarKind) (n : Number) : (k.encode n).length = k.size :=
  LittleEndian.length_encode _ _

end ScalarKind
end ForeignVM
