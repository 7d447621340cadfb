import ForeignVM.Float.Format

/-!
# ForeignVM.Float.Double

Double-precision numbers as 64-bit patterns, and single-precision patterns for storage.

* `Double.add`, `sub`, `mul` — the exact result rounded once; a NaN operand is handed on, and an
  invalid operation gives the negative quiet NaN.
* `Double.truncate` — the whole part clamped into a range, as conversions to integers need it.
* `Double.ofInt`, `toSingle`, `Single.toDouble` — conversions, each rounded once.
-/

namespace ForeignVM

structure Double where
  bits : UInt64
  deriving DecidableEq, Repr, Inhabited

structure Single where
  bits : UInt32
  deriving DecidableEq, Repr, Inhabited

namespace Double

def magnitude (x : Double) : Nat := x.bits.toNat % 2 ^ 63

def negative (x : Double) : Bool := 2 ^ 63 ≤ x.bits.toNat

def ofMagnitude (negative : Bool) (magnitude : Nat) : Double :=
  ⟨UInt64.ofNat (magnitude + if negative then 2 ^ 63 else 0)⟩

def isNaN (x : Double) : Bool := Format.double.infinity < x.magnitude

def isInfinite (x : Double) : Bool := x.magnitude = Format.double.infinity

def isFinite (x : Double) : Bool := x.magnitude < Format.double.infinity

/-- Both zeros are zero, a NaN is not. -/
def isZero (x : Double) : Bool := x.magnitude = 0

/-- The result of an invalid operation. -/
def invalid : Double := ⟨0xfff8000000000000⟩

def infinite (negative : Bool) : Double := ofMagnitude negative Format.double.infinity

/-- A NaN with its quiet bit set. -/
def quiet (x : Double) : Double := ⟨x.bits ||| 0x0008000000000000⟩

def neg (x : Double) : Double := ⟨x.bits ^^^ 0x8000000000000000⟩

/-- The units that a finite number denotes, with its sign. -/
def signedUnits (x : Double) : Int :=
  let u : Int := Format.double.units x.magnitude
  if x.negative then -u else u

/-- The number nearest to a quotient of units. -/
def nearest (negative : Bool) (num den : Nat) : Double :=
  ofMagnitude negative (Format.double.nearest num den)

def add (x y : Double) : Double :=
  if x.isNaN then x.quiet
  else if y.isNaN then y.quiet
  else if x.isInfinite then
    if y.isInfinite ∧ x.negative ≠ y.negative then invalid else x
  else if y.isInfinite then y
  else
    let sum := x.signedUnits + y.signedUnits
    nearest (sum < 0 || (sum = 0 && x.negative && y.negative)) sum.natAbs 1

def sub (x y : Double) : Double :=
  if x.isNaN then x.quiet
  else if y.isNaN then y.quiet
  else x.add y.neg

def mul (x y : Double) : Double :=
  if x.isNaN then x.quiet
  else if y.isNaN then y.quiet
  else
    let negative := x.negative != y.negative
    if x.isInfinite || y.isInfinite then
      if x.isZero || y.isZero then invalid else infinite negative
    else
      nearest negative
        (Format.double.units x.magnitude * Format.double.units y.magnitude)
        (2 ^ Format.double.unitBits)

/-- The pattern read as sign and magnitude, which orders the numbers that are not NaN. -/
def orderKey (x : Double) : Int := if x.negative then -x.magnitude else x.magnitude

def less (x y : Double) : Bool := !x.isNaN && !y.isNaN && x.orderKey < y.orderKey

/-- Numerical equality: the zeros are equal, and a NaN equals nothing. -/
def equal (x y : Double) : Bool := !x.isNaN && !y.isNaN && x.orderKey == y.orderKey

/-- The number without its fraction, clamped into the range; a NaN gives zero. -/
def truncate (low high : Int) (x : Double) : Int :=
  if x.isNaN then 0
  else if x.isInfinite then if x.negative then low else high
  else max low (min high (x.signedUnits.tdiv (2 ^ Format.double.unitBits)))

def ofInt (z : Int) : Double :=
  nearest (z < 0) (z.natAbs * 2 ^ Format.double.unitBits) 1

/-- The number nearest to `digits * 10 ^ exponent`. Exponents whose outcome is plain are
settled by the number of digits alone. -/
def ofDecimal (negative : Bool) (digits : Nat) (exponent : Int) : Double :=
  if digits = 0 then ofMagnitude negative 0
  else
    let length : Int := (Nat.toDigits 10 digits).length
    if 310 < exponent + length then infinite negative
    else if exponent + length < -330 then ofMagnitude negative 0
    else
      nearest negative (digits * 10 ^ exponent.toNat * 2 ^ Format.double.unitBits)
        (10 ^ (-exponent).toNat)

end Double

namespace Single

def magnitude (x : Single) : Nat := x.bits.toNat % 2 ^ 31

def negative (x : Single) : Bool := 2 ^ 31 ≤ x.bits.toNat

def ofMagnitude (negative : Bool) (magnitude : Nat) : Single :=
  ⟨UInt32.ofNat (magnitude + if negative then 2 ^ 31 else 0)⟩

def isNaN (x : Single) : Bool := Format.single.infinity < x.magnitude

/-- The same number in double precision. The payload of a NaN moves to the upper fraction
bits, and the NaN becomes quiet. -/
def toDouble (x : Single) : Double :=
  if x.isNaN then
    (Double.ofMagnitude x.negative
      (Format.double.infinity +
        (x.magnitude - Format.single.infinity) * 2 ^ 29)).quiet
  else if x.magnitude = Format.single.infinity then Double.infinite x.negative
  else
    Double.nearest x.negative
      (Format.single.units x.magnitude *
        2 ^ (Format.double.unitBits - Format.single.unitBits)) 1

def ofInt (z : Int) : Single :=
  ofMagnitude (z < 0) (Format.single.nearest (z.natAbs * 2 ^ Format.single.unitBits) 1)

end Single

/-- The nearest number in single precision. Of the payload of a NaN the upper bits remain. -/
def Double.toSingle (x : Double) : Single :=
  if x.isNaN then
    let payload := (x.magnitude - Format.double.infinity) / 2 ^ 29
    let quiet := payload % Format.single.quietBit + Format.single.quietBit
    Single.ofMagnitude x.negative (Format.single.infinity + quiet)
  else if x.isInfinite then Single.ofMagnitude x.negative Format.single.infinity
  else
    Single.ofMagnitude x.negative
      (Format.single.nearest (Format.double.units x.magnitude)
        (2 ^ (Format.double.unitBits - Format.single.unitBits)))

end ForeignVM
