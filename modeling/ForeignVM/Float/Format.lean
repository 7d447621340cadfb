import ForeignVM.Data.Power

/-!
# ForeignVM.Float.Format

Binary floating-point formats, in exact integer arithmetic. The magnitude of a float is its bit
pattern without the sign. A finite magnitude denotes a whole number of *units*, a unit being the
smallest positive value of the format.

* `Format.units`   — the number of units that a finite magnitude denotes.
* `Format.nearest` — the magnitude nearest to a quotient of units, ties to even.
-/

namespace ForeignVM

/-- A format by the widths of its fraction and exponent fields. -/
structure Format where
  fraction : Nat
  exponent : Nat
  deriving DecidableEq, Repr

namespace Format

def single : Format := ⟨23, 8⟩

def double : Format := ⟨52, 11⟩

/-- The magnitude of infinity; the greater ones are NaNs. -/
def infinity (f : Format) : Nat := (2 ^ f.exponent - 1) * 2 ^ f.fraction

/-- The bit that tells a quiet NaN. -/
def quietBit (f : Format) : Nat := 2 ^ (f.fraction - 1)

/-- One is `2 ^ unitBits` units. -/
def unitBits (f : Format) : Nat := 2 ^ (f.exponent - 1) - 2 + f.fraction

def units (f : Format) (magnitude : Nat) : Nat :=
  let e := magnitude / 2 ^ f.fraction
  let m := magnitude % 2 ^ f.fraction
  if e = 0 then m else (2 ^ f.fraction + m) * 2 ^ (e - 1)

/-- The quotient rounded to a whole number, a half to the even neighbour. -/
def roundHalfEven (num den : Nat) : Nat :=
  let q := num / den
  let r := num % den
  if 2 * r < den ∨ (2 * r = den ∧ q % 2 = 0) then q else q + 1

/-- The magnitude nearest to `num / den` units; from half a step above the greatest finite
value on it is infinity. -/
def nearest (f : Format) (num den : Nat) : Nat :=
  let shift := Nat.log2 (num / den) - f.fraction
  min (shift * 2 ^ f.fraction + roundHalfEven num (den * 2 ^ shift)) f.infinity

end Format
end ForeignVM
