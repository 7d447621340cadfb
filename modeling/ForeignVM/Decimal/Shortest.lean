import ForeignVM.Float.Double

/-!
# ForeignVM.Decimal.Shortest

The shortest decimals that read back as a given double. A number is the only one in an interval
of reals that round to it. The coarsest power-of-ten grid with a point in that interval gives
the fewest digits, and of two such points the nearer is taken.

* `Decimal.shortest` — the digits and the exponent for a finite magnitude above zero.
-/

namespace ForeignVM

/-- The number `digits * 10 ^ exponent`. -/
structure Decimal where
  digits : Nat
  exponent : Int
  deriving DecidableEq, Repr

/-- Which of two grid points at the same distance is taken. -/
inductive Tie where
  | up
  | even
  deriving DecidableEq, Repr

namespace Decimal

/-- The reals that round to a number, in quarters of a unit, with the number itself. -/
structure Interval where
  low : Nat
  value : Nat
  high : Nat
  closed : Bool

/-- Half the way to either neighbour. Below a power of two the steps are half as long. The ends
belong to the even magnitudes. -/
def interval (magnitude : Nat) : Interval :=
  let f := Format.double
  let e := magnitude / 2 ^ f.fraction
  let step := 2 ^ (e - 1)
  let value := 4 * f.units magnitude
  let below := if magnitude % 2 ^ f.fraction = 0 ∧ 1 < e then step else 2 * step
  ⟨value - below, value, value + 2 * step, magnitude % 2 = 0⟩

def Interval.contains (i : Interval) (x : Nat) : Bool :=
  if i.closed then i.low ≤ x && x ≤ i.high else i.low < x && x < i.high

/-- Stretches the interval so that its points can be compared with multiples of a grid step. -/
def Interval.scale (i : Interval) (k : Nat) : Interval :=
  { i with low := i.low * k, value := i.value * k, high := i.high * k }

/-- The point of the grid of `step` that lies in the interval, the nearer one if two do. -/
def Interval.gridPoint? (tie : Tie) (i : Interval) (step : Nat) : Option Nat :=
  let below := i.value / step
  let above := below + 1
  match i.contains (below * step), i.contains (above * step) with
  | false, false => none
  | true, false => some below
  | false, true => some above
  | true, true =>
    let down := i.value - below * step
    let up := above * step - i.value
    if down < up then some below
    else if up < down then some above
    else
      match tie with
      | .up => some above
      | .even => some (if below % 2 = 0 then below else above)

/-- Tries the grids of `10 ^ exponent`, each ten times finer than the one before. -/
def search (tie : Tie) (i : Interval) : Nat → Int → Decimal
  | 0, exponent => ⟨0, exponent⟩
  | fuel + 1, exponent =>
    let scaled := i.scale (10 ^ (-exponent).toNat)
    let step := 10 ^ exponent.toNat * (4 * 2 ^ Format.double.unitBits)
    match scaled.gridPoint? tie step with
    | some digits => ⟨digits, exponent⟩
    | none => search tie i fuel (exponent - 1)

/-- An exponent whose power of ten is above the number and at most a hundred times as large. -/
def upperExponent (i : Interval) : Int :=
  let one := 4 * 2 ^ Format.double.unitBits
  if one ≤ i.value then (Nat.toDigits 10 (i.value / one)).length
  else 2 - ((Nat.toDigits 10 (one / i.value)).length : Int)

/-- Moves trailing zeros of the digits into the exponent. -/
def trim : Nat → Decimal → Decimal
  | 0, d => d
  | fuel + 1, d =>
    if d.digits % 10 = 0 then trim fuel ⟨d.digits / 10, d.exponent + 1⟩ else d

def shortest (tie : Tie) (magnitude : Nat) : Decimal :=
  let i := interval magnitude
  trim 20 (search tie i 20 (upperExponent i))

end Decimal
end ForeignVM
