import ForeignVM.Decimal.Shortest

/-!
# ForeignVM.Decimal.Style

Doubles as decimal text. Both texts of this library take the shortest digits; they differ in the
range of positional notation, in the sign of a positive exponent and in ties.

* `Style.debug` — traces, disassembly and displayed values.
* `Style.json`  — JSON numbers.
-/

namespace ForeignVM

/-- Positional notation is used while the exponent of the leading digit is at least `low` and
below `high`. -/
structure Style where
  tie : Tie
  low : Int
  high : Int
  plus : Bool
  deriving DecidableEq, Repr

namespace Style

def debug : Style := ⟨.up, -4, 16, false⟩

def json : Style := ⟨.even, -5, 16, true⟩

/-- Digits with a point after the first `whole` of them; an integer gets a fraction of zero. -/
def positional (digits : List Char) (whole : Int) : List Char :=
  if whole ≤ 0 then '0' :: '.' :: List.replicate (-whole).toNat '0' ++ digits
  else
    let n := whole.toNat
    if n < digits.length then digits.take n ++ '.' :: digits.drop n
    else digits ++ List.replicate (n - digits.length) '0' ++ ['.', '0']

def exponential (style : Style) (digits : List Char) (exponent : Int) : List Char :=
  let mantissa :=
    match digits with
    | first :: second :: rest => first :: '.' :: second :: rest
    | short => short
  let sign := if style.plus && 0 ≤ exponent then "+" else ""
  mantissa ++ 'e' :: (sign ++ toString exponent).toList

def decimalText (style : Style) (d : Decimal) : List Char :=
  let digits := Nat.toDigits 10 d.digits
  let leading : Int := d.exponent + digits.length - 1
  if style.low ≤ leading && leading < style.high then positional digits (leading + 1)
  else style.exponential digits leading

/-- The text of a finite number. -/
def finiteText (style : Style) (x : Double) : String :=
  let body :=
    if x.isZero then "0.0".toList
    else style.decimalText (Decimal.shortest style.tie x.magnitude)
  String.ofList (if x.negative then '-' :: body else body)

end Style

/-- The text of any number; the sign of a NaN is not shown. -/
def Double.text (x : Double) : String :=
  if x.isNaN then "NaN"
  else if x.isInfinite then if x.negative then "-inf" else "inf"
  else Style.debug.finiteText x

end ForeignVM
