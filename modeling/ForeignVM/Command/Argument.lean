import ForeignVM.Text.Numeral
import ForeignVM.Value.Basic

/-!
# ForeignVM.Command.Argument

Arguments of routines on the command line: `true`, `false`, integers and decimal numbers. An
integer is signed if it fits 64 bits with a sign, else unsigned if it fits without; any other
numeral is a floating-point number.

* `Argument.integer?` — an integer.
* `Argument.real?`    — a decimal number, an infinity or a NaN.
* `Argument.value?`   — the value of an argument.
-/

namespace ForeignVM
namespace Argument

/-- Whether a text starts with a minus sign, and the text without its sign. -/
def splitSign : List Char → Bool × List Char
  | '-' :: rest => (true, rest)
  | '+' :: rest => (false, rest)
  | cs => (false, cs)

def integer? (cs : List Char) : Option Int :=
  let (negative, digits) := splitSign cs
  (Numeral.read? digits).map fun n => if negative then -(n : Int) else n

/-- The exponent part of a decimal number, which may be missing. -/
def exponent? : List Char → Option Int
  | [] => some 0
  | c :: rest => if c = 'e' ∨ c = 'E' then integer? rest else none

/-- Splits the digits of a fraction from what follows it. -/
def splitFraction : List Char → List Char × List Char
  | '.' :: rest => rest.span Char.isDigit
  | cs => ([], cs)

def decimal? (negative : Bool) (cs : List Char) : Option Double :=
  let (whole, rest) := cs.span Char.isDigit
  let (fraction, rest) := splitFraction rest
  match Numeral.read? (whole ++ fraction), exponent? rest with
  | some digits, some e => some (.ofDecimal negative digits (e - fraction.length))
  | _, _ => none

def infinityNames : List String := ["inf", "infinity"]

/-- The names of infinity and NaN may be written in any case. -/
def real? (cs : List Char) : Option Double :=
  let (negative, body) := splitSign cs
  let name := String.ofList (body.map Char.toLower)
  if name ∈ infinityNames then some (.infinite negative)
  else if name = "nan" then
    some (.ofMagnitude negative (Format.double.infinity + Format.double.quietBit))
  else decimal? negative body

def number? (cs : List Char) : Option Value :=
  match integer? cs with
  | some z =>
    if -2 ^ 63 ≤ z ∧ z < 2 ^ 63 then some (.int (Int64.ofInt z))
    else if 0 ≤ z ∧ z < 2 ^ 64 then some (.uint (UInt64.ofNat z.toNat))
    else (real? cs).map .float
  | none => (real? cs).map .float

def value? (text : String) : Option Value :=
  if text = "true" then some (.bool true)
  else if text = "false" then some (.bool false)
  else number? text.toList

end Argument
end ForeignVM
