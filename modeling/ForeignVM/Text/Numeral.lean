/-!
# ForeignVM.Text.Numeral

Numerals as the texts of this library write and read them.

* `padded`    — decimal, filled with zeros to a width.
* `hex`       — lower-case hexadecimal without leading zeros.
* `paddedHex` — lower-case hexadecimal, filled with zeros to a width.
* `signed`    — decimal with a sign also for positive numbers and zero.
* `read?`     — the number that decimal digits denote.
-/

namespace ForeignVM
namespace Numeral

def fill (width : Nat) (digits : List Char) : String :=
  String.ofList (List.replicate (width - digits.length) '0' ++ digits)

def padded (width n : Nat) : String := fill width (Nat.toDigits 10 n)

def hex (n : Nat) : String := String.ofList (Nat.toDigits 16 n)

def paddedHex (width n : Nat) : String := fill width (Nat.toDigits 16 n)

def signed (z : Int) : String := if 0 ≤ z then "+" ++ toString z else toString z

/-- The number of a run of decimal digits, if there is at least one. -/
def read? (cs : List Char) : Option Nat :=
  if !cs.isEmpty && cs.all Char.isDigit then
    some (cs.foldl (fun n c => 10 * n + (c.toNat - '0'.toNat)) 0)
  else none

end Numeral
end ForeignVM
