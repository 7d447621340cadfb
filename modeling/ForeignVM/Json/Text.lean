import ForeignVM.Data.Power

/-!
# ForeignVM.Json.Text

Strings of JSON in their written form, a list of pieces. What a string means is settled only
where its meaning is needed.

* `Text.quote`  — the written form of a string: quotes, backslashes and control characters are
  escaped and nothing else.
* `Text.decode` — the string that a text means, if it means one.
* `Text.render` — the characters between the quotes.
-/

namespace ForeignVM

/-- What a string of JSON is made of. An escape is named by its letter, a unit by the value of
its four hexadecimal digits; a stray byte belongs to no character. -/
inductive Piece where
  | char (c : Char)
  | escape (letter : Char)
  | unit (value : Nat)
  | stray
  deriving DecidableEq, Repr

abbrev Text := List Piece

namespace Text

def escapes : List (Char × Char) :=
  [('"', '"'), ('\\', '\\'), ('/', '/'), ('b', '\x08'), ('f', '\x0c'), ('n', '\n'), ('r', '\r'),
    ('t', '\t')]

/-- The character that an escape letter stands for. -/
def unescape? (letter : Char) : Option Char := escapes.lookup letter

def quoteChar (c : Char) : Piece :=
  match c with
  | '"' => .escape '"'
  | '\\' => .escape '\\'
  | '\x08' => .escape 'b'
  | '\x0c' => .escape 'f'
  | '\n' => .escape 'n'
  | '\r' => .escape 'r'
  | '\t' => .escape 't'
  | c => if c.toNat < 0x20 then .unit c.toNat else .char c

def quote (s : String) : Text := s.toList.map quoteChar

def isHigh (u : Nat) : Bool := 0xd800 ≤ u && u < 0xdc00

def isLow (u : Nat) : Bool := 0xdc00 ≤ u && u < 0xe000

/-- The character of a pair of surrogates. -/
def ofPair (high low : Nat) : Char :=
  Char.ofNat (0x10000 + (high - 0xd800) * 0x400 + (low - 0xdc00))

/-- A high surrogate has to be followed by a low one, and a low one follows a high one. -/
def decodeChars : Text → Option (List Char)
  | [] => some []
  | .char c :: rest => (decodeChars rest).map (c :: ·)
  | .escape letter :: rest =>
    match unescape? letter with
    | some c => (decodeChars rest).map (c :: ·)
    | none => none
  | .unit u :: .unit v :: rest =>
    if isHigh u then
      if isLow v then (decodeChars rest).map (ofPair u v :: ·) else none
    else if isLow u then none
    else (decodeChars (.unit v :: rest)).map (Char.ofNat u :: ·)
  | .unit u :: rest =>
    if isHigh u || isLow u then none else (decodeChars rest).map (Char.ofNat u :: ·)
  | .stray :: _ => none

def decode (t : Text) : Option String := (decodeChars t).map String.ofList

/-- The characters of a text without escapes. -/
def plain? : Text → Option (List Char)
  | [] => some []
  | .char c :: rest => (plain? rest).map (c :: ·)
  | _ => none

def hexDigits (value : Nat) : List Char :=
  [3, 2, 1, 0].map fun i => Nat.digitChar (value / 16 ^ i % 16)

def renderPiece : Piece → List Char
  | .char c => [c]
  | .escape letter => ['\\', letter]
  | .unit value => '\\' :: 'u' :: hexDigits value
  | .stray => []

def render (t : Text) : List Char := t.flatMap renderPiece

end Text
end ForeignVM
