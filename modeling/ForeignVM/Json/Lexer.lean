import ForeignVM.Data.LittleEndian
import ForeignVM.Json.Text

/-!
# ForeignVM.Json.Lexer

Cutting JSON text into tokens, one symbol at a time. A symbol is a character, or nothing for a
byte that belongs to no character; such bytes may stand inside strings only.

* `symbols`   — the symbols of a file.
* `Lexer.step` — one symbol; a word or number ends at the first symbol that does not extend it.
* `tokens?`   — all tokens, if the text consists of tokens and blanks.
-/

namespace ForeignVM

inductive Token where
  | openArray
  | closeArray
  | openObject
  | closeObject
  | comma
  | colon
  | null
  | bool (b : Bool)
  | number (literal : List Char)
  | text (t : Text)
  deriving DecidableEq, Repr

abbrev Symbol := Option Char

/-- The character at the front of a byte string, if one is encoded there. -/
def leadingChar? (bytes : Bytes) : Option (Char × Nat) :=
  [1, 2, 3, 4].findSome? fun n =>
    match String.fromUTF8? ⟨(bytes.take n).toArray⟩ with
    | some s =>
      match s.toList with
      | [c] => if n ≤ bytes.length then some (c, n) else none
      | _ => none
    | none => none

/-- The symbols of bytes of which some belong to no character; `skip` bytes are already part of
the character before. -/
def looseSymbols : Nat → Bytes → List Symbol
  | _, [] => []
  | skip + 1, _ :: rest => looseSymbols skip rest
  | 0, b :: rest =>
    match leadingChar? (b :: rest) with
    | some (c, n) => some c :: looseSymbols (n - 1) rest
    | none => none :: looseSymbols 0 rest

def symbols (bytes : Bytes) : List Symbol :=
  match String.fromUTF8? ⟨bytes.toArray⟩ with
  | some s => s.toList.map some
  | none => looseSymbols 0 bytes

/-- How much of a number has been read. -/
inductive NumberPhase where
  | minus
  | zero
  | whole
  | point
  | fraction
  | exponentMark
  | exponentSign
  | exponent
  deriving DecidableEq, Repr

namespace NumberPhase

def isDone : NumberPhase → Bool
  | zero | whole | fraction | exponent => true
  | _ => false

/-- The phase after one more character, if the character goes on with the number. -/
def next? (phase : NumberPhase) (c : Char) : Option NumberPhase :=
  match phase with
  | minus => if c = '0' then some zero else if c.isDigit then some whole else none
  | zero => afterWhole? c
  | whole => if c.isDigit then some whole else afterWhole? c
  | point => if c.isDigit then some fraction else none
  | fraction => if c.isDigit then some fraction else mark? c
  | exponentMark =>
    if c = '+' || c = '-' then some exponentSign else if c.isDigit then some exponent else none
  | exponentSign | exponent => if c.isDigit then some exponent else none
where
  mark? (c : Char) : Option NumberPhase :=
    if c = 'e' || c = 'E' then some exponentMark else none
  afterWhole? (c : Char) : Option NumberPhase := if c = '.' then some point else mark? c

end NumberPhase

/-- What is being read; characters and pieces are held last first. -/
inductive Mode where
  | between
  | word (letters : List Char)
  | number (phase : NumberPhase) (literal : List Char)
  | text (pieces : Text)
  | escape (pieces : Text)
  | unit (pieces : Text) (digits value : Nat)
  deriving DecidableEq, Repr

structure Lexer where
  done : List Token
  mode : Mode
  deriving DecidableEq, Repr

namespace Lexer

def isBlank (c : Char) : Bool := c = ' ' || c = '\n' || c = '\t' || c = '\r'

def isLetter (c : Char) : Bool := 'a' ≤ c && c ≤ 'z'

def punctuation? : Char → Option Token
  | '[' => some .openArray
  | ']' => some .closeArray
  | '\x7b' => some .openObject
  | '\x7d' => some .closeObject
  | ',' => some .comma
  | ':' => some .colon
  | _ => none

/-- The token of a word, given its letters last first. -/
def word? (letters : List Char) : Option Token :=
  let word := letters.reverse
  if word = "null".toList then some .null
  else if word = "true".toList then some (.bool true)
  else if word = "false".toList then some (.bool false)
  else none

/-- Begins a token. -/
def start (done : List Token) (c : Char) : Option Lexer :=
  if isBlank c then some ⟨done, .between⟩
  else
    match punctuation? c with
    | some token => some ⟨token :: done, .between⟩
    | none =>
      if c = '"' then some ⟨done, .text []⟩
      else if c = '-' then some ⟨done, .number .minus [c]⟩
      else if c = '0' then some ⟨done, .number .zero [c]⟩
      else if c.isDigit then some ⟨done, .number .whole [c]⟩
      else if isLetter c then some ⟨done, .word [c]⟩
      else none

def hexValue? (c : Char) : Option Nat :=
  if '0' ≤ c && c ≤ '9' then some (c.toNat - '0'.toNat)
  else if 'a' ≤ c && c ≤ 'f' then some (c.toNat - 'a'.toNat + 10)
  else if 'A' ≤ c && c ≤ 'F' then some (c.toNat - 'A'.toNat + 10)
  else none

/-- One symbol of a string. Control characters have to be escaped. -/
def stepText (done : List Token) (pieces : Text) : Symbol → Option Lexer
  | none => some ⟨done, .text (.stray :: pieces)⟩
  | some c =>
    if c = '"' then some ⟨.text pieces.reverse :: done, .between⟩
    else if c = '\\' then some ⟨done, .escape pieces⟩
    else if c.toNat < 0x20 then none
    else some ⟨done, .text (.char c :: pieces)⟩

def stepEscape (done : List Token) (pieces : Text) (c : Char) : Option Lexer :=
  if c = 'u' then some ⟨done, .unit pieces 0 0⟩
  else if (Text.unescape? c).isSome then some ⟨done, .text (.escape c :: pieces)⟩
  else none

def stepUnit (done : List Token) (pieces : Text) (digits value : Nat) (c : Char) : Option Lexer :=
  match hexValue? c with
  | none => none
  | some d =>
    let value := 16 * value + d
    if digits = 3 then some ⟨done, .text (.unit value :: pieces)⟩
    else some ⟨done, .unit pieces (digits + 1) value⟩

def step (l : Lexer) (s : Symbol) : Option Lexer :=
  match l.mode, s with
  | .text pieces, s => stepText l.done pieces s
  | _, none => none
  | .between, some c => start l.done c
  | .word letters, some c =>
    if isLetter c then some ⟨l.done, .word (c :: letters)⟩
    else
      match word? letters with
      | some token => start (token :: l.done) c
      | none => none
  | .number phase literal, some c =>
    match phase.next? c with
    | some phase => some ⟨l.done, .number phase (c :: literal)⟩
    | none => if phase.isDone then start (.number literal.reverse :: l.done) c else none
  | .escape pieces, some c => stepEscape l.done pieces c
  | .unit pieces digits value, some c => stepUnit l.done pieces digits value c

/-- The tokens in order, if none is left half read. -/
def finish? (l : Lexer) : Option (List Token) :=
  match l.mode with
  | .between => some l.done.reverse
  | .word letters =>
    match word? letters with
    | some token => some (token :: l.done).reverse
    | none => none
  | .number phase literal =>
    if phase.isDone then some (Token.number literal.reverse :: l.done).reverse else none
  | _ => none

end Lexer

def tokens? (input : List Symbol) : Option (List Token) :=
  match input.foldlM Lexer.step ⟨[], .between⟩ with
  | some l => l.finish?
  | none => none

end ForeignVM
