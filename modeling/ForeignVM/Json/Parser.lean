import ForeignVM.Json.Lexer
import ForeignVM.Json.Value

/-!
# ForeignVM.Json.Parser

Building JSON values from tokens, one token at a time, with the unfinished arrays and objects on
a stack.

* `Builder.step` — one token.
* `Json.parse?`  — the value of a text that holds exactly one.
-/

namespace ForeignVM

/-- An unfinished container: what it holds so far, last first. -/
inductive Container where
  | array (items : List Json)
  | object (members : List (Text × Json))
  | member (members : List (Text × Json)) (name : Text)

/-- What may come next. Right after its opening bracket a container may be closed. -/
inductive Expectation where
  | value (orClose : Bool)
  | name (orClose : Bool)
  | colon
  | separator
  | nothing (result : Json)

structure Builder where
  stack : List Container
  expect : Expectation

namespace Builder

def start : Builder := ⟨[], .value false⟩

/-- Puts a finished value where it belongs. -/
def give (stack : List Container) (v : Json) : Option Builder :=
  match stack with
  | [] => some ⟨[], .nothing v⟩
  | .array items :: rest => some ⟨.array (v :: items) :: rest, .separator⟩
  | .member members name :: rest => some ⟨.object ((name, v) :: members) :: rest, .separator⟩
  | .object _ :: _ => none

/-- Finishes the innermost container. -/
def close (stack : List Container) (token : Token) : Option Builder :=
  match stack, token with
  | .array items :: rest, .closeArray => give rest (.array items.reverse)
  | .object members :: rest, .closeObject => give rest (.object members.reverse)
  | _, _ => none

def startValue (stack : List Container) : Token → Option Builder
  | .openArray => some ⟨.array [] :: stack, .value true⟩
  | .openObject => some ⟨.object [] :: stack, .name true⟩
  | .null => give stack .null
  | .bool b => give stack (.bool b)
  | .number literal => give stack (.number literal)
  | .text t => give stack (.string t)
  | _ => none

def step (b : Builder) (token : Token) : Option Builder :=
  match b.expect, token with
  | .value true, .closeArray => close b.stack token
  | .value _, token => startValue b.stack token
  | .name true, .closeObject => close b.stack token
  | .name _, .text t =>
    match b.stack with
    | .object members :: rest => some ⟨.member members t :: rest, .colon⟩
    | _ => none
  | .colon, .colon => some ⟨b.stack, .value false⟩
  | .separator, .comma =>
    match b.stack with
    | .array _ :: _ => some ⟨b.stack, .value false⟩
    | .object _ :: _ => some ⟨b.stack, .name false⟩
    | _ => none
  | .separator, token => close b.stack token
  | _, _ => none

def finish? (b : Builder) : Option Json :=
  match b.expect with
  | .nothing v => some v
  | _ => none

end Builder

def Json.ofTokens? (tokens : List Token) : Option Json :=
  match tokens.foldlM Builder.step .start with
  | some b => b.finish?
  | none => none

/-- The value of a text that consists of one value and blanks. -/
def Json.parse? (input : List Symbol) : Option Json :=
  match tokens? input with
  | some tokens => Json.ofTokens? tokens
  | none => none

end ForeignVM
