import ForeignVM.Json.Text
import ForeignVM.Text.Numeral

/-!
# ForeignVM.Json.Value

JSON values. Numbers and strings keep their written form; the members of an object keep their
order, repeated names included.

* `Json.str`, `num`, `record` — values from what they mean.
* `Json.nat?`                 — a number that is a natural number below a limit.
* `Json.render`               — the text, compact or indented by two blanks for each level.
-/

namespace ForeignVM

inductive Json where
  | null
  | bool (b : Bool)
  | number (literal : List Char)
  | string (text : Text)
  | array (items : List Json)
  | object (members : List (Text × Json))

namespace Json

instance : Inhabited Json := ⟨.null⟩

def str (s : String) : Json := .string (.quote s)

def num (n : Nat) : Json := .number (Nat.toDigits 10 n)

def int (z : Int) : Json := .number (toString z).toList

def record (members : List (String × Json)) : Json :=
  .object (members.map fun m => (.quote m.1, m.2))

def option {α : Type} (item : α → Json) : Option α → Json
  | none => .null
  | some a => item a

/-- A natural number below `limit`, written without fraction or exponent. -/
def nat? (limit : Nat) : Json → Option Nat
  | .number literal => (Numeral.read? literal).filter (· < limit)
  | _ => none

def string? : Json → Option String
  | .string t => t.decode
  | _ => none

/-- A line break and the indentation of a level, or nothing in compact text. -/
def lineBreak (pretty : Bool) (level : Nat) : List Char :=
  if pretty then '\n' :: List.replicate (2 * level) ' ' else []

def quoted (t : Text) : List Char := '"' :: t.render ++ ['"']

def colon (pretty : Bool) : List Char := if pretty then [':', ' '] else [':']

mutual

def render (pretty : Bool) (level : Nat) : Json → List Char
  | .null => "null".toList
  | .bool true => "true".toList
  | .bool false => "false".toList
  | .number literal => literal
  | .string t => quoted t
  | .array [] => ['[', ']']
  | .array (first :: rest) =>
    '[' :: (lineBreak pretty (level + 1) ++ render pretty (level + 1) first ++
      renderItems pretty (level + 1) rest ++ lineBreak pretty level ++ [']'])
  | .object [] => ['\x7b', '\x7d']
  | .object (first :: rest) =>
    '\x7b' :: (lineBreak pretty (level + 1) ++ renderMember pretty (level + 1) first ++
      renderMembers pretty (level + 1) rest ++ lineBreak pretty level ++ ['\x7d'])

/-- The items after the first. -/
def renderItems (pretty : Bool) (level : Nat) : List Json → List Char
  | [] => []
  | item :: rest =>
    ',' :: (lineBreak pretty level ++ render pretty level item ++ renderItems pretty level rest)

def renderMember (pretty : Bool) (level : Nat) : Text × Json → List Char
  | (name, value) => quoted name ++ colon pretty ++ render pretty level value

/-- The members after the first. -/
def renderMembers (pretty : Bool) (level : Nat) : List (Text × Json) → List Char
  | [] => []
  | member :: rest =>
    ',' :: (lineBreak pretty level ++ renderMember pretty level member ++
      renderMembers pretty level rest)

end

def pretty (j : Json) : String := String.ofList (j.render true 0)

def compact (j : Json) : String := String.ofList (j.render false 0)

end Json
end ForeignVM
