import ForeignVM.Command.Argument
import ForeignVM.Machine.Basic

/-!
# ForeignVM.Command.Request

The command line: a verb, the file of a program, and options. An option takes its value from the
same word after an equals sign or from the next word, which must not look like an option itself;
only `--arg` takes any word. All verbs know all options. What follows the word `--` is no option.

* `Item.read?`           — the words of a command line as options, flags and paths.
* `Request.ofArguments?` — the request that a command line makes, if it is well formed.
-/

namespace ForeignVM

inductive Verb where
  | dump
  | exec
  | trace
  deriving DecidableEq, Repr

inductive ColorChoice where
  | auto
  | always
  | never
  deriving DecidableEq, Repr

/-- What a command line asks for. The flag for compact JSON is accepted everywhere; JSON that does
not go to a terminal is compact with or without it. -/
structure Request where
  verb : Verb
  path : String
  color : ColorChoice
  routine : Option String
  args : List String
  limits : Limits
  compact : Bool
  verbose : Bool
  noResult : Bool
  deriving DecidableEq, Repr

/-- Options that have a value. -/
inductive ValueOption where
  | color
  | routine
  | arg
  | fuel
  | recursionLimit
  deriving DecidableEq, Repr

inductive Flag where
  | compact
  | noResult
  | verbose
  deriving DecidableEq, Repr

namespace ValueOption

def ofName? : String → Option ValueOption
  | "color" => some .color
  | "routine" => some .routine
  | "arg" => some .arg
  | "fuel" => some .fuel
  | "recursion-limit" => some .recursionLimit
  | _ => none

/-- Whether the next word can be the value. -/
def takes (o : ValueOption) (word : String) : Bool :=
  o = .arg || !word.startsWith "-" || word = "-"

end ValueOption

def Flag.ofName? : String → Option Flag
  | "compact" => some .compact
  | "no-result" => some .noResult
  | _ => none

/-- What a part of a command line says. -/
inductive Item where
  | option (o : ValueOption) (value : String)
  | flag (f : Flag)
  | path (path : String)
  deriving DecidableEq, Repr

namespace Item

/-- What a word says by itself; the value of an option may be in the next word. -/
inductive Word where
  | complete (items : List Item)
  | pending (o : ValueOption)
  | unknown

/-- A long option, given by what follows its two hyphens. -/
def ofLong (name : List Char) : Word :=
  let (name, value) := name.span (· ≠ '=')
  let name := String.ofList name
  match ValueOption.ofName? name, Flag.ofName? name, value with
  | some o, _, _ :: value => .complete [.option o (String.ofList value)]
  | some o, _, [] => .pending o
  | none, some f, [] => .complete [.flag f]
  | none, _, _ => .unknown

def ofWord (word : String) : Word :=
  match word.toList with
  | '-' :: '-' :: name => ofLong name
  | '-' :: letter :: letters =>
    if (letter :: letters).all (· = 'v') then
      .complete ((letter :: letters).map fun _ => .flag .verbose)
    else .unknown
  | _ => .complete [.path word]

def read? : List String → Option (List Item)
  | [] => some []
  | "--" :: rest => some (rest.map .path)
  | word :: rest =>
    match ofWord word, rest with
    | .complete items, rest => (read? rest).map (items ++ ·)
    | .pending o, value :: rest =>
      if o.takes value then (read? rest).map (.option o value :: ·) else none
    | .pending _, [] => none
    | .unknown, _ => none

def path? : Item → Option String
  | .path p => some p
  | _ => none

def value? (o : ValueOption) : Item → Option String
  | .option o' value => if o' = o then some value else none
  | _ => none

end Item

namespace Request

def verb? : String → Option Verb
  | "dump" => some .dump
  | "exec" => some .exec
  | "trace" => some .trace
  | _ => none

def color? : String → Option ColorChoice
  | "auto" => some .auto
  | "always" => some .always
  | "never" => some .never
  | _ => none

def limit? (text : String) : Option UInt32 :=
  match Argument.integer? text.toList with
  | some z => if 0 ≤ z ∧ z < 2 ^ 32 then some (UInt32.ofNat z.toNat) else none
  | none => none

/-- The value of an option that is given at most once, or a default. -/
def single? {α : Type} (items : List Item) (o : ValueOption) (default : α)
    (read : String → Option α) : Option α :=
  match items.filterMap (Item.value? o) with
  | [] => some default
  | [value] => read value
  | _ => none

/-- Whether a flag is given, if it is not given twice. -/
def flag? (items : List Item) (f : Flag) : Option Bool :=
  let n := items.count (.flag f)
  if n ≤ 1 then some (n = 1) else none

/-- The one path, which has to have a name. -/
def path? (items : List Item) : Option String :=
  match items.filterMap Item.path? with
  | [path] => if path = "" then none else some path
  | _ => none

def ofItems? (verb : Verb) (items : List Item) : Option Request := do
  let path ← path? items
  let color ← single? items .color .auto color?
  let routine ← single? items .routine none fun name => some (some name)
  let fuel ← single? items .fuel Limits.standard.fuel limit?
  let recursion ← single? items .recursionLimit Limits.standard.recursion limit?
  let compact ← flag? items .compact
  let noResult ← flag? items .noResult
  pure
    { verb, path, color, routine, compact, noResult
      args := items.filterMap (Item.value? .arg)
      limits := ⟨fuel, recursion⟩
      verbose := items.contains (.flag .verbose) }

def ofArguments? : List String → Option Request
  | [] => none
  | word :: rest =>
    match verb? word, Item.read? rest with
    | some verb, some items => ofItems? verb items
    | _, _ => none

end Request
end ForeignVM
