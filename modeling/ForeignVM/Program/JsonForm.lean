import ForeignVM.Json.Parser
import ForeignVM.Program.Basic

/-!
# ForeignVM.Program.JsonForm

Programs as JSON, for files that are edited by hand.

Structures are objects; reading also accepts an array of exactly the fields in order. Unknown
fields are ignored, a field that comes twice is refused, and a missing field only passes where
the value is optional. An alternative with contents is an object of one member. Maps are objects
in which the last of several members with the same name counts.

* `Program.toJson`, `Program.ofJson?` — the value.
* `Program.toText`, `Program.ofText?` — the text.
-/

namespace ForeignVM

namespace Json

/-- The fields of a structure by name, in the order of the names. -/
def fields? (names : List String) : Json → Option (List (Option Json))
  | .array items => if items.length = names.length then some (items.map some) else none
  | .object members =>
    match members.mapM fun m => m.1.decode.map fun name => (name, m.2) with
    | none => none
    | some named =>
      names.mapM fun name =>
        match named.filter (·.1 == name) with
        | [] => some none
        | [m] => some (some m.2)
        | _ => none
  | _ => none

/-- An optional value is absent or null. -/
def optional? {α : Type} (item : Json → Option α) : Option Json → Option (Option α)
  | none | some .null => some none
  | some j => (item j).map some

def list? {α : Type} (item : Json → Option α) : Json → Option (List α)
  | .array items => items.mapM item
  | _ => none

def bool? : Json → Option Bool
  | .bool b => some b
  | _ => none

def u8? (j : Json) : Option UInt8 := (j.nat? (2 ^ 8)).map UInt8.ofNat

def u16? (j : Json) : Option UInt16 := (j.nat? (2 ^ 16)).map UInt16.ofNat

def u32? (j : Json) : Option UInt32 := (j.nat? (2 ^ 32)).map UInt32.ofNat

/-- An alternative: its name and its contents. -/
def variant? : Json → Option (String × Json)
  | .object [(name, contents)] => name.decode.map fun n => (n, contents)
  | _ => none

/-- A number as the name of a member: decimal digits without escapes or leading zeros. -/
def u32Name? (t : Text) : Option UInt32 :=
  match t.plain? with
  | some ('0' :: _ :: _) => none
  | some cs => ((Numeral.read? cs).filter (· < 2 ^ 32)).map UInt32.ofNat
  | none => none

def typeId (id : TypeId) : Json := .num id.position

def routineId (id : RoutineId) : Json := .num id.position

def typeId? (j : Json) : Option TypeId := j.u16?.map TypeId.mk

def routineId? (j : Json) : Option RoutineId := j.u16?.map RoutineId.mk

/-- How the kinds are called in JSON. -/
def kindName : ScalarKind → String
  | .bool => "Bool"
  | .i8 => "I8"
  | .u8 => "U8"
  | .i16 => "I16"
  | .u16 => "U16"
  | .i32 => "I32"
  | .u32 => "U32"
  | .i64 => "I64"
  | .u64 => "U64"
  | .f32 => "F32"
  | .f64 => "F64"

def kindNamed? (name : String) : Option ScalarKind := ScalarKind.all.find? (kindName · == name)

/-- An alternative without contents is its name, or an object with null as contents. -/
def scalarKind? : Json → Option ScalarKind
  | .string t => t.decode.bind kindNamed?
  | j =>
    match j.variant? with
    | some (name, .null) => kindNamed? name
    | _ => none

def fieldMap (m : OrderedMap TypeId) : Json := .record (m.entries.map fun e => (e.1, typeId e.2))

def fieldEntry? (m : Text × Json) : Option (String × TypeId) := do
  let name ← m.1.decode
  let ty ← typeId? m.2
  pure (name, ty)

def fieldMap? : Json → Option (OrderedMap TypeId)
  | .object members => (members.mapM fieldEntry?).map OrderedMap.ofList
  | _ => none

def aggregate (name : String) (fields : OrderedMap TypeId) : Json :=
  .record [("name", .str name), ("fields", fieldMap fields)]

def typeDef : TypeDef → Json
  | .scalar kind => .record [("Scalar", .str (kindName kind))]
  | .struct name fields => .record [("Struct", aggregate name fields)]
  | .union name fields => .record [("Union", aggregate name fields)]
  | .pointer pointee => .record [("Pointer", .record [("pointee", typeId pointee)])]
  | .proc params ret closure =>
    .record [("Proc", .record [("params", .array (params.map typeId)),
      ("ret", .option typeId ret), ("closure", .bool closure)])]

def aggregate? (make : String → OrderedMap TypeId → TypeDef) (j : Json) : Option TypeDef := do
  match ← j.fields? ["name", "fields"] with
  | [some name, some fields] => pure (make (← name.string?) (← fieldMap? fields))
  | _ => none

def typeDef? (j : Json) : Option TypeDef := do
  match ← j.variant? with
  | ("Scalar", contents) => (scalarKind? contents).map .scalar
  | ("Struct", contents) => aggregate? .struct contents
  | ("Union", contents) => aggregate? .union contents
  | ("Pointer", contents) =>
    match ← contents.fields? ["pointee"] with
    | [some pointee] => (typeId? pointee).map .pointer
    | _ => none
  | ("Proc", contents) =>
    match ← contents.fields? ["params", "ret", "closure"] with
    | [some params, ret, some closure] =>
      pure (.proc (← params.list? typeId?) (← optional? typeId? ret) (← closure.bool?))
    | _ => none
  | _ => none

def node (n : SourceNode) : Json :=
  .record [("text", .str n.text), ("line", .num n.line.toNat), ("column", .num n.column.toNat)]

def node? (j : Json) : Option SourceNode := do
  match ← j.fields? ["text", "line", "column"] with
  | [some text, some line, some column] =>
    pure ⟨← text.string?, ← line.u32?, ← column.u32?⟩
  | _ => none

def sourceMap (m : SourceMap) : Json :=
  .record [("entries", .record (m.entries.map fun e => (toString e.1.toNat, node e.2)))]

def sourceEntry? (m : Text × Json) : Option (UInt32 × SourceNode) := do
  let ip ← u32Name? m.1
  let n ← node? m.2
  pure (ip, n)

def sourceMap? (j : Json) : Option SourceMap := do
  match ← j.fields? ["entries"] with
  | [some (.object members)] => (members.mapM sourceEntry?).map SourceMap.ofList
  | _ => none

def typeTable (t : TypeTable) : Json := .record [("defs", .array (t.defs.toList.map typeDef))]

def typeTable? (j : Json) : Option TypeTable := do
  match ← j.fields? ["defs"] with
  | [some defs] => (defs.list? typeDef?).map fun ds => ⟨ds.toArray⟩
  | _ => none

def routine (r : Routine) : Json :=
  .record [("name", .str r.name), ("entry", .num r.entry.toNat), ("params", .num r.params.toNat),
    ("locals", .array (r.locals.map typeId)), ("ret", .option typeId r.ret)]

def routine? (j : Json) : Option Routine := do
  match ← j.fields? ["name", "entry", "params", "locals", "ret"] with
  | [some name, some entry, some params, some locals, ret] =>
    pure ⟨← name.string?, ← entry.u32?, ← params.u16?, ← locals.list? typeId?,
      ← optional? typeId? ret⟩
  | _ => none

def constant (c : Constant) : Json :=
  .record [("name", .str c.name), ("ty", typeId c.ty), ("initializer", routineId c.initializer),
    ("offset", .num c.offset.toNat)]

def constant? (j : Json) : Option Constant := do
  match ← j.fields? ["name", "ty", "initializer", "offset"] with
  | [some name, some ty, some initializer, some offset] =>
    pure ⟨← name.string?, ← typeId? ty, ← routineId? initializer, ← offset.u32?⟩
  | _ => none

end Json

namespace Program

def toJson (p : Program) : Json :=
  .record [
    ("code", .array (p.code.toList.map fun b => .num b.toNat)),
    ("source_map", Json.sourceMap p.sources),
    ("types", Json.typeTable p.types),
    ("routines", .array (p.routines.toList.map Json.routine)),
    ("constants", .array (p.constants.map Json.constant)),
    ("natives", .array (p.natives.toList.map Json.str)),
    ("entry", .option Json.routineId p.entry)]

def ofJson? (j : Json) : Option Program := do
  let names := ["code", "source_map", "types", "routines", "constants", "natives", "entry"]
  match ← j.fields? names with
  | [some code, some sources, some types, some routines, some constants, some natives, entry] =>
    pure {
      code := (← code.list? Json.u8?).toArray
      sources := ← Json.sourceMap? sources
      types := ← Json.typeTable? types
      routines := (← routines.list? Json.routine?).toArray
      constants := ← constants.list? Json.constant?
      natives := (← natives.list? Json.string?).toArray
      entry := ← Json.optional? Json.routineId? entry }
  | _ => none

/-- The text of a program, indented. -/
def toText (p : Program) : String := p.toJson.pretty

def ofSymbols? (input : List Symbol) : Option Program := (Json.parse? input).bind ofJson?

def ofText? (text : String) : Option Program := ofSymbols? (text.toList.map some)

end Program
end ForeignVM
