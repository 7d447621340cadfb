import ForeignVM.Decimal.Style
import ForeignVM.Json.Value
import ForeignVM.Value.Aggregate

/-!
# ForeignVM.Value.Text

Values as text. A struct or union is shown with all its fields, down to scalars, pointers and
procs.

* `Value.fold` — what a rendering of simple values and of aggregates makes of a value.
* `Value.text` — the readable form.
* `Value.json` — the value as JSON.
-/

namespace ForeignVM

/-- How simple values, and aggregates whose fields have been rendered, are rendered. -/
structure Rendering (α : Type) where
  leaf : Value → α
  node : AggregateLayout → List (String × α) → α

mutual

/-- Renders the value of the bytes of a shape. -/
def Shape.fold {α : Type} (r : Rendering α) : Shape → Bytes → α
  | .aggregate layout, bytes => Aggregated.fold r layout bytes
  | .scalar kind, bytes => r.leaf ((Shape.scalar kind).decode bytes)
  | .pointer pointee, bytes => r.leaf ((Shape.pointer pointee).decode bytes)
  | .proc closure, bytes => r.leaf ((Shape.proc closure).decode bytes)

def Aggregated.fold {α : Type} (r : Rendering α) : Aggregated Shape → Bytes → α
  | ⟨id, name, kind, fields, size, align⟩, bytes =>
    r.node ⟨id, name, kind, fields, size, align⟩ (Field.foldList r fields bytes)

def Field.foldList {α : Type} (r : Rendering α) : List (Field Shape) → Bytes → List (String × α)
  | [], _ => []
  | f :: rest, bytes => Field.fold r f bytes :: Field.foldList r rest bytes

def Field.fold {α : Type} (r : Rendering α) : Field Shape → Bytes → String × α
  | ⟨name, offset, _, shape⟩, bytes =>
    (name, Shape.fold r shape (slice offset shape.size bytes))

end

def Value.fold {α : Type} (r : Rendering α) : Value → α
  | .aggregate a => Aggregated.fold r a.layout a.bytes
  | v => r.leaf v

def Pointer.text (p : Pointer) : String :=
  let address := if p.isNull then "null" else "0x" ++ Numeral.hex p.address.toNat
  address ++ " as " ++ p.pointee.text ++ "*"

namespace ProcTarget

def text : ProcTarget → String
  | .routine id => "routine#" ++ toString id.position
  | .native id => "native#" ++ toString id.position

end ProcTarget

def ProcRef.text (p : ProcRef) : String :=
  let target :=
    match p.target with
    | none => "nil proc"
    | some t => "proc " ++ t.text
  if p.context = 0 then target else target ++ " ctx 0x" ++ Numeral.hex p.context.toNat

namespace Value

def leafText : Value → String
  | .void => "void"
  | .bool b => if b then "true" else "false"
  | .int v => toString v.toInt
  | .uint v => toString v.toNat
  | .float x => x.text
  | .pointer p => p.text
  | .proc p => p.text
  | .aggregate a => a.layout.name

def nodeText (layout : AggregateLayout) (fields : List (String × String)) : String :=
  layout.name ++ " \x7b " ++ ", ".intercalate (fields.map fun f => f.1 ++ ": " ++ f.2) ++ " \x7d"

def text (v : Value) : String := v.fold ⟨leafText, nodeText⟩

/-- Numbers that JSON cannot express are null. -/
def floatJson (x : Double) : Json :=
  if x.isFinite then .number (Style.json.finiteText x).toList else .null

def leafJson : Value → Json
  | .void => .null
  | .bool b => .bool b
  | .int v => .int v.toInt
  | .uint v => .num v.toNat
  | .float x => floatJson x
  | .pointer p =>
    .record [("address", .num p.address.toNat), ("pointee", .num p.pointee.position)]
  | .proc p =>
    .record [("target", .option (fun t => .str t.text) p.target), ("context", .num p.context.toNat)]
  | .aggregate _ => .null

def json (v : Value) : Json := v.fold ⟨leafJson, fun _ fields => .record fields⟩

end Value
end ForeignVM
