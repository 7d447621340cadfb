import ForeignVM.Data.Power
import ForeignVM.Types.Validity

/-!
# ForeignVM.Layout

The memory layout of foreign types, as a C compiler of the host lays them out. The fields of a
struct lie in declaration order, each at the next multiple of its alignment, and the size is
rounded up to the alignment of the struct. The fields of a union all lie at its start. Sizes and
offsets are counted in machine words: what is too large for one wraps around.

* `Shape`               — how the values of a type are stored.
* `alignUp`, `Placement.sequence` — the arithmetic of offsets, in words.
* `Placement.ofStruct`, `Placement.ofUnion` — where the parts of an aggregate lie.
* `Layouts.compute`     — the shapes of all types of a valid table.
-/

namespace ForeignVM

/-- The size of a pointer, of a code word and of a context word. -/
def wordSize : Nat := 8

inductive AggregateKind where
  | struct
  | union
  deriving DecidableEq, Repr

structure Field (S : Type) where
  name : String
  offset : Nat
  ty : TypeId
  shape : S

/-- A struct or union whose fields have shapes in `S`. -/
structure Aggregated (S : Type) where
  id : TypeId
  name : String
  kind : AggregateKind
  fields : List (Field S)
  size : Nat
  align : Nat

/-- A proc is stored as a code word, a closure with a context word behind it. -/
inductive Shape where
  | scalar (kind : ScalarKind)
  | pointer (pointee : TypeId)
  | proc (closure : Bool)
  | aggregate (layout : Aggregated Shape)

abbrev FieldLayout := Field Shape

abbrev AggregateLayout := Aggregated Shape

namespace Aggregated

variable {S : Type}

def field (l : Aggregated S) (i : UInt16) : Except TypeError (Field S) :=
  match l.fields[i.toNat]? with
  | some f => .ok f
  | none => .error (.unknownField l.id i)

def fieldNamed? (l : Aggregated S) (name : String) : Option (Field S) :=
  l.fields.find? (·.name == name)

end Aggregated

namespace Shape

def size : Shape → Nat
  | .scalar kind => kind.size
  | .pointer _ => wordSize
  | .proc closure => if closure then 2 * wordSize else wordSize
  | .aggregate layout => layout.size

def align : Shape → Nat
  | .scalar kind => kind.align
  | .pointer _ | .proc _ => wordSize
  | .aggregate layout => layout.align

/-- The shape in messages. -/
def describe : Shape → String
  | .scalar kind => kind.name
  | .pointer pointee => pointee.text ++ "*"
  | .proc false => "proc"
  | .proc true => "closure proc"
  | .aggregate layout => "`" ++ layout.name ++ "`"

end Shape

/-- What a machine word holds of a number. -/
def wrapWord (n : Nat) : Nat := n % 2 ^ 64

/-- The least multiple of `align` that is not below `n`. The division is exact, so only the product
can be too large. -/
def alignUp (n align : Nat) : Nat := wrapWord ((n + align - 1) / align * align)

structure Placement where
  offsets : List Nat
  size : Nat
  align : Nat
  deriving DecidableEq, Repr

namespace Placement

def maxAlign (shapes : List Shape) : Nat := shapes.foldl (fun a s => max a s.align) 1

/-- The offsets of parts that follow one another from `start` on, and the end of the last. After a
part that ends beyond all words, the next one begins at the front again. -/
def sequence : Nat → List Shape → List Nat × Nat
  | start, [] => ([], start)
  | start, s :: rest =>
    let offset := alignUp start s.align
    let (offsets, stop) := sequence (wrapWord (offset + s.size)) rest
    (offset :: offsets, stop)

def ofStruct (shapes : List Shape) : Placement :=
  let (offsets, stop) := sequence 0 shapes
  ⟨offsets, alignUp stop (maxAlign shapes), maxAlign shapes⟩

def ofUnion (shapes : List Shape) : Placement :=
  let size := shapes.foldl (fun n s => max n s.size) 0
  ⟨shapes.map fun _ => 0, alignUp size (maxAlign shapes), maxAlign shapes⟩

def ofKind : AggregateKind → List Shape → Placement
  | .struct => ofStruct
  | .union => ofUnion

end Placement

structure Layouts where
  types : TypeTable
  shapes : Array Shape

namespace Layouts

/-- The fields with their shapes and offsets. -/
def fieldLayouts : List (String × TypeId) → List Shape → List Nat → List FieldLayout
  | (name, ty) :: fields, shape :: shapes, offset :: offsets =>
    ⟨name, offset, ty, shape⟩ :: fieldLayouts fields shapes offsets
  | _, _, _ => []

def aggregateShape (id : TypeId) (name : String) (kind : AggregateKind)
    (fields : OrderedMap TypeId) (shapes : List Shape) : Shape :=
  let p := Placement.ofKind kind shapes
  .aggregate ⟨id, name, kind, fieldLayouts fields.entries shapes p.offsets, p.size, p.align⟩

/-- A shape that has been computed before. -/
def known (shapes : Array (Option Shape)) (id : TypeId) : Except TypeError Shape :=
  match shapes.getD id.position none with
  | some s => .ok s
  | none => .error (.unknownType id)

/-- The shape of a definition whose parts have been computed. -/
def shapeOf (shapes : Array (Option Shape)) (id : TypeId) : TypeDef → Except TypeError Shape
  | .scalar kind => .ok (.scalar kind)
  | .pointer pointee => .ok (.pointer pointee)
  | .proc _ _ closure => .ok (.proc closure)
  | .struct name fields =>
    match fields.values.mapM (known shapes) with
    | .error e => .error e
    | .ok parts => .ok (aggregateShape id name .struct fields parts)
  | .union name fields =>
    match fields.values.mapM (known shapes) with
    | .error e => .error e
    | .ok parts => .ok (aggregateShape id name .union fields parts)

/-- Computes the shape of one more type. -/
def extend (t : TypeTable) (shapes : Array (Option Shape)) (id : TypeId) :
    Except TypeError (Array (Option Shape)) :=
  match t.get id with
  | .error e => .error e
  | .ok d =>
    match shapeOf shapes id d with
    | .error e => .error e
    | .ok s => .ok (shapes.setIfInBounds id.position (some s))

/-- The shapes of all types, each computed once and after those of its parts. -/
def computeShapes (t : TypeTable) : Except TypeError (List Shape) := do
  let order ← t.finishOrder
  let shapes ← order.foldlM (extend t) (Array.replicate t.size none)
  t.ids.mapM (known shapes)

def compute (t : TypeTable) : Except TypeError Layouts :=
  match t.validate with
  | .error e => .error e
  | .ok () =>
    match computeShapes t with
    | .error e => .error e
    | .ok shapes => .ok ⟨t, shapes.toArray⟩

def shape (l : Layouts) (id : TypeId) : Except TypeError Shape :=
  match l.shapes[id.position]? with
  | some s => .ok s
  | none => .error (.unknownType id)

def sizeOf (l : Layouts) (id : TypeId) : Except TypeError Nat :=
  match l.shape id with
  | .ok s => .ok s.size
  | .error e => .error e

def aggregate (l : Layouts) (id : TypeId) : Except TypeError AggregateLayout :=
  match l.shape id with
  | .ok (.aggregate layout) => .ok layout
  | .ok _ => .error (.notAggregate id)
  | .error e => .error e

end Layouts
end ForeignVM
