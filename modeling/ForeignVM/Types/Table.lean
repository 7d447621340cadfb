import ForeignVM.Data.OrderedMap
import ForeignVM.Types.Id
import ForeignVM.Types.Scalar

/-!
# ForeignVM.Types.Table

Tables of resolved foreign types. A type is known by its position in the table, and types refer
to one another by these ids.

* `TypeDef`   — scalars, structs, unions, pointers and procs.
* `TypeError` — what can be wrong with a table or with a use of it.
* `TypeTable` — the table: `add`, `scalar`, `pointerTo`, `get`, `field`, `byName`, `name?`.
-/

namespace ForeignVM

inductive TypeDef where
  | scalar (kind : ScalarKind)
  | struct (name : String) (fields : OrderedMap TypeId)
  | union (name : String) (fields : OrderedMap TypeId)
  | pointer (pointee : TypeId)
  | proc (params : List TypeId) (ret : Option TypeId) (closure : Bool)
  deriving DecidableEq, Repr

namespace TypeDef

/-- The fields of a struct or union, in declaration order. -/
def fields? : TypeDef → Option (OrderedMap TypeId)
  | .struct _ fields | .union _ fields => some fields
  | _ => none

/-- The name of a struct or union. -/
def name? : TypeDef → Option String
  | .struct name _ | .union name _ => some name
  | _ => none

def isAggregate (d : TypeDef) : Bool := d.fields?.isSome

/-- The types that a value of this type contains. -/
def parts : TypeDef → List TypeId
  | .struct _ fields | .union _ fields => fields.values
  | _ => []

/-- All types that the definition names. -/
def mentions : TypeDef → List TypeId
  | .scalar _ => []
  | .struct _ fields | .union _ fields => fields.values
  | .pointer pointee => [pointee]
  | .proc params ret _ => params ++ ret.toList

end TypeDef

inductive TypeError where
  | unknownType (id : TypeId)
  | emptyAggregate (name : String)
  | recursiveAggregate (name : String)
  | notAggregate (id : TypeId)
  | notProc (id : TypeId)
  | unknownField (id : TypeId) (field : UInt16)
  deriving DecidableEq, Repr

def TypeError.message : TypeError → String
  | .unknownType id => "unknown type id " ++ id.text
  | .emptyAggregate name => "aggregate `" ++ name ++ "` has no fields"
  | .recursiveAggregate name => "aggregate `" ++ name ++ "` contains itself by value"
  | .notAggregate id => "type " ++ id.text ++ " is not an aggregate"
  | .notProc id => "type " ++ id.text ++ " is not a proc"
  | .unknownField id field => "aggregate " ++ id.text ++ " has no field #" ++ toString field.toNat

structure TypeTable where
  defs : Array TypeDef
  deriving DecidableEq, Repr

namespace TypeTable

def empty : TypeTable := ⟨#[]⟩

instance : Inhabited TypeTable := ⟨empty⟩

def size (t : TypeTable) : Nat := t.defs.size

/-- The ids of all entries, in order. -/
def ids (t : TypeTable) : List TypeId := (List.range t.size).map TypeId.ofPosition

def get? (t : TypeTable) (id : TypeId) : Option TypeDef := t.defs[id.position]?

def get (t : TypeTable) (id : TypeId) : Except TypeError TypeDef :=
  match t.get? id with
  | some d => .ok d
  | none => .error (.unknownType id)

/-- Appends a definition and gives its id. -/
def add (t : TypeTable) (d : TypeDef) : TypeTable × TypeId :=
  let id := .ofPosition t.size
  (⟨t.defs.push d⟩, id)

/-- The id of the first equal definition, which is appended if there is none. -/
def findOrAdd (t : TypeTable) (d : TypeDef) : TypeTable × TypeId :=
  match t.defs.findIdx? (· == d) with
  | some i => (t, .ofPosition i)
  | none => t.add d

def scalar (t : TypeTable) (kind : ScalarKind) : TypeTable × TypeId := t.findOrAdd (.scalar kind)

def pointerTo (t : TypeTable) (pointee : TypeId) : TypeTable × TypeId :=
  t.findOrAdd (.pointer pointee)

/-- The first struct or union of that name. -/
def byName? (t : TypeTable) (name : String) : Option TypeId :=
  (t.defs.findIdx? (·.name? == some name)).map .ofPosition

/-- The name and type of a field of an aggregate. -/
def field (t : TypeTable) (id : TypeId) (field : UInt16) : Except TypeError (String × TypeId) :=
  match t.get id with
  | .error e => .error e
  | .ok d =>
    match d.fields? with
    | none => .error (.notAggregate id)
    | some fields =>
      match fields.get? field.toNat with
      | none => .error (.unknownField id field)
      | some entry => .ok entry

/-- The parameters and the result of a proc type. -/
def signature (t : TypeTable) (id : TypeId) : Except TypeError (List TypeId × Option TypeId) :=
  match t.get id with
  | .error e => .error e
  | .ok (.proc params ret _) => .ok (params, ret)
  | .ok _ => .error (.notProc id)

/-- The readable name of an entry of a table, where `names` gives those of other types. -/
def spell? (names : TypeId → Option String) (id : TypeId) : Option TypeDef → Option String
  | none => some id.text
  | some (.scalar kind) => some kind.name
  | some (.struct name _) | some (.union name _) => some name
  | some (.pointer pointee) => do
    let name ← names pointee
    some (name ++ "*")
  | some (.proc params ret _) => do
    let shown ← params.mapM names
    let result ←
      match ret with
      | none => some "void"
      | some id => names id
    some ("Proc(" ++ ", ".intercalate shown ++ " -> " ++ result ++ ")")

/-- The readable name of a type, unless it has `depth` types or more within one another. -/
def nameTo? (t : TypeTable) : Nat → TypeId → Option String
  | 0, _ => none
  | depth + 1, id => spell? (t.nameTo? depth) id (t.get? id)

/-- The readable name of a type. There is none if pointers and procs lead from the type to one that
they lead back to: such a name has no end. Others have no more types within one another than the
table has, and one that is not in it. -/
def name? (t : TypeTable) (id : TypeId) : Option String := t.nameTo? (t.size + 1) id

end TypeTable
end ForeignVM
