import ForeignVM.Types.Table

/-!
# ForeignVM.Types.Validity

Which type tables can be laid out: every id that is mentioned is in the table, structs and
unions have fields, and no aggregate contains itself by value. Containment is followed depth
first; the order in which the types are finished puts each type after all its parts.

* `TypeTable.finishOrder` — that order, or the aggregate that contains itself.
* `TypeTable.validate`    — all conditions; the first violation is reported.
-/

namespace ForeignVM

inductive Mark where
  | fresh
  | entered
  | finished
  deriving DecidableEq, Repr

/-- How far a depth-first traversal has come; `order` lists the finished types, last first. -/
structure Traversal where
  marks : Array Mark
  order : List TypeId

namespace Traversal

def mark (s : Traversal) (id : TypeId) : Mark := s.marks.getD id.position .finished

def enter : Traversal → TypeId → Traversal
  | ⟨marks, order⟩, id => ⟨marks.setIfInBounds id.position .entered, order⟩

def finish : Traversal → TypeId → Traversal
  | ⟨marks, order⟩, id => ⟨marks.setIfInBounds id.position .finished, id :: order⟩

end Traversal

namespace TypeTable

def partsOf (t : TypeTable) (id : TypeId) : List TypeId :=
  match t.get? id with
  | some d => d.parts
  | none => []

/-- How a message names an aggregate. -/
def aggregateName (t : TypeTable) (id : TypeId) : String :=
  ((t.get? id).bind TypeDef.name?).getD id.text

/-- Visits a type after its parts. Entered types differ from one another, so `fuel` is enough
if it exceeds the number of types not yet entered. -/
def visit (t : TypeTable) : Nat → Traversal → TypeId → Except TypeError Traversal
  | 0, s, _ => .ok s
  | fuel + 1, s, id =>
    match s.mark id with
    | .finished => .ok s
    | .entered => .error (.recursiveAggregate (t.aggregateName id))
    | .fresh =>
      match (t.partsOf id).foldlM (t.visit fuel) (s.enter id) with
      | .error e => .error e
      | .ok s' => .ok (s'.finish id)

def finishOrder (t : TypeTable) : Except TypeError (List TypeId) :=
  match t.ids.foldlM (t.visit (t.size + 1)) ⟨Array.replicate t.size .fresh, []⟩ with
  | .error e => .error e
  | .ok s => .ok s.order.reverse

/-- Checks that all ids are in the table. -/
def requireAll (t : TypeTable) : List TypeId → Except TypeError Unit
  | [] => .ok ()
  | id :: rest =>
    match t.get id with
    | .error e => .error e
    | .ok _ => t.requireAll rest

def checkDef (t : TypeTable) (d : TypeDef) : Except TypeError Unit :=
  match d.name?, d.parts with
  | some name, [] => .error (.emptyAggregate name)
  | _, _ => t.requireAll d.mentions

def checkDefs (t : TypeTable) : List TypeDef → Except TypeError Unit
  | [] => .ok ()
  | d :: rest =>
    match t.checkDef d with
    | .error e => .error e
    | .ok () => t.checkDefs rest

def validate (t : TypeTable) : Except TypeError Unit :=
  match t.checkDefs t.defs.toList with
  | .error e => .error e
  | .ok () =>
    match t.finishOrder with
    | .error e => .error e
    | .ok _ => .ok ()

end TypeTable
end ForeignVM
