import ForeignVM.Data.Slice
import ForeignVM.Float.Double
import ForeignVM.Layout
import ForeignVM.RuntimeError

/-!
# ForeignVM.Value.Basic

Values of running programs. Scalars are wide: all signed integers are one kind of value, all
unsigned integers another, and both widths of floating-point numbers a third. A struct or union
is held by value, as a copy of its bytes.

* `Pointer`, `ProcRef`, `Aggregate` — the values that are not scalars.
* `Value`                           — all values.
* `Value.equal`                     — equality as programs see it.
-/

namespace ForeignVM

/-- An address and the type of what is there. -/
structure Pointer where
  address : UInt64
  pointee : TypeId
  deriving DecidableEq, Repr

namespace Pointer

def null (pointee : TypeId) : Pointer := ⟨0, pointee⟩

def isNull (p : Pointer) : Bool := p.address = 0

end Pointer

inductive ProcTarget where
  | routine (id : RoutineId)
  | native (id : NativeId)
  deriving DecidableEq, Repr

/-- What a call through a proc value calls, and the context word of a closure, zero if there is
none. -/
structure ProcRef where
  target : Option ProcTarget
  context : UInt64
  deriving DecidableEq, Repr

namespace ProcRef

def nil : ProcRef := ⟨none, 0⟩

def routine (id : RoutineId) : ProcRef := ⟨some (.routine id), 0⟩

def native (id : NativeId) : ProcRef := ⟨some (.native id), 0⟩

def isNil (p : ProcRef) : Bool := p.target.isNone

/-- Marks the code word of a native. -/
def nativeBit : Nat := 63

/-- Marks the code word of a routine. -/
def routineBit : Nat := 62

/-- The word in which memory keeps the target: zero for none, else the index under a mark. -/
def codeWord (p : ProcRef) : Nat :=
  match p.target with
  | none => 0
  | some (.routine id) => 2 ^ routineBit + id.position
  | some (.native id) => 2 ^ nativeBit + id.position

/-- The target of a code word. A word without a mark means no target, whatever else it holds. -/
def targetOf (code : Nat) : Option ProcTarget :=
  let index := UInt16.ofNat code
  if code.testBit nativeBit then some (.native ⟨index⟩)
  else if code.testBit routineBit then some (.routine ⟨index⟩)
  else none

end ProcRef

/-- A struct or union with its bytes. -/
structure Aggregate where
  layout : AggregateLayout
  bytes : Bytes
  length_bytes : bytes.length = layout.size

namespace Aggregate

def ofBytes (layout : AggregateLayout) (bytes : Bytes) : Aggregate :=
  ⟨layout, fit layout.size bytes, length_fit _ _⟩

def ty (a : Aggregate) : TypeId := a.layout.id

def isUnion (a : Aggregate) : Bool := a.layout.kind = .union

end Aggregate

inductive Value where
  | void
  | bool (b : Bool)
  | int (v : Int64)
  | uint (v : UInt64)
  | float (x : Double)
  | pointer (p : Pointer)
  | proc (p : ProcRef)
  | aggregate (a : Aggregate)

namespace Value

instance : Inhabited Value := ⟨.void⟩

/-- The kind of a value in messages. -/
def kindName : Value → String
  | .void => "void"
  | .bool _ => "bool"
  | .int _ => "int"
  | .uint _ => "uint"
  | .float _ => "float"
  | .pointer p => p.pointee.text ++ "*"
  | .proc _ => "proc"
  | .aggregate a => "`" ++ a.layout.name ++ "`"

/-- The error of a value that stands where another kind is expected. -/
def mismatch (expected : String) (found : Value) : RuntimeError :=
  .typeMismatch expected found.kindName

/-- The bits of an integer as a signed number, which is what indices and context words are. -/
def int64? : Value → Option Int64
  | .int v => some v
  | .uint v => some v.toInt64
  | _ => none

/-- Whether two values are of one kind; the types of pointers and aggregates do not matter. -/
def sameKind : Value → Value → Bool
  | .void, .void => true
  | .bool _, .bool _ => true
  | .int _, .int _ => true
  | .uint _, .uint _ => true
  | .float _, .float _ => true
  | .pointer _, .pointer _ => true
  | .proc _, .proc _ => true
  | .aggregate _, .aggregate _ => true
  | _, _ => false

/-- Floating-point numbers are compared as numbers, aggregates byte by byte. -/
def equal : Value → Value → Bool
  | .void, .void => true
  | .bool a, .bool b => a == b
  | .int a, .int b => a == b
  | .uint a, .uint b => a == b
  | .float a, .float b => a.equal b
  | .pointer a, .pointer b => a == b
  | .proc a, .proc b => a == b
  | .aggregate a, .aggregate b => a.ty == b.ty && a.bytes == b.bytes
  | _, _ => false

end Value
end ForeignVM
