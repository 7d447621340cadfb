import ForeignVM.Program.Basic
import ForeignVM.Value.Pointer

/-!
# ForeignVM.Machine.Basic

A machine: a program with everything that is settled before it runs.

* `Limits`        — how many instructions a run may take and how deep calls may nest.
* `FrameLayout`   — where the locals of a routine lie in the block of a frame.
* `Native`        — a procedure of the host, with a state of its own.
* `Machine.build` — lays out types and frames and binds the natives.
-/

namespace ForeignVM

structure Limits where
  fuel : UInt32
  recursion : UInt32
  deriving DecidableEq, Repr

def Limits.standard : Limits := ⟨1000000, 1024⟩

structure Slot where
  offset : Nat
  ty : TypeId
  shape : Shape

/-- The locals of a routine lie like the fields of a struct. -/
structure FrameLayout where
  slots : Array Slot
  size : Nat

namespace FrameLayout

/-- The slots of locals that are placed one after another. -/
def slotsOf : List TypeId → List Shape → List Nat → List Slot
  | ty :: types, shape :: shapes, offset :: offsets =>
    ⟨offset, ty, shape⟩ :: slotsOf types shapes offsets
  | _, _, _ => []

def ofLocals (l : Layouts) (locals : List TypeId) : Except TypeError FrameLayout :=
  match locals.mapM l.shape with
  | .error e => .error e
  | .ok shapes =>
    let p := Placement.ofStruct shapes
    .ok ⟨(slotsOf locals shapes p.offsets).toArray, p.size⟩

end FrameLayout

/-- What a native is called with; the context is zero unless a closure is called. -/
structure NativeCall where
  name : String
  args : List Value
  context : UInt64
  layouts : Layouts

/-- A procedure of the host. It may change the memory and its own state, also when it fails. -/
abbrev Native (σ : Type) :=
  NativeCall → Memory → σ → Except RuntimeError Value × Memory × σ

/-- A routine that can be called. -/
structure Callee where
  routine : Routine
  frame : FrameLayout

structure Machine (σ : Type) where
  program : Program
  layouts : Layouts
  callees : Array Callee
  natives : Array (String × Native σ)
  limits : Limits

namespace Machine

variable {σ : Type}

def callee? (m : Machine σ) (id : RoutineId) : Option Callee := m.callees[id.position]?

def native? (m : Machine σ) (id : NativeId) : Option (String × Native σ) :=
  m.natives[id.position]?

def calleeOf (l : Layouts) (r : Routine) : Except RuntimeError Callee :=
  match FrameLayout.ofLocals l r.locals with
  | .ok frame => .ok ⟨r, frame⟩
  | .error e => .error (.type e)

def bindNative (registry : String → Option (Native σ)) (name : String) :
    Except RuntimeError (String × Native σ) :=
  match registry name with
  | some native => .ok (name, native)
  | none => .error (.unknownNative name)

def build (program : Program) (registry : String → Option (Native σ)) (limits : Limits) :
    Except RuntimeError (Machine σ) :=
  match Layouts.compute program.types with
  | .error e => .error (.type e)
  | .ok layouts =>
    match program.routines.toList.mapM (calleeOf layouts) with
    | .error e => .error e
    | .ok callees =>
      match program.natives.toList.mapM (bindNative registry) with
      | .error e => .error e
      | .ok natives => .ok ⟨program, layouts, callees.toArray, natives.toArray, limits⟩

end Machine
end ForeignVM
