import ForeignVM.Code.SourceMap
import ForeignVM.Types.Table

/-!
# ForeignVM.Program.Basic

Compiled programs: code with its sources, types, routines, constants and the names of the native
procedures it calls.

* `Program.routine?`, `routineNamed?`, `labelAt?` — routines by id, by name and by entry address.
-/

namespace ForeignVM

/-- A routine: its leading locals are filled from the arguments of a call. -/
structure Routine where
  name : String
  entry : UInt32
  params : UInt16
  locals : List TypeId
  ret : Option TypeId
  deriving DecidableEq, Repr, Inhabited

/-- A global constant, which a routine without parameters computes on first use. Its place in
the pool starts at `offset`. -/
structure Constant where
  name : String
  ty : TypeId
  initializer : RoutineId
  offset : UInt32
  deriving DecidableEq, Repr, Inhabited

structure Program where
  code : Array UInt8
  sources : SourceMap
  types : TypeTable
  routines : Array Routine
  constants : List Constant
  natives : Array String
  entry : Option RoutineId
  deriving DecidableEq, Repr

namespace Program

def routine? (p : Program) (id : RoutineId) : Option Routine := p.routines[id.position]?

/-- The first routine of that name. -/
def routineNamed? (p : Program) (name : String) : Option RoutineId :=
  (p.routines.findIdx? (·.name == name)).map .ofPosition

/-- The name of the first routine that starts at an address. -/
def labelAt? (p : Program) (ip : UInt32) : Option String :=
  (p.routines.find? (·.entry == ip)).map (·.name)

end Program
end ForeignVM
