/-!
# ForeignVM.Types.Id

Sixteen-bit names of types, routines and native procedures. An id made from a position in a
longer list keeps the low sixteen bits of the position.
-/

namespace ForeignVM

structure TypeId where
  index : UInt16
  deriving DecidableEq, Repr, Inhabited

structure RoutineId where
  index : UInt16
  deriving DecidableEq, Repr, Inhabited

structure NativeId where
  index : UInt16
  deriving DecidableEq, Repr, Inhabited

namespace TypeId

def ofPosition (i : Nat) : TypeId := ⟨UInt16.ofNat i⟩

def position (id : TypeId) : Nat := id.index.toNat

def text (id : TypeId) : String := "T" ++ toString id.position

end TypeId

namespace RoutineId

def ofPosition (i : Nat) : RoutineId := ⟨UInt16.ofNat i⟩

def position (id : RoutineId) : Nat := id.index.toNat

end RoutineId

def NativeId.position (id : NativeId) : Nat := id.index.toNat

end ForeignVM
