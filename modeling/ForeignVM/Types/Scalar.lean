/-!
# ForeignVM.Types.Scalar

The primitive types of foreign values. Each has a stable code, by which a cast names it, and the
size and alignment of the host, a 64-bit machine where every scalar is aligned to its size.
-/

namespace ForeignVM

inductive ScalarKind where
  | bool
  | i8
  | u8
  | i16
  | u16
  | i32
  | u32
  | i64
  | u64
  | f32
  | f64
  deriving DecidableEq, Repr, Inhabited

namespace ScalarKind

/-- All kinds in the order of their codes. -/
def all : List ScalarKind := [bool, i8, u8, i16, u16, i32, u32, i64, u64, f32, f64]

def code (k : ScalarKind) : Nat := k.ctorIdx

def ofCode? (code : Nat) : Option ScalarKind := all[code]?

def size : ScalarKind → Nat
  | bool | i8 | u8 => 1
  | i16 | u16 => 2
  | i32 | u32 | f32 => 4
  | i64 | u64 | f64 => 8

def align (k : ScalarKind) : Nat := k.size

def isFloat : ScalarKind → Bool
  | f32 | f64 => true
  | _ => false

/-- Floats count as signed. -/
def isSigned : ScalarKind → Bool
  | i8 | i16 | i32 | i64 | f32 | f64 => true
  | _ => false

def name : ScalarKind → String
  | bool => "bool"
  | i8 => "i8"
  | u8 => "u8"
  | i16 => "i16"
  | u16 => "u16"
  | i32 => "i32"
  | u32 => "u32"
  | i64 => "i64"
  | u64 => "u64"
  | f32 => "f32"
  | f64 => "f64"

theorem ofCode?_code (k : ScalarKind) : ofCode? k.code = some k := by cases k <;> rfl

end ScalarKind
end ForeignVM
