import ForeignVM.Data.ByteStore
import ForeignVM.Data.OrderedMap
import ForeignVM.Pool.Error
import ForeignVM.Types.Id

/-!
# ForeignVM.Pool.Basic

Storage of constants that are computed on first use. A constant takes a flag byte, which is not
zero once its value is there, and the bytes of the value behind it. The places follow one another
in the order of declaration.

* `Pool.Result`  — what a change of the pool ends in.
* `Pool.declare` — reserves the place of one more constant.
* `Pool.store`   — writes the value of a constant, once and for all.
* `Pool.entry`, `isInitialized`, `data`, `initializer` — what is known at an offset.
-/

namespace ForeignVM

structure PoolEntry where
  name : String
  ty : TypeId
  offset : UInt32
  size : Nat
  initializer : RoutineId
  deriving DecidableEq, Repr

structure Pool where
  entries : OrderedMap PoolEntry
  byOffset : SparseArray PoolEntry
  storage : ByteStore
  reserved : Nat
  deriving DecidableEq, Repr

namespace Pool

def empty : Pool := ⟨.empty, .empty, .empty, 0⟩

instance : Inhabited Pool := ⟨empty⟩

/-- The result of a change, with the pool that it leaves behind, also when it is refused. -/
abbrev Result (α : Type) := EStateM.Result PoolError Pool α

/-- The constant takes the next free offset, of which an address keeps 32 bits. -/
def declare (p : Pool) (name : String) (ty : TypeId) (size : Nat) (initializer : RoutineId) :
    Result UInt32 :=
  if p.entries.contains name then .error (.alreadyDeclared name) p
  else
    let offset := UInt32.ofNat p.reserved
    let entry : PoolEntry := ⟨name, ty, offset, size, initializer⟩
    .ok offset
      ⟨p.entries.insert name entry, p.byOffset.put offset.toNat (some entry), p.storage,
        p.reserved + 1 + size⟩

def offsetOf? (p : Pool) (name : String) : Option UInt32 := (p.entries.find? name).map (·.offset)

def entry (p : Pool) (offset : UInt32) : Except PoolError PoolEntry :=
  match p.byOffset.get? offset.toNat with
  | some e => .ok e
  | none => .error (.undeclaredOffset offset)

/-- The routine that computes the constant at an offset. -/
def initializer (p : Pool) (offset : UInt32) : Except PoolError RoutineId :=
  match p.byOffset.get? offset.toNat with
  | some e => .ok e.initializer
  | none => .error (.missingInitializer offset)

/-- The flag at an offset, whatever was declared there. -/
def flag (p : Pool) (offset : UInt32) : Bool := p.storage.byteAt offset.toNat ≠ 0

def bytesOf (p : Pool) (e : PoolEntry) : Bytes := p.storage.read (e.offset.toNat + 1) e.size

def isInitialized (p : Pool) (offset : UInt32) : Except PoolError Bool :=
  match p.entry offset with
  | .error e => .error e
  | .ok _ => .ok (p.flag offset)

/-- The value bytes of a constant, which are zero before it is initialized. -/
def data (p : Pool) (offset : UInt32) : Except PoolError Bytes :=
  match p.entry offset with
  | .error e => .error e
  | .ok e => .ok (p.bytesOf e)

def store (p : Pool) (offset : UInt32) (bytes : Bytes) : Result Unit :=
  match p.entry offset with
  | .error e => .error e p
  | .ok e =>
    if p.flag offset then .error (.alreadyInitialized offset) p
    else if bytes.length ≠ e.size then .error (.sizeMismatch offset e.size bytes.length) p
    else .ok () { p with storage := p.storage.write offset.toNat (1 :: bytes) }

/-- All checks come before the value is written. -/
theorem eq_of_store_refused {p q : Pool} {o : UInt32} {bytes : Bytes} {e : PoolError}
    (h : p.store o bytes = .error e q) : q = p := by
  unfold store at h
  split at h
  · cases h
    rfl
  · split at h
    · cases h
      rfl
    · split at h
      · cases h
        rfl
      · cases h

end Pool
end ForeignVM
