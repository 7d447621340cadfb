import ForeignVM.Value.Storage

/-!
# ForeignVM.Value.Pointer

Typed access to memory. A pointer owns nothing: loading copies the bytes out, storing writes
through, and a pointer to a field points into the same bytes.

* `Memory.load`, `Memory.store`   — a value of a shape at an address.
* `Pointer.load`, `Pointer.store` — the pointee.
* `Pointer.field`, `Pointer.index` — pointers to a field and to another element of an array.
-/

namespace ForeignVM
namespace Memory

def load (m : Memory) (address : UInt64) (s : Shape) : Except RuntimeError Value :=
  match m.read address s.size with
  | .error e => .error (.memory e)
  | .ok bytes => .ok (s.decode bytes)

/-- The place is looked at before the value. -/
def store (m : Memory) (address : UInt64) (s : Shape) (v : Value) : Except RuntimeError Memory :=
  match m.blockAt address s.size with
  | .error e => .error (.memory e)
  | .ok _ =>
    match s.encode v with
    | .error e => .error e
    | .ok bytes =>
      match m.write address bytes with
      | .error e => .error (.memory e)
      | .ok m => .ok m

end Memory

/-- The number that the low 64 bits of `n` are as a signed word. -/
def signedWord (n : Nat) : Int := Int.bmod n (2 ^ 64)

/-- The address of what lies `offset` bytes behind another address. -/
def Address.advance (address : UInt64) (offset : Nat) : Except MemoryError UInt64 :=
  Address.shift address (signedWord offset)

namespace Pointer

def load (p : Pointer) (m : Memory) (l : Layouts) : Except RuntimeError Value :=
  match l.shape p.pointee with
  | .error e => .error (.type e)
  | .ok s => m.load p.address s

def store (p : Pointer) (m : Memory) (l : Layouts) (v : Value) : Except RuntimeError Memory :=
  match l.shape p.pointee with
  | .error e => .error (.type e)
  | .ok s => m.store p.address s v

def field (p : Pointer) (l : Layouts) (i : UInt16) : Except RuntimeError Pointer :=
  match l.shape p.pointee with
  | .error e => .error (.type e)
  | .ok (.aggregate layout) =>
    match layout.field i with
    | .error e => .error (.type e)
    | .ok f =>
      match Address.advance p.address f.offset with
      | .error e => .error (.memory e)
      | .ok address => .ok ⟨address, f.ty⟩
  | .ok _ => .error ((Value.pointer p).mismatch "struct or union pointer")

/-- The element `i` places on. The distance in bytes has to fit a signed word. -/
def index (p : Pointer) (l : Layouts) (i : Int64) : Except RuntimeError Pointer :=
  match l.sizeOf p.pointee with
  | .error e => .error (.type e)
  | .ok size =>
    let delta := i.toInt * signedWord size
    if -2 ^ 63 ≤ delta ∧ delta < 2 ^ 63 then
      match Address.shift p.address delta with
      | .error e => .error (.memory e)
      | .ok address => .ok ⟨address, p.pointee⟩
    else .error (.memory (.invalidAddress p.address))

end Pointer
end ForeignVM
