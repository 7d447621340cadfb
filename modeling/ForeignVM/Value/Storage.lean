import ForeignVM.Value.Scalar

/-!
# ForeignVM.Value.Storage

Values of any shape in memory. A place for pointers takes a pointer to any type; a place for
procs without closure takes no context word; a place for a struct or union takes only values of
that very type, and copies their bytes.

* `Shape.encode` — a value as the bytes of a shape, or why it does not fit.
* `Shape.decode` — the value of the bytes of a shape.
* `Shape.coerce` — what a value becomes when it is stored and read again.
* `Shape.zero`   — the value of zero bytes.
-/

namespace ForeignVM

def encodeWord (word : Nat) : Bytes := LittleEndian.encode wordSize word

/-- The word at the front of some bytes. -/
def decodeWord (bytes : Bytes) : Nat := LittleEndian.decode (bytes.take wordSize)

namespace Shape

def encode : Shape → Value → Except RuntimeError Bytes
  | .scalar kind, v =>
    match v.number? with
    | some n => .ok (kind.encode n)
    | none => .error (v.mismatch kind.name)
  | .pointer _, .pointer p => .ok (encodeWord p.address.toNat)
  | .proc false, .proc p =>
    if p.context = 0 then .ok (encodeWord p.codeWord) else .error .closureContext
  | .proc true, .proc p => .ok (encodeWord p.codeWord ++ encodeWord p.context.toNat)
  | .aggregate layout, .aggregate a =>
    if a.ty ≠ layout.id then
      .error ((Value.aggregate a).mismatch (Shape.aggregate layout).describe)
    else if a.bytes.length = layout.size then .ok a.bytes
    else .error (.abort (.lengthMismatch layout.size a.bytes.length))
  | s, v => .error (v.mismatch s.describe)

def decode : Shape → Bytes → Value
  | .scalar kind, bytes => kind.decode bytes
  | .pointer pointee, bytes => .pointer ⟨UInt64.ofNat (decodeWord bytes), pointee⟩
  | .proc false, bytes => .proc ⟨ProcRef.targetOf (decodeWord bytes), 0⟩
  | .proc true, bytes =>
    .proc ⟨ProcRef.targetOf (decodeWord bytes),
      UInt64.ofNat (decodeWord (bytes.drop wordSize))⟩
  | .aggregate layout, bytes => .aggregate (.ofBytes layout bytes)

def coerce (s : Shape) (v : Value) : Except RuntimeError Value :=
  match s.encode v with
  | .ok bytes => .ok (s.decode bytes)
  | .error e => .error e

def zero (s : Shape) : Value := s.decode (List.replicate s.size 0)

/-- An aggregate as long as the place of its type is copied. -/
theorem encode_aggregate {layout : AggregateLayout} {a : Aggregate} (hty : a.ty = layout.id)
    (hlength : a.bytes.length = layout.size) :
    (Shape.aggregate layout).encode (.aggregate a) = .ok a.bytes := by
  rw [encode, if_neg fun hne => hne hty, if_pos hlength]

/-- One of another length is not. -/
theorem encode_outsized {layout : AggregateLayout} {a : Aggregate} (hty : a.ty = layout.id)
    (hlength : a.bytes.length ≠ layout.size) :
    (Shape.aggregate layout).encode (.aggregate a) =
      .error (.abort (.lengthMismatch layout.size a.bytes.length)) := by
  rw [encode, if_neg fun hne => hne hty, if_neg hlength]

theorem encode_layout {layout : AggregateLayout} {a : Aggregate} (h : a.layout = layout) :
    (Shape.aggregate layout).encode (.aggregate a) = .ok a.bytes := by
  subst h
  exact encode_aggregate rfl a.length_bytes

/-- A value takes exactly the bytes of its shape. -/
theorem length_of_encode {s : Shape} {v : Value} {bytes : Bytes} (h : s.encode v = .ok bytes) :
    bytes.length = s.size := by
  unfold encode at h
  split at h
  · split at h
    · cases h
      exact ScalarKind.length_encode _ _
    · cases h
  · cases h
    exact LittleEndian.length_encode _ _
  · split at h
    · cases h
      exact LittleEndian.length_encode _ _
    · cases h
  · cases h
    simp [encodeWord, size, wordSize]
  · split at h
    · cases h
    · split at h
      · next hlength =>
        cases h
        exact hlength
      · cases h
  · cases h

end Shape
end ForeignVM
