import ForeignVM.Value.Storage

/-!
# ForeignVM.Value.Aggregate

Access to the fields of structs and unions held by value. A union has no tag: each field reads
the shared bytes as its own type, whichever was written last.

* `Aggregate.get`, `set`           — a field by its position.
* `Aggregate.getNamed`, `setNamed` — a field by its name.
* `Aggregate.fields`               — all fields with their names.
* `Aggregate.Covers`               — the place of a field is there, so that it is read and written.
-/

namespace ForeignVM
namespace Aggregate

def zero (layout : AggregateLayout) : Aggregate := ofBytes layout []

/-- The place of the field is inside of the bytes. Where the size of the layout has wrapped around,
it need not be. -/
def Covers (a : Aggregate) (f : FieldLayout) : Prop := f.offset + f.shape.size ≤ a.bytes.length

instance (a : Aggregate) (f : FieldLayout) : Decidable (a.Covers f) :=
  inferInstanceAs (Decidable (_ ≤ _))

def beyond (a : Aggregate) (f : FieldLayout) : RuntimeError :=
  .abort (.outOfRange f.offset f.shape.size a.bytes.length)

def read (a : Aggregate) (f : FieldLayout) : Value :=
  f.shape.decode (slice f.offset f.shape.size a.bytes)

def readField (a : Aggregate) (f : FieldLayout) : Except RuntimeError Value :=
  if a.Covers f then .ok (a.read f) else .error (a.beyond f)

/-- The place is found before the value is looked at, but its end only afterwards. -/
def write (a : Aggregate) (f : FieldLayout) (v : Value) : Except RuntimeError Aggregate :=
  if a.bytes.length < f.offset then .error (a.beyond f)
  else
    match f.shape.encode v with
    | .error e => .error e
    | .ok bytes =>
      if a.Covers f then
        .ok ⟨a.layout, overlay f.offset bytes a.bytes,
          (length_overlay f.offset bytes a.bytes).trans a.length_bytes⟩
      else .error (a.beyond f)

def get (a : Aggregate) (i : UInt16) : Except RuntimeError Value :=
  match a.layout.field i with
  | .error e => .error (.type e)
  | .ok f => a.readField f

def set (a : Aggregate) (i : UInt16) (v : Value) : Except RuntimeError Aggregate :=
  match a.layout.field i with
  | .error e => .error (.type e)
  | .ok f => a.write f v

def getNamed (a : Aggregate) (name : String) : Except RuntimeError Value :=
  match a.layout.fieldNamed? name with
  | none => .error (.unknownField a.layout.name name)
  | some f => a.readField f

def setNamed (a : Aggregate) (name : String) (v : Value) : Except RuntimeError Aggregate :=
  match a.layout.fieldNamed? name with
  | none => .error (.unknownField a.layout.name name)
  | some f => a.write f v

def fields (a : Aggregate) : List (String × Value) :=
  a.layout.fields.map fun f => (f.name, a.read f)

theorem covers_of_inside {a : Aggregate} {f : FieldLayout}
    (h : f.offset + f.shape.size ≤ a.layout.size) : a.Covers f :=
  Nat.le_trans h (Nat.le_of_eq a.length_bytes.symm)

theorem get_of_covers {a : Aggregate} {i : UInt16} {f : FieldLayout}
    (hf : a.layout.field i = .ok f) (h : a.Covers f) : a.get i = .ok (a.read f) := by
  rw [get, hf]
  exact if_pos h

theorem get_eq_ok {a : Aggregate} {i : UInt16} {v : Value} (h : a.get i = .ok v) :
    ∃ f, a.layout.field i = .ok f ∧ a.Covers f ∧ v = a.read f := by
  unfold get at h
  split at h
  · cases h
  · next f hf =>
    unfold readField at h
    split at h
    · next hcovers =>
      cases h
      exact ⟨f, hf, hcovers, rfl⟩
    · cases h

theorem write_of_covers {a : Aggregate} {f : FieldLayout} (h : a.Covers f) (v : Value) :
    a.write f v =
      match f.shape.encode v with
      | .error e => .error e
      | .ok bytes =>
        .ok ⟨a.layout, overlay f.offset bytes a.bytes,
          (length_overlay f.offset bytes a.bytes).trans a.length_bytes⟩ := by
  have hbegin : ¬ a.bytes.length < f.offset := by
    unfold Covers at h
    omega
  rw [write, if_neg hbegin]
  cases f.shape.encode v with
  | error e => rfl
  | ok bytes => exact if_pos h

/-- What has been written is the bytes of the value in the place of the field. -/
theorem write_eq_ok {a b : Aggregate} {f : FieldLayout} {v : Value} (h : a.write f v = .ok b) :
    a.Covers f ∧ b.layout = a.layout ∧
      ∃ bytes, f.shape.encode v = .ok bytes ∧ b.bytes = overlay f.offset bytes a.bytes := by
  unfold write at h
  split at h
  · cases h
  · split at h
    · cases h
    · next bytes hbytes =>
      split at h
      · next hcovers =>
        cases h
        exact ⟨hcovers, rfl, bytes, hbytes, rfl⟩
      · cases h

end Aggregate
end ForeignVM
