import ForeignVM.Data.Slice
import ForeignVM.Data.SparseArray

/-!
# ForeignVM.Data.ByteStore

Unbounded storage of bytes, zero until written. Only non-zero bytes are kept, so a region of
any size costs nothing before it is used, and stores with the same bytes are equal, by
`Canonical.ext`.

* `byteAt`         — one byte.
* `read`, `write`  — a run of bytes from an offset on.
-/

namespace ForeignVM

structure ByteStore where
  cells : SparseArray UInt8
  deriving DecidableEq, Repr

namespace ByteStore

def empty : ByteStore := ⟨.empty⟩

instance : Inhabited ByteStore := ⟨empty⟩

def byteAt (s : ByteStore) (i : Nat) : UInt8 := (s.cells.get? i).getD 0

def setByte (s : ByteStore) (i : Nat) (b : UInt8) : ByteStore :=
  ⟨s.cells.put i (if b = 0 then none else some b)⟩

def read (s : ByteStore) (offset : Nat) : Nat → Bytes
  | 0 => []
  | length + 1 => s.byteAt offset :: s.read (offset + 1) length

def write (s : ByteStore) (offset : Nat) : Bytes → ByteStore
  | [] => s
  | b :: rest => (s.setByte offset b).write (offset + 1) rest

@[simp] theorem byteAt_empty (i : Nat) : empty.byteAt i = 0 := by simp [byteAt, empty]

theorem byteAt_setByte (s : ByteStore) (i j : Nat) (b : UInt8) :
    (s.setByte i b).byteAt j = if j = i then b else s.byteAt j := by
  by_cases h : j = i <;> by_cases hb : b = 0 <;>
    simp [byteAt, setByte, SparseArray.get?_put, h, hb]

@[simp] theorem length_read (s : ByteStore) (offset length : Nat) :
    (s.read offset length).length = length := by
  induction length generalizing offset with
  | zero => rfl
  | succ n ih => simp [read, ih]

/-- A write leaves every byte outside its range alone and puts the new ones inside. -/
theorem byteAt_write (s : ByteStore) (offset i : Nat) (bytes : Bytes) :
    (s.write offset bytes).byteAt i =
      if offset ≤ i ∧ i < offset + bytes.length then bytes.getD (i - offset) 0
      else s.byteAt i := by
  induction bytes generalizing s offset with
  | nil =>
    have h : ¬ (offset ≤ i ∧ i < offset + 0) := by omega
    simp only [write, List.length_nil, h, if_false]
  | cons b rest ih =>
    simp only [write, ih, byteAt_setByte, List.length_cons]
    by_cases h : i = offset
    · subst h
      have h₁ : ¬ (i + 1 ≤ i ∧ i < i + 1 + rest.length) := by omega
      have h₂ : i ≤ i ∧ i < i + (rest.length + 1) := by omega
      rw [if_neg h₁, if_pos rfl, if_pos h₂, Nat.sub_self]
      rfl
    · by_cases hr : offset + 1 ≤ i ∧ i < offset + 1 + rest.length
      · have h₂ : offset ≤ i ∧ i < offset + (rest.length + 1) := by omega
        have h₃ : i - offset = (i - (offset + 1)) + 1 := by omega
        simp [hr, h₂, h₃]
      · have h₂ : ¬ (offset ≤ i ∧ i < offset + (rest.length + 1)) := by omega
        simp only [hr, h₂, h, if_false]

theorem read_congr {s s' : ByteStore} {offset length : Nat}
    (h : ∀ i, offset ≤ i → i < offset + length → s'.byteAt i = s.byteAt i) :
    s'.read offset length = s.read offset length := by
  induction length generalizing offset with
  | zero => rfl
  | succ n ih =>
    have hrest : s'.read (offset + 1) n = s.read (offset + 1) n :=
      ih fun i hi hlt => h i (by omega) (by omega)
    rw [read, read, h offset (Nat.le_refl _) (by omega), hrest]

theorem read_empty (offset length : Nat) : empty.read offset length = List.replicate length 0 := by
  induction length generalizing offset with
  | zero => rfl
  | succ n ih => rw [read, byteAt_empty, ih, List.replicate_succ]

/-- What has been written is read. -/
theorem read_write (s : ByteStore) (offset : Nat) (bytes : Bytes) :
    (s.write offset bytes).read offset bytes.length = bytes := by
  induction bytes generalizing s offset with
  | nil => rfl
  | cons b rest ih =>
    have hfirst : (s.write offset (b :: rest)).byteAt offset = b := by
      rw [byteAt_write, if_pos ⟨Nat.le_refl _, by simp⟩, Nat.sub_self]
      rfl
    rw [List.length_cons, read, hfirst, write, ih]

/-- Bytes that a write does not reach read as before. -/
theorem read_write_apart (s : ByteStore) {offset start length : Nat} {bytes : Bytes}
    (h : start + length ≤ offset ∨ offset + bytes.length ≤ start) :
    (s.write offset bytes).read start length = s.read start length :=
  read_congr fun i _ _ => by rw [byteAt_write, if_neg (by omega)]

theorem read_eq_map (s : ByteStore) (offset length : Nat) :
    s.read offset length = (List.range length).map fun j => s.byteAt (offset + j) := by
  induction length generalizing offset with
  | zero => rfl
  | succ n ih =>
    rw [read, ih, List.range_succ_eq_map, List.map_cons, List.map_map]
    simp [Function.comp_def, Nat.add_assoc, Nat.add_comm 1]

theorem getElem?_read (s : ByteStore) (offset length i : Nat) :
    (s.read offset length)[i]? = if i < length then some (s.byteAt (offset + i)) else none := by
  by_cases h : i < length <;> simp [read_eq_map, h]

/-- A part of what is read is read by itself. -/
theorem slice_read (s : ByteStore) {start length offset n : Nat} (h : offset + n ≤ length) :
    slice offset n (s.read start length) = s.read (start + offset) n := by
  refine List.ext_getElem? fun i => ?_
  rw [slice, List.getElem?_take, List.getElem?_drop, getElem?_read, getElem?_read]
  by_cases hi : i < n
  · have hlt : offset + i < length := by omega
    simp [hi, hlt, Nat.add_assoc]
  · simp [hi]

/-- Only non-zero bytes are kept. -/
def Canonical (s : ByteStore) : Prop := ∀ i, s.cells.get? i ≠ some 0

theorem canonical_empty : empty.Canonical := fun i => by simp [empty]

theorem Canonical.write {s : ByteStore} (h : s.Canonical) (offset : Nat) (bytes : Bytes) :
    (s.write offset bytes).Canonical := by
  induction bytes generalizing s offset with
  | nil => exact h
  | cons b rest ih =>
    refine ih (fun i => ?_) _
    rw [setByte, SparseArray.get?_put]
    by_cases hi : i = offset <;> by_cases hb : b = 0 <;> simp [hi, hb, h i]

/-- Stores with the same bytes are equal. -/
theorem Canonical.ext {s s' : ByteStore} (h : s.Canonical) (h' : s'.Canonical)
    (hbytes : ∀ i, s.byteAt i = s'.byteAt i) : s = s' := by
  have hcells : s.cells = s'.cells := SparseArray.ext fun i => by
    have hi := hbytes i
    have hs := h i
    have hs' := h' i
    unfold byteAt at hi
    cases hc : s.cells.get? i <;> cases hc' : s'.cells.get? i <;> simp_all
  cases s
  cases s'
  cases hcells
  rfl

/-- To change a part of what has been read, and write all of it back, is to write the part. -/
theorem Canonical.write_overlay {s : ByteStore} (h : s.Canonical) (start : Nat)
    {length offset : Nat} {new : Bytes} (hfits : offset + new.length ≤ length) :
    s.write start (overlay offset new (s.read start length)) = s.write (start + offset) new := by
  refine Canonical.ext (h.write _ _) (h.write _ _) fun i => ?_
  rw [byteAt_write, byteAt_write, length_overlay, length_read]
  by_cases hin : start ≤ i ∧ i < start + length
  · rw [if_pos hin, List.getD_eq_getElem?_getD, getElem?_overlay, length_read, getElem?_read]
    by_cases hnew : start + offset ≤ i ∧ i < start + offset + new.length
    · have hinner : offset ≤ i - start ∧ i - start < offset + new.length ∧ i - start < length := by
        omega
      have hindex : i - start - offset = i - (start + offset) := by omega
      rw [if_pos hinner, if_pos hnew, List.getD_eq_getElem?_getD, hindex]
    · have houter : ¬ (offset ≤ i - start ∧ i - start < offset + new.length ∧
          i - start < length) := by omega
      have hlt : i - start < length := by omega
      have hindex : start + (i - start) = i := by omega
      rw [if_neg houter, if_neg hnew, if_pos hlt, hindex]
      rfl
  · have hnew : ¬ (start + offset ≤ i ∧ i < start + offset + new.length) := by omega
    rw [if_neg hin, if_neg hnew]

end ByteStore
end ForeignVM
