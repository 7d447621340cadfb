import ForeignVM.Data.LittleEndian

/-!
# ForeignVM.Data.Slice

Parts of byte strings.

* `fit`     — a byte string cut or filled with zeros to a length.
* `slice`   — the bytes of a range.
* `overlay` — other bytes put over those of a range; the length stays.
-/

namespace ForeignVM

def fit (length : Nat) (bytes : Bytes) : Bytes :=
  bytes.take length ++ List.replicate (length - bytes.length) 0

def slice (offset length : Nat) (bytes : Bytes) : Bytes := (bytes.drop offset).take length

/-- Bytes that would come to lie behind the end are dropped. -/
def overlay : Nat → Bytes → Bytes → Bytes
  | _, _, [] => []
  | 0, [], b :: rest => b :: rest
  | 0, n :: new, _ :: rest => n :: overlay 0 new rest
  | offset + 1, new, b :: rest => b :: overlay offset new rest

@[simp] theorem length_fit (length : Nat) (bytes : Bytes) : (fit length bytes).length = length := by
  simp only [fit, List.length_append, List.length_take, List.length_replicate]
  omega

theorem fit_eq_self {length : Nat} {bytes : Bytes} (h : bytes.length = length) :
    fit length bytes = bytes := by
  subst h
  simp [fit]

@[simp] theorem length_overlay (offset : Nat) (new bytes : Bytes) :
    (overlay offset new bytes).length = bytes.length := by
  fun_induction overlay offset new bytes <;> simp_all

theorem getElem?_overlay (offset : Nat) (new bytes : Bytes) (i : Nat) :
    (overlay offset new bytes)[i]? =
      if offset ≤ i ∧ i < offset + new.length ∧ i < bytes.length then new[i - offset]?
      else bytes[i]? := by
  induction bytes generalizing offset new i with
  | nil => simp [overlay]
  | cons b rest ih =>
    cases offset with
    | zero =>
      cases new with
      | nil => simp [overlay]
      | cons n new => cases i <;> simp [overlay, ih]
    | succ offset =>
      cases i with
      | zero => simp [overlay]
      | succ i => simp [overlay, ih, Nat.add_right_comm offset 1]

end ForeignVM
