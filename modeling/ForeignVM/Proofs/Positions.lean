import ForeignVM.Data.Power
import ForeignVM.Types.Id

/-!
# ForeignVM.Proofs.Positions

Positions in arrays, and the ids that are made of them. A position that sixteen bits cannot hold
gives the id of another element.

* `First` — an element of an array is the first of its kind; `findIdx?_eq_some_iff`: a search ends
  at its position.
* `First.exists_other` — what stands at the position that is left of a greater one.
* `TypeId.position_ofPosition`, `RoutineId.position_ofPosition` — what an id keeps.
-/

namespace ForeignVM

theorem TypeId.position_ofPosition (i : Nat) : (ofPosition i).position = i % 2 ^ 16 :=
  UInt16.toNat_ofNat'

theorem RoutineId.position_ofPosition (i : Nat) : (ofPosition i).position = i % 2 ^ 16 :=
  UInt16.toNat_ofNat'

/-- Of the elements of a kind, the one at the position is the first. -/
structure First {α : Type} (kind : α → Prop) (xs : Array α) (i : Nat) (x : α) : Prop where
  found : xs[i]? = some x
  holds : kind x
  before : ∀ j < i, ∀ y, xs[j]? = some y → ¬ kind y

section

variable {α : Type} {kind : α → Prop} {xs : Array α} {i : Nat} {x : α}

theorem First.lt (h : First kind xs i x) : i < xs.size := (Array.getElem?_eq_some_iff.mp h.found).1

theorem First.mem (h : First kind xs i x) : x ∈ xs := Array.mem_of_getElem? h.found

/-- Sixteen bits of a position that needs more are a position before it. -/
theorem First.exists_other (h : First kind xs i x) (hi : 2 ^ 16 ≤ i) :
    ∃ y, xs[i % 2 ^ 16]? = some y ∧ ¬ kind y := by
  have hlt : i % 2 ^ 16 < i := Nat.lt_of_lt_of_le (Nat.mod_lt i (by decide)) hi
  have hy := Array.getElem?_eq_getElem (Nat.lt_trans hlt h.lt)
  exact ⟨_, hy, h.before _ hlt _ hy⟩

/-- The element is found where sixteen bits of its position lead if these are all of it. -/
theorem First.getElem?_mod_iff (h : First kind xs i x) : xs[i % 2 ^ 16]? = some x ↔ i < 2 ^ 16 := by
  constructor
  · intro hx
    refine Nat.lt_of_not_le fun hi => ?_
    obtain ⟨y, hy, hkind⟩ := h.exists_other hi
    cases hy.symm.trans hx
    exact hkind h.holds
  · intro hi
    rw [Nat.mod_eq_of_lt hi]
    exact h.found

variable {p : α → Bool} (hp : ∀ x, p x = true ↔ kind x)
include hp

theorem findIdx?_eq_some_iff : xs.findIdx? p = some i ↔ ∃ x, First kind xs i x := by
  rw [Array.findIdx?_eq_some_iff_getElem]
  constructor
  · rintro ⟨hi, hx, hbefore⟩
    refine ⟨xs[i], Array.getElem?_eq_getElem hi, (hp _).mp hx, ?_⟩
    intro j hj y hy hkind
    obtain ⟨_, rfl⟩ := Array.getElem?_eq_some_iff.mp hy
    exact hbefore j hj ((hp _).mpr hkind)
  · rintro ⟨x, h⟩
    obtain ⟨hi, rfl⟩ := Array.getElem?_eq_some_iff.mp h.found
    refine ⟨hi, (hp _).mpr h.holds, ?_⟩
    intro j hj hx
    exact h.before j hj _ (Array.getElem?_eq_getElem (Nat.lt_trans hj hi)) ((hp _).mp hx)

theorem findIdx?_eq_none_iff : xs.findIdx? p = none ↔ ∀ x ∈ xs, ¬ kind x := by
  rw [Array.findIdx?_eq_none_iff]
  simp only [← hp, Bool.not_eq_true]

end

end ForeignVM
