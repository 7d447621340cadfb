import ForeignVM.Proofs.CLayout
import ForeignVM.Proofs.Placement

/-!
# ForeignVM.Proofs.Slots

How the locals of a routine lie in the block of a frame that fits into a machine word: one slot for
each, laid out as its type is everywhere, at a multiple of its alignment and behind the slots
before it.

* `FrameLayout.Houses`  — all of it; `houses_of_ofLocals` for laid out frames.
* `Houses.exists_slot`  — every local has a slot.
* `Houses.disjoint`     — two slots have no byte in common.
-/

namespace ForeignVM

namespace FrameLayout

/-- The slots of a frame are those of the locals. -/
structure Houses (l : Layouts) (locals : List TypeId) (f : FrameLayout) : Prop where
  types : f.slots.toList.map Slot.ty = locals
  shape : ∀ slot ∈ f.slots.toList, l.shape slot.ty = .ok slot.shape
  align : ∀ slot ∈ f.slots.toList, slot.shape.align ∣ slot.offset
  inside : f.Fits
  apart : f.slots.toList.Pairwise fun a b => a.offset + a.shape.size ≤ b.offset

theorem shape_of_mem {l : Layouts} {locals : List TypeId} {f : FrameLayout}
    (h : ofLocals l locals = .ok f) {slot : Slot} (hslot : slot ∈ f.slots.toList) :
    l.shape slot.ty = .ok slot.shape := by
  obtain ⟨hshapes, htypes, -, -⟩ := placed_of_ofLocals h
  have hmem : (slot.ty, slot.shape) ∈ locals.zip f.shapes := by
    rw [← htypes]
    exact List.mem_map_of_mem hslot
  exact (List.forall₂_iff_zip.mp (mapM_eq_ok_iff.mp hshapes)).2 hmem

/-- Slots are aligned in frames of any size. -/
theorem align_dvd_of_mem {t : TypeTable} {l : Layouts} (hl : Layouts.compute t = .ok l)
    {locals : List TypeId} {f : FrameLayout} (h : ofLocals l locals = .ok f) {slot : Slot}
    (hslot : slot ∈ f.slots.toList) : slot.shape.align ∣ slot.offset := by
  obtain ⟨hshapes, -, hplaces, -⟩ := placed_of_ofLocals h
  have hword : ∀ s ∈ f.shapes, s.align ∣ 2 ^ 64 := by
    intro s hs
    obtain ⟨ty, -, hty⟩ := exists_of_mem_mapM hshapes hs
    exact Nat.dvd_trans (Layouts.align_dvd_word hl ty s hty) (by decide)
  have hmem : (slot.offset, slot.shape) ∈ (Placement.ofStruct f.shapes).offsets.zip f.shapes := by
    rw [← hplaces]
    exact List.mem_map_of_mem hslot
  exact (Placement.align_dvd_ofKind .struct hword).1 _ hmem

theorem houses_of_ofLocals {t : TypeTable} {l : Layouts} (hl : Layouts.compute t = .ok l)
    {locals : List TypeId} {f : FrameLayout} (h : ofLocals l locals = .ok f)
    (hbounded : f.Bounded) : f.Houses l locals := by
  have haligned := Layouts.aligned_of_compute hl
  obtain ⟨hshapes, htypes, hplaces, -⟩ := placed_of_ofLocals h
  obtain ⟨-, stop, hfollow, -⟩ :=
    Placement.follow_ofStruct (haligned.align_pos hshapes) hbounded
  rw [← hplaces] at hfollow
  refine ⟨?_, fun _ => shape_of_mem h, fun _ => align_dvd_of_mem hl h,
    fits_of_ofLocals haligned h hbounded, List.pairwise_map.mp hfollow.pairwise⟩
  have hfirst := congrArg (List.map Prod.fst) htypes
  rwa [List.map_map, List.map_fst_zip (Nat.le_of_eq (length_of_mapM hshapes).symm)] at hfirst

namespace Houses

variable {l : Layouts} {locals : List TypeId} {f : FrameLayout} {i j : Nat} {a b : Slot}

theorem mem_of_getElem? (ha : f.slots[i]? = some a) : a ∈ f.slots.toList :=
  Array.mem_toList_iff.mpr (Array.mem_of_getElem? ha)

/-- The slot of a local. -/
theorem exists_slot (h : f.Houses l locals) {ty : TypeId} (hty : locals[i]? = some ty) :
    ∃ slot, f.slots[i]? = some slot ∧ slot.ty = ty ∧ l.shape ty = .ok slot.shape := by
  rw [← h.types, List.getElem?_map, Array.getElem?_toList] at hty
  obtain ⟨slot, hslot, rfl⟩ := Option.map_eq_some_iff.mp hty
  exact ⟨slot, hslot, rfl, h.shape slot (mem_of_getElem? hslot)⟩

/-- Of two slots, one lies behind the other. -/
theorem disjoint (h : f.Houses l locals) (ha : f.slots[i]? = some a) (hb : f.slots[j]? = some b)
    (hne : i ≠ j) :
    a.offset + a.shape.size ≤ b.offset ∨ b.offset + b.shape.size ≤ a.offset := by
  rw [← Array.getElem?_toList] at ha hb
  obtain ⟨hi, rfl⟩ := List.getElem?_eq_some_iff.mp ha
  obtain ⟨hj, rfl⟩ := List.getElem?_eq_some_iff.mp hb
  have hapart := List.pairwise_iff_getElem.mp h.apart
  rcases Nat.lt_or_gt_of_ne hne with hlt | hlt
  · exact .inl (hapart i j hi hj hlt)
  · exact .inr (hapart j i hj hi hlt)

end Houses
end FrameLayout
end ForeignVM
