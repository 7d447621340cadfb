import ForeignVM.Proofs.Shapes
import Mathlib.Order.RelClasses

/-!
# ForeignVM.Proofs.WellFounded

Which tables are valid: those whose ids are all in the table, whose aggregates have fields, and in
which no aggregate contains itself. In such a table containment is well-founded, so the recursion
over the parts of a type comes to an end, whatever has been computed before.

* `TypeTable.wellFounded_of_valid` — containment in a valid table.
* `Lays`                           — the recursion over the parts, which keeps the shapes that it
  has computed; `Lays.shapes_eq`: its results are those of `Layouts.compute`.
* `lays_of_wellFounded`            — it comes to an end.
* `TypeTable.valid_iff_acyclic`    — what validation accepts, reports, and makes safe.
-/

namespace ForeignVM

namespace TypeTable

variable {t : TypeTable}

theorem wellFounded_of_valid (h : t.validate = .ok ()) :
    WellFounded fun b a => t.Contains a b := by
  obtain ⟨hdefines, order, horder⟩ := validate_ok_iff.mp h
  obtain ⟨hsorted, hmem⟩ := sorted_of_finishOrder hdefines horder
  refine ⟨fun id => ?_⟩
  by_cases hid : id.position < t.size
  · exact acc_of_sorted hsorted id (List.mem_reverse.mpr ((hmem id).mpr hid))
  · -- a type that is not in the table has no parts
    refine ⟨id, fun b hb => ?_⟩
    obtain ⟨d, _, hd, _⟩ := hb
    exact absurd (lt_of_get? hd) hid

theorem acyclic_of_wellFounded (h : WellFounded fun b a => t.Contains a b) (id : TypeId) :
    ¬ Relation.TransGen t.Contains id id := by
  intro hcircle
  have hswap : Relation.TransGen (fun b a => t.Contains a b) id id :=
    Relation.transGen_swap.mp hcircle
  exact h.transGen.asymmetric id id hswap hswap

/-- An aggregate that contains something has a name. -/
theorem name_of_contains {a b : TypeId} (h : t.Contains a b) :
    ∃ d, t.get? a = some d ∧ d.name? = some (t.aggregateName a) := by
  obtain ⟨d, fields, hd, hfields, _⟩ := h
  refine ⟨d, hd, ?_⟩
  cases d with
  | struct name fields => simp [aggregateName, hd, TypeDef.name?]
  | union name fields => simp [aggregateName, hd, TypeDef.name?]
  | _ => cases hfields

/-- A search that finds an aggregate within itself is the only way for a table to be refused whose
definitions are in order. -/
theorem finishOrder_error {e : TypeError} (h : t.finishOrder = .error e) :
    ∃ id d, t.get? id = some d ∧ Relation.TransGen t.Contains id id ∧
      ∃ name, d.name? = some name ∧ e = .recursiveAggregate name := by
  obtain ⟨r, hvisits, hr⟩ := t.visits_finishOrder
  cases r with
  | ok s =>
    rw [h] at hr
    cases hr
  | error e' =>
    rw [h] at hr
    cases hr
    have hpath (x : TypeId) : t.unvisited.mark x ≠ .entered := by
      rw [Traversal.mark_eq_getElem?]
      by_cases hx : x.position < t.size <;> simp [unvisited, hx]
    obtain ⟨id, hcircle, rfl⟩ := hvisits.recursive fun x hx => absurd hx (hpath x)
    obtain ⟨b, hb, _⟩ := Relation.TransGen.head'_iff.mp hcircle
    obtain ⟨d, hd, hname⟩ := name_of_contains hb
    exact ⟨id, d, hd, hcircle, _, hname, rfl⟩

end TypeTable

/-! ## The recursion over the parts -/

open Layouts

/-- The shapes of the types of a list, one after the other, each from those of its parts. Shapes
that have been computed are kept in a memo. Nothing bounds the depth of the recursion. -/
inductive Lays (t : TypeTable) :
    Array (Option Shape) → List TypeId → Array (Option Shape) → List Shape → Prop where
  | stop {memo : Array (Option Shape)} : Lays t memo [] memo []
  | kept {memo memo' : Array (Option Shape)} {id : TypeId} {ids : List TypeId} {s : Shape}
      {shapes : List Shape} (h : known memo id = .ok s) (hrest : Lays t memo ids memo' shapes) :
      Lays t memo (id :: ids) memo' (s :: shapes)
  | computed {memo memo₁ memo' : Array (Option Shape)} {id : TypeId} {ids : List TypeId}
      {d : TypeDef} {parts shapes : List Shape} (h : ∀ s, known memo id ≠ .ok s)
      (hd : t.get? id = some d) (hparts : Lays t memo d.parts memo₁ parts)
      (hrest : Lays t (memo₁.setIfInBounds id.position (some (assemble id d parts))) ids memo'
        shapes) :
      Lays t memo (id :: ids) memo' (assemble id d parts :: shapes)

namespace Lays

variable {t : TypeTable} {memo memo₁ memo' : Array (Option Shape)} {id : TypeId}
  {ids : List TypeId} {s : Shape} {shapes : List Shape}

theorem cons (hfirst : Lays t memo [id] memo₁ [s]) (hrest : Lays t memo₁ ids memo' shapes) :
    Lays t memo (id :: ids) memo' (s :: shapes) := by
  cases hfirst with
  | kept h hstop =>
    cases hstop
    exact .kept h hrest
  | computed h hd hparts hstop =>
    cases hstop
    exact .computed h hd hparts hrest

/-- The recursion ends for a list if it does so for each of its types. -/
theorem exists_list (h : ∀ id ∈ ids, ∀ memo, ∃ memo' s, Lays t memo [id] memo' [s])
    (memo : Array (Option Shape)) : ∃ memo' shapes, Lays t memo ids memo' shapes := by
  induction ids generalizing memo with
  | nil => exact ⟨memo, [], .stop⟩
  | cons id ids ih =>
    obtain ⟨memo₁, s, hfirst⟩ := h id List.mem_cons_self memo
    obtain ⟨memo', shapes, hrest⟩ := ih (fun x hx => h x (.tail _ hx)) memo₁
    exact ⟨memo', s :: shapes, hfirst.cons hrest⟩

/-- The results are the shapes of the table, and so is what is left in the memo. -/
theorem shapes_eq {l : Layouts} (hl : l.Describes t) (h : Lays t memo ids memo' shapes)
    (hmemo : ∀ id s, known memo id = .ok s → l.shape id = .ok s) :
    ids.mapM l.shape = .ok shapes ∧ ∀ id s, known memo' id = .ok s → l.shape id = .ok s := by
  induction h with
  | stop => exact ⟨rfl, hmemo⟩
  | kept h _ ih =>
    obtain ⟨hrest, hmemo'⟩ := ih hmemo
    exact ⟨mapM_eq_ok_iff.mpr (.cons (hmemo _ _ h) (mapM_eq_ok_iff.mp hrest)), hmemo'⟩
  | @computed memo memo₁ memo' id ids d parts shapes _ hd _ _ ihparts ihrest =>
    obtain ⟨hparts, hmemo₁⟩ := ihparts hmemo
    obtain ⟨parts', hparts', hshape⟩ := hl.shape hd
    cases hparts.symm.trans hparts'
    obtain ⟨hrest, hmemo'⟩ := ihrest fun x s hx => by
      rw [known_ok_iff, Array.getElem?_setIfInBounds] at hx
      by_cases heq : id.position = x.position
      · obtain rfl := TypeId.ext_position heq
        rw [if_pos rfl] at hx
        split at hx
        · cases hx
          exact hshape
        · cases hx
      · rw [if_neg heq] at hx
        exact hmemo₁ x s (known_ok_iff.mpr hx)
    exact ⟨mapM_eq_ok_iff.mpr (.cons hshape (mapM_eq_ok_iff.mp hrest)), hmemo'⟩

end Lays

/-- The recursion ends for every type of a table in which containment is well-founded, whatever
the memo holds. -/
theorem lays_of_wellFounded {t : TypeTable} (hwf : WellFounded fun b a => t.Contains a b)
    (hclosed : ∀ id, ∀ p ∈ t.partsOf id, p.position < t.size) (id : TypeId)
    (hid : id.position < t.size) (memo : Array (Option Shape)) :
    ∃ memo' s, Lays t memo [id] memo' [s] := by
  induction id using hwf.induction generalizing memo with
  | h id ih =>
    by_cases hknown : ∃ s, known memo id = .ok s
    · obtain ⟨s, hs⟩ := hknown
      exact ⟨memo, s, .kept hs .stop⟩
    · obtain ⟨d, hd⟩ := TypeTable.exists_get? hid
      have hends : ∀ p ∈ d.parts, ∀ memo, ∃ memo' s, Lays t memo [p] memo' [s] := by
        intro p hp memo
        rw [← TypeTable.partsOf_eq hd] at hp
        exact ih p (TypeTable.contains_iff.mpr hp) (hclosed id p hp) memo
      obtain ⟨memo₁, parts, hparts⟩ := Lays.exists_list hends memo
      exact ⟨_, _, .computed (fun s hs => hknown ⟨s, hs⟩) hd hparts .stop⟩

namespace TypeTable

/-- A table is valid just if its ids are in the table, its aggregates have fields, and none
contains itself. An aggregate that is reported does contain itself. The search comes to an end in
any table, the recursion over the parts in every valid one, and its results are the shapes of the
table. -/
theorem valid_iff_acyclic (t : TypeTable) :
    (t.validate = .ok () ↔
      (∀ d ∈ t.defs, ∀ id ∈ d.mentions, id.position < t.size) ∧
        (∀ d ∈ t.defs, ∀ fields, d.fields? = some fields → 0 < fields.size) ∧
        ∀ id, ¬ Relation.TransGen t.Contains id id) ∧
    (∀ name, t.validate = .error (.recursiveAggregate name) →
      ∃ id d, t.get? id = some d ∧ d.name? = some name ∧ Relation.TransGen t.Contains id id) ∧
    (∃ r, Visits t t.unvisited t.ids r ∧ t.finishOrder = r.map fun s => s.order.reverse) ∧
    (t.validate = .ok () →
      (∀ id memo, id.position < t.size → ∃ memo' s, Lays t memo [id] memo' [s]) ∧
        ∃ l memo, compute t = .ok l ∧
          Lays t (Array.replicate t.size none) t.ids memo l.shapes.toList) := by
  refine ⟨⟨fun h => ?_, ?_⟩, fun name h => ?_, t.visits_finishOrder, fun h => ?_⟩
  · have hdefines := (validate_ok_iff.mp h).1
    exact ⟨fun d hd => (hdefines d hd).resolved, fun d hd => (hdefines d hd).inhabited,
      acyclic_of_wellFounded (wellFounded_of_valid h)⟩
  · rintro ⟨hresolved, hinhabited, hacyclic⟩
    refine validate_ok_iff.mpr ⟨fun d hd => ⟨hinhabited d hd, hresolved d hd⟩, ?_⟩
    cases horder : t.finishOrder with
    | ok order => exact ⟨order, rfl⟩
    | error e =>
      obtain ⟨id, _, _, hcircle, _⟩ := finishOrder_error horder
      exact absurd hcircle (hacyclic id)
  · unfold validate at h
    split at h
    · next e hdefs =>
      cases h
      exact absurd rfl (checkDefs_error hdefs name)
    · split at h
      · next e horder =>
        cases h
        obtain ⟨id, d, hd, hcircle, name', hname, heq⟩ := finishOrder_error horder
        cases heq
        exact ⟨id, d, hd, hname, hcircle⟩
      · cases h
  · have hends := lays_of_wellFounded (wellFounded_of_valid h)
      (closed_of_defines (validate_ok_iff.mp h).1)
    refine ⟨fun id memo hid => hends id hid memo, ?_⟩
    obtain ⟨l, hl, hdescribes⟩ := exists_compute h
    obtain ⟨memo, shapes, hlays⟩ := Lays.exists_list
      (fun id hid => hends id (lt_of_mem_ids hid)) (Array.replicate t.size none)
    refine ⟨l, memo, hl, ?_⟩
    have hshapes := (hlays.shapes_eq hdescribes fun id s hs => by
      rw [known_ok_iff, Array.getElem?_replicate] at hs
      split at hs <;> cases hs).1
    rw [hdescribes.all] at hshapes
    cases hshapes
    exact hlays

end TypeTable
end ForeignVM
