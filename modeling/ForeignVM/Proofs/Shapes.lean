import ForeignVM.Layout
import ForeignVM.Proofs.Search
import ForeignVM.Proofs.Traverse

/-!
# ForeignVM.Proofs.Shapes

Every type of a valid table has a shape, and it is put together from the shapes of its parts as
the table gives them. In which order the types have been laid out makes no difference.

* `Layouts.assemble`     — the shape of a definition, from the shapes of its parts.
* `Laid`                 — the types of a list have been laid out; `laid_of_sorted`.
* `Layouts.Describes`    — what the shapes of a table are; `describes_compute`, and
  `exists_compute` for valid tables.
-/

namespace ForeignVM

namespace Layouts

/-- The shape of a type whose parts have these shapes. -/
def assemble (id : TypeId) : TypeDef → List Shape → Shape
  | .scalar kind, _ => .scalar kind
  | .pointer pointee, _ => .pointer pointee
  | .proc _ _ closure, _ => .proc closure
  | .struct name fields, parts => aggregateShape id name .struct fields parts
  | .union name fields, parts => aggregateShape id name .union fields parts

variable {t : TypeTable} {memo : Array (Option Shape)} {id x : TypeId} {d : TypeDef}

theorem shapeOf_of_parts {parts : List Shape} (h : d.parts.mapM (known memo) = .ok parts) :
    shapeOf memo id d = .ok (assemble id d parts) := by
  cases d with
  | struct name fields =>
    have h : fields.values.mapM (known memo) = .ok parts := h
    simp [shapeOf, h, assemble]
  | union name fields =>
    have h : fields.values.mapM (known memo) = .ok parts := h
    simp [shapeOf, h, assemble]
  | _ => rfl

theorem known_ok_iff {s : Shape} : known memo id = .ok s ↔ memo[id.position]? = some (some s) := by
  rw [known, Array.getD_eq_getD_getElem?]
  cases memo[id.position]? with
  | none => simp
  | some s? => cases s? <;> simp

theorem known_setIfInBounds {s : Shape} (hid : id.position < memo.size) :
    known (memo.setIfInBounds id.position (some s)) x =
      if x = id then .ok s else known memo x := by
  rw [known, known, Array.getD_eq_getD_getElem?, Array.getD_eq_getD_getElem?,
    Array.getElem?_setIfInBounds]
  by_cases hx : x = id
  · simp [hx, hid]
  · have hne : id.position ≠ x.position := fun heq => hx (TypeId.ext_position heq.symm)
    simp [hx, hne]

/-- The types of a list have been laid out, each from parts that have been laid out. -/
structure Laid (t : TypeTable) (memo : Array (Option Shape)) (order : List TypeId) : Prop where
  size : memo.size = t.size
  known : ∀ id ∈ order, ∃ d parts, t.get? id = some d ∧
    d.parts.mapM (known memo) = .ok parts ∧ Layouts.known memo id = .ok (assemble id d parts)

theorem Laid.exists_parts {order : List TypeId} (h : Laid t memo order)
    (hd : ∀ p ∈ d.parts, p ∈ order) : ∃ parts, d.parts.mapM (Layouts.known memo) = .ok parts := by
  refine exists_mapM fun p hp => ?_
  obtain ⟨_, _, _, _, hs⟩ := h.known p (hd p hp)
  exact ⟨_, hs⟩

theorem laid_of_sorted {order : List TypeId} (hsorted : Sorted t order)
    (hlt : ∀ id ∈ order, id.position < t.size) :
    ∃ memo, order.reverse.foldlM (extend t) (Array.replicate t.size none) = .ok memo ∧
      Laid t memo order := by
  induction order with
  | nil => exact ⟨_, rfl, Array.size_replicate, nofun⟩
  | cons id rest ih =>
    obtain ⟨hnew, hparts, hrest⟩ := hsorted
    obtain ⟨memo, hfold, hlaid⟩ := ih hrest fun x hx => hlt x (.tail _ hx)
    have hid := hlt id List.mem_cons_self
    obtain ⟨d, hd⟩ := TypeTable.exists_get? hid
    rw [TypeTable.partsOf_eq hd] at hparts
    obtain ⟨parts, hknown⟩ := hlaid.exists_parts hparts
    let memo' := memo.setIfInBounds id.position (some (assemble id d parts))
    have hset (x : TypeId) : Layouts.known memo' x =
        if x = id then .ok (assemble id d parts) else Layouts.known memo x :=
      known_setIfInBounds (hlaid.size ▸ hid)
    -- what has been laid out before is as it was
    have hsame {ids : List TypeId} (hids : ∀ p ∈ ids, p ∈ rest) :
        ids.mapM (Layouts.known memo') = ids.mapM (Layouts.known memo) := by
      refine mapM_congr fun p hp => ?_
      rw [hset, if_neg]
      rintro rfl
      exact hnew (hids p hp)
    refine ⟨memo', ?_, by simp [memo', hlaid.size], ?_⟩
    · rw [List.reverse_cons, List.foldlM_append, hfold]
      change [id].foldlM (extend t) memo = _
      rw [List.foldlM_cons, extend, TypeTable.get_ok_iff.mpr hd]
      simp only [shapeOf_of_parts hknown]
      rfl
    · intro x hx
      rcases List.mem_cons.mp hx with rfl | hmem
      · refine ⟨d, parts, hd, ?_, by rw [hset, if_pos rfl]⟩
        rw [hsame hparts, hknown]
      · obtain ⟨d', parts', hd', hparts', hs'⟩ := hlaid.known x hmem
        have hclosed := hrest.closed x hmem
        rw [TypeTable.partsOf_eq hd'] at hclosed
        refine ⟨d', parts', hd', by rw [hsame hclosed, hparts'], ?_⟩
        rw [hset, if_neg, hs']
        rintro rfl
        exact hnew hmem

/-! ## The shapes of a table -/

/-- The shapes are those of the types of the table: that of a definition is put together from
those of its parts. -/
structure Describes (l : Layouts) (t : TypeTable) : Prop where
  types : l.types = t
  shape : ∀ {id d}, t.get? id = some d →
    ∃ parts, d.parts.mapM l.shape = .ok parts ∧ l.shape id = .ok (assemble id d parts)
  absent : ∀ {id}, t.get? id = none → l.shape id = .error (.unknownType id)
  all : t.ids.mapM l.shape = .ok l.shapes.toList

/-- Every shape is that of a definition. -/
theorem Describes.exists_assemble {l : Layouts} (h : l.Describes t) {s : Shape}
    (hs : l.shape id = .ok s) :
    ∃ d parts, t.get? id = some d ∧ d.parts.mapM l.shape = .ok parts ∧ s = assemble id d parts := by
  cases hd : t.get? id with
  | none =>
    rw [h.absent hd] at hs
    cases hs
  | some d =>
    obtain ⟨parts, hparts, hs'⟩ := h.shape hd
    cases hs.symm.trans hs'
    exact ⟨d, parts, rfl, hparts, rfl⟩

theorem Describes.exists_shape {l : Layouts} (h : l.Describes t) (hid : id.position < t.size) :
    ∃ s, l.shape id = .ok s := by
  obtain ⟨d, hd⟩ := TypeTable.exists_get? hid
  obtain ⟨_, _, hs⟩ := h.shape hd
  exact ⟨_, hs⟩

theorem computeShapes_of_order {order : List TypeId} (horder : t.finishOrder = .ok order)
    (hfold : order.foldlM (extend t) (Array.replicate t.size none) = .ok memo) :
    computeShapes t = t.ids.mapM (known memo) := by
  simp only [computeShapes, horder, bind, Except.bind, hfold]

theorem ids_getElem? {i : Nat} (h : i < t.size) : t.ids[i]? = some (.ofPosition i) := by
  simp [TypeTable.ids, h]

/-- A valid table is laid out. -/
theorem exists_compute (h : t.validate = .ok ()) : ∃ l, compute t = .ok l ∧ l.Describes t := by
  obtain ⟨hdefines, order, horder⟩ := TypeTable.validate_ok_iff.mp h
  obtain ⟨hsorted, hmem⟩ := TypeTable.sorted_of_finishOrder hdefines horder
  obtain ⟨memo, hfold, hlaid⟩ := laid_of_sorted hsorted fun id hid =>
    (hmem id).mp (List.mem_reverse.mp hid)
  rw [List.reverse_reverse] at hfold
  have hknown {id : TypeId} (hid : id.position < t.size) :=
    hlaid.known id (List.mem_reverse.mpr ((hmem id).mpr hid))
  obtain ⟨shapes, hshapes⟩ : ∃ shapes, t.ids.mapM (known memo) = .ok shapes :=
    exists_mapM fun id hid => by
      obtain ⟨_, _, _, _, hs⟩ := hknown (TypeTable.lt_of_mem_ids hid)
      exact ⟨_, hs⟩
  let l : Layouts := ⟨t, shapes.toArray⟩
  have hshape {id : TypeId} (hid : id.position < t.size) : l.shape id = known memo id := by
    obtain ⟨s, hs, hget⟩ := getElem?_of_mapM hshapes (ids_getElem? hid)
    rw [TypeId.ofPosition_position] at hget
    simp [shape, l, hs, hget]
  refine ⟨l, ?_, rfl, ?_, ?_, ?_⟩
  · rw [compute, h]
    simp only [computeShapes_of_order horder hfold, hshapes]
    rfl
  · intro id d hd
    obtain ⟨d', parts, hd', hparts, hs⟩ := hknown (TypeTable.lt_of_get? hd)
    cases hd.symm.trans hd'
    refine ⟨parts, ?_, (hshape (TypeTable.lt_of_get? hd)).trans hs⟩
    rw [← hparts]
    refine mapM_congr fun p hp => hshape ?_
    rw [← TypeTable.partsOf_eq hd] at hp
    exact TypeTable.closed_of_defines hdefines id p hp
  · intro id hid
    have hlength : shapes.length = t.size := by
      rw [length_of_mapM hshapes, TypeTable.ids, List.length_map, List.length_range]
    have hge : t.size ≤ id.position := Array.getElem?_eq_none_iff.mp hid
    simp [shape, l, hlength, hge]
  · rw [← hshapes]
    exact mapM_congr fun id hid => hshape (TypeTable.lt_of_mem_ids hid)

theorem validate_of_compute {l : Layouts} (h : compute t = .ok l) : t.validate = .ok () := by
  cases hvalid : t.validate with
  | error e => simp [compute, hvalid] at h
  | ok u => rfl

theorem describes_compute {l : Layouts} (h : compute t = .ok l) : l.Describes t := by
  obtain ⟨l', hl', hdescribes⟩ := exists_compute (validate_of_compute h)
  cases h.symm.trans hl'
  exact hdescribes

end Layouts
end ForeignVM
