import ForeignVM.Types.Validity
import Mathlib.Logic.Relation

/-!
# ForeignVM.Proofs.Search

The search through the types that contain one another. It goes on as long as there are parts that
have not been seen, whatever the depth; it ends at an aggregate that contains itself, or with an
order in which every type comes after all its parts.

* `TypeTable.Contains`  — an aggregate has a field of a type.
* `Visits`              — the search without a bound on its depth; `visits_finishOrder`: the bound
  of `TypeTable.visit` is never felt.
* `Visits.recursive`    — a search that fails has found an aggregate within itself.
* `Sorted`, `Visits.sound` — the order in which a search that succeeds has finished the types.
* `acc_of_sorted`       — types in such an order do not contain one another in a circle.
-/

namespace ForeignVM

namespace TypeId

theorem ext_position {a b : TypeId} (h : a.position = b.position) : a = b := by
  cases a
  cases b
  exact congrArg TypeId.mk (UInt16.toNat_inj.mp h)

theorem ofPosition_position (id : TypeId) : ofPosition id.position = id :=
  congrArg TypeId.mk UInt16.ofNat_toNat

end TypeId

namespace TypeTable

variable (t : TypeTable)

/-- `a` is a struct or union with a field of type `b`. -/
def Contains (a b : TypeId) : Prop :=
  ∃ d fields, t.get? a = some d ∧ d.fields? = some fields ∧ b ∈ fields.values

variable {t}

theorem contains_iff {a b : TypeId} : t.Contains a b ↔ b ∈ t.partsOf a := by
  unfold Contains partsOf
  cases t.get? a with
  | none => simp
  | some d => cases d <;> simp [TypeDef.fields?, TypeDef.parts]

theorem lt_of_mem_ids {id : TypeId} (h : id ∈ t.ids) : id.position < t.size := by
  obtain ⟨i, hi, rfl⟩ := List.mem_map.mp h
  exact Nat.lt_of_le_of_lt (Nat.mod_le _ _) (List.mem_range.mp hi)

theorem mem_ids {id : TypeId} (h : id.position < t.size) : id ∈ t.ids :=
  List.mem_map.mpr ⟨id.position, List.mem_range.mpr h, id.ofPosition_position⟩

end TypeTable

/-! ## Marks -/

namespace Traversal

variable {s : Traversal} {id x : TypeId}

theorem mark_eq_getElem? (s : Traversal) (id : TypeId) :
    s.mark id = s.marks[id.position]?.getD .finished := by
  rw [mark, Array.getD_eq_getD_getElem?]

theorem lt_of_fresh (h : s.mark id = .fresh) : id.position < s.marks.size := by
  rw [mark_eq_getElem?] at h
  refine Nat.lt_of_not_le fun hle => ?_
  rw [Array.getElem?_eq_none hle] at h
  cases h

theorem mark_enter (h : s.mark id = .fresh) :
    (s.enter id).mark x = if x = id then .entered else s.mark x := by
  have hlt := lt_of_fresh h
  rw [mark_eq_getElem?, mark_eq_getElem?, enter, Array.getElem?_setIfInBounds]
  by_cases hx : x = id
  · simp [hx, hlt]
  · have hne : id.position ≠ x.position := fun heq => hx (TypeId.ext_position heq.symm)
    simp [hx, hne]

theorem mark_finish : (s.finish id).mark x = if x = id then .finished else s.mark x := by
  rw [mark_eq_getElem?, mark_eq_getElem?, finish, Array.getElem?_setIfInBounds]
  by_cases hx : x = id
  · by_cases hlt : id.position < s.marks.size <;> simp [hx, hlt]
  · have hne : id.position ≠ x.position := fun heq => hx (TypeId.ext_position heq.symm)
    simp [hx, hne]

/-- The number of types that have not been entered. -/
def unseen (s : Traversal) : Nat := s.marks.toList.count .fresh

theorem unseen_enter (h : s.mark id = .fresh) : (s.enter id).unseen + 1 = s.unseen := by
  have hlt := lt_of_fresh h
  have hfresh : s.marks[id.position] = .fresh := by
    simpa [mark_eq_getElem?, hlt] using h
  have hmem : Mark.fresh ∈ s.marks.toList := by
    rw [← hfresh]
    exact Array.getElem_mem_toList hlt
  have hpos := List.count_pos_iff.mpr hmem
  rw [unseen, enter, Array.toList_setIfInBounds, List.count_set (by simpa using hlt)]
  have hdiff : (Mark.entered == Mark.fresh) = false := rfl
  simp only [Array.getElem_toList, hfresh, BEq.rfl, hdiff, if_true, Bool.false_eq_true, if_false]
  rw [unseen]
  omega

theorem unseen_finish : (s.finish id).unseen ≤ s.unseen := by
  rw [unseen, finish, Array.toList_setIfInBounds]
  by_cases hlt : id.position < s.marks.toList.length
  · rw [List.count_set hlt]
    simp [unseen]
  · rw [List.set_eq_of_length_le (Nat.le_of_not_lt hlt)]
    exact Nat.le_refl _

end Traversal

/-! ## The search -/

/-- The search from the types of a list, one after the other. Nothing bounds its depth. -/
inductive Visits (t : TypeTable) :
    Traversal → List TypeId → Except TypeError Traversal → Prop where
  | stop {s : Traversal} : Visits t s [] (.ok s)
  | finished {s : Traversal} {id : TypeId} {ids : List TypeId} {r : Except TypeError Traversal}
      (h : s.mark id = .finished) (hrest : Visits t s ids r) : Visits t s (id :: ids) r
  | entered {s : Traversal} {id : TypeId} {ids : List TypeId} (h : s.mark id = .entered) :
      Visits t s (id :: ids) (.error (.recursiveAggregate (t.aggregateName id)))
  | failed {s : Traversal} {id : TypeId} {ids : List TypeId} {e : TypeError}
      (h : s.mark id = .fresh) (hparts : Visits t (s.enter id) (t.partsOf id) (.error e)) :
      Visits t s (id :: ids) (.error e)
  | passed {s s' : Traversal} {id : TypeId} {ids : List TypeId} {r : Except TypeError Traversal}
      (h : s.mark id = .fresh) (hparts : Visits t (s.enter id) (t.partsOf id) (.ok s'))
      (hrest : Visits t (s'.finish id) ids r) : Visits t s (id :: ids) r

namespace Visits

variable {t : TypeTable} {s s' : Traversal} {ids : List TypeId}

theorem unseen_le (h : Visits t s ids (.ok s')) : s'.unseen ≤ s.unseen := by
  generalize hr : Except.ok s' = r at h
  induction h generalizing s' with
  | stop => cases hr; exact Nat.le_refl _
  | finished _ _ ih => exact ih hr
  | entered => cases hr
  | failed => cases hr
  | @passed s u id ids r h _ _ ihparts ihrest =>
    have hparts := ihparts rfl
    have hrest := ihrest hr
    have henter := Traversal.unseen_enter h
    have hfinish : (u.finish id).unseen ≤ u.unseen := Traversal.unseen_finish
    omega

end Visits

/-- With more fuel than there are types left, the search is not cut short. -/
theorem visits_of_fuel {t : TypeTable} {fuel : Nat} (ids : List TypeId) {s : Traversal}
    (h : s.unseen < fuel) : Visits t s ids (ids.foldlM (t.visit fuel) s) := by
  induction fuel generalizing ids s with
  | zero => exact absurd h (Nat.not_lt_zero _)
  | succ fuel ihfuel =>
    induction ids generalizing s with
    | nil => exact .stop
    | cons id ids ihids =>
      rw [List.foldlM_cons]
      cases hmark : s.mark id with
      | finished =>
        simp only [TypeTable.visit, hmark]
        exact .finished hmark (ihids h)
      | entered =>
        simp only [TypeTable.visit, hmark]
        exact .entered hmark
      | fresh =>
        have henter := Traversal.unseen_enter hmark
        have hparts := ihfuel (t.partsOf id) (s := s.enter id) (by omega)
        simp only [TypeTable.visit, hmark]
        cases hr : (t.partsOf id).foldlM (t.visit fuel) (s.enter id) with
        | error e =>
          rw [hr] at hparts
          exact .failed hmark hparts
        | ok s' =>
          rw [hr] at hparts
          have hle := hparts.unseen_le
          have hfinish : (s'.finish id).unseen ≤ s'.unseen := Traversal.unseen_finish
          exact .passed hmark hparts (ihids (by omega))

namespace TypeTable

variable (t : TypeTable)

/-- The state before the search. -/
def unvisited : Traversal := ⟨Array.replicate t.size .fresh, []⟩

/-- The order in which the search through all types finishes them. -/
theorem visits_finishOrder :
    ∃ r, Visits t t.unvisited t.ids r ∧ t.finishOrder = r.map fun s => s.order.reverse := by
  have hunseen : t.unvisited.unseen < t.size + 1 := by
    simp [Traversal.unseen, unvisited]
  refine ⟨_, visits_of_fuel t.ids hunseen, ?_⟩
  rw [finishOrder, unvisited]
  cases t.ids.foldlM (t.visit (t.size + 1)) ⟨Array.replicate t.size .fresh, []⟩ <;> rfl

end TypeTable

namespace Visits

variable {t : TypeTable} {s s' : Traversal} {ids : List TypeId}

/-- A search that succeeds ends on the path on which it has begun. -/
theorem entered_iff (h : Visits t s ids (.ok s')) (x : TypeId) :
    s'.mark x = .entered ↔ s.mark x = .entered := by
  generalize hr : Except.ok s' = r at h
  induction h generalizing s' with
  | stop => cases hr; exact Iff.rfl
  | finished _ _ ih => exact ih hr
  | entered => cases hr
  | failed => cases hr
  | @passed s u id ids r h _ _ ihparts ihrest =>
    rw [ihrest hr, Traversal.mark_finish]
    have hparts := ihparts rfl
    rw [Traversal.mark_enter h] at hparts
    by_cases hx : x = id
    · simp [hx, h]
    · simpa [hx] using hparts

/-- A search fails at an aggregate that contains itself, if all types on the path contain those
that it is about to visit. -/
theorem recursive {e : TypeError} (h : Visits t s ids (.error e))
    (hpath : ∀ x, s.mark x = .entered → ∀ id ∈ ids, Relation.TransGen t.Contains x id) :
    ∃ x, Relation.TransGen t.Contains x x ∧ e = .recursiveAggregate (t.aggregateName x) := by
  generalize hr : Except.error e = r at h
  induction h with
  | stop => cases hr
  | finished _ _ ih => exact ih (fun x hx id hid => hpath x hx id (.tail _ hid)) hr
  | @entered s id ids h =>
    cases hr
    exact ⟨id, hpath id h id List.mem_cons_self, rfl⟩
  | @failed s id ids e' h _ ih =>
    refine ih (fun x hx p hp => ?_) hr
    have hcontains := TypeTable.contains_iff.mpr hp
    rw [Traversal.mark_enter h] at hx
    by_cases heq : x = id
    · rw [heq]
      exact .single hcontains
    · rw [if_neg heq] at hx
      exact .tail (hpath x hx id List.mem_cons_self) hcontains
  | @passed s u id ids r h hparts _ _ ihrest =>
    refine ihrest (fun x hx p hp => hpath x ?_ p (.tail _ hp)) hr
    rw [Traversal.mark_finish] at hx
    by_cases heq : x = id
    · simp [heq] at hx
    · rw [if_neg heq, hparts.entered_iff, Traversal.mark_enter h, if_neg heq] at hx
      exact hx

end Visits

/-! ## The order of the finished types -/

/-- Every type stands before all its parts, and only once. -/
def Sorted (t : TypeTable) : List TypeId → Prop
  | [] => True
  | id :: rest => id ∉ rest ∧ (∀ p ∈ t.partsOf id, p ∈ rest) ∧ Sorted t rest

theorem Sorted.closed {t : TypeTable} {order : List TypeId} (h : Sorted t order) :
    ∀ id ∈ order, ∀ p ∈ t.partsOf id, p ∈ order := by
  induction order with
  | nil => exact nofun
  | cons id rest ih =>
    obtain ⟨_, hparts, hrest⟩ := h
    intro x hx p hp
    rcases List.mem_cons.mp hx with rfl | hx
    · exact .tail _ (hparts p hp)
    · exact .tail _ (ih hrest x hx p hp)

/-- The finished types of the table are those in the order, and the order is sorted. -/
structure Traversal.Sound (t : TypeTable) (s : Traversal) : Prop where
  finished : ∀ id, id ∈ s.order ↔ id.position < t.size ∧ s.mark id = .finished
  sorted : Sorted t s.order

namespace Visits

variable {t : TypeTable} {s s' : Traversal} {ids : List TypeId}

theorem sound (hclosed : ∀ id, ∀ p ∈ t.partsOf id, p.position < t.size)
    (hids : ∀ id ∈ ids, id.position < t.size) (h : Visits t s ids (.ok s')) (hs : s.Sound t) :
    s'.Sound t ∧ (∀ id ∈ s.order, id ∈ s'.order) ∧ ∀ id ∈ ids, id ∈ s'.order := by
  generalize hr : Except.ok s' = r at h
  induction h generalizing s' with
  | stop =>
    cases hr
    exact ⟨hs, fun _ h => h, nofun⟩
  | @finished s id ids r h _ ih =>
    obtain ⟨hsound, hkeep, hrest⟩ := ih (fun x hx => hids x (.tail _ hx)) hs hr
    have hid := hkeep id ((hs.finished id).mpr ⟨hids id List.mem_cons_self, h⟩)
    refine ⟨hsound, hkeep, fun x hx => ?_⟩
    rcases List.mem_cons.mp hx with rfl | hx
    · exact hid
    · exact hrest x hx
  | entered => cases hr
  | failed => cases hr
  | @passed s u id ids r h hparts _ ihparts ihrest =>
    have hid := hids id List.mem_cons_self
    -- entering finishes nothing
    have henter : (s.enter id).Sound t := by
      refine ⟨fun x => ?_, hs.sorted⟩
      rw [Traversal.mark_enter h]
      refine (hs.finished x).trans ?_
      by_cases hx : x = id <;> simp [hx, h]
    obtain ⟨hsound, hkeep, hall⟩ := ihparts (hclosed id) henter rfl
    have hmark : u.mark id = .entered := by
      rw [hparts.entered_iff, Traversal.mark_enter h, if_pos rfl]
    have hnew : id ∉ u.order := fun hmem => by
      rw [hsound.finished, hmark] at hmem
      cases hmem.2
    have hfinish : (u.finish id).Sound t := by
      refine ⟨fun x => ?_, hnew, hall, hsound.sorted⟩
      rw [Traversal.mark_finish]
      have hx := hsound.finished x
      by_cases heq : x = id
      · simp [heq, hid, Traversal.finish]
      · simpa [heq, Traversal.finish] using hx
    obtain ⟨hend, hkeep', hrest⟩ := ihrest (fun x hx => hids x (.tail _ hx)) hfinish hr
    refine ⟨hend, fun x hx => hkeep' x (.tail _ (hkeep x hx)), fun x hx => ?_⟩
    rcases List.mem_cons.mp hx with rfl | hx
    · exact hkeep' _ List.mem_cons_self
    · exact hrest x hx

end Visits

/-- Types that are sorted do not contain one another in a circle, and whatever follows the fields
of one of them comes to an end. -/
theorem acc_of_sorted {t : TypeTable} {order : List TypeId} (h : Sorted t order) :
    ∀ id ∈ order, Acc (fun b a => t.Contains a b) id := by
  induction order with
  | nil => exact nofun
  | cons id rest ih =>
    obtain ⟨_, hparts, hrest⟩ := h
    intro x hx
    rcases List.mem_cons.mp hx with rfl | hx
    · exact ⟨x, fun p hp => ih hrest p (hparts p (TypeTable.contains_iff.mp hp))⟩
    · exact ih hrest x hx

/-! ## Validity -/

namespace TypeTable

variable {t : TypeTable}

/-- What is asked of each definition by itself: an aggregate has fields, and all ids that are
mentioned are in the table. -/
structure Defines (t : TypeTable) (d : TypeDef) : Prop where
  inhabited : ∀ fields, d.fields? = some fields → 0 < fields.size
  resolved : ∀ id ∈ d.mentions, id.position < t.size

theorem get_ok_iff {id : TypeId} {d : TypeDef} : t.get id = .ok d ↔ t.get? id = some d := by
  unfold get
  cases t.get? id <;> simp

theorem lt_of_get? {id : TypeId} {d : TypeDef} (h : t.get? id = some d) : id.position < t.size :=
  (Array.getElem?_eq_some_iff.mp h).1

theorem exists_get? {id : TypeId} (h : id.position < t.size) : ∃ d, t.get? id = some d :=
  ⟨_, Array.getElem?_eq_getElem h⟩

theorem mem_defs_of_get? {id : TypeId} {d : TypeDef} (h : t.get? id = some d) : d ∈ t.defs :=
  Array.mem_of_getElem? h

theorem partsOf_eq {id : TypeId} {d : TypeDef} (h : t.get? id = some d) :
    t.partsOf id = d.parts := by
  rw [partsOf, h]

theorem requireAll_ok_iff {ids : List TypeId} :
    t.requireAll ids = .ok () ↔ ∀ id ∈ ids, id.position < t.size := by
  induction ids with
  | nil => simp [requireAll]
  | cons id ids ih =>
    by_cases h : id.position < t.size
    · obtain ⟨d, hd⟩ := exists_get? h
      simp [requireAll, get_ok_iff.mpr hd, h, ih]
    · have habsent : t.get? id = none := Array.getElem?_eq_none (Nat.le_of_not_lt h)
      simp [requireAll, get, habsent, h]

theorem checkDef_ok_iff {d : TypeDef} : t.checkDef d = .ok () ↔ t.Defines d := by
  have hall : t.requireAll d.mentions = .ok () ↔ ∀ id ∈ d.mentions, id.position < t.size :=
    requireAll_ok_iff
  have haggregate (fields : OrderedMap TypeId) (hfields : d.fields? = some fields)
      (hempty : fields.values = []) : ¬ t.Defines d := by
    intro h
    have hpos := h.inhabited fields hfields
    rw [OrderedMap.values, List.map_eq_nil_iff] at hempty
    rw [OrderedMap.size, hempty] at hpos
    exact Nat.lt_irrefl 0 hpos
  unfold checkDef
  split
  · next name hname hparts =>
    refine ⟨nofun, fun h => absurd h ?_⟩
    cases d with
    | struct _ fields => exact haggregate fields rfl hparts
    | union _ fields => exact haggregate fields rfl hparts
    | _ => cases hname
  · next hname =>
    rw [hall]
    refine ⟨fun h => ⟨fun fields hfields => ?_, h⟩, Defines.resolved⟩
    refine Nat.pos_of_ne_zero fun hempty => ?_
    have hvalues : fields.values = [] := by
      rw [OrderedMap.values, List.map_eq_nil_iff]
      exact List.eq_nil_of_length_eq_zero hempty
    cases d with
    | struct name fields => cases hfields; exact hname name rfl hvalues
    | union name fields => cases hfields; exact hname name rfl hvalues
    | _ => cases hfields

theorem checkDefs_ok_iff {ds : List TypeDef} :
    t.checkDefs ds = .ok () ↔ ∀ d ∈ ds, t.Defines d := by
  induction ds with
  | nil => simp [checkDefs]
  | cons d ds ih =>
    have hd := checkDef_ok_iff (t := t) (d := d)
    cases h : t.checkDef d with
    | error e =>
      rw [h] at hd
      simp [checkDefs, h, ← hd]
    | ok u =>
      have hdefines := hd.mp h
      simp [checkDefs, h, ih, hdefines]

/-- The checks of single definitions find no recursion. -/
theorem checkDefs_error {ds : List TypeDef} {e : TypeError} (h : t.checkDefs ds = .error e)
    (name : String) : e ≠ .recursiveAggregate name := by
  have hrequire (ids : List TypeId) (h : t.requireAll ids = .error e) :
      e ≠ .recursiveAggregate name := by
    induction ids with
    | nil => cases h
    | cons id ids ih =>
      unfold requireAll get at h
      cases hget : t.get? id with
      | none =>
        rw [hget] at h
        cases h
        nofun
      | some d => exact ih (by simpa [hget] using h)
  induction ds with
  | nil => cases h
  | cons d ds ih =>
    unfold checkDefs at h
    cases hd : t.checkDef d with
    | ok u => exact ih (by simpa [hd] using h)
    | error e' =>
      rw [hd] at h
      cases h
      unfold checkDef at hd
      split at hd
      · cases hd
        nofun
      · exact hrequire _ hd

theorem validate_ok_iff : t.validate = .ok () ↔
    (∀ d ∈ t.defs, t.Defines d) ∧ ∃ order, t.finishOrder = .ok order := by
  have hdefs : t.checkDefs t.defs.toList = .ok () ↔ ∀ d ∈ t.defs.toList, t.Defines d :=
    checkDefs_ok_iff
  simp only [Array.mem_toList_iff] at hdefs
  rw [← hdefs, validate]
  cases t.checkDefs t.defs.toList with
  | error e => simp
  | ok u => cases t.finishOrder <;> simp

theorem closed_of_defines (h : ∀ d ∈ t.defs, t.Defines d) :
    ∀ id, ∀ p ∈ t.partsOf id, p.position < t.size := by
  intro id p hp
  cases hd : t.get? id with
  | none => simp [partsOf, hd] at hp
  | some d =>
    rw [partsOf_eq hd] at hp
    refine (h d (mem_defs_of_get? hd)).resolved p ?_
    cases d <;> first | exact hp | cases hp

/-- The order in which a valid table is laid out: sorted, and without a type that is missing. -/
theorem sorted_of_finishOrder (hdefines : ∀ d ∈ t.defs, t.Defines d) {order : List TypeId}
    (h : t.finishOrder = .ok order) :
    Sorted t order.reverse ∧ ∀ id, id ∈ order ↔ id.position < t.size := by
  obtain ⟨r, hvisits, hr⟩ := t.visits_finishOrder
  cases r with
  | error e =>
    rw [h] at hr
    cases hr
  | ok s =>
    rw [h] at hr
    cases hr
    have hbegin : t.unvisited.Sound t := by
      refine ⟨fun id => ?_, trivial⟩
      have hfresh (hlt : id.position < t.size) : t.unvisited.mark id ≠ .finished := by
        simp [Traversal.mark_eq_getElem?, unvisited, hlt]
      exact ⟨nofun, fun h => absurd h.2 (hfresh h.1)⟩
    obtain ⟨hsound, _, hall⟩ :=
      hvisits.sound (closed_of_defines hdefines) (fun _ => lt_of_mem_ids) hbegin
    rw [List.reverse_reverse]
    refine ⟨hsound.sorted, fun id => ?_⟩
    rw [List.mem_reverse]
    exact ⟨fun hid => ((hsound.finished id).mp hid).1, fun hlt => hall id (mem_ids hlt)⟩

end TypeTable
end ForeignVM
