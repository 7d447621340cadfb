import ForeignVM.Proofs.Positions
import ForeignVM.Types.Table
import Mathlib.Data.List.Forall2

/-!
# ForeignVM.Proofs.Registration

Tables that are built up by requests. Every request gives an id, and the id keeps sixteen bits of
the position at which the requested definition stands.

* `TypeRequest`             — an entry of one's own, or one that is shared if it is there.
* `TypeTable.Serves`        — all that a request can come to; `serves_serve`.
* `TypeTable.forall₂_serveAll` — what holds of all ids that requests give is what holds of the ids
  of all entries.
* `TypeTable.LeadsToFirst`  — an id that is made of the position of the first entry of a kind.
* `TypeTable.ids_lead_iff`  — the ids lead to the definitions requested just if no other definition
  stands where sixteen bits of a position lead. Shared and named entries are the first of their
  kind, and they are found just if sixteen bits hold their position.
-/

namespace ForeignVM

inductive TypeRequest where
  | add (d : TypeDef)
  | scalar (kind : ScalarKind)
  | pointerTo (pointee : TypeId)

namespace TypeRequest

def wanted : TypeRequest → TypeDef
  | .add d => d
  | .scalar kind => .scalar kind
  | .pointerTo pointee => .pointer pointee

/-- An equal entry that is there already answers the request. -/
def Shares : TypeRequest → Prop
  | .add _ => False
  | .scalar _ | .pointerTo _ => True

end TypeRequest

/-- A struct or union of that name. -/
def TypeDef.IsNamed (name : String) (d : TypeDef) : Prop :=
  ∃ fields, d = .struct name fields ∨ d = .union name fields

theorem TypeDef.name?_eq_some_iff {name : String} {d : TypeDef} :
    d.name? = some name ↔ d.IsNamed name := by
  cases d <;> simp [name?, IsNamed]

namespace TypeTable

def serve (t : TypeTable) : TypeRequest → TypeTable × TypeId
  | .add d => t.add d
  | .scalar kind => t.scalar kind
  | .pointerTo pointee => t.pointerTo pointee

/-- The table after some requests, and their ids in order. -/
def serveAll (t : TypeTable) : List TypeRequest → TypeTable × List TypeId
  | [] => (t, [])
  | r :: rs =>
    let (t', id) := t.serve r
    let (last, ids) := t'.serveAll rs
    (last, id :: ids)

theorem serveAll_cons (t : TypeTable) (r : TypeRequest) (rs : List TypeRequest) :
    t.serveAll (r :: rs) =
      (((t.serve r).1.serveAll rs).1, (t.serve r).2 :: ((t.serve r).1.serveAll rs).2) := rfl

theorem get_eq_ok_iff {t : TypeTable} {id : TypeId} {d : TypeDef} :
    t.get id = .ok d ↔ t.defs[id.position]? = some d := by
  unfold get get?
  cases t.defs[id.position]? <;> simp

variable {t : TypeTable} {r : TypeRequest} {d : TypeDef} {i : Nat}

/-! ## One request -/

/-- What one request comes to: the definition is appended, unless an entry may be shared and is
there. -/
inductive Serves (t : TypeTable) (r : TypeRequest) : TypeTable × TypeId → Prop where
  | appended (hnew : r.Shares → r.wanted ∉ t.defs) :
      Serves t r (⟨t.defs.push r.wanted⟩, .ofPosition t.size)
  | shared {i : Nat} (hshares : r.Shares) (h : First (· = r.wanted) t.defs i r.wanted) :
      Serves t r (t, .ofPosition i)

theorem findOrAdd_cases (t : TypeTable) (d : TypeDef) :
    (∃ i, First (· = d) t.defs i d ∧ t.findOrAdd d = (t, .ofPosition i)) ∨
      d ∉ t.defs ∧ t.findOrAdd d = t.add d := by
  have hp (x : TypeDef) : (x == d) = true ↔ x = d := beq_iff_eq
  unfold findOrAdd
  cases h : t.defs.findIdx? (· == d) with
  | none =>
    have habsent := (findIdx?_eq_none_iff hp).mp h
    exact .inr ⟨fun hmem => habsent d hmem rfl, rfl⟩
  | some i =>
    obtain ⟨x, hx⟩ := (findIdx?_eq_some_iff hp).mp h
    obtain rfl := hx.holds
    exact .inl ⟨i, hx, rfl⟩

theorem serves_serve (t : TypeTable) (r : TypeRequest) : Serves t r (t.serve r) := by
  have hshared (d : TypeDef) (hd : r.wanted = d) (hshares : r.Shares) :
      Serves t r (t.findOrAdd d) := by
    subst hd
    obtain ⟨i, hi, h⟩ | ⟨hnew, h⟩ := t.findOrAdd_cases r.wanted
    · rw [h]
      exact .shared hshares hi
    · rw [h]
      exact .appended fun _ => hnew
  cases r with
  | add d => exact .appended (r := .add d) nofun
  | scalar kind => exact hshared _ rfl trivial
  | pointerTo pointee => exact hshared _ rfl trivial

theorem getElem?_push_of_some {xs : Array TypeDef} {x : TypeDef} (hd : xs[i]? = some d) :
    (xs.push x)[i]? = some d := by
  have hlt := (Array.getElem?_eq_some_iff.mp hd).1
  rw [Array.getElem?_push, if_neg (Nat.ne_of_lt hlt), hd]

/-- No request changes the entries that are there. -/
theorem Serves.getElem? {served : TypeTable × TypeId} (h : Serves t r served)
    (hd : t.defs[i]? = some d) : served.1.defs[i]? = some d := by
  cases h with
  | appended _ => exact getElem?_push_of_some hd
  | shared _ _ => exact hd

/-! ## Many requests -/

theorem getElem?_serveAll (rs : List TypeRequest) (hd : t.defs[i]? = some d) :
    (t.serveAll rs).1.defs[i]? = some d := by
  induction rs generalizing t with
  | nil => exact hd
  | cons r rs ih => exact ih ((t.serves_serve r).getElem? hd)

/-- The ids of requests are those of the entries: what holds of all entries that are there at the
start holds of all requests just if it holds of all entries in the end. -/
theorem forall₂_serveAll {P : TypeDef → TypeId → Prop} (rs : List TypeRequest)
    (hstart : ∀ i d, t.defs[i]? = some d → P d (.ofPosition i)) :
    List.Forall₂ (fun r id => P r.wanted id) rs (t.serveAll rs).2 ↔
      ∀ i d, (t.serveAll rs).1.defs[i]? = some d → P d (.ofPosition i) := by
  induction rs generalizing t with
  | nil => exact ⟨fun _ => hstart, fun _ => .nil⟩
  | cons r rs ih =>
    rw [serveAll_cons, List.forall₂_cons]
    have hserves := t.serves_serve r
    generalize t.serve r = served at hserves ⊢
    cases hserves with
    | appended _ =>
      -- the new entry is the only one of which nothing is known
      have hnext (hnew : P r.wanted (.ofPosition t.size)) (i : Nat) (d : TypeDef)
          (hd : (t.defs.push r.wanted)[i]? = some d) : P d (.ofPosition i) := by
        rw [Array.getElem?_push] at hd
        split at hd
        · next hi =>
          cases hd
          exact hi ▸ hnew
        · exact hstart i d hd
      constructor
      · rintro ⟨hnew, hrest⟩
        exact (ih (hnext hnew)).mp hrest
      · intro hall
        have hlast : (t.defs.push r.wanted)[t.size]? = some r.wanted := Array.getElem?_push_size
        have hnew := hall t.size r.wanted (getElem?_serveAll (t := ⟨_⟩) rs hlast)
        exact ⟨hnew, (ih (hnext hnew)).mpr hall⟩
    | @shared i _ hi =>
      rw [ih hstart]
      exact ⟨And.right, fun hall => ⟨hstart i _ hi.found, hall⟩⟩

/-- Where sixteen bits of a position lead, the entry is the same. -/
def Repeats (t : TypeTable) : Prop := ∀ i d, t.defs[i]? = some d → t.defs[i % 2 ^ 16]? = some d

theorem repeats_of_size_le (h : t.size ≤ 2 ^ 16) : t.Repeats := by
  intro i d hd
  have hlt : i < t.size := (Array.getElem?_eq_some_iff.mp hd).1
  rw [Nat.mod_eq_of_lt (Nat.lt_of_lt_of_le hlt h)]
  exact hd

/-- The id of a position leads to an entry for good just if it does so at once. -/
theorem get_serveAll_iff :
    (∀ later, (t.serveAll later).1.get (.ofPosition i) = .ok d) ↔
      t.defs[i % 2 ^ 16]? = some d := by
  simp only [get_eq_ok_iff, TypeId.position_ofPosition]
  exact ⟨fun h => h [], fun h later => getElem?_serveAll later h⟩

/-! ## First entries -/

/-- The id keeps sixteen bits of the position of the first entry of a kind. It leads to this entry
just if these are all bits of the position. -/
def LeadsToFirst (t : TypeTable) (kind : TypeDef → Prop) (id : TypeId) : Prop :=
  ∃ i d, First kind t.defs i d ∧ id.position = i % 2 ^ 16 ∧ (t.get id = .ok d ↔ i < 2 ^ 16)

theorem leadsToFirst_ofPosition {kind : TypeDef → Prop} (h : First kind t.defs i d) :
    t.LeadsToFirst kind (.ofPosition i) := by
  have hposition := TypeId.position_ofPosition i
  refine ⟨i, d, h, hposition, ?_⟩
  rw [get_eq_ok_iff, hposition]
  exact h.getElem?_mod_iff

/-- The answer to a request that shares entries: the id is made of the position of the first equal
entry, and there is no second one because of the request. -/
structure SharesEntry (t : TypeTable) (r : TypeRequest) (served : TypeTable × TypeId) : Prop where
  first : served.1.LeadsToFirst (· = r.wanted) served.2
  unchanged : r.wanted ∈ t.defs → served.1 = t
  appended : r.wanted ∉ t.defs → served.1.defs = t.defs.push r.wanted
  count : served.1.defs.count r.wanted = max 1 (t.defs.count r.wanted)

theorem Serves.sharesEntry {served : TypeTable × TypeId} (h : Serves t r served)
    (hshares : r.Shares) : SharesEntry t r served := by
  cases h with
  | appended hnew =>
    have habsent := hnew hshares
    have hfirst : First (· = r.wanted) (t.defs.push r.wanted) t.defs.size r.wanted := by
      refine ⟨Array.getElem?_push_size, rfl, ?_⟩
      intro j hj y hy heq
      rw [Array.getElem?_push, if_neg (Nat.ne_of_lt hj)] at hy
      exact habsent (heq ▸ Array.mem_of_getElem? hy)
    refine ⟨leadsToFirst_ofPosition hfirst, fun hmem => absurd hmem habsent, fun _ => rfl, ?_⟩
    rw [Array.count_push_self, Array.count_eq_zero.mpr habsent]
    rfl
  | shared _ hi =>
    have hpositive : 0 < t.defs.count r.wanted := Array.count_pos_iff.mpr hi.mem
    exact ⟨leadsToFirst_ofPosition hi, fun _ => rfl, fun hnew => absurd hi.mem hnew,
      (Nat.max_eq_right hpositive).symm⟩

/-- What a name is looked up as. -/
structure FindsNamed (t : TypeTable) (name : String) : Prop where
  missing : t.byName? name = none ↔ ∀ d ∈ t.defs, ¬ d.IsNamed name
  first : ∀ id, t.byName? name = some id → t.LeadsToFirst (TypeDef.IsNamed name) id

theorem name?_beq_iff (name : String) (d : TypeDef) :
    (d.name? == some name) = true ↔ d.IsNamed name := by
  rw [beq_iff_eq, TypeDef.name?_eq_some_iff]

theorem byName?_of_first {name : String} (h : First (TypeDef.IsNamed name) t.defs i d) :
    t.byName? name = some (.ofPosition i) := by
  rw [byName?, (findIdx?_eq_some_iff (name?_beq_iff name)).mpr ⟨d, h⟩]
  rfl

theorem findsNamed (t : TypeTable) (name : String) : t.FindsNamed name := by
  constructor
  · rw [byName?, Option.map_eq_none_iff]
    exact findIdx?_eq_none_iff (name?_beq_iff name)
  · intro id h
    obtain ⟨i, hi, rfl⟩ := Option.map_eq_some_iff.mp h
    obtain ⟨d, hd⟩ := (findIdx?_eq_some_iff (name?_beq_iff name)).mp hi
    exact leadsToFirst_ofPosition hd

/-! ## The main result -/

/-- After any requests to an empty table: all ids lead to the definitions that were requested with
them, also after more requests, just if no other definition stands where sixteen bits of a position
lead; so it is if sixteen bits number the entries. A request for a scalar or a pointer adds no
second entry. Its id, and that of a name, is made of the position of the first entry that fits. -/
theorem ids_lead_iff (rs : List TypeRequest) :
    (List.Forall₂
        (fun r id => ∀ later, ((empty.serveAll rs).1.serveAll later).1.get id = .ok r.wanted)
        rs (empty.serveAll rs).2 ↔
      (empty.serveAll rs).1.Repeats) ∧
    ((empty.serveAll rs).1.size ≤ 2 ^ 16 → (empty.serveAll rs).1.Repeats) ∧
    (∀ r : TypeRequest, r.Shares →
      SharesEntry (empty.serveAll rs).1 r ((empty.serveAll rs).1.serve r)) ∧
    ∀ name, (empty.serveAll rs).1.FindsNamed name := by
  refine ⟨?_, repeats_of_size_le, fun r => (serves_serve _ r).sharesEntry, findsNamed _⟩
  have hstart (i : Nat) (d : TypeDef) : empty.defs[i]? ≠ some d := by simp [empty]
  rw [forall₂_serveAll
    (P := fun d id => ∀ later, ((empty.serveAll rs).1.serveAll later).1.get id = .ok d)
    rs fun i d hd => absurd hd (hstart i d)]
  exact forall₂_congr fun i d => imp_congr_right fun _ => get_serveAll_iff

/-- Two requests for the same scalar, with a pointer and a struct between them. -/
def repeating : List TypeRequest :=
  [.scalar .u8, .pointerTo ⟨0⟩, .add (.struct "Pair" (.ofList [("a", ⟨0⟩), ("b", ⟨1⟩)])),
    .scalar .u8]

/-- The second request for the scalar gives the id of the first. -/
theorem ids_lead_repeating :
    (empty.serveAll repeating).2 = [⟨0⟩, ⟨1⟩, ⟨2⟩, ⟨0⟩] ∧
    (empty.serveAll repeating).1.size ≤ 2 ^ 16 ∧
    List.Forall₂
      (fun r id => ∀ later, ((empty.serveAll repeating).1.serveAll later).1.get id = .ok r.wanted)
      repeating (empty.serveAll repeating).2 ∧
    TypeRequest.Shares (.pointerTo ⟨0⟩) ∧
    SharesEntry (empty.serveAll repeating).1 (.pointerTo ⟨0⟩)
      ((empty.serveAll repeating).1.serve (.pointerTo ⟨0⟩)) := by
  have hsize : (empty.serveAll repeating).1.size ≤ 2 ^ 16 := by decide +kernel
  obtain ⟨hids, hfew, hshared, -⟩ := ids_lead_iff repeating
  exact ⟨by decide +kernel, hsize, hids.mpr (hfew hsize), trivial, hshared _ trivial⟩

/-- A struct behind as many pointers as there are ids. -/
def exhausting : List TypeRequest :=
  (List.replicate (2 ^ 16) (TypeDef.pointer ⟨0⟩)).map .add ++
    [.add (.struct "Late" (.ofList [("x", ⟨0⟩)]))]

theorem serveAll_append (t : TypeTable) (rs rs' : List TypeRequest) :
    t.serveAll (rs ++ rs') =
      (((t.serveAll rs).1.serveAll rs').1,
        (t.serveAll rs).2 ++ ((t.serveAll rs).1.serveAll rs').2) := by
  induction rs generalizing t with
  | nil => rfl
  | cons r rs ih => simp only [List.cons_append, serveAll_cons, ih]

theorem length_serveAll (t : TypeTable) (rs : List TypeRequest) :
    (t.serveAll rs).2.length = rs.length := by
  induction rs generalizing t with
  | nil => rfl
  | cons r rs ih => rw [serveAll_cons, List.length_cons, List.length_cons, ih]

theorem defs_serveAll_add (t : TypeTable) (ds : List TypeDef) :
    (t.serveAll (ds.map .add)).1.defs = t.defs ++ ds.toArray := by
  induction ds generalizing t with
  | nil => simp [serveAll]
  | cons d ds ih =>
    have hpush : (t.serve (.add d)).1.defs = t.defs.push d := rfl
    rw [List.map_cons, serveAll_cons, ih, hpush]
    simp

theorem serveAll_pointers (n : Nat) (d : TypeDef) :
    empty.serveAll ((List.replicate n (TypeDef.pointer ⟨0⟩)).map .add ++ [.add d]) =
      (⟨(Array.replicate n (TypeDef.pointer ⟨0⟩)).push d⟩,
        (empty.serveAll ((List.replicate n (TypeDef.pointer ⟨0⟩)).map .add)).2 ++
          [.ofPosition n]) := by
  have hdefs : (empty.serveAll ((List.replicate n (TypeDef.pointer ⟨0⟩)).map .add)).1.defs =
      Array.replicate n (.pointer ⟨0⟩) := by
    rw [defs_serveAll_add, List.toArray_replicate]
    exact Array.empty_append
  have hadd (t : TypeTable) : t.serveAll [.add d] = (⟨t.defs.push d⟩, [.ofPosition t.defs.size]) :=
    rfl
  rw [serveAll_append, hadd, hdefs, Array.size_replicate]

theorem first_named_pointers (n : Nat) {name : String} (hd : d.IsNamed name) :
    First (TypeDef.IsNamed name) ((Array.replicate n (TypeDef.pointer ⟨0⟩)).push d) n d := by
  refine ⟨?_, hd, ?_⟩
  · rw [Array.getElem?_push, Array.size_replicate, if_pos rfl]
  · intro j hj y hy
    rw [Array.getElem?_push, Array.size_replicate, if_neg (Nat.ne_of_lt hj),
      Array.getElem?_replicate, if_pos hj] at hy
    cases hy
    rintro ⟨fields, h | h⟩ <;> cases h

/-- The struct has the id of the first pointer, also if it is looked up by its name. -/
theorem exhausting_misleads :
    ¬ List.Forall₂ (fun r id => (empty.serveAll exhausting).1.get id = .ok r.wanted)
      exhausting (empty.serveAll exhausting).2 ∧
    (empty.serveAll exhausting).1.byName? "Late" = some ⟨0⟩ ∧
    (empty.serveAll exhausting).1.get ⟨0⟩ = .ok (.pointer ⟨0⟩) := by
  have hlast : TypeId.ofPosition (2 ^ 16) = ⟨0⟩ := by decide
  have hzero (d : TypeDef) :
      get ⟨(Array.replicate (2 ^ 16) (TypeDef.pointer ⟨0⟩)).push d⟩ ⟨0⟩ = .ok (.pointer ⟨0⟩) := by
    have hfirst : (Array.replicate (2 ^ 16) (TypeDef.pointer ⟨0⟩))[0]? = some (.pointer ⟨0⟩) := by
      rw [Array.getElem?_replicate, if_pos (by decide)]
    exact get_eq_ok_iff.mpr (getElem?_push_of_some hfirst)
  rw [exhausting, serveAll_pointers, hlast]
  refine ⟨fun h => ?_, ?_, hzero _⟩
  · have hdrop := List.forall₂_drop_append _ _ _ h
    rw [length_serveAll, List.drop_left] at hdrop
    cases hdrop with
    | cons hid _ => cases (hzero _).symm.trans hid
  · rw [← hlast]
    exact byName?_of_first (first_named_pointers (2 ^ 16) ⟨_, .inl rfl⟩)

end TypeTable
end ForeignVM
