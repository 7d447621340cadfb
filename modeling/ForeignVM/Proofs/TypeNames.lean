import ForeignVM.Proofs.Shapes
import Mathlib.Data.Finset.Card
import Mathlib.Logic.Relation

/-!
# ForeignVM.Proofs.TypeNames

The readable names of types. The name of a pointer or a proc is made of the names of other types,
without a look at what has been passed before: there is a name if and only if this comes to an end.

* `TypeTable.Shows`       — the name of a type is part of the name of another.
* `TypeTable.Endless`     — the type leads to one that leads back to itself.
* `name?_eq_none_iff`     — the types without a name; the bound on the depth makes no difference.
* `name?_eq`              — the names of all types, from one another.
-/

namespace ForeignVM

/-- The types whose names are part of the name of this one. -/
def TypeDef.shown : TypeDef → List TypeId
  | .pointer pointee => [pointee]
  | .proc params ret _ => params ++ ret.toList
  | _ => []

theorem mapM_eq_none_iff {α β : Type} {f : α → Option β} {as : List α} :
    as.mapM f = none ↔ ∃ a ∈ as, f a = none := by
  induction as with
  | nil => simp
  | cons a as ih =>
    rw [List.mapM_cons, List.exists_mem_cons_iff, ← ih]
    cases f a <;> cases as.mapM f <;> simp

theorem mapM_option_congr {α β : Type} {f g : α → Option β} {as : List α}
    (h : ∀ a ∈ as, f a = g a) : as.mapM f = as.mapM g := by
  induction as with
  | nil => rfl
  | cons a as ih =>
    rw [List.mapM_cons, List.mapM_cons, h a List.mem_cons_self, ih fun b hb => h b (.tail _ hb)]

namespace TypeTable

variable {t : TypeTable} {id : TypeId} {names names' : TypeId → Option String} {d : TypeDef}

/-! ## One step -/

theorem spell?_eq_none_iff :
    spell? names id (some d) = none ↔ ∃ b ∈ d.shown, names b = none := by
  cases d with
  | scalar kind => simp [spell?, TypeDef.shown]
  | struct name fields => simp [spell?, TypeDef.shown]
  | union name fields => simp [spell?, TypeDef.shown]
  | pointer pointee => cases h : names pointee <;> simp [spell?, TypeDef.shown, h]
  | proc params ret closure =>
    have hparams : params.mapM names = none ↔ _ := mapM_eq_none_iff
    cases ret with
    | none =>
      rw [TypeDef.shown, Option.toList_none, List.append_nil, ← hparams]
      cases h : params.mapM names <;> simp [spell?, h]
    | some ret =>
      have hshown : (∃ b ∈ params ++ [ret], names b = none) ↔
          (∃ b ∈ params, names b = none) ∨ names ret = none := by
        simp [or_and_right, exists_or]
      rw [TypeDef.shown, Option.toList_some, hshown, ← hparams]
      cases h : params.mapM names <;> cases hret : names ret <;> simp [spell?, h, hret]

theorem spell?_congr (h : ∀ b ∈ d.shown, names b = names' b) :
    spell? names id (some d) = spell? names' id (some d) := by
  cases d with
  | scalar kind => rfl
  | struct name fields => rfl
  | union name fields => rfl
  | pointer pointee => simp only [spell?, h pointee List.mem_cons_self]
  | proc params ret closure =>
    have hparams := mapM_option_congr fun b hb => h b (List.mem_append_left _ hb)
    cases ret with
    | none => simp only [spell?, hparams]
    | some ret =>
      have hret := h ret (List.mem_append_right _ List.mem_cons_self)
      simp only [spell?, hparams, hret]

/-! ## Names within names -/

/-- The name of `b` is part of the name of `a`. -/
def Shows (t : TypeTable) (a b : TypeId) : Prop := ∃ d, t.get? a = some d ∧ b ∈ d.shown

/-- There are `n` steps from the type to types that it shows. -/
def Nests (t : TypeTable) : Nat → TypeId → Prop
  | 0, _ => True
  | n + 1, id => ∃ b, t.Shows id b ∧ t.Nests n b

/-- The type leads to one that leads back to itself. -/
def Endless (t : TypeTable) (id : TypeId) : Prop :=
  ∃ b, Relation.ReflTransGen t.Shows id b ∧ Relation.TransGen t.Shows b b

theorem Endless.exists_shows (h : t.Endless id) : ∃ b, t.Shows id b ∧ t.Endless b := by
  obtain ⟨b, hreach, hback⟩ := h
  obtain rfl | ⟨c, hc, hreach⟩ := Relation.ReflTransGen.cases_head hreach
  · obtain ⟨c, hc, hreach⟩ := Relation.TransGen.head'_iff.mp hback
    exact ⟨c, hc, id, hreach, hback⟩
  · exact ⟨c, hc, b, hreach, hback⟩

theorem Endless.of_shows {b : TypeId} (hb : t.Shows id b) (h : t.Endless b) : t.Endless id := by
  obtain ⟨c, hreach, hback⟩ := h
  exact ⟨c, .head hb hreach, hback⟩

theorem Endless.nests (h : t.Endless id) (n : Nat) : t.Nests n id := by
  induction n generalizing id with
  | zero => trivial
  | succ n ih =>
    obtain ⟨b, hb, hendless⟩ := h.exists_shows
    exact ⟨b, hb, ih hendless⟩

/-- On a way of more steps than there are types one of them is met again; `passed` are the types
before `id`. -/
theorem endless_of_passed {n : Nat} (h : t.Nests n id) (passed : Finset TypeId)
    (hpassed : ∀ a ∈ passed, a.position < t.size ∧ Relation.TransGen t.Shows a id)
    (hmany : t.size < passed.card + n) : t.Endless id := by
  induction n generalizing id passed with
  | zero =>
    have hcard : passed.card ≤ (Finset.range t.size).card :=
      Finset.card_le_card_of_injOn TypeId.position
        (fun a ha => Finset.mem_coe.mpr (Finset.mem_range.mpr (hpassed a ha).1))
        fun _ _ _ _ hab => TypeId.ext_position hab
    rw [Finset.card_range] at hcard
    omega
  | succ n ih =>
    obtain ⟨b, hb, hnests⟩ := h
    by_cases hid : id ∈ passed
    · exact ⟨id, .refl, (hpassed id hid).2⟩
    · have hin : id.position < t.size := hb.elim fun _ hd => lt_of_get? hd.1
      refine .of_shows hb (ih hnests (insert id passed) (fun a ha => ?_) ?_)
      · obtain rfl | ha := Finset.mem_insert.mp ha
        · exact ⟨hin, .single hb⟩
        · exact ⟨(hpassed a ha).1, (hpassed a ha).2.tail hb⟩
      · rw [Finset.card_insert_of_notMem hid]
        omega

theorem nests_iff {n : Nat} (hn : t.size < n) : t.Nests n id ↔ t.Endless id :=
  ⟨fun h => endless_of_passed h ∅ nofun (by rwa [Finset.card_empty, Nat.zero_add]),
    fun h => h.nests n⟩

/-! ## Names -/

theorem nameTo?_eq_none_iff {n : Nat} : t.nameTo? n id = none ↔ t.Nests n id := by
  induction n generalizing id with
  | zero => exact ⟨fun _ => trivial, fun _ => rfl⟩
  | succ n ih =>
    rw [nameTo?]
    cases hd : t.get? id with
    | none => exact ⟨nofun, fun ⟨_, ⟨_, hd', _⟩, _⟩ => by cases hd.symm.trans hd'⟩
    | some d =>
      rw [spell?_eq_none_iff]
      constructor
      · rintro ⟨b, hb, hnone⟩
        exact ⟨b, ⟨d, hd, hb⟩, ih.mp hnone⟩
      · rintro ⟨b, ⟨d', hd', hb⟩, hnests⟩
        cases hd.symm.trans hd'
        exact ⟨b, hb, ih.mpr hnests⟩

/-- The types without a name. -/
theorem name?_eq_none_iff : t.name? id = none ↔ t.Endless id :=
  nameTo?_eq_none_iff.trans (nests_iff (Nat.lt_succ_self _))

/-- A name that comes to an end is not changed by a higher bound. -/
theorem nameTo?_succ {n : Nat} (h : ¬ t.Nests n id) : t.nameTo? (n + 1) id = t.nameTo? n id := by
  induction n generalizing id with
  | zero => exact absurd trivial h
  | succ n ih =>
    rw [nameTo?, nameTo?]
    cases hd : t.get? id with
    | none => rfl
    | some d => exact spell?_congr fun b hb => ih fun hnests => h ⟨b, ⟨d, hd, hb⟩, hnests⟩

/-- All names, each from those of the types that it shows. -/
theorem name?_eq (t : TypeTable) (id : TypeId) : t.name? id = spell? t.name? id (t.get? id) := by
  have hsame : t.nameTo? (t.size + 2) id = t.nameTo? (t.size + 1) id := by
    by_cases h : t.Nests (t.size + 1) id
    · have hendless := (nests_iff (Nat.lt_succ_self _)).mp h
      rw [nameTo?_eq_none_iff.mpr h, nameTo?_eq_none_iff.mpr (hendless.nests _)]
    · exact nameTo?_succ h
  exact hsame.symm

end TypeTable
end ForeignVM
