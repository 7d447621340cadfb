import Mathlib.Data.List.Forall2

/-!
# ForeignVM.Proofs.Traverse

Maps and folds over lists that stop at the first failure, and the lookup of an element.

* `mapM_eq_ok_iff`      — a map succeeds if it does so for every element.
* `mapM_congr`          — maps are the same if they are so for every element.
* `mapM_error`          — a map fails for the first element without a result.
* `foldlM_concat`       — a fold ends with its last element.
* `foldlM_invariant`    — what every step of a fold keeps, a fold that succeeds keeps;
  `foldlM_error`: one that fails does so at an element.
* `find?_of_nodup`      — an element is found by a key that no other has.
-/

namespace ForeignVM

variable {ε α β γ : Type}

theorem mapM_eq_ok_iff {f : α → Except ε β} {as : List α} {bs : List β} :
    as.mapM f = .ok bs ↔ List.Forall₂ (fun a b => f a = .ok b) as bs := by
  induction as generalizing bs with
  | nil => cases bs <;> simp [pure, Except.pure]
  | cons a as ih =>
    rw [List.mapM_cons]
    cases ha : f a with
    | error e =>
      constructor
      · intro h
        cases h
      · intro h
        cases h with
        | cons hb _ =>
          rw [ha] at hb
          cases hb
    | ok b =>
      cases hr : as.mapM f with
      | error e =>
        constructor
        · intro h
          cases h
        · intro h
          cases h with
          | cons _ hbs =>
            rw [ih.mpr hbs] at hr
            cases hr
      | ok rest =>
        constructor
        · intro h
          cases h
          exact .cons ha (ih.mp hr)
        · intro h
          cases h with
          | cons hb hbs =>
            rw [ha] at hb
            rw [ih.mpr hbs] at hr
            cases hb
            cases hr
            rfl

theorem length_of_mapM {f : α → Except ε β} {as : List α} {bs : List β}
    (h : as.mapM f = .ok bs) : bs.length = as.length :=
  (mapM_eq_ok_iff.mp h).length_eq.symm

theorem mapM_take {f : α → Except ε β} {as : List α} {bs : List β} (h : as.mapM f = .ok bs)
    (n : Nat) : (as.take n).mapM f = .ok (bs.take n) :=
  mapM_eq_ok_iff.mpr (List.forall₂_take n (mapM_eq_ok_iff.mp h))

theorem exists_of_mem_mapM {f : α → Except ε β} {as : List α} {bs : List β}
    (h : as.mapM f = .ok bs) {b : β} (hb : b ∈ bs) : ∃ a ∈ as, f a = .ok b := by
  have hall := mapM_eq_ok_iff.mp h
  clear h
  induction hall with
  | nil => cases hb
  | @cons a c as bs hac _ ih =>
    cases hb with
    | head => exact ⟨a, List.mem_cons_self, hac⟩
    | tail _ hmem =>
      obtain ⟨a', ha', hf⟩ := ih hmem
      exact ⟨a', .tail _ ha', hf⟩

theorem exists_mapM {f : α → Except ε β} {as : List α} (h : ∀ a ∈ as, ∃ b, f a = .ok b) :
    ∃ bs, as.mapM f = .ok bs := by
  induction as with
  | nil => exact ⟨[], rfl⟩
  | cons a as ih =>
    obtain ⟨b, hb⟩ := h a List.mem_cons_self
    obtain ⟨bs, hbs⟩ := ih fun a' ha' => h a' (.tail _ ha')
    exact ⟨b :: bs, mapM_eq_ok_iff.mpr (.cons hb (mapM_eq_ok_iff.mp hbs))⟩

theorem getElem?_of_mapM {f : α → Except ε β} {as : List α} {bs : List β}
    (h : as.mapM f = .ok bs) {i : Nat} {a : α} (ha : as[i]? = some a) :
    ∃ b, bs[i]? = some b ∧ f a = .ok b := by
  have hall := mapM_eq_ok_iff.mp h
  clear h
  induction hall generalizing i with
  | nil => cases ha
  | cons hab _ ih =>
    cases i with
    | zero =>
      cases ha
      exact ⟨_, rfl, hab⟩
    | succ i => exact ih ha

theorem mapM_congr {f g : α → Except ε β} {as : List α} (h : ∀ a ∈ as, f a = g a) :
    as.mapM f = as.mapM g := by
  induction as with
  | nil => rfl
  | cons a as ih =>
    rw [List.mapM_cons, List.mapM_cons, h a List.mem_cons_self, ih fun a' ha' => h a' (.tail _ ha')]

/-- A map fails for the first element for which it has no result. -/
theorem mapM_error {f : α → Except ε β} {as : List α} {e : ε} (h : as.mapM f = .error e) :
    ∃ front a back, as = front ++ a :: back ∧ (∀ b ∈ front, ∃ y, f b = .ok y) ∧
      f a = .error e := by
  induction as with
  | nil => cases h
  | cons a as ih =>
    rw [List.mapM_cons] at h
    cases ha : f a with
    | error e' =>
      rw [ha] at h
      cases h
      exact ⟨[], a, as, rfl, nofun, ha⟩
    | ok b =>
      rw [ha] at h
      cases hr : as.mapM f with
      | ok bs =>
        rw [hr] at h
        cases h
      | error e' =>
        rw [hr] at h
        cases h
        obtain ⟨front, a', back, rfl, hfront, ha'⟩ := ih hr
        exact ⟨a :: front, a', back, rfl, List.forall_mem_cons.mpr ⟨⟨b, ha⟩, hfront⟩, ha'⟩

theorem foldlM_concat (f : γ → α → Except ε γ) (as : List α) (a : α) (c : γ) :
    (as ++ [a]).foldlM f c = as.foldlM f c >>= fun c' => f c' a := by
  rw [List.foldlM_append]
  refine congrArg _ (funext fun c' => ?_)
  exact bind_pure (f c' a)

theorem foldlM_invariant {f : γ → α → Except ε γ} (P : γ → Prop) {as : List α} {c c' : γ}
    (h : as.foldlM f c = .ok c') (hc : P c)
    (hstep : ∀ c a c', a ∈ as → P c → f c a = .ok c' → P c') : P c' := by
  induction as generalizing c with
  | nil =>
    cases h
    exact hc
  | cons a as ih =>
    rw [List.foldlM_cons] at h
    cases ha : f c a with
    | error e =>
      rw [ha] at h
      cases h
    | ok d =>
      rw [ha] at h
      exact ih h (hstep c a d List.mem_cons_self hc ha) fun c a' c' hmem =>
        hstep c a' c' (List.mem_cons_of_mem _ hmem)

/-- A fold fails at one of the elements. -/
theorem foldlM_error {f : γ → α → Except ε γ} {as : List α} {c : γ} {e : ε}
    (h : as.foldlM f c = .error e) : ∃ a ∈ as, ∃ c', f c' a = .error e := by
  induction as generalizing c with
  | nil => cases h
  | cons a as ih =>
    rw [List.foldlM_cons] at h
    cases ha : f c a with
    | error e' =>
      rw [ha] at h
      cases h
      exact ⟨a, List.mem_cons_self, c, ha⟩
    | ok d =>
      rw [ha] at h
      obtain ⟨a', hmem, hfails⟩ := ih h
      exact ⟨a', List.mem_cons_of_mem a hmem, hfails⟩

/-- What is found by a key that nothing else has. -/
theorem find?_of_nodup [DecidableEq β] {key : α → β} {as : List α}
    (h : (as.map key).Nodup) {a : α} (ha : a ∈ as) : as.find? (key · = key a) = some a := by
  obtain ⟨front, back, rfl⟩ := List.append_of_mem ha
  rw [List.find?_eq_some_iff_append]
  refine ⟨decide_eq_true rfl, front, back, rfl, fun b hb => ?_⟩
  rw [List.map_append, List.nodup_append] at h
  have hne : key b ≠ key a := h.2.2 _ (List.mem_map_of_mem hb) _ List.mem_cons_self
  simpa using hne

end ForeignVM
