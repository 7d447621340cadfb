import ForeignVM.Proofs.Blocks
import ForeignVM.Proofs.Congruence

/-!
# ForeignVM.Proofs.Within

Most instructions stay within the current frame: they take and give operands above its base,
change bytes inside blocks, and set the address. Calls, pool, natives and trace are left alone,
also by an instruction that fails halfway.

* `Operands.KeepsBelow` — the lowest operands are the same.
* `State.Within`        — the change that such an instruction makes.
* `Action.Inward`       — relations that taking, giving and storing keep to; `perform_keeps` for
  the instructions that do nothing else, `Instr.isInner`.
* `perform_within`      — these instructions stay within the frame.
-/

namespace ForeignVM

namespace Operands

theorem ext_values {o o' : Operands} (h : o.values = o'.values) : o = o' := by
  obtain ⟨vs, n, hn⟩ := o
  obtain ⟨vs', n', hn'⟩ := o'
  simp only at h
  subst h hn hn'
  rfl

theorem values_cut (o : Operands) (b : Nat) : (o.cut b).values = o.values.drop (o.height - b) := rfl

theorem height_cut {o : Operands} {b : Nat} (h : b ≤ o.height) : (o.cut b).height = b := by
  simp only [cut, drop]
  omega

theorem cut_height (o : Operands) : o.cut o.height = o := by
  apply ext_values
  rw [values_cut, Nat.sub_self, List.drop_zero]

theorem cut_zero (o : Operands) : o.cut 0 = .empty := by
  apply ext_values
  rw [values_cut, Nat.sub_zero, o.height_eq, List.drop_length]
  rfl

theorem cut_push {o : Operands} {b : Nat} (v : Value) (h : b ≤ o.height) :
    (o.push v).cut b = o.cut b := by
  apply ext_values
  rw [values_cut, values_cut]
  simp only [push, Nat.succ_sub h, List.drop_succ_cons]

theorem drop_drop (o : Operands) (m n : Nat) : (o.drop m).drop n = o.drop (m + n) := by
  apply ext_values
  simp only [drop, List.drop_drop]

theorem cut_drop {o : Operands} {b n : Nat} (h : b + n ≤ o.height) :
    (o.drop n).cut b = o.cut b := by
  apply ext_values
  rw [values_cut, values_cut]
  simp only [drop, List.drop_drop]
  congr 1
  omega

theorem cut_cut {o : Operands} {b c : Nat} (hb : b ≤ c) (hc : c ≤ o.height) :
    (o.cut c).cut b = o.cut b :=
  cut_drop (by omega)

/-- If `o` has at least `b` operands, so has `o'`, and the lowest `b` are the same. -/
def KeepsBelow (b : Nat) (o o' : Operands) : Prop :=
  b ≤ o.height → b ≤ o'.height ∧ o'.cut b = o.cut b

namespace KeepsBelow

variable {b c : Nat} {o o' o'' : Operands}

theorem refl (o : Operands) : KeepsBelow b o o := fun h => ⟨h, rfl⟩

theorem trans (h : KeepsBelow b o o') (h' : KeepsBelow b o' o'') : KeepsBelow b o o'' := by
  intro hb
  obtain ⟨hb', he⟩ := h hb
  obtain ⟨hb'', he'⟩ := h' hb'
  exact ⟨hb'', he'.trans he⟩

theorem push (v : Value) : KeepsBelow b o (o.push v) :=
  fun h => ⟨Nat.le_succ_of_le h, cut_push v h⟩

theorem drop {n : Nat} (h : b + n ≤ o.height) : KeepsBelow b o (o.drop n) :=
  fun _ => ⟨Nat.le_sub_of_add_le h, cut_drop h⟩

/-- What is kept below `c` is kept below any lower mark. -/
theorem mono (h : KeepsBelow c o o') (hb : b ≤ c) (hc : c ≤ o.height) : KeepsBelow b o o' := by
  intro _
  obtain ⟨hc', he⟩ := h hc
  refine ⟨Nat.le_trans hb hc', ?_⟩
  rw [← cut_cut hb hc', he, cut_cut hb hc]

end KeepsBelow
end Operands

/-- `t` comes of `s` by work within the current frame. -/
structure State.Within {σ τ : Type} (s t : State σ τ) : Prop where
  pool : t.pool = s.pool
  host : t.host = s.host
  calls : t.calls = s.calls
  trace : t.trace = s.trace
  memory : s.memory.Rewrites t.memory
  operands : s.operands.KeepsBelow s.calls.base t.operands

namespace State.Within

variable {σ τ : Type} {s t u : State σ τ}

theorem refl (s : State σ τ) : s.Within s :=
  ⟨rfl, rfl, rfl, rfl, .refl _, .refl _⟩

theorem trans (h : s.Within t) (h' : t.Within u) : s.Within u where
  pool := h'.pool.trans h.pool
  host := h'.host.trans h.host
  calls := h'.calls.trans h.calls
  trace := h'.trace.trans h.trace
  memory := h.memory.trans h'.memory
  operands := h.operands.trans (h.calls ▸ h'.operands)

instance : IsPreorder (State σ τ) State.Within where
  refl := refl
  trans _ _ _ := trans

theorem ofOperands {o : Operands} (h : s.operands.KeepsBelow s.calls.base o) :
    s.Within { s with operands := o } :=
  ⟨rfl, rfl, rfl, rfl, .refl _, h⟩

end State.Within

/-- An action that stays within the current frame, whether it succeeds or fails. -/
abbrev Action.Inner {σ τ α : Type} (a : Action σ τ α) : Prop := Keeps State.Within a

namespace Action

variable {σ τ : Type}

theorem inner_jump (ip : UInt32) : Inner (jump ip : Action σ τ Unit) :=
  fun _ => ⟨rfl, rfl, rfl, rfl, .refl _, .refl _⟩

theorem inner_push (v : Value) : Inner (push v : Action σ τ Unit) :=
  fun _ => .ofOperands (.push v)

/-- What `pop` does: it fails on operands that belong to a caller. -/
theorem pop_cases (ip : UInt32) (s : State σ τ) :
    (s.operands.height ≤ s.calls.base ∧
      (pop ip : Action σ τ Value) s = .error (.stackUnderflow ip) s) ∨
    (s.calls.base + 1 ≤ s.operands.height ∧ ∃ v, s.operands.values.head? = some v ∧
      (pop ip : Action σ τ Value) s = .ok v { s with operands := s.operands.drop 1 }) := by
  by_cases hb : s.operands.height ≤ s.calls.base
  · refine .inl ⟨hb, ?_⟩
    simp only [pop, bind_run, get_run, hb, if_true, throw_run]
  · refine .inr ⟨by omega, ?_⟩
    cases hv : s.operands.values with
    | nil =>
      have hh := s.operands.height_eq
      rw [hv, List.length_nil] at hh
      omega
    | cons v rest =>
      refine ⟨v, rfl, ?_⟩
      simp only [pop, bind_run, get_run, hb, if_false, pure_run, hv, set_run]

theorem popMany_cases (ip : UInt32) (n : Nat) (s : State σ τ) :
    (s.operands.height < s.calls.base + n ∧
      (popMany ip n : Action σ τ (List Value)) s = .error (.stackUnderflow ip) s) ∨
    (s.calls.base + n ≤ s.operands.height ∧
      (popMany ip n : Action σ τ (List Value)) s =
        .ok (s.operands.values.take n).reverse { s with operands := s.operands.drop n }) := by
  by_cases hb : s.operands.height < s.calls.base + n
  · refine .inl ⟨hb, ?_⟩
    simp only [popMany, bind_run, get_run, hb, if_true, throw_run]
  · refine .inr ⟨by omega, ?_⟩
    simp only [popMany, bind_run, get_run, hb, if_false, pure_run, set_run]

theorem pop_ok {ip : UInt32} {v : Value} {s t : State σ τ} (h : pop ip s = .ok v t) :
    s.calls.base + 1 ≤ s.operands.height ∧ s.operands.values.head? = some v ∧
      t = { s with operands := s.operands.drop 1 } := by
  obtain ⟨-, herror⟩ | ⟨hb, w, hw, hok⟩ := pop_cases ip s
  · cases h.symm.trans herror
  · cases h.symm.trans hok
    exact ⟨hb, hw, rfl⟩

theorem popMany_ok {ip : UInt32} {n : Nat} {xs : List Value} {s t : State σ τ}
    (h : popMany ip n s = .ok xs t) :
    s.calls.base + n ≤ s.operands.height ∧ xs = (s.operands.values.take n).reverse ∧
      t = { s with operands := s.operands.drop n } := by
  obtain ⟨-, herror⟩ | ⟨hb, hok⟩ := popMany_cases ip n s
  · cases h.symm.trans herror
  · cases h.symm.trans hok
    exact ⟨hb, rfl, rfl⟩

theorem inner_pop (ip : UInt32) : Inner (pop ip : Action σ τ Value) := by
  intro s
  obtain ⟨_, h⟩ | ⟨hb, v, _, h⟩ := pop_cases ip s
  · rw [h]
    exact .refl s
  · rw [h]
    exact .ofOperands (.drop hb)

theorem inner_store (address : UInt64) (s : Shape) (v : Value) :
    Inner (store address s v : Action σ τ Unit) := by
  intro t
  cases h : t.memory.store address s v with
  | ok memory =>
    simp only [store, bind_run, get_run, h, ofResult_ok, pure_run, setMemory_run]
    exact ⟨rfl, rfl, rfl, rfl, Memory.store_ok h, .refl _⟩
  | error e =>
    simp only [store, bind_run, get_run, h, ofResult_error, throw_run]
    exact .refl t

/-- A relation that taking an operand, giving one and storing a value keep to. -/
structure Inward (R : State σ τ → State σ τ → Prop) : Prop where
  pop : ∀ ip, Keeps R (Action.pop ip)
  push : ∀ v, Keeps R (Action.push v)
  store : ∀ address s v, Keeps R (Action.store address s v)

namespace Inward

variable {R : State σ τ → State σ τ → Prop}

theorem within : Inward (State.Within : State σ τ → State σ τ → Prop) :=
  ⟨inner_pop, inner_push, inner_store⟩

theorem congruence [IsPreorder (State σ τ) R] (h : Inward R) :
    Machine.Congruence fun _ (a : Action σ τ _) (_ : Action σ τ _) => Keeps R a where
  pure := .pure
  throw := .throw
  bind := .bind
  pop := h.pop
  push := h.push

end Inward
end Action

namespace Machine

open ForeignVM.Action

variable {σ τ : Type} (m : Machine σ) (watch : Observer τ)

section

variable {R : State σ τ → State σ τ → Prop} [IsPreorder (State σ τ) R]

theorem keeps_localSlot
    (h : Congruence fun _ (a : Action σ τ _) (_ : Action σ τ _) => Keeps R a) (ip : UInt32)
    (i : UInt16) : Keeps R (m.localSlot ip i : Action σ τ (UInt64 × Slot)) := by
  refine .bind .get ?_
  intro s
  split
  · exact .throw _
  · refine .bind (h.callee (.refl m) _) ?_
    intro c
    split
    · exact .throw _
    · exact .bind (.check _ _) fun _ => .pure _

theorem keeps_load (address : UInt64) (s : Shape) : Keeps R (load address s) :=
  .bind .get fun _ => .ofResult _

/-- A jump is up to the relation. -/
theorem perform_keeps (h : Inward R) {i : Instr} (hi : i.isInner) (ip : UInt32)
    (hjump : ∀ target, i.jumpTarget? = some target → Keeps R (jump target)) :
    Keeps R (m.perform watch ip i) :=
  h.congruence.inner (.refl m) watch watch hi ip (m.keeps_localSlot h.congruence ip) keeps_load
    h.store hjump

end

theorem perform_within {i : Instr} (h : i.isInner) (ip : UInt32) :
    Inner (m.perform watch ip i : Action σ τ Unit) :=
  m.perform_keeps watch .within h ip fun target _ => inner_jump target

end Machine
end ForeignVM
