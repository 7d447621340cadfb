import ForeignVM.Proofs.Threads

/-!
# ForeignVM.Proofs.Lockstep

States that show the same thread go the same way, whatever the machines are that run them, and
whatever lies below the thread and elsewhere in the memory. Either of them may fail before the
other, because its limits are lower or its memory is exhausted; if none fails, they show the same
thread again.

* `Instr.isPointing`    — the instructions that make or use addresses, about which this is not said.
* `Machine.Agrees`      — actions that give the same values and lead to the same thread.
* `congruence_agrees`   — elementary actions agree; `agrees_perform` for instructions.
* `Thread.Advances`     — the next instruction neither leaves the thread nor reads a constant.
* `lockstep`            — such an instruction leads to the same thread.
-/

namespace ForeignVM

/-- The instructions that make addresses of memory, or read and write at them. -/
def Instr.isPointing : Instr → Bool
  | .localAddr _ | .fieldAddr _ _ | .load _ | .store _ | .malloc _ _ | .ptrIndex _ => true
  | _ => false

/-- The next instruction of the thread is executed within it: no result leaves it, and nothing is
asked of the pool. -/
structure Thread.Advances {σ : Type} (a : Thread) (m : Machine σ) (l : Located) : Prop where
  fetch : decodeAt m.program.code a.ip = .ok l
  plain : ¬ l.instr.isPointing
  unread : ∀ o, l.instr ≠ .constGet o
  inside : l.instr = .ret → a.callers ≠ []

namespace Machine

open ForeignVM.Action

variable {σ σ' τ τ' : Type} {m : Machine σ} {m' : Machine σ'} {g : Ground σ τ} {g' : Ground σ' τ'}

/-! ## Agreement -/

/-- Of states that show one thread, the actions give one value and lead to states that show one
thread, if none of them fails. -/
def Agrees (g : Ground σ τ) (g' : Ground σ' τ') (α : Type) (x : Action σ τ α)
    (x' : Action σ' τ' α) : Prop :=
  ∀ ⦃a s s'⦄, Shows s g a → Shows s' g' a → ∀ ⦃v t v' t'⦄, x s = .ok v t → x' s' = .ok v' t' →
    v' = v ∧ ∃ b, Shows t g b ∧ Shows t' g' b

theorem congruence_agrees (g : Ground σ τ) (g' : Ground σ' τ') : Congruence (Agrees g g') where
  pure v a s s' h h' _ _ _ _ hx hx' := by
    cases hx
    cases hx'
    exact ⟨rfl, a, h, h'⟩
  throw e a s s' h h' _ _ _ _ hx := by cases hx
  bind {α β x x' f f'} hxs hfs a s s' h h' v t v' t' hx hx' := by
    obtain ⟨w, u, hr, hx⟩ := bind_eq_ok hx
    obtain ⟨w', u', hr', hx'⟩ := bind_eq_ok hx'
    obtain ⟨rfl, b, hb, hb'⟩ := hxs h h' hr hr'
    exact hfs w' hb hb' hx hx'
  pop ip a s s' h h' v t v' t' hx hx' := by
    obtain ⟨vs, hops, ht⟩ := h.pop hx
    obtain ⟨vs', hops', ht'⟩ := h'.pop hx'
    obtain ⟨rfl, rfl⟩ := List.cons.inj (hops.symm.trans hops')
    exact ⟨rfl, _, ht, ht'⟩
  push v a s s' h h' _ _ _ _ hx hx' := by
    cases hx
    cases hx'
    exact ⟨rfl, _, h.push v, h'.push v⟩

theorem agrees_jump (ip : UInt32) : Agrees g g' Unit (jump ip) (jump ip) := by
  intro a s s' h h' _ _ _ _ hx hx'
  cases hx
  cases hx'
  exact ⟨rfl, _, h.jump ip _, h'.jump ip _⟩

theorem agrees_popMany (ip : UInt32) (n : Nat) :
    Agrees g g' (List Value) (popMany ip n) (popMany ip n) := by
  intro a s s' h h' vs t vs' t' hx hx'
  obtain ⟨rfl, ht⟩ := h.popMany hx
  obtain ⟨rfl, ht'⟩ := h'.popMany hx'
  exact ⟨rfl, _, ht, ht'⟩

section

variable (hm : Akin m m') {watch : Observer τ} {watch' : Observer τ'}
include hm

/-! ## Instructions -/

theorem agrees_localGet (ip : UInt32) (i : UInt16) :
    Agrees g g' Unit (m.perform watch ip (.localGet i)) (m'.perform watch' ip (.localGet i)) := by
  intro a s s' h h' _ t _ t' hx hx'
  obtain ⟨c, slot, hc, hslot, ht⟩ := h.localGet hx
  obtain ⟨c', slot', hc', hslot', ht'⟩ := h'.localGet hx'
  rw [hm.callee?, hc] at hc'
  cases hc'
  cases hslot.symm.trans hslot'
  exact ⟨rfl, _, ht, ht'⟩

theorem agrees_localSet (ip : UInt32) (i : UInt16) :
    Agrees g g' Unit (m.perform watch ip (.localSet i)) (m'.perform watch' ip (.localSet i)) := by
  intro a s s' h h' _ t _ t' hx hx'
  obtain ⟨v, vs, c, slot, bytes, hops, hc, hslot, hbytes, ht⟩ := h.localSet hx
  obtain ⟨v', vs', c', slot', bytes', hops', hc', hslot', hbytes', ht'⟩ := h'.localSet hx'
  obtain ⟨rfl, rfl⟩ := List.cons.inj (hops.symm.trans hops')
  rw [hm.callee?, hc] at hc'
  cases hc'
  cases hslot.symm.trans hslot'
  cases hbytes.symm.trans hbytes'
  exact ⟨rfl, _, ht, ht'⟩

theorem agrees_enter (id : RoutineId) (args : List Value) {kind : FrameKind}
    (hkind : kind.isCall) :
    Agrees g g' Unit (m.enter watch id args kind) (m'.enter watch' id args kind) := by
  intro a s s' h h' _ t _ t' hx hx'
  obtain ⟨c, new, hc, hnew, ht⟩ := h.enter hkind hx
  obtain ⟨c', new', hc', hnew', ht'⟩ := h'.enter hkind hx'
  rw [hm.callee?, hc] at hc'
  cases hc'
  cases hnew.symm.trans hnew'
  exact ⟨rfl, _, ht, ht'⟩

theorem agrees_deliver (v : Value) {kind : FrameKind} (hkind : kind.isCall) :
    Agrees g g' Unit (m.deliver watch v kind) (m'.deliver watch' v kind) := by
  have h := congruence_agrees g g'
  cases kind with
  | host | constant offset => cases hkind
  | call =>
    unfold deliver
    dsimp only
    split
    · exact h.pure ()
    · exact h.push v
  | procCall ret =>
    cases ret with
    | none => exact h.pure ()
    | some ty => exact h.bind (h.shape hm ty) fun _ => h.bind (h.ofResult _) h.push

variable (hnone : ∀ id, m.native? id = none)
include hnone

/-- Without natives, only routines can be called. -/
theorem agrees_callProc (ip : UInt32) (ty : TypeId) :
    Agrees g g' Unit (m.callProc watch ip ty) (m'.callProc watch' ip ty) := by
  have h := congruence_agrees g g'
  refine h.callProc hm watch watch' (fun id args ret => agrees_enter hm id args rfl) ?_ ip ty
    (agrees_popMany ip)
  intro id args context
  unfold callNative
  rw [hnone, hm.native?_none hnone]
  exact h.throw _

/-- One case per instruction that is not plain. -/
theorem agrees_perform {i : Instr} (hpoints : ¬ i.isPointing) (hread : ∀ o, i ≠ .constGet o)
    (ip : UInt32) : Agrees g g' Unit (m.perform watch ip i) (m'.perform watch' ip i) := by
  have h := congruence_agrees g g'
  by_cases hplain : i.isPlain
  · exact h.perform hm watch watch' hplain ip
  cases i with
  | localGet i => exact agrees_localGet hm ip i
  | localSet i => exact agrees_localSet hm ip i
  | jump target => exact agrees_jump target
  | jumpIfFalse target =>
    refine h.bind (h.popBool ip) fun b => ?_
    cases b with
    | false => exact agrees_jump target
    | true => exact h.pure ()
  | call id =>
    refine h.bind (h.callee hm id) fun c => ?_
    exact h.bind (agrees_popMany ip _) fun args => agrees_enter hm id args rfl
  | callProc ty => exact agrees_callProc hm hnone ip ty
  | constGet o => exact absurd rfl (hread o)
  | localAddr _ | fieldAddr _ _ | load _ | store _ | malloc _ _ | ptrIndex _ =>
    exact absurd rfl hpoints
  | _ => exact absurd rfl hplain

end

/-! ## Returns -/

/-- A return within a thread gives its result to the same caller in both states. -/
theorem agrees_leave (hm : Akin m m') {watch : Observer τ} {watch' : Observer τ'} {ip : UInt32}
    {a : Thread} {s t : State σ τ} {s' t' : State σ' τ'} {o o' : Option Value}
    (hs : Shows s g a) (hs' : Shows s' g' a) (hinside : a.callers ≠ [])
    (hx : m.leave watch ip s = .ok o t) (hx' : m'.leave watch' ip s' = .ok o' t') :
    o = none ∧ o' = none ∧ ∃ b, Shows t g b ∧ Shows t' g' b := by
  obtain ⟨caller, rest, hcallers⟩ := List.exists_cons_of_ne_nil hinside
  obtain ⟨f, _, hf, hholds, _⟩ := hs.update
  obtain ⟨f', _, hf', hholds', _⟩ := hs'.update
  obtain ⟨c, v, _, memory, hc, hr, hfree, hdelivered⟩ := leave_ok hf hx
  obtain ⟨c', v', _, memory', hc', hr', hfree', hdelivered'⟩ := leave_ok hf' hx'
  obtain ⟨hkind, hcall, hresume, hleft⟩ := hs.left_inner hf hfree watch v hcallers
  obtain ⟨hkind', hcall', hresume', hleft'⟩ :=
    hs'.left_inner hf' hfree' watch' v' hcallers
  -- the routine is the same, and so is what it returns
  rw [hholds.routine] at hc
  rw [hholds'.routine, hm.callee?, hc] at hc'
  cases hc'
  have hresult := hs'.result hr'
  rw [hm.layouts, hs.result hr] at hresult
  cases hresult
  obtain ⟨hhost, _⟩ | ⟨_, rfl, u, hd, _, rfl⟩ := hdelivered
  · rw [hhost] at hcall
    cases hcall
  obtain ⟨hhost, _⟩ | ⟨_, rfl, u', hd', _, rfl⟩ := hdelivered'
  · rw [hhost] at hcall'
    cases hcall'
  rw [hkind] at hd hcall
  rw [hkind'] at hd'
  obtain ⟨_, b, hb, hb'⟩ := agrees_deliver hm v hcall hleft hleft' hd hd'
  refine ⟨rfl, rfl, { b with ip := caller.resume }, ?_, ?_⟩
  · rw [hresume]
    exact hb.jump caller.resume u.trace
  · rw [hresume']
    exact hb'.jump caller.resume u'.trace

/-! ## One step -/

section

variable {watch : Observer τ} {watch' : Observer τ'} {a : Thread} {l : Located}
  {s t : State σ τ} {s' t' : State σ' τ'} {o o' : Option Value}

theorem shows_fetched (hs : Shows s g a) (watch : Observer τ) (l : Located) :
    Shows (fetched watch s l) g { a with ip := l.next } :=
  hs.jump l.next _

theorem cycle_of_fetch (hl : decodeAt m.program.code a.ip = .ok l) (hs : Shows s g a) :
    m.cycle watch s = m.step watch l (fetched watch s l) := by
  rw [cycle_eq, hs.ip, hl]

theorem lockstep (hm : Akin m m') (hnone : ∀ id, m.native? id = none) (ha : a.Advances m l)
    (hs : Shows s g a) (hs' : Shows s' g' a) (hc : m.cycle watch s = .ok o t)
    (hc' : m'.cycle watch' s' = .ok o' t') :
    o = none ∧ o' = none ∧ ∃ b, Shows t g b ∧ Shows t' g' b := by
  rw [cycle_of_fetch ha.fetch hs] at hc
  rw [cycle_of_fetch (m := m') (hm.program ▸ ha.fetch) hs'] at hc'
  have hf := shows_fetched hs watch l
  have hf' := shows_fetched hs' watch' l
  by_cases hret : l.instr = .ret
  · rw [m.step_ret watch hret] at hc
    rw [m'.step_ret watch' hret] at hc'
    exact agrees_leave hm hf hf' (ha.inside hret) hc hc'
  · rw [m.step_eq watch hret] at hc
    rw [m'.step_eq watch' hret] at hc'
    obtain ⟨rfl, hp⟩ := unfinished_eq_ok hc
    obtain ⟨rfl, hp'⟩ := unfinished_eq_ok hc'
    exact ⟨rfl, rfl, (agrees_perform hm hnone ha.plain ha.unread l.ip hf hf' hp hp').2⟩

/-- A step within a thread leads to a thread. -/
theorem shows_cycle (hnone : ∀ id, m.native? id = none) (ha : a.Advances m l) (hs : Shows s g a)
    (hc : m.cycle watch s = .ok o t) : o = none ∧ ∃ b, Shows t g b := by
  obtain ⟨ho, _, b, hb, _⟩ := lockstep (.refl m) hnone ha hs hs hc hc
  exact ⟨ho, b, hb⟩

end

end Machine
end ForeignVM
