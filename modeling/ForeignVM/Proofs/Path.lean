import ForeignVM.Proofs.Calls

/-!
# ForeignVM.Proofs.Path

The states that a run passes through.

* `Machine.after`  — the state after a number of instructions, if the run gets that far.
* `after_keeps`    — what every instruction keeps holds of all states of a run.
* `Machine.Ending` — how a run ends: by a result, by a failure, or because the fuel is used up.
* `Machine.Nesting` — an instruction opens one call, closes one, or does neither.
* `Machine.start`  — the entry of a call by the host; `execute_of_start` and `execute_of_refused`
  say how the call goes on.
-/

namespace ForeignVM

/-- Nothing has been allocated, declared or observed. -/
def State.blank : State Unit (List Event) := .idle .empty .empty () []

theorem CallStack.ext_frames {c c' : CallStack} (h : c.frames = c'.frames) : c = c' := by
  obtain ⟨frames, n, hn⟩ := c
  obtain ⟨frames', n', hn'⟩ := c'
  simp only at h
  subst h hn hn'
  rfl

namespace Machine

open ForeignVM.Action

variable {σ τ : Type} (m : Machine σ) (watch : Observer τ)

/-- The state after `n` instructions, none of which ends the run. -/
def after : Nat → State σ τ → Option (State σ τ)
  | 0, s => some s
  | n + 1, s =>
    match m.cycle watch s with
    | .ok none t => after n t
    | _ => none

theorem after_one {s t : State σ τ} (h : m.cycle watch s = .ok none t) :
    m.after watch 1 s = some t := by
  simp only [after, h]

theorem after_next {s t : State σ τ} (h : m.cycle watch s = .ok none t) (n : Nat) :
    m.after watch (n + 1) s = m.after watch n t := by
  simp only [after, h]

theorem after_add (k n : Nat) (s : State σ τ) :
    m.after watch (k + n) s = (m.after watch k s).bind (m.after watch n) := by
  induction k generalizing s with
  | zero => rw [Nat.zero_add]; rfl
  | succ k ih =>
    rw [Nat.succ_add]
    cases hc : m.cycle watch s with
    | error e t => simp only [after, hc, Option.bind_none]
    | ok o t =>
      cases o with
      | some v => simp only [after, hc, Option.bind_none]
      | none => rw [m.after_next watch hc, m.after_next watch hc, ih t]

theorem after_succ {n : Nat} {s u : State σ τ} :
    m.after watch (n + 1) s = some u ↔
      ∃ t, m.after watch n s = some t ∧ m.cycle watch t = .ok none u := by
  rw [after_add]
  cases m.after watch n s with
  | none => simp
  | some t =>
    simp only [Option.bind_some, after, Option.some.injEq, exists_eq_left']
    split
    · next h => rw [h]; simp
    · next h => simp; exact h u

theorem after_keeps {P : State σ τ → Prop}
    (hstep : ∀ t u, P t → m.cycle watch t = .ok none u → P u) {n : Nat} {s t : State σ τ}
    (hs : P s) (h : m.after watch n s = some t) : P t := by
  induction n generalizing t with
  | zero =>
    cases h
    exact hs
  | succ n ih =>
    obtain ⟨u, hu, hc⟩ := (m.after_succ watch).mp h
    exact hstep u t (ih hu) hc

/-- How a run of at most `fuel` instructions ends. -/
inductive Ending (s : State σ τ) (fuel : Nat) :
    EStateM.Result RuntimeError (State σ τ) Value → Prop where
  | finished {n : Nat} {t u : State σ τ} {v : Value} (hn : n < fuel)
      (ht : m.after watch n s = some t) (h : m.cycle watch t = .ok (some v) u) :
      Ending s fuel (.ok v u)
  | failed {n : Nat} {t u : State σ τ} {e : RuntimeError} (hn : n < fuel)
      (ht : m.after watch n s = some t) (h : m.cycle watch t = .error e u) :
      Ending s fuel (.error e u)
  | exhausted {t : State σ τ} (ht : m.after watch fuel s = some t) :
      Ending s fuel (.error (.fuelExhausted m.limits.fuel) t)

theorem ending_run (fuel : Nat) (s : State σ τ) :
    Ending m watch s fuel (m.run watch fuel s) := by
  induction fuel generalizing s with
  | zero => exact .exhausted rfl
  | succ fuel ih =>
    unfold run
    cases hc : m.cycle watch s with
    | error e t => exact .failed (Nat.succ_pos _) rfl hc
    | ok o t =>
      cases o with
      | some v => exact .finished (Nat.succ_pos _) rfl hc
      | none =>
        have hfirst := m.after_next watch hc
        dsimp only
        generalize hr : m.run watch fuel t = r
        have h := ih t
        rw [hr] at h
        cases h with
        | finished hn ht h => exact .finished (Nat.succ_lt_succ hn) ((hfirst _).trans ht) h
        | failed hn ht h => exact .failed (Nat.succ_lt_succ hn) ((hfirst _).trans ht) h
        | exhausted ht => exact .exhausted ((hfirst _).trans ht)

/-- A run is cut short at the end of its fuel and there alone. -/
theorem run_of_after {fuel : Nat} {s t : State σ τ} (h : m.after watch fuel s = some t) :
    m.run watch fuel s = .error (.fuelExhausted m.limits.fuel) t := by
  induction fuel generalizing s with
  | zero =>
    cases h
    rfl
  | succ fuel ih =>
    unfold after at h
    unfold run
    split at h
    · next hc =>
      rw [hc]
      exact ih h
    · cases h

/-- A run fails with its first instruction that does. -/
theorem run_of_failed {fuel n : Nat} {s t u : State σ τ} {e : RuntimeError} (hn : n < fuel)
    (ht : m.after watch n s = some t) (h : m.cycle watch t = .error e u) :
    m.run watch fuel s = .error e u := by
  induction n generalizing fuel s with
  | zero =>
    cases ht
    obtain ⟨rest, rfl⟩ := Nat.exists_eq_add_of_lt hn
    rw [Nat.zero_add, run, h]
  | succ n ih =>
    obtain ⟨rest, rfl⟩ : ∃ rest, fuel = rest + 1 := ⟨fuel - 1, by omega⟩
    unfold after at ht
    split at ht
    · next hc =>
      rw [run, hc]
      exact ih (Nat.lt_of_succ_lt_succ hn) ht
    · cases ht

/-! ## The calls during a run -/

theorem calls_deliver {kind : FrameKind} {v : Value} {s t : State σ τ}
    (h : Delivering m watch v s kind t) : t.calls = s.calls := by
  cases h <;> rfl

theorem memory_deliver {kind : FrameKind} {v : Value} {s t : State σ τ}
    (h : Delivering m watch v s kind t) : t.memory = s.memory := by
  cases h <;> rfl

/-- What an instruction does to the calls: nothing, or it closes the innermost, or it opens one
more if the limit of recursion allows that. -/
inductive Nesting (c : CallStack) : CallStack → Prop where
  | same : Nesting c c
  | closed : Nesting c c.tail
  | opened (f : Frame) (hkind : f.kind ≠ .host) (hroom : c.depth < m.limits.recursion.toNat) :
      Nesting c (c.push f)

theorem nesting_enter (id : RoutineId) (args : List Value) (kind : FrameKind)
    (hkind : kind ≠ .host) (s : State σ τ) :
    Nesting m s.calls (finalState (m.enter watch id args kind s)).calls := by
  have h := m.entering_enter watch id args kind s
  generalize m.enter watch id args kind s = r at h
  cases h with
  | begun _ hdepth _ => exact .opened _ hkind hdepth
  | refused => exact .same
  | rejected _ _ => exact .same
  | noPlace _ _ => exact .same

theorem finalState_unfinished (r : EStateM.Result RuntimeError (State σ τ) Unit) :
    finalState (unfinished r) = finalState r := by
  cases r <;> rfl

theorem not_host {kind : FrameKind} (h : kind = .call ∨ ∃ ret, kind = .procCall ret) :
    kind ≠ .host := by
  obtain rfl | ⟨ret, rfl⟩ := h <;> nofun

theorem nesting_cycle (s : State σ τ) :
    Nesting m s.calls (finalState (m.cycle watch s)).calls := by
  obtain ⟨e, _, hc⟩ | ⟨l, _, h⟩ := m.effect_cycle watch s
  · rw [hc]
    exact .same
  generalize m.cycle watch s = r at h
  generalize l.instr = i at h
  change Nesting m (fetched watch s l).calls _
  generalize fetched watch s l = s at h
  cases h with
  | inner _ h =>
    rw [finalState_ok, h.calls]
    exact .same
  | failed h =>
    rw [finalState_error, h.calls]
    exact .same
  | allocated _ => exact .same
  | read => exact .same
  | @initializing offset _ _ =>
    rw [finalState_unfinished]
    exact m.nesting_enter watch _ _ (.constant offset) nofun
      { s with trace := watch (.constInit offset) s.trace }
  | @calling _ _ _ _ n hkind _ _ _ =>
    rw [finalState_unfinished]
    have hne := not_host hkind
    exact m.nesting_enter watch _ _ _ hne { s with operands := s.operands.drop n }
  | native _ _ _ _ hrun hr =>
    have hcalls : s.calls = _ := hrun.calls.symm
    rw [hcalls]
    obtain ⟨e, rfl⟩ | rfl | ⟨v, rfl⟩ := hr <;> exact .same
  | leaving _ h =>
    cases h with
    | failed h =>
      rw [finalState_error, h.calls]
      exact .same
    | dangling _ => exact .closed
    | finished _ _ _ _ => exact .closed
    | undelivered _ _ => exact .closed
    | delivered _ _ _ h =>
      rw [finalState_ok, m.calls_deliver watch h]
      exact .closed

theorem depth_le_enter (id : RoutineId) (args : List Value) (kind : FrameKind) (s : State σ τ) :
    s.calls.depth ≤ (finalState (m.enter watch id args kind s)).calls.depth := by
  have h := m.entering_enter watch id args kind s
  generalize m.enter watch id args kind s = r at h
  cases h with
  | begun _ _ _ => exact Nat.le_succ _
  | refused => exact Nat.le_refl _
  | rejected _ _ => exact Nat.le_refl _
  | noPlace _ _ => exact Nat.le_refl _

/-- A call is closed by a return alone. -/
theorem delivering_of_closed {s t : State σ τ} (hc : m.cycle watch s = .ok none t)
    (hlt : t.calls.depth < s.calls.depth) :
    ∃ f c v s' t', s.calls.current? = some f ∧ m.callee? f.routine = some c ∧
      m.IsResult c.routine.ret v ∧ s'.calls = s.calls.tail ∧
      s'.operands = s.operands.cut f.base ∧ Delivering m watch v s' f.kind t' ∧
      t = { t' with ip := f.returnIp } := by
  obtain ⟨e, _, herror⟩ | ⟨l, _, h⟩ := m.effect_cycle watch s
  · cases hc.symm.trans herror
  have hopen (hd : s.calls.depth ≤ (finalState (m.cycle watch s)).calls.depth) : False := by
    rw [hc, finalState_ok] at hd
    omega
  generalize m.cycle watch s = r at h hc hopen
  generalize l.instr = i at h
  cases h with
  | inner _ h =>
    refine (hopen ?_).elim
    rw [finalState_ok, h.calls]
    exact Nat.le_refl _
  | failed h => cases hc
  | allocated _ => exact (hopen (Nat.le_refl _)).elim
  | read => exact (hopen (Nat.le_refl _)).elim
  | @initializing offset _ _ =>
    refine (hopen ?_).elim
    rw [finalState_unfinished]
    exact m.depth_le_enter watch _ _ _
      { fetched watch s l with trace := watch (.constInit offset) (fetched watch s l).trace }
  | @calling _ _ _ _ n _ _ _ _ =>
    refine (hopen ?_).elim
    rw [finalState_unfinished]
    exact m.depth_le_enter watch _ _ _
      { fetched watch s l with operands := (fetched watch s l).operands.drop n }
  | native _ _ _ _ hrun hr =>
    have hsame : s.calls = _ := hrun.calls.symm
    rw [hsame] at hopen
    obtain ⟨e, rfl⟩ | rfl | ⟨v, rfl⟩ := hr
    · cases hc
    · exact (hopen (Nat.le_refl _)).elim
    · exact (hopen (Nat.le_refl _)).elim
  | @leaving f _ hf h =>
    cases h with
    | failed _ => cases hc
    | dangling _ => cases hc
    | finished _ _ _ _ => cases hc
    | undelivered _ _ => cases hc
    | delivered hcallee hv _ h =>
      cases hc
      exact ⟨f, _, _, _, _, hf, hcallee, hv, rfl, rfl, h, rfl⟩

/-! ## Calls by the host -/

/-- What a call by the host leaves behind: a failure is cleared away. -/
def settle : EStateM.Result RuntimeError (State σ τ) Value →
    EStateM.Result RuntimeError (State σ τ) Value
  | .ok v s => .ok v s
  | .error e s => .error e (unwind s)

/-- The call of a routine by the host, before its first instruction. -/
def start (id : RoutineId) (args : List Value) (s : State σ τ) :
    EStateM.Result RuntimeError (State σ τ) Unit :=
  m.enter watch id args .host { s with operands := .empty }

theorem execute_of_start {id : RoutineId} {args : List Value} {s t : State σ τ}
    (h : m.start watch id args s = .ok () t) :
    m.execute watch id args s = settle (m.run watch m.limits.fuel.toNat t) := by
  rw [start] at h
  rw [execute, h]
  dsimp only
  cases m.run watch m.limits.fuel.toNat t <;> rfl

theorem execute_of_refused {id : RoutineId} {args : List Value} {s t : State σ τ}
    {e : RuntimeError} (h : m.start watch id args s = .error e t) :
    m.execute watch id args s = .error e (unwind t) := by
  rw [start] at h
  rw [execute, h]

theorem start_cases {id : RoutineId} {args : List Value} {s₀ s : State σ τ}
    (h : m.start watch id args s₀ = .ok () s) :
    ∃ c memory, m.callee? id = some c ∧ s₀.memory.Adds memory ∧
      s = entered watch { s₀ with operands := .empty } id .host c memory := by
  have hentering := m.entering_enter watch id args .host { s₀ with operands := .empty }
  rw [start] at h
  rw [h] at hentering
  cases hentering with
  | begun hc _ hadds => exact ⟨_, _, hc, hadds, rfl⟩

/-- A run is finished by the return from a frame that the host has entered. -/
theorem finished_cases {s t : State σ τ} {v : Value} (hc : m.cycle watch s = .ok (some v) t) :
    ∃ l f c memory, s.calls.current? = some f ∧ f.kind = .host ∧ m.callee? f.routine = some c ∧
      m.IsResult c.routine.ret v ∧ s.memory.free f.locals = .ok memory ∧
      t = left watch (fetched watch s l) f v memory := by
  obtain ⟨e, _, herror⟩ | ⟨l, _, h⟩ := m.effect_cycle watch s
  · cases hc.symm.trans herror
  have hpass {r : EStateM.Result RuntimeError (State σ τ) Unit}
      (hr : unfinished r = .ok (some v) t) : False := by
    cases r <;> cases hr
  generalize m.cycle watch s = r at h hc
  generalize l.instr = i at h
  cases h with
  | inner _ _ => cases hc
  | failed _ => cases hc
  | allocated _ => cases hc
  | read => cases hc
  | initializing _ => exact (hpass hc).elim
  | calling _ _ _ _ => exact (hpass hc).elim
  | native _ _ _ _ _ hr =>
    obtain ⟨e, rfl⟩ | rfl | ⟨w, rfl⟩ := hr <;> cases hc
  | @leaving f _ hf h =>
    cases h with
    | failed _ => cases hc
    | dangling _ => cases hc
    | undelivered _ _ => cases hc
    | delivered _ _ _ _ => cases hc
    | @finished c _ memory hcallee hv hfree hkind =>
      cases hc
      exact ⟨l, f, c, memory, hf, hkind, hcallee, hv, hfree, rfl⟩

/-! ## The frame that the host has entered -/

/-- `f` is the outermost frame, and the only one that the host has entered. -/
structure Rooted (f : Frame) (c : CallStack) : Prop where
  host : f.kind = .host
  frames : ∃ inner, c.frames = inner ++ [f] ∧ ∀ g ∈ inner, g.kind ≠ .host

theorem rooted_start {id : RoutineId} {args : List Value} {s₀ s : State σ τ}
    (hidle : s₀.calls = .empty) (h : m.start watch id args s₀ = .ok () s) :
    ∃ f, Rooted f s.calls ∧ f.routine = id ∧ f.base = 0 := by
  obtain ⟨c, memory, _, _, rfl⟩ := m.start_cases watch h
  refine ⟨⟨id, .host, s₀.ip, Address.ofBlock s₀.memory.next, 0⟩, ⟨rfl, [], ?_, nofun⟩, rfl, rfl⟩
  simp only [entered, hidle]
  rfl

/-- The frame of the host is not left before the end of the run. -/
theorem Rooted.cycle {f : Frame} {s t : State σ τ} (h : Rooted f s.calls)
    (hc : m.cycle watch s = .ok none t) : Rooted f t.calls := by
  obtain ⟨hhost, inner, hframes, hinner⟩ := h
  have hnesting := m.nesting_cycle watch s
  rw [hc] at hnesting
  refine ⟨hhost, ?_⟩
  have hdelivering := m.delivering_of_closed watch hc
  simp only [finalState_ok] at hnesting
  generalize t.calls = calls at hnesting hdelivering
  cases hnesting with
  | same => exact ⟨inner, hframes, hinner⟩
  | opened g hkind _ =>
    refine ⟨g :: inner, congrArg (g :: ·) hframes, ?_⟩
    intro k hk
    cases hk with
    | head => exact hkind
    | tail _ hmem => exact hinner k hmem
  | closed =>
    have hdepth : s.calls.depth = inner.length + 1 := by
      rw [CallStack.depth_eq, hframes, List.length_append, List.length_singleton]
    have hlt : s.calls.tail.depth < s.calls.depth := by
      simp only [CallStack.tail]
      omega
    obtain ⟨g, _, _, _, _, hg, _, _, _, _, hd, _⟩ := hdelivering hlt
    cases inner with
    | nil =>
      have hcurrent : s.calls.current? = some f := congrArg List.head? hframes
      obtain rfl : f = g := Option.some.inj (hcurrent.symm.trans hg)
      rw [hhost] at hd
      cases hd
    | cons i inner =>
      exact ⟨inner, congrArg List.tail hframes, fun k hk => hinner k (.tail _ hk)⟩

theorem rooted_after {f : Frame} {n : Nat} {s t : State σ τ} (hs : Rooted f s.calls)
    (h : m.after watch n s = some t) : Rooted f t.calls :=
  m.after_keeps watch (P := fun t => Rooted f t.calls) (fun _ _ ht hc => ht.cycle m watch hc) hs h

/-- When the frame of the host is left, no other is open. -/
theorem Rooted.eq_push {f g : Frame} {c : CallStack} (h : Rooted f c) (hg : c.current? = some g)
    (hkind : g.kind = .host) : g = f ∧ c = CallStack.empty.push f := by
  obtain ⟨_, inner, hframes, hinner⟩ := h
  cases inner with
  | nil =>
    have hcurrent : c.current? = some f := congrArg List.head? hframes
    exact ⟨Option.some.inj (hg.symm.trans hcurrent), CallStack.ext_frames hframes⟩
  | cons i inner =>
    have hcurrent : c.current? = some i := congrArg List.head? hframes
    obtain rfl : i = g := Option.some.inj (hcurrent.symm.trans hg)
    exact absurd hkind (hinner i List.mem_cons_self)

end Machine
end ForeignVM
