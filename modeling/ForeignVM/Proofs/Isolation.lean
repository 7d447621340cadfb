import ForeignVM.Proofs.Path

/-!
# ForeignVM.Proofs.Isolation

The operands of a caller are safe from the routines it calls, and a call that returns leaves
exactly its result on them.

* `State.Based`        — the bases of the frames are in order, and the operands reach that far.
* `safe_cycle`         — every instruction keeps them so, and keeps what lies below them.
* `Machine.Reached`    — the states of the runs that the host starts.
* `Machine.Returned`   — the first state in which what has been called has returned.
* `delivered_of_enter` — a frame that returns finds the operands as it has found them at its entry.
* `operands_isolated`  — all of it for every state of every run.
-/

namespace ForeignVM

/-! ## Values of shapes -/

theorem ScalarKind.decode_ne_void (k : ScalarKind) (bytes : Bytes) : k.decode bytes ≠ .void := by
  cases k <;> nofun

theorem Shape.decode_ne_void (s : Shape) (bytes : Bytes) : s.decode bytes ≠ .void := by
  cases s with
  | scalar kind => exact kind.decode_ne_void bytes
  | proc closure => cases closure <;> nofun
  | pointer pointee => nofun
  | aggregate layout => nofun

theorem Shape.coerce_ne_void {s : Shape} {v w : Value} (h : s.coerce v = .ok w) : w ≠ .void := by
  unfold coerce at h
  split at h
  · cases h
    exact s.decode_ne_void _
  · cases h

/-! ## Bases -/

/-- The bases of the frames do not decrease from the outermost frame inwards, and the operands
reach up to all of them. -/
structure State.Based {σ τ : Type} (s : State σ τ) : Prop where
  ordered : s.calls.frames.Pairwise fun inner outer => outer.base ≤ inner.base
  reached : ∀ f ∈ s.calls.frames, f.base ≤ s.operands.height

/-- What lies below the bases of the frames of `s` is the same in `o`. -/
def State.Guards {σ τ : Type} (s : State σ τ) (o : Operands) : Prop :=
  ∀ f ∈ s.calls.frames, s.operands.KeepsBelow f.base o

namespace State.Based

variable {σ τ : Type} {s t : State σ τ}

/-- No frame has a higher base than the current one. -/
theorem le_base (h : s.Based) {f : Frame} (hf : f ∈ s.calls.frames) : f.base ≤ s.calls.base := by
  have hordered := h.ordered
  unfold CallStack.base CallStack.current?
  cases hframes : s.calls.frames with
  | nil =>
    rw [hframes] at hf
    cases hf
  | cons g rest =>
    rw [hframes] at hf hordered
    cases hf with
    | head => exact Nat.le_refl _
    | tail _ hmem => exact List.rel_of_pairwise_cons hordered hmem

theorem base_le (h : s.Based) : s.calls.base ≤ s.operands.height := by
  have hreached := h.reached
  unfold CallStack.base CallStack.current?
  cases hframes : s.calls.frames with
  | nil => exact Nat.zero_le _
  | cons g rest =>
    rw [hframes] at hreached
    exact hreached g List.mem_cons_self

/-- What is kept below the current frame is kept below all frames. -/
theorem guards (h : s.Based) {o : Operands} (ho : s.operands.KeepsBelow s.calls.base o) :
    s.Guards o := by
  intro f hf
  exact ho.mono (h.le_base hf) h.base_le

/-- The same frames, over operands that keep what lies below them. -/
theorem of_guards (h : s.Based) (hcalls : t.calls = s.calls) (ho : s.Guards t.operands) :
    t.Based := by
  refine ⟨hcalls ▸ h.ordered, ?_⟩
  intro f hf
  rw [hcalls] at hf
  exact (ho f hf (h.reached f hf)).1

/-- One more frame whose base is the height of the operands. -/
theorem push (h : s.Based) {f : Frame} (hbase : f.base = s.operands.height)
    (hcalls : t.calls = s.calls.push f) (ho : t.operands = s.operands) : t.Based := by
  refine ⟨?_, ?_⟩
  · rw [hcalls]
    refine List.pairwise_cons.mpr ⟨?_, h.ordered⟩
    intro g hg
    rw [hbase]
    exact h.reached g hg
  · intro g hg
    rw [hcalls] at hg
    rw [ho]
    cases hg with
    | head => exact Nat.le_of_eq hbase
    | tail _ hmem => exact h.reached g hmem

/-- Without its innermost frame, and over operands that reach up to its base. -/
theorem tail (h : s.Based) {f : Frame} (hf : s.calls.current? = some f)
    (hcalls : t.calls = s.calls.tail) (ho : f.base ≤ t.operands.height) : t.Based := by
  obtain ⟨rest, hframes⟩ : ∃ rest, s.calls.frames = f :: rest := List.head?_eq_some_iff.mp hf
  have hordered := h.ordered
  rw [hframes] at hordered
  have htail : t.calls.frames = rest := by
    rw [hcalls]
    exact congrArg List.tail hframes
  refine ⟨?_, ?_⟩
  · rw [htail]
    exact hordered.of_cons
  · intro g hg
    rw [htail] at hg
    exact Nat.le_trans (List.rel_of_pairwise_cons hordered hg) ho

end State.Based

namespace Machine

open ForeignVM.Action

variable {σ τ : Type} (m : Machine σ) (watch : Observer τ)

/-- What an instruction has to keep in a state of whatever outcome. -/
def Safe (s t : State σ τ) : Prop := t.Based ∧ s.Guards t.operands

theorem safe_of_within {s t : State σ τ} (hs : s.Based) (h : s.Within t) : Safe s t :=
  ⟨hs.of_guards h.calls (hs.guards h.operands), hs.guards h.operands⟩

/-- The same calls, and operands that are kept below the current frame. -/
theorem safe_of_keeps {s t : State σ τ} (hs : s.Based) (hcalls : t.calls = s.calls)
    (ho : s.operands.KeepsBelow s.calls.base t.operands) : Safe s t :=
  ⟨hs.of_guards hcalls (hs.guards ho), hs.guards ho⟩

theorem safe_enter {s : State σ τ} (hs : s.Based) (id : RoutineId) (args : List Value)
    (kind : FrameKind) : Safe s (finalState (m.enter watch id args kind s)) := by
  have hsame {t : State σ τ} (hcalls : t.calls = s.calls) (ho : t.operands = s.operands) :
      Safe s t := safe_of_keeps hs hcalls (ho ▸ .refl _)
  have h := m.entering_enter watch id args kind s
  generalize m.enter watch id args kind s = r at h
  cases h with
  | begun _ _ _ => exact ⟨hs.push rfl rfl rfl, fun _ _ => .refl _⟩
  | refused => exact hsame rfl rfl
  | rejected _ _ => exact hsame rfl rfl
  | noPlace _ _ => exact hsame rfl rfl

/-- The result of a frame is put on top of what its caller has. -/
theorem operands_deliver {kind : FrameKind} {v : Value} {s t : State σ τ}
    (h : Delivering m watch v s kind t) :
    t.operands = s.operands ∨ ∃ w, t.operands = s.operands.push w := by
  cases h with
  | nothing _ => exact .inl rfl
  | value _ => exact .inr ⟨_, rfl⟩
  | dropped => exact .inl rfl
  | converted _ _ => exact .inr ⟨_, rfl⟩
  | constant _ _ _ _ => exact .inr ⟨_, rfl⟩

theorem safe_leaving {s : State σ τ} (hs : s.Based) {f : Frame}
    (hf : s.calls.current? = some f)
    {r : EStateM.Result RuntimeError (State σ τ) (Option Value)} (h : Leaving m watch f s r) :
    Safe s (finalState r) := by
  have hbase : s.calls.base = f.base := by simp only [CallStack.base, hf]
  have hle : f.base ≤ s.operands.height := hbase ▸ hs.base_le
  have hcut : s.operands.KeepsBelow s.calls.base (s.operands.cut f.base) := by
    have hheight : (s.operands.cut f.base).height = s.calls.base := by
      rw [Operands.height_cut hle, hbase]
    refine fun _ => ⟨Nat.le_of_eq hheight.symm, ?_⟩
    rw [hbase]
    exact Operands.cut_cut (Nat.le_refl _) hle
  have hclosed {t : State σ τ} (hcalls : t.calls = s.calls.tail)
      (ho : s.operands.KeepsBelow s.calls.base t.operands) : Safe s t := by
    refine ⟨hs.tail hf hcalls ?_, hs.guards ho⟩
    rw [← hbase]
    exact (ho hs.base_le).1
  cases h with
  | failed h => exact safe_of_within hs h
  | dangling _ => exact hclosed rfl hcut
  | finished _ _ _ _ => exact hclosed rfl hcut
  | undelivered _ _ => exact hclosed rfl hcut
  | delivered _ _ _ h =>
    refine hclosed (m.calls_deliver watch h) ?_
    obtain ho | ⟨w, ho⟩ := m.operands_deliver watch h
    · exact ho ▸ hcut
    · exact ho ▸ hcut.trans (.push w)

theorem safe_step {s : State σ τ} (hs : s.Based) (l : Located) :
    Safe s (finalState (m.step watch l s)) := by
  have h := m.effect_step watch l s
  generalize m.step watch l s = r at h
  generalize l.instr = i at h
  cases h with
  | inner _ h => exact safe_of_within hs h
  | failed h => exact safe_of_within hs h
  | allocated _ => exact safe_of_keeps hs rfl (.push _)
  | read => exact safe_of_keeps hs rfl (.push _)
  | @initializing offset _ _ =>
    rw [finalState_unfinished]
    have hs' : State.Based { s with trace := watch (.constInit offset) s.trace } := ⟨hs.1, hs.2⟩
    exact m.safe_enter watch hs' _ _ _
  | @calling _ _ _ _ n _ hn _ _ =>
    rw [finalState_unfinished]
    have hdrop : s.Guards (s.operands.drop n) := hs.guards (.drop hn)
    have hs' : State.Based { s with operands := s.operands.drop n } := hs.of_guards rfl hdrop
    obtain ⟨hbased, hguards⟩ := m.safe_enter watch hs' _ _ _
    exact ⟨hbased, fun f hf => (hdrop f hf).trans (hguards f hf)⟩
  | @native _ params _ _ _ t _ _ _ hn _ _ hrun hr =>
    have ho : s.operands.KeepsBelow s.calls.base t.operands := by
      rw [hrun.operands]
      exact .drop hn
    obtain ⟨e, rfl⟩ | rfl | ⟨v, rfl⟩ := hr
    · exact safe_of_keeps hs hrun.calls ho
    · exact safe_of_keeps hs hrun.calls ho
    · exact safe_of_keeps hs hrun.calls (ho.trans (.push v))
  | leaving hf h => exact m.safe_leaving watch hs hf h

theorem safe_cycle {s : State σ τ} (hs : s.Based) : Safe s (finalState (m.cycle watch s)) := by
  rw [cycle_eq]
  cases decodeAt m.program.code s.ip with
  | error e => exact ⟨hs, fun _ _ => .refl _⟩
  | ok l =>
    have hs' : (fetched watch s l).Based := ⟨hs.1, hs.2⟩
    exact m.safe_step watch hs' l

theorem based_after {n : Nat} {s t : State σ τ} (hs : s.Based) (h : m.after watch n s = some t) :
    t.Based := by
  refine m.after_keeps watch (P := State.Based) ?_ hs h
  intro t u ht hc
  have hsafe := m.safe_cycle watch ht
  rw [hc] at hsafe
  exact hsafe.1

theorem based_of_idle {s : State σ τ} (hs : s.calls = .empty) : s.Based := by
  refine ⟨?_, ?_⟩ <;> rw [hs]
  · exact .nil
  · nofun

/-- `t` is a state of a run that the host starts when no other is under way. -/
def Reached (t : State σ τ) : Prop :=
  ∃ id args s₀ s n, s₀.calls = .empty ∧ m.start watch id args s₀ = .ok () s ∧
    m.after watch n s = some t

theorem based_start {id : RoutineId} {args : List Value} {s₀ s : State σ τ}
    (hidle : s₀.calls = .empty) (h : m.start watch id args s₀ = .ok () s) : s.Based := by
  have hs : State.Based { s₀ with operands := .empty } := based_of_idle hidle
  have hsafe := m.safe_enter watch hs id args .host
  rw [start] at h
  rw [h] at hsafe
  exact hsafe.1

theorem based_of_reached {t : State σ τ} (h : m.Reached watch t) : t.Based := by
  obtain ⟨id, args, s₀, s, n, hidle, hstart, hafter⟩ := h
  exact m.based_after watch (m.based_start watch hidle hstart) hafter

/-! ## From a call to its return -/

/-- `u` is the first state after `t` with no more open calls than `t`. If the instruction at `t` is
a call, `u` is the state in which the call is complete. -/
def Returned (t u : State σ τ) : Prop :=
  ∃ k, m.after watch (k + 1) t = some u ∧ u.calls.depth ≤ t.calls.depth ∧
    ∀ j w, j < k → m.after watch (j + 1) t = some w → t.calls.depth < w.calls.depth

/-- The frames above `c` end with `f`, below whose base nothing has changed since `o`. -/
structure Pending (c : CallStack) (f : Frame) (o : Operands) (s : State σ τ) : Prop where
  based : s.Based
  frames : ∃ inner, s.calls.frames = inner ++ f :: c.frames
  operands : s.operands.cut f.base = o

theorem Pending.of_push {c : CallStack} {f : Frame} {s : State σ τ} (hs : s.Based)
    (hcalls : s.calls = c.push f) (hbase : f.base = s.operands.height) :
    Pending c f s.operands s := by
  refine ⟨hs, ⟨[], congrArg CallStack.frames hcalls⟩, ?_⟩
  rw [hbase]
  exact Operands.cut_height _

/-- As long as more calls are open than in `c`, the frame `f` stays where it is. -/
theorem Pending.cycle {c : CallStack} {f : Frame} {o : Operands} {s t : State σ τ}
    (h : Pending c f o s) (hc : m.cycle watch s = .ok none t) (ht : c.depth < t.calls.depth) :
    Pending c f o t := by
  obtain ⟨hs, ⟨inner, hframes⟩, ho⟩ := h
  have hmem : f ∈ s.calls.frames := by
    rw [hframes]
    exact List.mem_append_right _ List.mem_cons_self
  have hsafe := m.safe_cycle watch hs
  have hnesting := m.nesting_cycle watch s
  rw [hc] at hsafe hnesting
  refine ⟨hsafe.1, ?_, ?_⟩
  · rw [CallStack.depth_eq, CallStack.depth_eq] at ht
    simp only [finalState_ok] at hnesting
    generalize t.calls = calls at hnesting ht
    cases hnesting with
    | same => exact ⟨inner, hframes⟩
    | opened g _ _ => exact ⟨g :: inner, congrArg (g :: ·) hframes⟩
    | closed =>
      have htail : s.calls.tail.frames = s.calls.frames.tail := rfl
      rw [htail, hframes] at ht ⊢
      cases inner with
      | nil => exact absurd ht (Nat.lt_irrefl _)
      | cons g inner => exact ⟨inner, rfl⟩
  · exact (hsafe.2 f hmem (hs.reached f hmem)).2.trans ho

theorem pending_after {c : CallStack} {f : Frame} {s t : State σ τ} {k n : Nat}
    (hs : Pending c f s.operands s) (h : m.after watch k s = some t) (hk : k < n)
    (hdeeper : ∀ j w, j < n → m.after watch j s = some w → c.depth < w.calls.depth) :
    Pending c f s.operands t := by
  induction k generalizing t with
  | zero =>
    cases h
    exact hs
  | succ k ih =>
    obtain ⟨w, hw, hc⟩ := (m.after_succ watch).mp h
    exact (ih hw (Nat.lt_of_succ_lt hk)).cycle m watch hc (hdeeper _ t hk h)

/-- If no more calls are open than in `c` once the innermost is closed, this one is `f`. -/
theorem Pending.innermost {c : CallStack} {f : Frame} {o : Operands} {s : State σ τ}
    (h : Pending c f o s) (hle : s.calls.tail.depth ≤ c.depth) :
    s.calls.frames = f :: c.frames := by
  obtain ⟨inner, hframes⟩ := h.frames
  cases inner with
  | nil => exact hframes
  | cons g inner =>
    have htail : s.calls.tail.frames = inner ++ f :: c.frames := congrArg List.tail hframes
    rw [CallStack.depth_eq, CallStack.depth_eq, htail, List.length_append, List.length_cons] at hle
    omega

/-- The frame `f`, which was opened above `c`, has returned: its result has been delivered onto
the operands that it found at its entry. -/
theorem delivered_of_pending {c : CallStack} {f : Frame} {s u : State σ τ} (hs : s.Based)
    (hcalls : s.calls = c.push f) (hbase : f.base = s.operands.height) {k : Nat}
    (h : m.after watch k s = some u) (hu : u.calls.depth ≤ c.depth)
    (hdeeper : ∀ j w, j < k → m.after watch j s = some w → c.depth < w.calls.depth) :
    ∃ callee v s' t', m.callee? f.routine = some callee ∧ m.IsResult callee.routine.ret v ∧
      s'.calls = c ∧ s'.operands = s.operands ∧ Delivering m watch v s' f.kind t' ∧
      u = { t' with ip := f.returnIp } := by
  cases k with
  | zero =>
    cases h
    rw [hcalls] at hu
    exact absurd hu (Nat.not_succ_le_self _)
  | succ k =>
    obtain ⟨t, ht, hc⟩ := (m.after_succ watch).mp h
    have hp := m.pending_after watch (.of_push hs hcalls hbase) ht (Nat.lt_succ_self k) hdeeper
    have hlt : u.calls.depth < t.calls.depth :=
      Nat.lt_of_le_of_lt hu (hdeeper k t (Nat.lt_succ_self k) ht)
    obtain ⟨g, callee, v, s', t', hg, hcallee, hv, hs', ho', hd, rfl⟩ :=
      m.delivering_of_closed watch hc hlt
    have hcalls' : t'.calls = t.calls.tail := (m.calls_deliver watch hd).trans hs'
    have hframes := hp.innermost (hcalls' ▸ hu)
    have hcurrent : t.calls.current? = some f := by
      rw [CallStack.current?, hframes]
      rfl
    obtain rfl : f = g := Option.some.inj (hcurrent.symm.trans hg)
    refine ⟨callee, v, s', t', hcallee, hv, ?_, ho'.trans hp.operands, hd, rfl⟩
    rw [hs']
    exact CallStack.ext_frames (congrArg List.tail hframes)

/-! ## What a call leaves on the operands -/

/-- Whether a frame of a kind, whose routine has the result type `ret`, gives an operand to the
frame below it. A call through a proc value goes by the type of the proc. -/
def yields (ret : Option TypeId) : FrameKind → Bool
  | .host => false
  | .call => ret.isSome
  | .procCall expected => expected.isSome
  | .constant _ => true

/-- The call `l` at `t` is complete in `u`: the caller goes on behind it, `n` operands have been
taken, and one has been given if there is a result. -/
structure NetEffect (l : Located) (n : Nat) (result : Bool) (t u : State σ τ) : Prop where
  taken : t.calls.base + n ≤ t.operands.height
  calls : u.calls = t.calls
  ip : u.ip = l.next
  operands :
    if result then ∃ v, u.operands = (t.operands.drop n).push v
    else u.operands = t.operands.drop n

theorem operands_of_delivering {kind : FrameKind} {ret : Option TypeId} {v : Value}
    {s t : State σ τ} (hv : m.IsResult ret v) (h : Delivering m watch v s kind t) :
    if yields ret kind then ∃ w, t.operands = s.operands.push w
    else t.operands = s.operands := by
  cases h with
  | nothing hvoid =>
    cases ret with
    | none => rfl
    | some ty =>
      obtain ⟨sh, w, _, hw⟩ := hv
      exact absurd hvoid (Shape.coerce_ne_void hw)
  | value hvalue =>
    cases ret with
    | none => exact absurd hv hvalue
    | some ty => exact ⟨v, rfl⟩
  | dropped => rfl
  | converted _ _ => exact ⟨_, rfl⟩
  | constant _ _ _ _ => exact ⟨_, rfl⟩

/-- A call that enters a routine and returns. -/
theorem net_of_enter {t u s : State σ τ} {l : Located} {n : Nat} {id : RoutineId}
    {args : List Value} {kind : FrameKind} (ht : t.Based)
    (hn : t.calls.base + n ≤ t.operands.height)
    (hcycle : m.cycle watch t = unfinished (m.enter watch id args kind s))
    (hcalls : s.calls = t.calls) (hip : s.ip = l.next) (ho : s.operands = t.operands.drop n)
    (h : m.Returned watch t u) :
    ∃ c, m.callee? id = some c ∧ NetEffect l n (yields c.routine.ret kind) t u := by
  obtain ⟨k, hk, hu, hdeeper⟩ := h
  have hs : s.Based :=
    ht.of_guards hcalls (ht.guards (ho ▸ Operands.KeepsBelow.drop hn))
  have hentering := m.entering_enter watch id args kind s
  have hsafe := m.safe_enter watch hs id args kind
  generalize m.enter watch id args kind s = r at hentering hsafe hcycle
  have hfail {e : RuntimeError} {t' : State σ τ} (hc : m.cycle watch t = .error e t') : False := by
    unfold after at hk
    rw [hc] at hk
    cases hk
  cases hentering with
  | refused => exact (hfail hcycle).elim
  | rejected _ _ => exact (hfail hcycle).elim
  | noPlace _ _ => exact (hfail hcycle).elim
  | @begun c memory hc _ _ =>
    have hnext := m.after_next watch hcycle
    rw [hnext] at hk
    obtain ⟨callee, v, s', t', hcallee, hv, hs', ho', hd, rfl⟩ :=
      m.delivered_of_pending watch hsafe.1 rfl rfl hk (hcalls ▸ hu) fun j w hj hw =>
        hcalls ▸ hdeeper j w hj ((hnext j).trans hw)
    refine ⟨callee, hcallee, hn, ?_, hip, ?_⟩
    · rw [← hcalls, ← hs']
      exact (m.calls_deliver watch hd : t'.calls = s'.calls)
    · rw [← ho]
      have hgiven := m.operands_of_delivering watch hv hd
      rw [ho'] at hgiven
      exact hgiven

section

variable {m watch} {t u : State σ τ} {l : Located} (ht : t.Based)
  (hl : decodeAt m.program.code t.ip = .ok l) (h : m.Returned watch t u)
include hl

theorem cycle_of_decoded : m.cycle watch t = m.step watch l (fetched watch t l) := by
  rw [cycle_eq, hl]

/-- An instruction that fails has no next state. -/
theorem Returned.not_failed {e : RuntimeError} {t' : State σ τ} (h : m.Returned watch t u)
    (hp : m.step watch l (fetched watch t l) = .error e t') : False := by
  obtain ⟨k, hk, _⟩ := h
  unfold after at hk
  rw [cycle_of_decoded hl, hp] at hk
  cases hk

/-- An instruction that calls nothing is complete at once. -/
theorem Returned.eq_of_same {t' : State σ τ} (h : m.Returned watch t u)
    (hp : m.step watch l (fetched watch t l) = .ok none t') (hcalls : t'.calls = t.calls) :
    u = t' := by
  obtain ⟨k, hk, _, hdeeper⟩ := h
  have hone := m.after_one watch ((cycle_of_decoded hl).trans hp)
  cases k with
  | zero => exact Option.some.inj (hk.symm.trans hone)
  | succ k =>
    have hlt := hdeeper 0 t' (Nat.succ_pos k) hone
    rw [hcalls] at hlt
    exact absurd hlt (Nat.lt_irrefl _)

include ht h

theorem net_call {id : RoutineId} (hi : l.instr = .call id) :
    ∃ c, m.callee? id = some c ∧
      NetEffect l c.routine.params.toNat c.routine.ret.isSome t u := by
  have hstep := m.step_eq watch (l := l) (by rw [hi]; nofun) (fetched watch t l)
  rw [hi] at hstep
  obtain ⟨e, hp⟩ | ⟨c, args, hc, hn, hp⟩ := m.call_cases watch l.ip id (fetched watch t l)
  · rw [hp] at hstep
    exact (h.not_failed hl hstep).elim
  · rw [hp] at hstep
    obtain ⟨c', hc', hnet⟩ := m.net_of_enter watch ht hn ((cycle_of_decoded hl).trans hstep) rfl
      rfl rfl h
    obtain rfl : c = c' := Option.some.inj (hc.symm.trans hc')
    exact ⟨c, hc, hnet⟩

theorem net_constGet {offset : UInt32} (hi : l.instr = .constGet offset) :
    NetEffect l 0 true t u := by
  have hstep := m.step_eq watch (l := l) (by rw [hi]; nofun) (fetched watch t l)
  rw [hi, perform] at hstep
  obtain ⟨e, hp⟩ | ⟨_, sh, bytes, _, _, _, _, hp⟩ | ⟨id, _, _, hp⟩ :=
    m.constGet_cases watch offset (fetched watch t l)
  · rw [hp] at hstep
    exact (h.not_failed hl hstep).elim
  · rw [hp] at hstep
    obtain rfl := h.eq_of_same hl hstep rfl
    exact ⟨ht.base_le, rfl, rfl, sh.decode bytes, rfl⟩
  · rw [hp] at hstep
    obtain ⟨c, _, hnet⟩ := m.net_of_enter watch ht (n := 0) ht.base_le
      ((cycle_of_decoded hl).trans hstep) rfl rfl rfl h
    exact hnet

theorem net_callProc {ty : TypeId} (hi : l.instr = .callProc ty) :
    ∃ params ret, m.layouts.types.signature ty = .ok (params, ret) ∧
      NetEffect l (params.length + 1) ret.isSome t u := by
  have hstep := m.step_eq watch (l := l) (by rw [hi]; nofun) (fetched watch t l)
  rw [hi, perform] at hstep
  have hcalling := m.calling_callProc watch l.ip ty (fetched watch t l)
  generalize m.callProc watch l.ip ty (fetched watch t l) = r at hcalling hstep
  cases hcalling with
  | failed _ => exact (h.not_failed hl hstep).elim
  | @routine params ret _ id args hsig hn _ _ =>
    obtain ⟨c, _, hnet⟩ := m.net_of_enter watch ht hn ((cycle_of_decoded hl).trans hstep) rfl rfl
      rfl h
    exact ⟨params, ret, hsig, hnet⟩
  | @native params ret _ _ t' _ _ hsig hn _ _ hrun hr =>
    refine ⟨params, ret, hsig, ?_⟩
    obtain ⟨e, rfl⟩ | ⟨rfl, rfl⟩ | ⟨ty', v, rfl, rfl⟩ := hr
    · exact (h.not_failed hl hstep).elim
    · obtain rfl := h.eq_of_same hl hstep hrun.calls
      exact ⟨hn, hrun.calls, hrun.ip, hrun.operands⟩
    · obtain rfl := h.eq_of_same hl hstep hrun.calls
      exact ⟨hn, hrun.calls, hrun.ip, v, congrArg (Operands.push · v) hrun.operands⟩

end

/-! ## The main result -/

/-- How the operands of callers are safe in `t`, and what the instruction at `t` leaves on them if
it is a call. -/
structure Isolated (t : State σ τ) : Prop where
  ordered : t.calls.frames.Pairwise fun inner outer => outer.base ≤ inner.base
  reached : ∀ f ∈ t.calls.frames, f.base ≤ t.operands.height
  /-- The instruction, even if it fails, keeps what lies below the base of any frame. -/
  kept : ∀ f ∈ t.calls.frames,
    f.base ≤ (finalState (m.cycle watch t)).operands.height ∧
      (finalState (m.cycle watch t)).operands.cut f.base = t.operands.cut f.base
  /-- At no moment of the instruction can an operand be taken from below the base of any frame. -/
  underflow : ∀ f ∈ t.calls.frames, ∀ (ip : UInt32) (s : State σ τ), s.calls = t.calls →
    (s.operands.height < f.base + 1 →
      (pop ip : Action σ τ Value) s = .error (.stackUnderflow ip) s) ∧
    ∀ n, s.operands.height < f.base + n →
      (popMany ip n : Action σ τ (List Value)) s = .error (.stackUnderflow ip) s
  call {l : Located} {id : RoutineId} {u : State σ τ} (hl : decodeAt m.program.code t.ip = .ok l)
    (hi : l.instr = .call id) (h : m.Returned watch t u) :
    ∃ c, m.callee? id = some c ∧ NetEffect l c.routine.params.toNat c.routine.ret.isSome t u
  callProc {l : Located} {ty : TypeId} {u : State σ τ}
    (hl : decodeAt m.program.code t.ip = .ok l) (hi : l.instr = .callProc ty)
    (h : m.Returned watch t u) :
    ∃ params ret, m.layouts.types.signature ty = .ok (params, ret) ∧
      NetEffect l (params.length + 1) ret.isSome t u
  constGet {l : Located} {offset : UInt32} {u : State σ τ}
    (hl : decodeAt m.program.code t.ip = .ok l) (hi : l.instr = .constGet offset)
    (h : m.Returned watch t u) : NetEffect l 0 true t u

theorem isolated_of_based {t : State σ τ} (ht : t.Based) : Isolated m watch t where
  ordered := ht.ordered
  reached := ht.reached
  kept f hf := (m.safe_cycle watch ht).2 f hf (ht.reached f hf)
  underflow f hf ip s hs := by
    have hle : f.base ≤ s.calls.base := hs ▸ ht.le_base hf
    refine ⟨?_, ?_⟩
    · intro hpop
      obtain ⟨_, h⟩ | ⟨hb, _⟩ := pop_cases ip s
      · exact h
      · omega
    · intro n hpop
      obtain ⟨_, h⟩ | ⟨hb, _⟩ := popMany_cases ip n s
      · exact h
      · omega
  call hl hi h := net_call ht hl h hi
  callProc hl hi h := net_callProc ht hl h hi
  constGet hl hi h := net_constGet ht hl h hi

/-- The result of a run is what the return instruction of the routine makes of its operand. -/
theorem result_of_execute {id : RoutineId} {args : List Value} {s u : State σ τ} {v : Value}
    (hidle : s.calls = .empty) (h : m.execute watch id args s = .ok v u) :
    ∃ c, m.callee? id = some c ∧ m.IsResult c.routine.ret v := by
  cases hs : m.start watch id args s with
  | error e t =>
    rw [m.execute_of_refused watch hs] at h
    cases h
  | ok _ t =>
    rw [m.execute_of_start watch hs] at h
    have hend := m.ending_run watch m.limits.fuel.toNat t
    generalize m.run watch m.limits.fuel.toNat t = r at h hend
    cases hend with
    | failed _ _ _ => cases h
    | exhausted _ => cases h
    | finished _ hw hc =>
      cases h
      obtain ⟨f, hroot, hid, _⟩ := m.rooted_start watch hidle hs
      obtain ⟨_, g, c, _, hg, hkind, hcallee, hv, _⟩ := m.finished_cases watch hc
      obtain ⟨rfl, _⟩ := (m.rooted_after watch hroot hw).eq_push hg hkind
      exact ⟨c, hid ▸ hcallee, hv⟩

theorem isResult_void_iff {ret : Option TypeId} {v : Value} (h : m.IsResult ret v) :
    v = .void ↔ ret = none := by
  cases ret with
  | none => exact ⟨fun _ => rfl, fun _ => h⟩
  | some ty =>
    obtain ⟨sh, w, _, hw⟩ := h
    exact ⟨fun hv => absurd hv (Shape.coerce_ne_void hw), nofun⟩

/-- Every state of every run is isolated, and a run that the host starts has a result if and only
if its routine declares one. -/
theorem operands_isolated :
    (∀ t, m.Reached watch t → Isolated m watch t) ∧
      ∀ id args s v u, s.calls = .empty → m.execute watch id args s = .ok v u →
        ∃ c, m.callee? id = some c ∧ m.IsResult c.routine.ret v ∧
          (v = .void ↔ c.routine.ret = none) := by
  refine ⟨fun t ht => m.isolated_of_based watch (m.based_of_reached watch ht), ?_⟩
  intro id args s v u hidle h
  obtain ⟨c, hc, hv⟩ := m.result_of_execute watch hidle h
  exact ⟨c, hc, hv, m.isResult_void_iff hv⟩

/-- A machine whose first routine calls the second one with one operand; the second one leaves more
than its result. -/
def surplus : Machine Unit where
  program :=
    ⟨([.pushBool 1, .call ⟨1⟩, .ret, .pushBool 0, .pushBool 0, .ret].flatMap Instr.encode).toArray,
      .empty, .empty, #[], [], #[], none⟩
  layouts := ⟨.empty, #[.scalar .bool]⟩
  callees :=
    #[⟨⟨"main", 0, 0, [], none⟩, ⟨#[], 0⟩⟩,
      ⟨⟨"not", 6, 1, [⟨0⟩], some ⟨0⟩⟩, ⟨#[⟨0, ⟨0⟩, .scalar .bool⟩], 1⟩⟩]
  natives := #[]
  limits := .standard

/-- The state of a run of `surplus` after `n` instructions. -/
def surplusAfter (n : Nat) : Option (State Unit (List Event)) :=
  match surplus.start .recorder ⟨0⟩ [] .blank with
  | .ok _ s => surplus.after .recorder n s
  | .error _ _ => none

/-- The call takes one operand and gives one. -/
theorem operands_isolated_surplus :
    ∃ t u, surplus.Reached .recorder t ∧ surplus.Returned .recorder t u ∧
      t.operands.height = 1 ∧ u.calls = t.calls ∧
      ∃ v, u.operands = (t.operands.drop 1).push v := by
  obtain ⟨s, hs⟩ : ∃ s, surplus.start .recorder ⟨0⟩ [] .blank = .ok () s := ⟨_, rfl⟩
  have hafter (n : Nat) : surplusAfter n = surplus.after .recorder n s := by
    rw [surplusAfter, hs]
  have hcall : (surplusAfter 1).map (fun t => (t.ip, t.calls.depth, t.operands.height)) =
      some (2, 1, 1) := by decide +kernel
  have hinside : ∀ j < 3, (surplusAfter (1 + (j + 1))).map (·.calls.depth) = some 2 := by
    decide +kernel
  have hback : (surplusAfter (1 + 4)).map (·.calls.depth) = some 1 := by decide +kernel
  obtain ⟨t, ht, hseen⟩ := Option.map_eq_some_iff.mp hcall
  obtain ⟨u, hu, hdepth⟩ := Option.map_eq_some_iff.mp hback
  obtain ⟨hip, htdepth, hheight⟩ : t.ip = 2 ∧ t.calls.depth = 1 ∧ t.operands.height = 1 := by
    simpa using hseen
  have hlater (k : Nat) : surplus.after .recorder k t = surplusAfter (1 + k) := by
    rw [hafter, after_add, ← hafter, ht]
    rfl
  have hreached : surplus.Reached .recorder t :=
    ⟨⟨0⟩, [], .blank, s, 1, rfl, hs, (hafter 1).symm.trans ht⟩
  have hreturned : surplus.Returned .recorder t u := by
    refine ⟨3, (hlater 4).trans hu, by omega, ?_⟩
    intro j w hj hw
    have hdeeper := hinside j hj
    rw [← hlater, hw, Option.map_some, Option.some.injEq] at hdeeper
    omega
  obtain ⟨c, hc, hnet⟩ := ((operands_isolated surplus .recorder).1 t hreached).call
    (l := ⟨.call ⟨1⟩, 2, 5⟩) (by rw [hip]; rfl) rfl hreturned
  cases hc
  exact ⟨t, u, hreached, hreturned, hheight, hnet.calls, hnet.operands⟩

end Machine
end ForeignVM
