import ForeignVM.Proofs.Constants
import ForeignVM.Proofs.Mute
import ForeignVM.Proofs.Threads

/-!
# ForeignVM.Proofs.Telling

What a run tells, whoever looks on. The hooks of a run do not depend on the onlooker, and they
follow a protocol: a call is told when its frame has been opened, a return when it has been closed,
and the first read of a constant is told before its initializer is called and after its value is in
the pool.

* `Stage`, `Stage.Fires`, `Stage.Leads` — the protocol, and a list of hooks that follows it.
* `Tells`              — an action tells every onlooker the same hooks, which follow the protocol.
* `tells_cycleSeen`, `tells_executeSeen` — instructions and runs do.
-/

namespace ForeignVM

/-- Events that neither open nor close anything. -/
def Event.isLeaf : Event → Bool
  | .instr _ | .constHit _ | .native _ | .allocated _ _ => true
  | _ => false

/-- The trace after some hooks. -/
def Onlooker.told {τ : Type} (look : Onlooker τ) (hooks : List Hook) (t : τ) : τ :=
  hooks.foldl (fun t h => look h t) t

theorem Onlooker.told_append {τ : Type} (look : Onlooker τ) (hooks hooks' : List Hook) (t : τ) :
    look.told (hooks ++ hooks') t = look.told hooks' (look.told hooks t) :=
  List.foldl_append

theorem Onlooker.told_ofObserver {τ : Type} (watch : Observer τ) (hooks : List Hook) (t : τ) :
    (Onlooker.ofObserver watch).told hooks t =
      (hooks.map Hook.event).foldl (fun t e => watch e t) t := by
  rw [List.foldl_map]
  rfl

/-! ## The protocol -/

/-- Where a run stands between two hooks. -/
inductive Stage where
  /-- The host is about to call a routine. -/
  | idle (id : RoutineId)
  /-- The innermost of the calls goes on. -/
  | body (calls : CallStack)
  /-- The initializer of a constant is about to be called. -/
  | initializing (offset : UInt32) (id : RoutineId) (calls : CallStack)
  /-- The value of a constant has been computed and is about to be stored. -/
  | storing (offset : UInt32) (calls : CallStack)
  /-- The host has got its result. -/
  | done (v : Value) (calls : CallStack)

namespace Stage

/-- After a return, the result goes to the host, into the pool, or to the frame below. -/
def afterReturn (v : Value) (c : CallStack) : FrameKind → Stage
  | .host => .done v c
  | .constant o => .storing o c
  | .call | .procCall _ => .body c

/-- Which hook may come next; `bound` says which routines initialize which constants. -/
inductive Fires (bound : UInt32 → RoutineId → Prop) : Stage → Hook → Stage → Prop where
  | host {f : Frame} (hkind : f.kind = .host) :
      Fires bound (.idle f.routine) ⟨.called f.routine, CallStack.empty.push f⟩
        (.body (CallStack.empty.push f))
  | leaf {c : CallStack} {e : Event} (he : e.isLeaf) : Fires bound (.body c) ⟨e, c⟩ (.body c)
  | called {c : CallStack} {f : Frame} (hkind : f.kind.isCall) :
      Fires bound (.body c) ⟨.called f.routine, c.push f⟩ (.body (c.push f))
  | init {c : CallStack} {o : UInt32} {id : RoutineId} (hbound : bound o id) :
      Fires bound (.body c) ⟨.constInit o, c⟩ (.initializing o id c)
  | initializer {c : CallStack} {o : UInt32} {f : Frame} (hkind : f.kind = .constant o) :
      Fires bound (.initializing o f.routine c) ⟨.called f.routine, c.push f⟩ (.body (c.push f))
  | ready {c : CallStack} {o : UInt32} : Fires bound (.storing o c) ⟨.constReady o, c⟩ (.body c)
  | returned {c : CallStack} {f : Frame} {v : Value} (hf : c.current? = some f) :
      Fires bound (.body c) ⟨.returned v, c.tail⟩ (afterReturn v c.tail f.kind)

/-- Hooks that may come one after another. -/
inductive Leads (bound : UInt32 → RoutineId → Prop) : Stage → List Hook → Stage → Prop where
  | nil {g : Stage} : Leads bound g [] g
  | cons {g g' g'' : Stage} {h : Hook} {hooks : List Hook} (hfires : g.Fires bound h g')
      (hrest : Leads bound g' hooks g'') : Leads bound g (h :: hooks) g''

variable {bound : UInt32 → RoutineId → Prop}

theorem Leads.append {g g' g'' : Stage} {hooks hooks' : List Hook} (h : g.Leads bound hooks g')
    (h' : g'.Leads bound hooks' g'') : g.Leads bound (hooks ++ hooks') g'' := by
  induction h with
  | nil => exact h'
  | cons hfires _ ih => exact .cons hfires (ih h')

end Stage

/-! ## Actions in front of any onlooker -/

/-- An action that can be shown to any onlooker. -/
abbrev Shown (σ α : Type) := ∀ τ : Type, Onlooker τ → Action σ τ α

open ForeignVM.Action

/-- From `s` the action does the same in front of every onlooker and tells each the same hooks,
which lead away from stage `g`; if it succeeds, `P` holds of the result, of the stage after the
hooks and of the state. -/
def Tells {σ α : Type} (bound : UInt32 → RoutineId → Prop) (g : Stage) (a : Shown σ α)
    (s : State σ Unit) (P : α → Stage → State σ Unit → Prop) : Prop :=
  ∃ hooks g' r, g.Leads bound hooks g' ∧
    (∀ (τ : Type) (look : Onlooker τ) (t : τ),
      a τ look (s.withTrace t) = retrace r (look.told hooks t)) ∧
    ∀ x u, r = .ok x u → P x g' u

namespace Tells

variable {σ α β ε : Type} {bound : UInt32 → RoutineId → Prop} {g : Stage} {s : State σ Unit}
  {P : α → Stage → State σ Unit → Prop}

theorem bind {a : Shown σ α} {f : α → Shown σ β} {Q : β → Stage → State σ Unit → Prop}
    (ha : Tells bound g a s P)
    (hf : ∀ x g' u, P x g' u → Tells bound g' (f x) u Q) :
    Tells bound g (fun τ look => a τ look >>= fun x => f x τ look) s Q := by
  obtain ⟨hooks, g', r, hleads, hrun, hpost⟩ := ha
  cases r with
  | error e u =>
    exact ⟨hooks, g', .error e u, hleads, fun τ look t => bind_error (hrun τ look t), nofun⟩
  | ok x u =>
    obtain ⟨hooks', g'', r', hleads', hrun', hpost'⟩ := hf x g' u (hpost x u rfl)
    refine ⟨hooks ++ hooks', g'', r', hleads.append hleads', fun τ look t => ?_, hpost'⟩
    rw [Onlooker.told_append]
    exact (bind_ok (hrun τ look t)).trans (hrun' τ look _)

/-- An action of which no onlooker is told. -/
theorem mute {a : Shown σ α} {b : Action σ Unit α} (h : ∀ τ look, Mute α b (a τ look))
    (hpost : ∀ x u, b s = .ok x u → P x g u) : Tells bound g a s P :=
  ⟨[], g, b s, .nil, fun τ look t => h τ look s t, hpost⟩

theorem pure {x : α} (h : P x g s) : Tells bound g (fun _ _ => Pure.pure x) s P :=
  ⟨[], g, .ok x s, .nil, fun _ _ _ => rfl, fun _ _ heq => by cases heq; exact h⟩

theorem throw (e : RuntimeError) : Tells bound g (fun _ _ => MonadExcept.throw e) s P :=
  ⟨[], g, .error e s, .nil, fun _ _ _ => rfl, nofun⟩

/-- What is read of the state must not be its trace. -/
theorem get {f : ∀ τ : Type, State σ τ → Onlooker τ → Action σ τ α} {b : Shown σ α}
    (h : ∀ τ look t, f τ (s.withTrace t) look (s.withTrace t) = b τ look (s.withTrace t))
    (hb : Tells bound g b s P) :
    Tells bound g (fun τ look => MonadState.get >>= fun s => f τ s look) s P := by
  obtain ⟨hooks, g', r, hleads, hrun, hpost⟩ := hb
  exact ⟨hooks, g', r, hleads, fun τ look t => (h τ look t).trans (hrun τ look t), hpost⟩

theorem check {cause : ε → RuntimeError} {x : Except ε β} {f : β → Shown σ α}
    (h : ∀ b, x = .ok b → Tells bound g (f b) s P) :
    Tells bound g (fun τ look => Action.check cause x >>= fun b => f b τ look) s P := by
  cases x with
  | error e => exact throw (cause e)
  | ok b => exact h b rfl

theorem tell {e : Event} {g' : Stage} {P : Unit → Stage → State σ Unit → Prop}
    (hfires : g.Fires bound ⟨e, s.calls⟩ g') (h : P () g' s) :
    Tells bound g (fun _ look => Action.tell look e) s P :=
  ⟨[⟨e, s.calls⟩], g', .ok () s, .cons hfires .nil, fun _ _ _ => rfl,
    fun _ _ heq => by cases heq; exact h⟩

end Tells

namespace Machine

variable {σ : Type} (m : Machine σ) {bound : UInt32 → RoutineId → Prop} {s : State σ Unit}

/-- The constants of the pool are bound to their initializers. -/
def Binds (bound : UInt32 → RoutineId → Prop) (p : Pool) : Prop :=
  ∀ o id, p.initializer o = .ok id → bound o id

/-- Between two instructions. -/
structure Inside (bound : UInt32 → RoutineId → Prop) (g : Stage) (s : State σ Unit) : Prop where
  stage : g = .body s.calls
  binds : Binds bound s.pool

/-- After an instruction: the run goes on, or the host has its result. -/
def Goes (bound : UInt32 → RoutineId → Prop) : Option Value → Stage → State σ Unit → Prop
  | none, g, s => Inside bound g s
  | some v, g, _ => ∃ c, g = .done v c

theorem Inside.congr {g : Stage} {t : State σ Unit} (h : Inside bound g s)
    (hcalls : t.calls = s.calls) (hpool : t.pool = s.pool) : Inside bound g t :=
  ⟨hcalls ▸ h.stage, hpool ▸ h.binds⟩

theorem Inside.within {g : Stage} {t : State σ Unit} (h : Inside bound g s) (hw : s.Within t) :
    Inside bound g t :=
  h.congr hw.calls hw.pool

theorem tells_leaf {e : Event} {g : Stage} (hs : Inside bound g s) (he : e.isLeaf) :
    Tells bound g (fun _ look => Action.tell look e) s fun _ => Inside bound := by
  obtain rfl := hs.stage
  exact .tell (.leaf he) hs

/-- What neither opens nor closes a call and does not change the pool. -/
theorem tells_mute {α : Type} {g : Stage} (hs : Inside bound g s) {a : Shown σ α}
    {b : Action σ Unit α} (h : ∀ τ look, Mute α b (a τ look))
    (hsame : ∀ x u, b s = .ok x u → u.calls = s.calls ∧ u.pool = s.pool) :
    Tells bound g a s fun _ => Inside bound :=
  .mute h fun x u hr => hs.congr (hsame x u hr).1 (hsame x u hr).2

theorem tells_inner {α : Type} {g : Stage} (hs : Inside bound g s) {a : Shown σ α}
    {b : Action σ Unit α} (h : ∀ τ look, Mute α b (a τ look)) (hb : Inner b) :
    Tells bound g a s fun _ => Inside bound := by
  refine tells_mute hs h fun x u hr => ?_
  have hw := hb s
  rw [hr] at hw
  exact ⟨hw.calls, hw.pool⟩

theorem tells_push {g : Stage} (hs : Inside bound g s) (v : Value) :
    Tells bound g (fun _ _ => push v) s fun _ => Inside bound :=
  tells_inner hs (fun _ _ => Mute.congruence.push v) (inner_push v)

/-- A call is told with its frame on top, if it may be told at all. -/
theorem tells_enterSeen (id : RoutineId) (args : List Value) (kind : FrameKind) {g : Stage}
    (hbinds : Binds bound s.pool)
    (hfires : ∀ f : Frame, f.routine = id → f.kind = kind →
      g.Fires bound ⟨.called id, s.calls.push f⟩ (.body (s.calls.push f))) :
    Tells bound g (fun _ look => m.enterSeen look id args kind) s fun _ => Inside bound := by
  refine .bind (P := fun _ g' u => g' = g ∧ u.pool = s.pool ∧
    ∃ f : Frame, f.routine = id ∧ f.kind = kind ∧ u.calls = s.calls.push f) ?_ ?_
  · refine .mute (fun _ _ => m.mute_enter id args kind) fun _ u h => ?_
    have hentering := m.entering_enter .silent id args kind s
    rw [h] at hentering
    cases hentering with
    | begun _ _ _ => exact ⟨rfl, rfl, _, rfl, rfl, rfl⟩
  · rintro _ _ u ⟨rfl, hpool, f, hid, hkind, hcalls⟩
    refine .tell ?_ ⟨congrArg Stage.body hcalls.symm, hpool ▸ hbinds⟩
    rw [hcalls]
    exact hfires f hid hkind

theorem tells_call {g : Stage} (hs : Inside bound g s) (id : RoutineId) (args : List Value)
    {kind : FrameKind} (hkind : kind.isCall) :
    Tells bound g (fun _ look => m.enterSeen look id args kind) s fun _ => Inside bound := by
  refine m.tells_enterSeen id args kind hs.binds fun f hid hf => ?_
  rw [hs.stage, ← hid]
  exact .called (hf ▸ hkind)

theorem tells_mallocSeen {g : Stage} (hs : Inside bound g s) (ty : TypeId) (count : UInt32) :
    Tells bound g (fun _ look => m.mallocSeen look ty count) s fun _ => Inside bound := by
  refine .check fun size _ => .bind (tells_mute hs (fun _ _ => .allocate size) ?_) ?_
  · intro a u h
    rw [allocate_run] at h
    cases ha : s.memory.alloc size with
    | error e => rw [ha] at h; cases h
    | ok r => rw [ha] at h; cases h; exact ⟨rfl, rfl⟩
  · intro a g' u hu
    exact .bind (tells_leaf hu rfl) fun _ g'' u' hu' => tells_push hu' _

/-- The first read of a constant calls its initializer. -/
theorem tells_constGetSeen {g : Stage} (hs : Inside bound g s) (offset : UInt32) :
    Tells bound g (fun _ look => m.constGetSeen look offset) s fun _ => Inside bound := by
  refine .get (b := fun _ look => check .pool (s.pool.isInitialized offset) >>= fun ready =>
    if ready then do
      let entry ← check .pool (s.pool.entry offset)
      let sh ← m.shape entry.ty
      let bytes ← check .pool (s.pool.data offset)
      tell look (.constHit offset)
      push (sh.decode bytes)
    else do
      let initializer ← check .pool (s.pool.initializer offset)
      tell look (.constInit offset)
      m.enterSeen look initializer [] (.constant offset)) (fun _ _ _ => rfl) ?_
  refine .check fun ready _ => ?_
  cases ready with
  | true =>
    refine .check fun entry _ => .check fun sh _ => .check fun bytes _ => ?_
    exact .bind (tells_leaf hs rfl) fun _ g' u hu => tells_push hu _
  | false =>
    refine .check fun id hid => ?_
    obtain rfl := hs.stage
    refine .bind (.tell (.init (hs.binds offset id hid))
      (P := fun _ g' u => g' = .initializing offset id s.calls ∧ u = s) ⟨rfl, rfl⟩) ?_
    rintro _ _ _ ⟨rfl, rfl⟩
    refine m.tells_enterSeen id [] (.constant offset) hs.binds fun f hid' hkind => ?_
    rw [← hid']
    exact .initializer hkind

theorem tells_callNativeSeen {g : Stage} (hs : Inside bound g s) (id : NativeId)
    (args : List Value) (context : UInt64) :
    Tells bound g (fun _ look => m.callNativeSeen look id args context) s
      fun _ => Inside bound := by
  unfold callNativeSeen
  cases m.native? id with
  | none => exact .throw _
  | some _ =>
    refine .bind (tells_leaf hs rfl) fun _ g' u hu => ?_
    refine tells_mute hu (fun _ _ => m.mute_callNative id args context) fun v t h => ?_
    obtain ⟨e, hr⟩ | ⟨w, outcome, hrun, hr⟩ := m.callNative_cases .silent id args context u
    · cases h.symm.trans hr
    · cases outcome with
      | error e => cases h.symm.trans hr
      | ok v' =>
        cases h.symm.trans hr
        exact ⟨hrun.calls, hrun.pool⟩

theorem tells_callTargetSeen {g : Stage} (hs : Inside bound g s) (p : ProcRef)
    (args : List Value) (ret : Option TypeId) (shape? : Option Shape) :
    Tells bound g (fun _ look => m.callTargetSeen look p args ret shape?) s
      fun _ => Inside bound := by
  unfold callTargetSeen
  cases p.target with
  | none => exact .throw _
  | some target =>
    cases target with
    | routine id =>
      dsimp only
      split
      · exact .throw _
      · exact m.tells_call hs id args rfl
    | native id =>
      refine .bind (m.tells_callNativeSeen hs id args p.context) fun v g' u hu => ?_
      cases shape? with
      | none => exact .pure hu
      | some sh => exact .check fun w _ => tells_push hu w

theorem tells_popMany {g : Stage} (hs : Inside bound g s) (ip : UInt32) (n : Nat) :
    Tells bound g (fun _ _ => popMany ip n) s fun _ => Inside bound := by
  refine tells_mute hs (fun _ _ => .popMany ip n) fun vs u h => ?_
  obtain ⟨-, -, rfl⟩ := popMany_ok h
  exact ⟨rfl, rfl⟩

theorem tells_callProcSeen {g : Stage} (hs : Inside bound g s) (ip : UInt32) (ty : TypeId) :
    Tells bound g (fun _ look => m.callProcSeen look ip ty) s fun _ => Inside bound := by
  refine .check fun sig _ => .check fun shapes _ => .check fun shape? _ => ?_
  refine .bind (tells_popMany hs ip _) fun raw g' u hu => ?_
  refine .bind (P := fun _ => Inside bound) ?_ ?_
  · exact tells_inner hu (fun _ _ => Mute.congruence.popProc ip)
      (Inward.within.congruence.popProc ip)
  · intro p g'' t ht
    exact .check fun args _ => m.tells_callTargetSeen ht p args _ _

/-- One case per instruction that tells of more than its fetch. -/
theorem tells_performSeen {g : Stage} (hs : Inside bound g s) (ip : UInt32) (i : Instr) :
    Tells bound g (fun _ look => m.performSeen look ip i) s fun _ => Inside bound := by
  by_cases hinner : i.isInner
  · simp only [m.performSeen_of_isInner _ hinner]
    exact tells_inner hs (fun _ _ => m.mute_perform hinner ip)
      (m.perform_within .silent hinner ip)
  · cases i with
    | malloc ty count => exact m.tells_mallocSeen hs ty count
    | call id =>
      refine .bind (P := fun _ => Inside bound) ?_ fun c g' u hu => ?_
      · exact tells_inner hs (fun _ _ => Mute.congruence.callee (.refl m) id)
          (Inward.within.congruence.callee (.refl m) id)
      · exact .bind (tells_popMany hu ip _) fun args g'' t ht => m.tells_call ht id args rfl
    | constGet offset => exact m.tells_constGetSeen hs offset
    | callProc ty => exact m.tells_callProcSeen hs ip ty
    | _ => exact absurd rfl hinner

/-! ## Returns -/

theorem tells_retire (ip : UInt32) {g : Stage} :
    Tells bound g (fun _ _ => m.retire ip) s fun r g' u => g' = g ∧ u.pool = s.pool ∧
      s.calls.current? = some r.1 ∧ u.calls = s.calls.tail := by
  refine .mute (fun _ _ => m.mute_retire ip) fun r u h => ?_
  simp only [retire, bind_run, get_run] at h
  cases hf : s.calls.current? with
  | none =>
    rw [hf] at h
    cases h
  | some f =>
    simp only [hf, callee] at h
    cases hc : m.callee? f.routine with
    | none =>
      rw [hc] at h
      cases h
    | some c =>
      simp only [hc, pure_run, bind_run] at h
      obtain ⟨e, t, hr, _⟩ | ⟨v, n, hr, _⟩ := m.result_cases ip c.routine.ret s
      · rw [hr] at h
        cases h
      · simp only [hr, modify_run, release_run] at h
        cases hfree : s.memory.free f.locals with
        | error e =>
          rw [hfree] at h
          cases h
        | ok memory =>
          rw [hfree] at h
          cases h
          exact ⟨rfl, rfl, rfl, rfl⟩

theorem initializer_deliver {τ : Type} (watch : Observer τ) {kind : FrameKind} {v : Value}
    {s t : State σ τ} (h : Delivering m watch v s kind t) (o : UInt32) :
    t.pool.initializer o = s.pool.initializer o := by
  cases h with
  | constant _ _ _ hstore =>
    obtain ⟨_, _, _, _, rfl⟩ := Pool.store_cases hstore
    rfl
  | _ => rfl

theorem tells_deliver (v : Value) {kind : FrameKind} (hkind : kind.isCall) {g : Stage}
    (hs : Inside bound g s) :
    Tells bound g (fun _ _ => m.deliver .silent v kind) s fun _ => Inside bound := by
  have hne : kind ≠ .host := by
    rintro rfl
    cases hkind
  refine tells_mute hs (fun _ _ => m.mute_deliver v kind) fun _ u h => ?_
  obtain ⟨e, hr⟩ | ⟨t, hr, hd⟩ := m.deliver_cases .silent hne v s
  · cases h.symm.trans hr
  · cases h.symm.trans hr
    refine ⟨m.calls_deliver .silent hd, ?_⟩
    cases hd with
    | constant _ _ _ _ => cases hkind
    | _ => rfl

theorem tells_storeConstant (v : Value) (o : UInt32) (hbinds : Binds bound s.pool) {g : Stage} :
    Tells bound g (fun _ _ => m.storeConstant .silent o v) s fun _ g' u =>
      g' = g ∧ u.calls = s.calls ∧ Binds bound u.pool := by
  refine .mute (fun _ _ => m.mute_storeConstant o v) fun w u h => ?_
  have hd : m.deliver .silent v (.constant o) s =
      .ok () { u with operands := u.operands.push w } := bind_ok h
  have hne : FrameKind.constant o ≠ .host := nofun
  obtain ⟨e, hr⟩ | ⟨t, hr, ht⟩ := m.deliver_cases .silent hne v s
  · cases hd.symm.trans hr
  · have hcalls := m.calls_deliver .silent ht
    have hinit := m.initializer_deliver .silent ht
    cases hd.symm.trans hr
    exact ⟨rfl, hcalls, fun o id hid => hbinds o id ((hinit o).symm.trans hid)⟩

/-- The value of a constant is told once it is in the pool. -/
theorem tells_deliverSeen (v : Value) {kind : FrameKind} (hkind : kind ≠ .host)
    (hbinds : Binds bound s.pool) :
    Tells bound (.afterReturn v s.calls kind) (fun _ look => m.deliverSeen look v kind) s
      fun _ => Inside bound := by
  cases kind with
  | host => exact absurd rfl hkind
  | call =>
    have hcall : FrameKind.call.isCall := rfl
    exact m.tells_deliver v hcall ⟨rfl, hbinds⟩
  | procCall ret =>
    have hcall : (FrameKind.procCall ret).isCall := rfl
    exact m.tells_deliver v hcall ⟨rfl, hbinds⟩
  | constant o =>
    refine .bind (m.tells_storeConstant v o hbinds) ?_
    rintro w _ u ⟨rfl, hcalls, hpool⟩
    refine .bind (P := fun _ => Inside bound) ?_ fun _ g' t ht => tells_push ht w
    rw [← hcalls]
    exact .tell .ready ⟨rfl, hpool⟩

/-- What becomes of the result once the return has been told. -/
theorem tells_handOverSeen (f : Frame) (v : Value) (hbinds : Binds bound s.pool) :
    Tells bound (.afterReturn v s.calls f.kind) (fun _ look => m.handOverSeen look f v) s
      (Goes bound) := by
  by_cases hhost : f.kind = .host
  · simp only [handOverSeen, hhost]
    exact .pure ⟨_, rfl⟩
  · have hrun : ∀ τ (look : Onlooker τ), m.handOverSeen look f v =
        (m.deliverSeen look v f.kind >>= fun _ => jump f.returnIp >>= fun _ => pure none) := by
      intro τ look
      unfold handOverSeen
      cases hk : f.kind <;> first | rfl | exact absurd hk hhost
    simp only [hrun]
    refine .bind (m.tells_deliverSeen v hhost hbinds) fun _ g' u hu => ?_
    exact .bind (tells_inner hu (fun _ _ _ _ => rfl) (inner_jump f.returnIp)) fun _ _ _ ht =>
      .pure ht

theorem tells_leaveSeen (ip : UInt32) {g : Stage} (hs : Inside bound g s) :
    Tells bound g (fun _ look => m.leaveSeen look ip) s (Goes bound) := by
  refine .bind (m.tells_retire ip) ?_
  rintro ⟨f, v⟩ _ u ⟨rfl, hpool, hf, hcalls⟩
  have hbinds : Binds bound u.pool := hpool ▸ hs.binds
  refine .bind (P := fun _ g' t => g' = .afterReturn v u.calls f.kind ∧ t = u) ?_ ?_
  · obtain rfl := hs.stage
    refine .tell ?_ ⟨rfl, rfl⟩
    rw [hcalls]
    exact .returned hf
  · rintro _ _ _ ⟨rfl, rfl⟩
    exact m.tells_handOverSeen f v hbinds

theorem tells_stepSeen (l : Located) {g : Stage} (hs : Inside bound g s) :
    Tells bound g (fun _ look => m.stepSeen look l) s (Goes bound) := by
  by_cases hret : l.instr = .ret
  · simp only [stepSeen, hret]
    exact m.tells_leaveSeen l.ip hs
  · simp only [m.stepSeen_eq _ hret]
    exact .bind (m.tells_performSeen hs l.ip l.instr) fun _ g' u hu => .pure hu

/-- One instruction. -/
theorem tells_cycleSeen {g : Stage} (hs : Inside bound g s) :
    Tells bound g (fun _ look => m.cycleSeen look) s (Goes bound) := by
  refine .get (b := fun _ look => check .code (decodeAt m.program.code s.ip) >>= fun l => do
    tell look (.instr l)
    jump l.next
    m.stepSeen look l) (fun _ _ _ => rfl) ?_
  refine .check fun l _ => .bind (tells_leaf hs rfl) fun _ g' t ht => ?_
  refine .bind (tells_inner ht (fun _ _ _ _ => rfl) (inner_jump l.next)) fun _ g'' u hu => ?_
  exact m.tells_stepSeen l hu

/-! ## Runs -/

theorem runSeen_succ {τ : Type} (look : Onlooker τ) (fuel : Nat) :
    (m.runSeen look (fuel + 1) : Action σ τ Value) = m.cycleSeen look >>= fun
      | some v => pure v
      | none => m.runSeen look fuel := by
  funext s
  rw [bind_run, runSeen]
  cases m.cycleSeen look s with
  | error e t => rfl
  | ok o t => cases o <;> rfl

theorem tells_runSeen (fuel : Nat) {g : Stage} (hs : Inside bound g s) :
    Tells bound g (fun _ look => m.runSeen look fuel) s fun v g' _ => ∃ c, g' = .done v c := by
  induction fuel generalizing g s with
  | zero => exact .throw _
  | succ fuel ih =>
    simp only [runSeen_succ]
    refine .bind (m.tells_cycleSeen hs) fun o g' u hu => ?_
    cases o with
    | some v => exact .pure hu
    | none => exact ih hu

theorem executeSeen_eq {τ : Type} (look : Onlooker τ) (id : RoutineId) (args : List Value)
    (s : State σ τ) :
    m.executeSeen look id args s =
      settle ((m.enterSeen look id args .host >>= fun _ => m.runSeen look m.limits.fuel.toNat)
        { s with operands := .empty }) := by
  cases he : m.enterSeen look id args .host { s with operands := .empty } with
  | error e t =>
    rw [executeSeen, he]
    exact (congrArg settle (bind_error he)).symm
  | ok _ t =>
    rw [executeSeen, he]
    refine Eq.trans ?_ (congrArg settle (bind_ok he)).symm
    dsimp only
    cases m.runSeen look m.limits.fuel.toNat t <;> rfl

/-- A whole run. -/
theorem tells_executeSeen (id : RoutineId) (args : List Value) (hidle : s.calls = .empty)
    (hbinds : Binds bound s.pool) :
    Tells bound (.idle id) (fun _ look => m.executeSeen look id args) s
      fun v g' _ => ∃ c, g' = .done v c := by
  have hrun : Tells bound (.idle id)
      (fun _ look => m.enterSeen look id args .host >>= fun _ =>
        m.runSeen look m.limits.fuel.toNat)
      { s with operands := .empty } fun v g' _ => ∃ c, g' = .done v c := by
    refine .bind (m.tells_enterSeen id args .host hbinds fun f hid hkind => ?_)
      fun _ g' u hu => m.tells_runSeen m.limits.fuel.toNat hu
    dsimp only
    rw [hidle, ← hid]
    exact .host hkind
  obtain ⟨hooks, g', r, hleads, htold, hpost⟩ := hrun
  refine ⟨hooks, g', settle r, hleads, fun τ look t => ?_, ?_⟩
  · refine (m.executeSeen_eq look id args _).trans ((congrArg settle (htold τ look t)).trans ?_)
    cases r <;> rfl
  · intro v u h
    cases r with
    | error e t => cases h
    | ok w t =>
      cases h
      exact hpost _ _ rfl

end Machine
end ForeignVM
