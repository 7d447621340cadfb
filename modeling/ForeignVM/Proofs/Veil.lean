import ForeignVM.Proofs.Isolation

/-!
# ForeignVM.Proofs.Veil

Of the calls that are open, an instruction uses how many there are, and of the current frame the
routine, the block of its locals and the height of the operands at its entry. Why a frame was
entered, and where its caller goes on, matters only when it returns. So a change of the calls that
leaves the rest as it is makes no difference to an instruction that is not a return.

* `Veil`                 — such a change of the calls.
* `Action.Unaware`       — an action to which it makes no difference; closed under `>>=`.
* `Veil.perform`         — every instruction but a return.
* `Veil.leave`           — a return from a frame that hands its result over alike.
-/

namespace ForeignVM

/-- What instructions use of the current frame. -/
def Frame.seen (f : Frame) : RoutineId × UInt64 × Nat := (f.routine, f.locals, f.base)

/-- A change of the calls behind which the same is seen, as long as they are as `p` says. It does
not change a frame that is entered, unless by the host. -/
structure Veil (p : CallStack → Prop) (g : CallStack → CallStack) : Prop where
  depth : ∀ c, (g c).depth = c.depth
  seen : ∀ c, (g c).current?.map Frame.seen = c.current?.map Frame.seen
  tail : ∀ c, (g c).tail = g c.tail
  push : ∀ {c f}, p c → f.kind ≠ .host → p (c.push f) ∧ g (c.push f) = (g c).push f

/-- The state behind a change of the calls. -/
def State.behind {σ τ : Type} (g : CallStack → CallStack) (s : State σ τ) : State σ τ :=
  { s with calls := g s.calls }

variable {p : CallStack → Prop} {g : CallStack → CallStack}

namespace Veil

variable (h : Veil p g)
include h

theorem current?_eq_none {c : CallStack} (hc : c.current? = none) : (g c).current? = none := by
  have hseen := h.seen c
  rw [hc] at hseen
  exact Option.map_eq_none_iff.mp hseen

theorem current?_eq_some {c : CallStack} {f : Frame} (hc : c.current? = some f) :
    ∃ f', (g c).current? = some f' ∧ f'.seen = f.seen := by
  have hseen := h.seen c
  rw [hc] at hseen
  exact Option.map_eq_some_iff.mp hseen

theorem base (c : CallStack) : (g c).base = c.base := by
  unfold CallStack.base
  cases hc : c.current? with
  | none => rw [h.current?_eq_none hc]
  | some f =>
    obtain ⟨f', hf', hseen⟩ := h.current?_eq_some hc
    rw [hf']
    exact congrArg (fun seen => seen.2.2) hseen

end Veil

namespace Action

open Machine

variable {σ τ α β ε : Type}

/-- The same result, with the state that it leaves behind seen through the change. -/
def veiled (g : CallStack → CallStack) :
    EStateM.Result RuntimeError (State σ τ) α → EStateM.Result RuntimeError (State σ τ) α
  | .ok a s => .ok a (s.behind g)
  | .error e s => .error e (s.behind g)

/-- The change makes no difference to the action, after which the calls still are as `p` says. -/
def Unaware (p : CallStack → Prop) (g : CallStack → CallStack) (a : Action σ τ α) : Prop :=
  ∀ s, p s.calls → p (finalState (a s)).calls ∧ a (s.behind g) = veiled g (a s)

namespace Unaware

theorem bind {a : Action σ τ α} {f : α → Action σ τ β} (ha : Unaware p g a)
    (hf : ∀ x, Unaware p g (f x)) : Unaware p g (a >>= f) := by
  intro s hp
  obtain ⟨hcalls, hrun⟩ := ha s hp
  rw [bind_run, bind_run, hrun]
  cases h : a s with
  | error e t =>
    rw [h] at hcalls
    exact ⟨hcalls, rfl⟩
  | ok x t =>
    rw [h] at hcalls
    exact hf x t hcalls

/-- What depends on the state, but not on what is changed. -/
theorem get {f : State σ τ → Action σ τ α} (hsame : ∀ s, f (s.behind g) = f s)
    (h : ∀ s, Unaware p g (f s)) : Unaware p g (MonadState.get >>= f) := by
  intro s hp
  have hrun := h s s hp
  rw [bind_ok (get_run s), bind_ok (get_run _), hsame]
  exact hrun

theorem pure (a : α) : Unaware p g (Pure.pure a : Action σ τ α) := fun _ hp => ⟨hp, rfl⟩

theorem throw (e : RuntimeError) : Unaware p g (MonadExcept.throw e : Action σ τ α) :=
  fun _ hp => ⟨hp, rfl⟩

theorem push (v : Value) : Unaware p g (Action.push v : Action σ τ Unit) := fun _ hp => ⟨hp, rfl⟩

theorem emit (watch : Observer τ) (e : Event) :
    Unaware p g (Action.emit watch e : Action σ τ Unit) := fun _ hp => ⟨hp, rfl⟩

theorem jump (ip : UInt32) : Unaware p g (Action.jump ip : Action σ τ Unit) :=
  fun _ hp => ⟨hp, rfl⟩

theorem setMemory (memory : Memory) : Unaware p g (Action.setMemory memory : Action σ τ Unit) :=
  fun _ hp => ⟨hp, rfl⟩

theorem changePool (change : Pool → Pool.Result α) :
    Unaware p g (Action.changePool change : Action σ τ α) := by
  intro s hp
  have hsame : (s.behind g).pool = s.pool := rfl
  simp only [changePool_run, hsame]
  cases change s.pool <;> exact ⟨hp, rfl⟩

theorem check (cause : ε → RuntimeError) (x : Except ε α) :
    Unaware p g (Action.check cause x : Action σ τ α) := by
  cases x with
  | ok a => exact .pure a
  | error e => exact .throw _

theorem ofResult (x : Except RuntimeError α) :
    Unaware p g (Action.ofResult x : Action σ τ α) := .check _ x

theorem load (address : UInt64) (s : Shape) :
    Unaware p g (Action.load address s : Action σ τ Value) :=
  .get (fun _ => rfl) fun _ => .ofResult _

theorem store (address : UInt64) (s : Shape) (v : Value) :
    Unaware p g (Action.store address s v : Action σ τ Unit) :=
  .get (fun _ => rfl) fun _ => .bind (.ofResult _) .setMemory

theorem allocate (size : Nat) : Unaware p g (Action.allocate size : Action σ τ UInt64) :=
  .get (fun _ => rfl) fun _ => .bind (.check _ _) fun _ =>
    .bind (.setMemory _) fun _ => .pure _

theorem release (address : UInt64) : Unaware p g (Action.release address : Action σ τ Unit) :=
  .get (fun _ => rfl) fun _ => .bind (.check _ _) .setMemory

theorem storeArgs (locals : UInt64) (slots : List Slot) (args : List Value) :
    Unaware p g (Machine.storeArgs locals slots args : Action σ τ Unit) := by
  induction slots generalizing args with
  | nil => exact .pure ()
  | cons slot slots ih =>
    cases args with
    | nil => exact .pure ()
    | cons arg args =>
      refine .bind (.check _ _) fun address => .get (fun _ => rfl) fun s => ?_
      refine .bind (.check _ _) fun _ => ?_
      split
      · exact .get (fun _ => rfl) fun s => .bind (.check _ _) fun _ =>
          .bind (.setMemory _) fun _ => ih args
      · exact .bind (.release _) fun _ => .throw _

theorem newLocals (frame : FrameLayout) (args : List Value) :
    Unaware p g (Machine.newLocals frame args : Action σ τ UInt64) :=
  .bind (.allocate _) fun _ => .bind (.storeArgs _ _ _) fun _ => .pure _

end Unaware
end Action

namespace Veil

open ForeignVM.Action Machine

variable {σ τ : Type} (h : Veil p g)
include h

/-! ## Operands -/

theorem pop (ip : UInt32) : Unaware p g (Action.pop ip : Action σ τ Value) := by
  intro s hp
  have hbase : (s.behind g).calls.base = s.calls.base := h.base s.calls
  obtain ⟨hb, hr⟩ | ⟨hb, v, hv, hr⟩ := pop_cases ip s <;>
    obtain ⟨hb', hr'⟩ | ⟨hb', v', hv', hr'⟩ := pop_cases ip (s.behind g) <;>
    rw [hbase] at hb'
  · rw [hr, hr']
    exact ⟨hp, rfl⟩
  · exact absurd hb (Nat.not_le_of_lt hb')
  · exact absurd hb' (Nat.not_le_of_lt hb)
  · cases hv.symm.trans hv'
    rw [hr, hr']
    exact ⟨hp, rfl⟩

theorem popMany (ip : UInt32) (n : Nat) :
    Unaware p g (Action.popMany ip n : Action σ τ (List Value)) := by
  intro s hp
  have hbase : (s.behind g).calls.base = s.calls.base := h.base s.calls
  obtain ⟨hb, hr⟩ | ⟨hb, hr⟩ := popMany_cases ip n s <;>
    obtain ⟨hb', hr'⟩ | ⟨hb', hr'⟩ := popMany_cases ip n (s.behind g) <;>
    rw [hbase] at hb'
  · rw [hr, hr']
    exact ⟨hp, rfl⟩
  · exact absurd hb (Nat.not_lt_of_le hb')
  · exact absurd hb' (Nat.not_lt_of_le hb)
  · rw [hr, hr']
    exact ⟨hp, rfl⟩

theorem congruence : Congruence fun _ (a : Action σ τ _) (_ : Action σ τ _) => Unaware p g a where
  pure := .pure
  throw := .throw
  bind := .bind
  pop := h.pop
  push := .push

variable (m : Machine σ) (watch : Observer τ)

/-! ## Calls and instructions -/

theorem localSlot (ip : UInt32) (i : UInt16) :
    Unaware p g (m.localSlot ip i : Action σ τ (UInt64 × Slot)) := by
  refine .get (fun s => ?_) fun s => ?_
  · cases hc : s.calls.current? with
    | none =>
      have hc' : (s.behind g).calls.current? = none := h.current?_eq_none hc
      rw [hc']
    | some f =>
      obtain ⟨f', hf', hseen⟩ := h.current?_eq_some hc
      have hc' : (s.behind g).calls.current? = some f' := hf'
      obtain ⟨hroutine, hlocals, -⟩ : f'.routine = f.routine ∧ f'.locals = f.locals ∧ _ := by
        simpa [Frame.seen] using hseen
      simp only [hc', hroutine, hlocals]
  · split
    · exact .throw _
    · refine .bind (h.congruence.callee (.refl m) _) fun c => ?_
      split
      · exact .throw _
      · exact .bind (.check _ _) fun _ => .pure _

theorem enter (id : RoutineId) (args : List Value) {kind : FrameKind} (hkind : kind ≠ .host) :
    Unaware p g (m.enter watch id args kind) := by
  refine .bind (h.congruence.callee (.refl m) id) fun c => .get (fun s => ?_) fun s => ?_
  · have hdepth : (s.behind g).calls.depth = s.calls.depth := h.depth s.calls
    rw [hdepth]
  have hpush (locals : UInt64) : Unaware p g
      (modify fun s : State σ τ =>
        { s with
          calls := s.calls.push ⟨id, kind, s.ip, locals, s.operands.height⟩
          ip := c.routine.entry }) := by
    intro s hp
    obtain ⟨hcalls, heq⟩ := h.push hp hkind (f := ⟨id, kind, s.ip, locals, s.operands.height⟩)
    refine ⟨hcalls, ?_⟩
    simp only [modify_run, veiled, State.behind, heq]
  -- each of the two checks ends the call, or the rest follows
  have hstop {α : Type} (e : RuntimeError) (f : Unit → Action σ τ α) :
      Unaware p g (MonadExcept.throw e >>= f : Action σ τ α) := fun _ hp => ⟨hp, rfl⟩
  split
  · exact hstop _ _
  · dsimp only
    split
    · exact hstop _ _
    · exact .bind (.newLocals _ _) fun locals => .bind (hpush locals) fun _ => .emit watch _

theorem storeConstant (offset : UInt32) (v : Value) :
    Unaware p g (m.storeConstant watch offset v) := by
  refine .get (fun _ => rfl) fun s => .bind (.check _ _) fun entry => ?_
  refine .bind (h.congruence.shape (.refl m) _) fun sh => .bind (.ofResult _) fun bytes => ?_
  exact .bind (.changePool _) fun _ => .bind (.emit watch _) fun _ => .pure _

theorem deliver (v : Value) (kind : FrameKind) : Unaware p g (m.deliver watch v kind) := by
  cases kind with
  | host => exact .pure ()
  | call =>
    unfold Machine.deliver
    dsimp only
    split
    · exact .pure ()
    · exact .push v
  | procCall ret =>
    cases ret with
    | none => exact .pure ()
    | some ty =>
      exact .bind (h.congruence.shape (.refl m) ty) fun _ => .bind (.ofResult _) .push
  | constant offset => exact .bind (h.storeConstant m watch offset v) .push

theorem constGet (offset : UInt32) : Unaware p g (m.constGet watch offset) := by
  refine .get (fun _ => rfl) fun s => .bind (.check _ _) fun ready => ?_
  split
  · exact .bind (.check _ _) fun entry => .bind (h.congruence.shape (.refl m) _) fun sh =>
      .bind (.check _ _) fun bytes => .bind (.emit watch _) fun _ => .push _
  · exact .bind (.check _ _) fun id => .bind (.emit watch _) fun _ =>
      h.enter m watch id [] nofun

omit h in
theorem callNative (id : NativeId) (args : List Value) (context : UInt64) :
    Unaware p g (m.callNative watch id args context) := by
  unfold Machine.callNative
  split
  · exact .throw _
  · refine .bind (.emit watch _) fun _ s hp => ?_
    simp only [bind_run, get_run, set_run]
    exact Unaware.ofResult _ _ hp

/-- One case per instruction that leaves the frame. -/
theorem perform (ip : UInt32) (i : Instr) : Unaware p g (m.perform watch ip i) := by
  by_cases hi : i.isInner
  · exact h.congruence.inner (.refl m) watch watch hi ip (h.localSlot m ip) .load .store
      fun target _ => .jump target
  cases i with
  | malloc ty count =>
    exact .bind (.ofResult _) fun _ => .bind (.allocate _) fun _ =>
      .bind (.emit watch _) fun _ => .push _
  | call id =>
    exact .bind (h.congruence.callee (.refl m) id) fun c => .bind (h.popMany ip _) fun args =>
      h.enter m watch id args nofun
  | constGet offset => exact h.constGet m watch offset
  | callProc ty =>
    exact h.congruence.callProc (.refl m) watch watch
      (fun id args ret => h.enter m watch id args nofun) (callNative m watch) ip ty (h.popMany ip)
  | _ => exact absurd rfl hi

/-! ## Returns -/

theorem result (ip : UInt32) (ret : Option TypeId) :
    Unaware p g (m.result ip ret : Action σ τ Value) := by
  cases ret with
  | none => exact .pure _
  | some ty =>
    exact .bind (h.pop ip) fun _ => .bind (h.congruence.shape (.refl m) ty) fun _ => .ofResult _

theorem handOver (f : Frame) (v : Value) : Unaware p g (m.handOver watch f v) := by
  unfold Machine.handOver
  split
  · exact .pure _
  · exact .bind (h.deliver m watch v _) fun _ => .bind (.jump _) fun _ => .pure _

end Veil

namespace Machine

open ForeignVM.Action

variable {σ τ : Type} (m : Machine σ) (watch : Observer τ)

/-- A return from the frame `f`. -/
theorem leave_eq {s : State σ τ} {f : Frame} (hf : s.calls.current? = some f) (ip : UInt32) :
    m.leave watch ip s =
      match m.callee? f.routine with
      | none => .error (.unknownRoutine f.routine) s
      | some c =>
        match m.result ip c.routine.ret s with
        | .error e t => .error e t
        | .ok v t =>
          match t.memory.free f.locals with
          | .error cause =>
            .error (.memory cause)
              { t with calls := t.calls.tail, operands := t.operands.cut f.base }
          | .ok memory => m.handOver watch f v (left watch t f v memory) := by
  simp only [leave, bind_run, get_run, hf, callee]
  cases m.callee? f.routine with
  | none => rfl
  | some c =>
    simp only [pure_run]
    cases m.result ip c.routine.ret s with
    | error e t => rfl
    | ok v t =>
      simp only [modify_run, release_run]
      cases t.memory.free f.locals <;> rfl

end Machine

namespace Veil

open ForeignVM.Action Machine

variable {σ τ : Type} (h : Veil p g) (m : Machine σ) (watch : Observer τ)
include h

/-- If the current frame hands over its result alike, it returns alike. -/
theorem leave {s : State σ τ} {f f' : Frame} (hp : p s.calls)
    (hf : s.calls.current? = some f) (hf' : (g s.calls).current? = some f')
    (hover : ∀ c v t, m.callee? f.routine = some c → m.IsResult c.routine.ret v →
      t.calls = s.calls.tail →
      m.handOver watch f' v (t.behind g) = veiled g (m.handOver watch f v t)) (ip : UInt32) :
    m.leave watch ip (s.behind g) = veiled g (m.leave watch ip s) := by
  obtain ⟨hroutine, hlocals, hbase⟩ :
      f'.routine = f.routine ∧ f'.locals = f.locals ∧ f'.base = f.base := by
    have hseen := h.seen s.calls
    rw [hf, hf'] at hseen
    simpa [Frame.seen] using hseen
  have hcurrent : (s.behind g).calls.current? = some f' := hf'
  rw [m.leave_eq watch hf, m.leave_eq watch hcurrent, hroutine]
  cases hc : m.callee? f.routine with
  | none => rfl
  | some c =>
    dsimp only
    rw [(h.result m ip c.routine.ret s hp).2, hlocals]
    obtain ⟨e, t, hr, _⟩ | ⟨v, n, hr, hv, _⟩ := m.result_cases ip c.routine.ret s
    · rw [hr]
      rfl
    · rw [hr]
      cases hfree : s.memory.free f.locals with
      | error cause => simp only [veiled, State.behind, h.tail, hfree, hbase]
      | ok memory =>
        have hsame := hover c v (left watch { s with operands := s.operands.drop n } f v memory) hc
          hv rfl
        refine Eq.trans ?_ (hsame.trans ?_)
        · simp only [veiled, State.behind, hfree, left, h.tail, hbase]
        · simp only [hfree]

end Veil
end ForeignVM
