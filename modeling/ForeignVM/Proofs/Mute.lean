import ForeignVM.Proofs.Onlooker

/-!
# ForeignVM.Proofs.Mute

Actions that have nothing to do with the trace. They do the same in states that differ in their
traces, even in the types of them, and leave the trace as it is.

* `Action.Mute`       — two such actions that do the same.
* `Mute.congruence`   — elementary actions and what is made of them.
* `mute_perform`, `mute_enter`, `mute_retire` — what a machine does unobserved.
-/

namespace ForeignVM

namespace Action

variable {σ τ υ α β ε : Type}

/-- The same result over another trace. -/
def retrace (r : EStateM.Result RuntimeError (State σ τ) α) (t : υ) :
    EStateM.Result RuntimeError (State σ υ) α :=
  match r with
  | .ok a s => .ok a (s.withTrace t)
  | .error e s => .error e (s.withTrace t)

/-- The two actions do the same, and neither reads nor changes its trace. -/
def Mute (α : Type) (a : Action σ τ α) (a' : Action σ υ α) : Prop :=
  ∀ (s : State σ τ) (t : υ), a' (s.withTrace t) = retrace (a s) t

namespace Mute

theorem modify {f : State σ τ → State σ τ} {f' : State σ υ → State σ υ}
    (h : ∀ s t, f' (s.withTrace t) = (f s).withTrace t) :
    Mute Unit (modify f : Action σ τ Unit) (modify f') :=
  fun s t => congrArg (EStateM.Result.ok ()) (h s t)

/-- What is read of the state must not be its trace. -/
theorem get {f : State σ τ → Action σ τ α} {f' : State σ υ → Action σ υ α}
    (h : ∀ s t, Mute α (f s) (f' (s.withTrace t))) : Mute α (MonadState.get >>= f) (get >>= f') :=
  fun s t => h s t s t

theorem pop (ip : UInt32) :
    Mute Value (Action.pop ip : Action σ τ Value) (Action.pop ip : Action σ υ Value) := by
  intro s t
  simp only [Action.pop, bind_run, get_run, State.withTrace]
  split
  · rfl
  · cases s.operands.values <;> rfl

theorem popMany (ip : UInt32) (n : Nat) :
    Mute (List Value) (Action.popMany ip n : Action σ τ (List Value))
      (Action.popMany ip n : Action σ υ (List Value)) := by
  intro s t
  simp only [Action.popMany, bind_run, get_run, State.withTrace]
  split <;> rfl

theorem congruence : Machine.Congruence (Mute (σ := σ) (τ := τ) (υ := υ)) where
  pure _ _ _ := rfl
  throw _ _ _ := rfl
  bind {α β a a' f f'} ha hf s t := by
    rw [bind_run, bind_run, ha s t]
    cases a s with
    | ok x u => exact hf x u t
    | error e u => rfl
  pop := pop
  push _ _ _ := rfl

theorem bind {a : Action σ τ α} {a' : Action σ υ α} {f : α → Action σ τ β} {f' : α → Action σ υ β}
    (ha : Mute α a a') (hf : ∀ x, Mute β (f x) (f' x)) : Mute β (a >>= f) (a' >>= f') :=
  congruence.bind ha hf

theorem check (cause : ε → RuntimeError) (x : Except ε α) :
    Mute α (Action.check cause x : Action σ τ α) (Action.check cause x : Action σ υ α) :=
  congruence.check cause x

theorem setMemory (memory : Memory) :
    Mute Unit (Action.setMemory memory : Action σ τ Unit)
      (Action.setMemory memory : Action σ υ Unit) :=
  fun _ _ => rfl

theorem changePool (change : Pool → Pool.Result α) :
    Mute α (Action.changePool change : Action σ τ α) (Action.changePool change : Action σ υ α) := by
  intro s t
  simp only [changePool_run, State.withTrace]
  cases change s.pool <;> rfl

theorem allocate (size : Nat) :
    Mute UInt64 (Action.allocate size : Action σ τ UInt64)
      (Action.allocate size : Action σ υ UInt64) :=
  get fun _ _ => (check _ _).bind fun _ => (setMemory _).bind fun _ _ _ => rfl

theorem release (address : UInt64) :
    Mute Unit (Action.release address : Action σ τ Unit)
      (Action.release address : Action σ υ Unit) :=
  get fun _ _ => (check _ _).bind fun _ => setMemory _

theorem load (address : UInt64) (s : Shape) :
    Mute Value (Action.load address s : Action σ τ Value)
      (Action.load address s : Action σ υ Value) :=
  get fun _ _ => check _ _

theorem store (address : UInt64) (s : Shape) (v : Value) :
    Mute Unit (Action.store address s v : Action σ τ Unit)
      (Action.store address s v : Action σ υ Unit) :=
  get fun _ _ => (check _ _).bind fun _ => setMemory _

end Mute
end Action

namespace Machine

open ForeignVM.Action

variable {σ τ υ : Type} (m : Machine σ)

theorem mute_localSlot (ip : UInt32) (i : UInt16) :
    Mute (UInt64 × Slot) (m.localSlot ip i : Action σ τ (UInt64 × Slot))
      (m.localSlot ip i : Action σ υ (UInt64 × Slot)) := by
  refine .get fun s t => ?_
  have h := Mute.congruence (σ := σ) (τ := τ) (υ := υ)
  dsimp only [State.withTrace]
  split
  · exact h.throw _
  · refine h.bind (h.callee (.refl m) _) fun c => ?_
    split
    · exact h.throw _
    · exact h.bind (h.check _ _) fun _ => h.pure _

/-- Instructions that stay within the frame are mute. -/
theorem mute_perform {i : Instr} (hi : i.isInner) (ip : UInt32) :
    Mute Unit (m.perform .silent ip i : Action σ τ Unit)
      (m.perform .silent ip i : Action σ υ Unit) :=
  Mute.congruence.inner (.refl m) .silent .silent hi ip (m.mute_localSlot ip) .load .store
    fun _ _ _ _ => rfl

theorem mute_storeArgs (locals : UInt64) (slots : List Slot) (args : List Value) :
    Mute Unit (storeArgs locals slots args : Action σ τ Unit)
      (storeArgs locals slots args : Action σ υ Unit) := by
  have h := Mute.congruence (σ := σ) (τ := τ) (υ := υ)
  induction slots generalizing args with
  | nil => exact h.pure ()
  | cons slot slots ih =>
    cases args with
    | nil => exact h.pure ()
    | cons arg args =>
      refine .bind (.check _ _) fun address => ?_
      refine .get fun s t => .bind (.check _ _) fun _ => ?_
      cases slot.shape.encode arg with
      | ok bytes =>
        exact .get fun s t => .bind (.check _ _) fun _ => .bind (.setMemory _) fun _ => ih args
      | error e => exact .bind (.release _) fun _ => h.throw e

theorem mute_enter (id : RoutineId) (args : List Value) (kind : FrameKind) :
    Mute Unit (m.enter .silent id args kind : Action σ τ Unit)
      (m.enter .silent id args kind : Action σ υ Unit) := by
  have h := Mute.congruence (σ := σ) (τ := τ) (υ := υ)
  refine .bind (h.callee (.refl m) id) fun c => .get fun s t => ?_
  dsimp only [State.withTrace]
  split
  · exact h.throw _
  · split
    · exact h.throw _
    · refine .bind (.bind (.allocate _) fun _ => .bind (mute_storeArgs _ _ _) fun _ => h.pure _) ?_
      exact fun _ => .bind (.modify fun _ _ => rfl) fun _ => h.pure ()

theorem mute_result (ip : UInt32) (ret : Option TypeId) :
    Mute Value (m.result ip ret : Action σ τ Value) (m.result ip ret : Action σ υ Value) := by
  have h := Mute.congruence (σ := σ) (τ := τ) (υ := υ)
  cases ret with
  | none => exact h.pure _
  | some ty => exact .bind (.pop ip) fun _ => .bind (h.shape (.refl m) ty) fun _ => h.ofResult _

theorem mute_retire (ip : UInt32) :
    Mute (Frame × Value) (m.retire ip : Action σ τ (Frame × Value))
      (m.retire ip : Action σ υ (Frame × Value)) := by
  have h := Mute.congruence (σ := σ) (τ := τ) (υ := υ)
  refine .get fun s t => ?_
  dsimp only [State.withTrace]
  split
  · exact h.throw _
  · refine .bind (h.callee (.refl m) _) fun c => .bind (m.mute_result ip _) fun v => ?_
    exact .bind (.modify fun _ _ => rfl) fun _ => .bind (.release _) fun _ => h.pure _

theorem mute_storeConstant (offset : UInt32) (v : Value) :
    Mute Value (m.storeConstant .silent offset v : Action σ τ Value)
      (m.storeConstant .silent offset v : Action σ υ Value) := by
  have h := Mute.congruence (σ := σ) (τ := τ) (υ := υ)
  refine .get fun s t => .bind (.check _ _) fun entry => ?_
  refine .bind (h.shape (.refl m) _) fun shape => .bind (.check _ _) fun bytes => ?_
  exact .bind (.changePool _) fun _ => h.pure _

theorem mute_deliver (v : Value) (kind : FrameKind) :
    Mute Unit (m.deliver .silent v kind : Action σ τ Unit)
      (m.deliver .silent v kind : Action σ υ Unit) := by
  have h := Mute.congruence (σ := σ) (τ := τ) (υ := υ)
  cases kind with
  | host => exact h.pure ()
  | call =>
    unfold deliver
    dsimp only
    split
    · exact h.pure ()
    · exact h.push v
  | procCall ret =>
    cases ret with
    | none => exact h.pure ()
    | some ty => exact .bind (h.shape (.refl m) ty) fun _ => .bind (h.ofResult _) h.push
  | constant offset => exact .bind (m.mute_storeConstant offset v) h.push

theorem mute_callNative (id : NativeId) (args : List Value) (context : UInt64) :
    Mute Value (m.callNative .silent id args context : Action σ τ Value)
      (m.callNative .silent id args context : Action σ υ Value) := by
  unfold callNative
  cases m.native? id with
  | none => exact fun _ _ => rfl
  | some entry =>
    obtain ⟨name, native⟩ := entry
    intro s t
    simp only [bind_run, emit_run, get_run, set_run, State.withTrace]
    cases (native ⟨name, args, context, m.layouts⟩ s.memory s.host).1 <;> rfl

end Machine
end ForeignVM
