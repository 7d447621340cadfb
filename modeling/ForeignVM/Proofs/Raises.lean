import ForeignVM.Proofs.Within

/-!
# ForeignVM.Proofs.Raises

The errors that an action may end with. A condition on them is closed under `>>=`; what taking and
giving operands, loading, storing and converting values can fail with is listed once, so a condition
that admits these errors holds of all such actions. For the steps of a call it takes what a lookup
may fail with besides.

* `RuntimeError.IsRefusal` — a value does not fit its place.
* `Action.Raises`          — every error of an action on a state meets a condition.
* `Admits`                 — the condition admits the errors of operands, memory and conversions.
* `Raises.enter`, `localSlot`, `result` — entering a routine, finding a local, giving a result.
-/

namespace ForeignVM

/-- The error of a value that does not fit its place. The last is the panic of an aggregate that has
another layout than its type. -/
def RuntimeError.IsRefusal : RuntimeError → Prop
  | .typeMismatch _ _ | .closureContext | .abort (.lengthMismatch _ _) => True
  | _ => False

namespace Shape

variable {s : Shape} {v : Value} {e : RuntimeError}

theorem refusal_of_encode (h : s.encode v = .error e) : e.IsRefusal := by
  unfold encode at h
  split at h
  · split at h
    · cases h
    · cases h
      exact trivial
  · cases h
  · split at h
    · cases h
    · cases h
      exact trivial
  · cases h
  · split at h
    · cases h
      exact trivial
    · split at h
      · cases h
      · cases h
        exact trivial
  · cases h
    exact trivial

theorem refusal_of_coerce (h : s.coerce v = .error e) : e.IsRefusal := by
  unfold coerce at h
  split at h
  · cases h
  · next hencode =>
    cases h
    exact refusal_of_encode hencode

end Shape

theorem Machine.refusal_of_coerceArgs {shapes : List Shape} {args : List Value} {e : RuntimeError}
    (h : coerceArgs shapes args = .error e) : e.IsRefusal := by
  induction shapes generalizing args with
  | nil => cases h
  | cons s shapes ih =>
    cases args with
    | nil => cases h
    | cons arg args =>
      rw [coerceArgs] at h
      cases harg : s.coerce arg with
      | error e' =>
        rw [harg] at h
        cases h
        exact Shape.refusal_of_coerce harg
      | ok v =>
        rw [harg] at h
        cases hrest : coerceArgs shapes args with
        | error e' =>
          rw [hrest] at h
          cases h
          exact ih hrest
        | ok rest =>
          rw [hrest] at h
          cases h

/-- The condition admits the errors of operands, of memory and of values that are converted. -/
structure Admits (Q : RuntimeError → Prop) : Prop where
  operands : ∀ ip, Q (.stackUnderflow ip)
  memory : ∀ cause, Q (.memory cause)
  refusal : ∀ e, e.IsRefusal → Q e

namespace Admits

variable {Q : RuntimeError → Prop} (h : Admits Q) {e : RuntimeError}
include h

theorem mismatch (expected : String) (v : Value) : Q (v.mismatch expected) := h.refusal _ trivial

theorem load {m : Memory} {a : UInt64} {s : Shape} (he : m.load a s = .error e) : Q e := by
  unfold Memory.load at he
  split at he
  · cases he
    exact h.memory _
  · cases he

theorem store {m : Memory} {a : UInt64} {s : Shape} {v : Value} (he : m.store a s v = .error e) :
    Q e := by
  unfold Memory.store at he
  split at he
  · cases he
    exact h.memory _
  · split at he
    · next hencode =>
      cases he
      exact h.refusal _ (Shape.refusal_of_encode hencode)
    · split at he
      · cases he
        exact h.memory _
      · cases he

end Admits

namespace Action

variable {σ τ α β ε : Type}

/-- If the action fails on the state, its error meets the condition. -/
def Raises (Q : RuntimeError → Prop) (a : Action σ τ α) (s : State σ τ) : Prop :=
  ∀ e t, a s = .error e t → Q e

namespace Raises

variable {Q : RuntimeError → Prop} {s : State σ τ}

theorem throw {e : RuntimeError} (h : Q e) :
    Raises Q (MonadExcept.throw e : Action σ τ α) s := by
  intro e' t he'
  cases he'
  exact h

theorem ok {a : Action σ τ α} (h : ∃ x t, a s = .ok x t) : Raises Q a s := by
  obtain ⟨x, t, h⟩ := h
  intro e t' he
  cases h.symm.trans he

theorem pure (a : α) : Raises Q (Pure.pure a : Action σ τ α) s := .ok ⟨a, s, rfl⟩

theorem bind {a : Action σ τ α} {f : α → Action σ τ β} (ha : Raises Q a s)
    (hf : ∀ x t, a s = .ok x t → Raises Q (f x) t) : Raises Q (a >>= f) s := by
  intro e t h
  rw [bind_run] at h
  cases hr : a s with
  | error e' t' =>
    rw [hr] at h
    cases h
    exact ha e t hr
  | ok x t' =>
    rw [hr] at h
    exact hf x t' hr e t h

theorem get {f : State σ τ → Action σ τ α} (h : Raises Q (f s) s) :
    Raises Q (MonadState.get >>= f) s := by
  refine .bind (.ok ⟨s, s, rfl⟩) fun x t hget => ?_
  cases hget
  exact h

/-- A computation that does not touch the state, and what follows if it succeeds. -/
theorem check {cause : ε → RuntimeError} {x : Except ε α} {f : α → Action σ τ β}
    (hx : ∀ e, x = .error e → Q (cause e)) (hf : ∀ a, x = .ok a → Raises Q (f a) s) :
    Raises Q (Action.check cause x >>= f) s := by
  cases x with
  | error e => exact .bind (.throw (hx e rfl)) nofun
  | ok a => exact hf a rfl

/-- What is looked up is there. -/
theorem found {cause : ε → RuntimeError} {x : Except ε α} {f : α → Action σ τ β}
    (hx : ∃ a, x = .ok a) (hf : ∀ a, x = .ok a → Raises Q (f a) s) :
    Raises Q (Action.check cause x >>= f) s := by
  obtain ⟨a, ha⟩ := hx
  exact .check (fun e he => by cases ha.symm.trans he) hf

theorem ofResult {x : Except RuntimeError α} (h : ∀ e, x = .error e → Q e) :
    Raises Q (Action.ofResult x : Action σ τ α) s := by
  cases x with
  | error e => exact .throw (h e rfl)
  | ok a => exact .pure a

theorem changePool {change : Pool → Pool.Result α}
    (h : ∀ cause p, change s.pool = .error cause p → Q (.pool cause)) :
    Raises Q (Action.changePool change : Action σ τ α) s := by
  intro e t he
  rw [changePool_run] at he
  split at he
  · cases he
  · next cause p hrefused =>
    cases he
    exact h cause p hrefused

theorem push (v : Value) : Raises Q (Action.push v : Action σ τ Unit) s := .ok ⟨_, _, rfl⟩

theorem jump (ip : UInt32) : Raises Q (Action.jump ip : Action σ τ Unit) s := .ok ⟨_, _, rfl⟩

variable (m : Machine σ)

theorem callee {id : RoutineId} {f : Callee → Action σ τ α}
    (hnone : m.callee? id = none → Q (.unknownRoutine id))
    (hf : ∀ c, m.callee? id = some c → Raises Q (f c) s) : Raises Q (m.callee id >>= f) s := by
  unfold Machine.callee
  cases hc : m.callee? id with
  | none => exact .bind (.throw (hnone hc)) nofun
  | some c => exact hf c hc

theorem shape {ty : TypeId} {f : Shape → Action σ τ α}
    (hnone : ∀ e, m.layouts.shape ty = .error e → Q (.type e))
    (hf : ∀ sh, m.layouts.shape ty = .ok sh → Raises Q (f sh) s) :
    Raises Q (m.shape ty >>= f) s :=
  .check hnone hf

variable (hQ : Admits Q)
include hQ

theorem memory {x : Except MemoryError α} {f : α → Action σ τ β}
    (hf : ∀ a, x = .ok a → Raises Q (f a) s) : Raises Q (Action.check .memory x >>= f) s :=
  .check (fun _ _ => hQ.memory _) hf

theorem pop (ip : UInt32) : Raises Q (Action.pop ip : Action σ τ Value) s := by
  obtain ⟨_, h⟩ | ⟨_, v, _, h⟩ := pop_cases ip s
  · intro e t he
    cases h.symm.trans he
    exact hQ.operands ip
  · exact .ok ⟨_, _, h⟩

theorem popPointer (ip : UInt32) : Raises Q (Action.popPointer ip : Action σ τ Pointer) s := by
  refine .bind (.pop hQ ip) fun v t _ => ?_
  split
  · exact .pure _
  · exact .throw (hQ.mismatch _ _)

theorem popProc (ip : UInt32) : Raises Q (Action.popProc ip : Action σ τ ProcRef) s := by
  refine .bind (.pop hQ ip) fun v t _ => ?_
  split
  · exact .pure _
  · exact .throw (hQ.mismatch _ _)

theorem popBool (ip : UInt32) : Raises Q (Action.popBool ip : Action σ τ Bool) s := by
  refine .bind (.pop hQ ip) fun v t _ => ?_
  split
  · exact .pure _
  · exact .throw (hQ.mismatch _ _)

theorem popMany (ip : UInt32) (n : Nat) :
    Raises Q (Action.popMany ip n : Action σ τ (List Value)) s := by
  obtain ⟨_, h⟩ | ⟨_, h⟩ := popMany_cases ip n s
  · intro e t he
    cases h.symm.trans he
    exact hQ.operands ip
  · exact .ok ⟨_, _, h⟩

theorem load (address : UInt64) (sh : Shape) :
    Raises Q (Action.load address sh : Action σ τ Value) s :=
  .get (.ofResult fun _ => hQ.load)

theorem store (address : UInt64) (sh : Shape) (v : Value) :
    Raises Q (Action.store address sh v : Action σ τ Unit) s :=
  .get (.bind (.ofResult fun _ => hQ.store) fun _ _ _ => .ok ⟨_, _, rfl⟩)

theorem release (address : UInt64) : Raises Q (Action.release address : Action σ τ Unit) s :=
  .get (.memory hQ fun _ _ => .ok ⟨_, _, rfl⟩)

theorem coerce (sh : Shape) (v : Value) :
    Raises Q (Action.ofResult (sh.coerce v) : Action σ τ Value) s :=
  .ofResult fun e he => hQ.refusal e (Shape.refusal_of_coerce he)

theorem storeArgs (locals : UInt64) (slots : List Slot) (args : List Value) :
    Raises Q (Machine.storeArgs locals slots args : Action σ τ Unit) s := by
  induction slots generalizing args s with
  | nil => exact .pure ()
  | cons slot slots ih =>
    cases args with
    | nil => exact .pure ()
    | cons arg args =>
      refine .memory hQ fun address _ => .get (.memory hQ fun _ _ => ?_)
      cases hencode : slot.shape.encode arg with
      | ok bytes =>
        exact .get (.memory hQ fun _ _ => .bind (.ok ⟨_, _, rfl⟩) fun _ _ _ => ih args)
      | error e =>
        refine .bind (.release hQ locals) fun _ _ _ => .throw ?_
        exact hQ.refusal e (Shape.refusal_of_encode hencode)

theorem newLocals (frame : FrameLayout) (args : List Value) :
    Raises Q (Machine.newLocals frame args : Action σ τ UInt64) s := by
  refine .bind (.get (.memory hQ fun r _ => .ok ⟨_, _, rfl⟩)) fun locals t _ => ?_
  exact .bind (.storeArgs hQ _ _ _) fun _ _ _ => .pure _

theorem enter (watch : Observer τ) {id : RoutineId}
    (hnone : m.callee? id = none → Q (.unknownRoutine id))
    (hdeep : Q (.recursionLimit m.limits.recursion))
    (harity : ∀ name expected got, Q (.arityMismatch name expected got)) (args : List Value)
    (kind : FrameKind) : Raises Q (m.enter watch id args kind) s := by
  refine .callee m hnone fun c _ => .get ?_
  split
  · exact .bind (.throw hdeep) nofun
  · dsimp only
    split
    · exact .bind (.throw (harity _ _ _)) nofun
    · exact .bind (.newLocals hQ _ _) fun _ _ _ => .ok ⟨_, _, rfl⟩

theorem localSlot
    (hnone : ∀ f, s.calls.current? = some f → m.callee? f.routine = none →
      Q (.unknownRoutine f.routine))
    (hlocal : ∀ name slot, Q (.unknownLocal name slot)) (ip : UInt32) (i : UInt16) :
    Raises Q (m.localSlot ip i : Action σ τ (UInt64 × Slot)) s := by
  refine .get ?_
  cases hf : s.calls.current? with
  | none => exact .throw (hQ.operands ip)
  | some f =>
    refine .callee m (hnone f hf) fun c _ => ?_
    split
    · exact .throw (hlocal _ _)
    · exact .memory hQ fun _ _ => .pure _

theorem result (ip : UInt32) {ret : Option TypeId}
    (hnone : ∀ ty ∈ ret, ∀ e, m.layouts.shape ty = .error e → Q (.type e)) :
    Raises Q (m.result ip ret : Action σ τ Value) s := by
  cases ret with
  | none => exact .pure _
  | some ty =>
    exact .bind (.pop hQ ip) fun v _ _ => .shape m (hnone ty rfl) fun sh _ => .coerce hQ sh v

end Raises
end Action
end ForeignVM
