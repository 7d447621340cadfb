import ForeignVM.Machine.State
import Mathlib.Order.Defs.Unbundled

/-!
# ForeignVM.Proofs.Action

How actions are opened. An action applied to a state has a result, and every result leaves a
state behind, also that of a failure.

* `finalState`    — the state that a result leaves behind.
* `bind_run`      — one action after another, applied to a state; `bind_eq_ok` if they succeed.
* `Keeps`         — an action leads from each state to one that a relation allows; closed under
  `>>=` for relations that are reflexive and transitive.
-/

namespace ForeignVM
namespace Action

variable {σ τ α β ε : Type}

/-- The state that a result leaves behind, of a success as of a failure. -/
def finalState : EStateM.Result RuntimeError (State σ τ) α → State σ τ
  | .ok _ s => s
  | .error _ s => s

@[simp] theorem finalState_ok (a : α) (s : State σ τ) :
    finalState (.ok a s : EStateM.Result RuntimeError (State σ τ) α) = s := rfl

@[simp] theorem finalState_error (e : RuntimeError) (s : State σ τ) :
    finalState (.error e s : EStateM.Result RuntimeError (State σ τ) α) = s := rfl

/-! ## Elementary actions applied to a state -/

theorem pure_run (a : α) (s : State σ τ) : (pure a : Action σ τ α) s = .ok a s := rfl

theorem throw_run (e : RuntimeError) (s : State σ τ) :
    (throw e : Action σ τ α) s = .error e s := rfl

theorem get_run (s : State σ τ) : (get : Action σ τ (State σ τ)) s = .ok s s := rfl

theorem set_run (t s : State σ τ) : (set t : Action σ τ Unit) s = .ok () t := rfl

theorem modify_run (f : State σ τ → State σ τ) (s : State σ τ) :
    (modify f : Action σ τ Unit) s = .ok () (f s) := rfl

theorem bind_run (a : Action σ τ α) (f : α → Action σ τ β) (s : State σ τ) :
    (a >>= f) s =
      match a s with
      | .ok x t => f x t
      | .error e t => .error e t := by
  change EStateM.bind a f s = _
  unfold EStateM.bind
  cases a s <;> rfl

theorem bind_ok {a : Action σ τ α} {f : α → Action σ τ β} {s t : State σ τ} {x : α}
    (h : a s = .ok x t) : (a >>= f) s = f x t := by
  rw [bind_run, h]

theorem bind_error {a : Action σ τ α} {f : α → Action σ τ β} {s t : State σ τ}
    {e : RuntimeError} (h : a s = .error e t) : (a >>= f) s = .error e t := by
  rw [bind_run, h]

/-- Actions one after the other succeed one after the other. -/
theorem bind_eq_ok {a : Action σ τ α} {f : α → Action σ τ β} {s t : State σ τ} {y : β}
    (h : (a >>= f) s = .ok y t) : ∃ x u, a s = .ok x u ∧ f x u = .ok y t := by
  rw [bind_run] at h
  cases hr : a s with
  | error e u =>
    rw [hr] at h
    cases h
  | ok x u =>
    rw [hr] at h
    exact ⟨x, u, rfl, h⟩

theorem check_eq_ok {cause : ε → RuntimeError} {x : Except ε α} {s t : State σ τ} {a : α}
    (h : check cause x s = .ok a t) : x = .ok a ∧ s = t := by
  cases x with
  | error e => cases h
  | ok b =>
    cases h
    exact ⟨rfl, rfl⟩

@[simp] theorem check_ok (cause : ε → RuntimeError) (a : α) :
    (check cause (.ok a) : Action σ τ α) = pure a := rfl

@[simp] theorem ofResult_ok (a : α) : (ofResult (.ok a) : Action σ τ α) = pure a := rfl

@[simp] theorem ofResult_error (e : RuntimeError) :
    (ofResult (.error e) : Action σ τ α) = throw e := rfl

theorem emit_run (watch : Observer τ) (e : Event) (s : State σ τ) :
    (emit watch e : Action σ τ Unit) s = .ok () { s with trace := watch e s.trace } := rfl

theorem setMemory_run (memory : Memory) (s : State σ τ) :
    (setMemory memory : Action σ τ Unit) s = .ok () { s with memory := memory } := rfl

theorem changePool_run (change : Pool → Pool.Result α) (s : State σ τ) :
    (changePool change : Action σ τ α) s =
      match change s.pool with
      | .ok a pool => .ok a { s with pool := pool }
      | .error cause pool => .error (.pool cause) { s with pool := pool } := rfl

theorem allocate_run (size : Nat) (s : State σ τ) :
    (allocate size : Action σ τ UInt64) s =
      match s.memory.alloc size with
      | .ok (address, memory) => .ok address { s with memory := memory }
      | .error e => .error (.memory e) s := by
  simp only [allocate, bind_run, get_run]
  cases s.memory.alloc size <;> rfl

theorem load_run (address : UInt64) (shape : Shape) (s : State σ τ) :
    (load address shape : Action σ τ Value) s =
      match s.memory.load address shape with
      | .ok v => .ok v s
      | .error e => .error e s := by
  simp only [load, bind_run, get_run]
  cases s.memory.load address shape <;> rfl

theorem store_run (address : UInt64) (shape : Shape) (v : Value) (s : State σ τ) :
    (store address shape v : Action σ τ Unit) s =
      match s.memory.store address shape v with
      | .ok memory => .ok () { s with memory := memory }
      | .error e => .error e s := by
  simp only [store, bind_run, get_run]
  cases s.memory.store address shape v <;> rfl

theorem release_run (address : UInt64) (s : State σ τ) :
    (release address : Action σ τ Unit) s =
      match s.memory.free address with
      | .ok memory => .ok () { s with memory := memory }
      | .error e => .error (.memory e) s := by
  simp only [release, bind_run, get_run]
  cases s.memory.free address <;> rfl

/-! ## Relations that an action keeps to -/

/-- From every state the action leads to one that the relation allows. -/
def Keeps (R : State σ τ → State σ τ → Prop) (a : Action σ τ α) : Prop :=
  ∀ s, R s (finalState (a s))

namespace Keeps

variable {R : State σ τ → State σ τ → Prop} [IsPreorder (State σ τ) R]

theorem pure (a : α) : Keeps R (Pure.pure a : Action σ τ α) := fun s => refl s

theorem throw (e : RuntimeError) : Keeps R (MonadExcept.throw e : Action σ τ α) := fun s => refl s

theorem get : Keeps R (MonadState.get : Action σ τ (State σ τ)) := fun s => refl s

theorem bind {a : Action σ τ α} {f : α → Action σ τ β} (ha : Keeps R a)
    (hf : ∀ x, Keeps R (f x)) : Keeps R (a >>= f) := by
  intro s
  have h := ha s
  rw [bind_run]
  cases hr : a s with
  | ok x t =>
    rw [hr] at h
    exact trans_of R h (hf x t)
  | error e t =>
    rw [hr] at h
    exact h

theorem check (cause : ε → RuntimeError) (x : Except ε α) :
    Keeps R (Action.check cause x : Action σ τ α) := by
  cases x with
  | ok a => exact pure a
  | error e => exact throw (cause e)

theorem ofResult (x : Except RuntimeError α) : Keeps R (Action.ofResult x : Action σ τ α) :=
  check _ x

end Keeps

end Action
end ForeignVM
