import ForeignVM.Proofs.Path

/-!
# ForeignVM.Proofs.Watching

What an observer is told. The trace changes by events alone, and the fetch of an instruction is
told by the cycle that executes it, never by the instruction itself.

* `Event.isInstr`  — the event that goes with a fetched instruction.
* `Watched`        — the trace changes by events of one kind.
* `watched_step`   — an instruction is executed without a further fetch.
-/

namespace ForeignVM

/-- The event that goes with a fetched instruction. -/
def Event.isInstr : Event → Bool
  | .instr _ => true
  | _ => false

/-- The trace of `t` is that of `s` after some events, all of one kind. -/
def Watched {σ τ : Type} (watch : Observer τ) (kind : Event → Prop) (s t : State σ τ) : Prop :=
  ∃ es : List Event, t.trace = es.foldl (fun trace e => watch e trace) s.trace ∧ ∀ e ∈ es, kind e

namespace Watched

variable {σ τ : Type} {watch : Observer τ} {kind kind' : Event → Prop} {s t u : State σ τ}

theorem of_eq (h : t.trace = s.trace) : Watched watch kind s t := ⟨[], h, nofun⟩

theorem single {e : Event} (h : t.trace = watch e s.trace) (he : kind e) :
    Watched watch kind s t :=
  ⟨[e], h, fun _ hmem => List.mem_singleton.mp hmem ▸ he⟩

theorem trans (h : Watched watch kind s t) (h' : Watched watch kind t u) :
    Watched watch kind s u := by
  obtain ⟨es, ht, hes⟩ := h
  obtain ⟨es', hu, hes'⟩ := h'
  refine ⟨es ++ es', ?_, fun e he => (List.mem_append.mp he).elim (hes e) (hes' e)⟩
  rw [List.foldl_append, ← ht, hu]

theorem mono (h : Watched watch kind s t) (himp : ∀ e, kind e → kind' e) :
    Watched watch kind' s t := by
  obtain ⟨es, ht, hes⟩ := h
  exact ⟨es, ht, fun e he => himp e (hes e he)⟩

end Watched

namespace Machine

open ForeignVM.Action

variable {σ τ : Type} (m : Machine σ) (watch : Observer τ)

/-- No instruction is fetched from `s` to `t`. -/
abbrev Quiet (s t : State σ τ) : Prop := Watched watch (fun e => e.isInstr = false) s t

theorem quiet_enter (id : RoutineId) (args : List Value) (kind : FrameKind) (s : State σ τ) :
    Quiet watch s (finalState (m.enter watch id args kind s)) := by
  have h := m.entering_enter watch id args kind s
  generalize m.enter watch id args kind s = r at h
  cases h with
  | begun _ _ _ => exact .single rfl rfl
  | refused => exact .of_eq rfl
  | rejected _ _ => exact .of_eq rfl
  | noPlace _ _ => exact .of_eq rfl

theorem quiet_deliver {kind : FrameKind} {v : Value} {s t : State σ τ}
    (h : Delivering m watch v s kind t) : Quiet watch s t := by
  cases h with
  | constant _ _ _ _ => exact .single rfl rfl
  | _ => exact .of_eq rfl

theorem quiet_leaving {f : Frame} {s : State σ τ}
    {r : EStateM.Result RuntimeError (State σ τ) (Option Value)} (h : Leaving m watch f s r) :
    Quiet watch s (finalState r) := by
  cases h with
  | failed h => exact .of_eq h.trace
  | dangling _ => exact .of_eq rfl
  | finished _ _ _ _ => exact .single rfl rfl
  | undelivered _ _ => exact .single rfl rfl
  | @delivered _ v memory _ _ _ _ h =>
    have hleft : Quiet watch s (left watch s f v memory) := .single rfl rfl
    have hdelivered := m.quiet_deliver watch h
    exact hleft.trans hdelivered

theorem quiet_step (l : Located) (s : State σ τ) :
    Quiet watch s (finalState (m.step watch l s)) := by
  have h := m.effect_step watch l s
  generalize m.step watch l s = r at h
  generalize l.instr = i at h
  cases h with
  | inner _ h => exact .of_eq h.trace
  | failed h => exact .of_eq h.trace
  | @allocated _ _ size a _ _ _ => exact .single rfl rfl
  | @read offset _ => exact .single rfl rfl
  | @initializing offset id _ =>
    rw [finalState_unfinished]
    have hinit : Quiet watch s { s with trace := watch (.constInit offset) s.trace } :=
      .single rfl rfl
    exact hinit.trans (m.quiet_enter watch _ _ _ _)
  | @calling _ id args kind n _ _ _ _ =>
    rw [finalState_unfinished]
    exact m.quiet_enter watch id args kind { s with operands := s.operands.drop n }
  | @native _ _ _ _ id t _ _ _ _ _ _ hrun hr =>
    have ht : Quiet watch s t := .single hrun.trace rfl
    obtain ⟨e, rfl⟩ | rfl | ⟨v, rfl⟩ := hr <;> exact ht
  | leaving _ h => exact m.quiet_leaving watch h

end Machine
end ForeignVM
