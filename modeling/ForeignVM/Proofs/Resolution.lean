import ForeignVM.Command.Outcome
import ForeignVM.Proofs.Entries
import ForeignVM.Proofs.Flow
import ForeignVM.Proofs.Indirect
import ForeignVM.Proofs.Positions

/-!
# ForeignVM.Proofs.Resolution

Routines that are asked for by name. A name stands for the first routine that has it, but the id
that is given for the name keeps sixteen bits of the position of that routine.

* `Machine.Accepted`   — what a call by the host takes to enter a routine.
* `Machine.Performs`   — calls of an id enter a routine; `performs_of_routine?`: in a machine of a
  valid program they enter the routine that has the id.
* `Program.named_iff`  — a name is resolved if a routine has it, and the routine that is called then
  has this name just if sixteen bits hold the position of the first one.
-/

namespace ForeignVM
namespace Machine

open ForeignVM.Action

section

variable {σ τ : Type}

/-- There is a frame and a block for the call, and the arguments can be converted. -/
structure Accepted (m : Machine σ) (c : Callee) (args : List Value) (s : State σ τ) : Prop where
  depth : s.calls.depth < m.limits.recursion.toNat
  arity : args.length = c.routine.params.toNat
  size : c.frame.size < Address.half
  room : s.memory.next < Address.half
  /-- Nothing else comes up in a frame that takes less than 2⁶⁴ bytes. -/
  placed : ∀ slot ∈ c.frame.slots.toList.take args.length, slot.Inside c.frame.size
  converted : ∃ args', c.convert args = .ok args'

/-- Calls of the id by the host enter the routine if they are accepted, and only then. The run goes
on from the entry of the routine, where an instruction starts. -/
structure Performs (m : Machine σ) (id : RoutineId) (r : Routine) : Prop where
  enters : ∃ frame, m.callee? id = some ⟨r, frame⟩ ∧
    FrameLayout.ofLocals m.layouts r.locals = .ok frame ∧
    ∀ {τ : Type} (watch : Observer τ) (args : List Value) (s : State σ τ),
      (∃ t, m.start watch id args s = .ok () t) ↔ m.Accepted ⟨r, frame⟩ args s
  begins : ∀ {τ : Type} (watch : Observer τ) (args : List Value) (s t : State σ τ),
    m.start watch id args s = .ok () t →
      t.ip = r.entry ∧ (∃ l, decodeAt m.program.code t.ip = .ok l) ∧
        m.execute watch id args s = settle (m.run watch m.limits.fuel.toNat t)

variable {m : Machine σ} {p : Program} (hm : m.BuiltFor p) {id : RoutineId}
include hm

theorem BuiltFor.exists_callee {r : Routine} (hr : p.routine? id = some r) :
    ∃ frame, m.callee? id = some ⟨r, frame⟩ ∧
      FrameLayout.ofLocals m.layouts r.locals = .ok frame := by
  rw [Program.routine?, ← Array.getElem?_toList] at hr
  obtain ⟨c, hc, hcallee⟩ := getElem?_of_mapM hm.parts.2.1 hr
  rw [Array.getElem?_toList] at hc
  unfold calleeOf at hcallee
  split at hcallee
  · next frame hframe =>
    cases hcallee
    exact ⟨frame, hc, hframe⟩
  · cases hcallee

theorem start_ok_iff {c : Callee} (hc : m.callee? id = some c) (watch : Observer τ)
    (args : List Value) (s : State σ τ) :
    (∃ t, m.start watch id args s = .ok () t) ↔ m.Accepted c args s := by
  have hword := FrameLayout.offset_lt_of_ofLocals (hm.callee hc).2
  have hstored {memory : Memory}
      (halloc : s.memory.alloc c.frame.size = .ok (Address.ofBlock s.memory.next, memory)) :=
    storeArgs_ok_iff (σ := σ) (τ := τ) rfl (Memory.alloc_ok halloc).2.room
      (Memory.alloc_block halloc).1 hword args
      (s := { s with operands := .empty, memory := memory })
      (by rw [(Memory.alloc_block halloc).2]; rfl)
  constructor
  · rintro ⟨t, ht⟩
    rw [start] at ht
    have hargs := arity_of_enter hc ht
    obtain ⟨e, herror⟩ | ⟨c', memory, hc', hdepth, halloc, henter⟩ :=
      m.enter_cases watch id args .host { s with operands := .empty }
    · cases ht.symm.trans herror
    cases hc.symm.trans hc'
    rw [henter] at ht
    split at ht
    · cases ht
    · next u hu =>
      obtain ⟨hplaced, hconverted⟩ := (hstored halloc).mp ⟨_, hu⟩
      exact ⟨hdepth, hargs, (Memory.alloc_block halloc).1, (Memory.alloc_ok halloc).2.room,
        hplaced, hconverted⟩
  · rintro ⟨hdepth, hargs, hsize, hroom, hplaced, hconverted⟩
    obtain ⟨⟨locals, memory⟩, halloc⟩ : ∃ r, s.memory.alloc c.frame.size = .ok r :=
      ⟨_, if_neg (by omega)⟩
    obtain ⟨rfl, -⟩ := Memory.alloc_ok halloc
    obtain ⟨t, ht⟩ := (hstored halloc).mpr ⟨hplaced, hconverted⟩
    rw [start, m.enter_eq watch (s := { s with operands := .empty }) hc hdepth hargs, halloc]
    dsimp only
    rw [ht]
    exact ⟨_, rfl⟩

/-- In a machine of a valid program, the routine that has an id is what is called under it. -/
theorem performs_of_routine? (hvalid : p.validate = .ok ()) {r : Routine}
    (hr : p.routine? id = some r) : m.Performs id r := by
  obtain ⟨frame, hc, hframe⟩ := hm.exists_callee hr
  refine ⟨⟨frame, hc, hframe, start_ok_iff hm hc⟩, ?_⟩
  intro τ watch args s t ht
  obtain ⟨c, memory, hc', -, rfl⟩ := m.start_cases watch ht
  cases hc.symm.trans hc'
  obtain ⟨l, -, hl⟩ := listed_of_starts (Program.starts_of_validate hvalid).1
    (starts_of_callee hvalid hm hc)
  exact ⟨rfl, ⟨l, hm.parts.1 ▸ hl⟩, m.execute_of_start watch ht⟩

end

end Machine

namespace Program

variable {p : Program} {name : String}

theorem name_beq_iff (name : String) (r : Routine) : (r.name == name) = true ↔ r.name = name :=
  beq_iff_eq

theorem resolve_of_first {i : Nat} {r : Routine}
    (h : First (fun r => r.name = name) p.routines i r) :
    p.resolve (some name) = .ok (.ofPosition i) := by
  have hfind := (findIdx?_eq_some_iff (name_beq_iff name)).mpr ⟨r, h⟩
  simp only [resolve, routineNamed?, hfind, Option.map_some]

theorem resolve_of_absent (h : ∀ r ∈ p.routines, r.name ≠ name) :
    p.resolve (some name) = .error (.unknownRoutine name) := by
  have hfind := (findIdx?_eq_none_iff (name_beq_iff name)).mpr h
  simp only [resolve, routineNamed?, hfind, Option.map_none]

theorem exists_first (h : ∃ r ∈ p.routines, r.name = name) :
    ∃ i r, First (fun r => r.name = name) p.routines i r := by
  cases hfind : p.routines.findIdx? (·.name == name) with
  | none =>
    obtain ⟨r, hr, hname⟩ := h
    exact absurd hname ((findIdx?_eq_none_iff (name_beq_iff name)).mp hfind r hr)
  | some i => exact ⟨i, (findIdx?_eq_some_iff (name_beq_iff name)).mp hfind⟩

/-- In a valid program, a name is resolved just if a routine has it. The id that is given for it is
the id of a routine, and calls of the id enter this routine. It is the first routine of the name if
sixteen bits hold the position of that; otherwise it has another name. -/
theorem named_iff (hvalid : p.validate = .ok ()) (name : String) :
    ((∃ id, p.resolve (some name) = .ok id) ↔ ∃ r ∈ p.routines, r.name = name) ∧
    (p.resolve (some name) = .error (.unknownRoutine name) ↔ ∀ r ∈ p.routines, r.name ≠ name) ∧
    ∀ i r, First (fun r => r.name = name) p.routines i r → ∃ id r',
      p.resolve (some name) = .ok id ∧ p.routine? id = some r' ∧
      (∀ {σ : Type} {m : Machine σ}, m.BuiltFor p → m.Performs id r') ∧
      (r' = r ↔ i < 2 ^ 16) ∧ (r'.name = name ↔ i < 2 ^ 16) := by
  refine ⟨⟨?_, ?_⟩, ⟨?_, resolve_of_absent⟩, ?_⟩
  · rintro ⟨id, hid⟩
    by_contra habsent
    cases hid.symm.trans (resolve_of_absent fun r hr hname => habsent ⟨r, hr, hname⟩)
  · intro h
    obtain ⟨i, r, hfirst⟩ := exists_first h
    exact ⟨_, resolve_of_first hfirst⟩
  · intro herror r hr hname
    obtain ⟨i, r', hfirst⟩ := exists_first ⟨r, hr, hname⟩
    cases herror.symm.trans (resolve_of_first hfirst)
  · intro i r hfirst
    have hposition := RoutineId.position_ofPosition i
    rcases Nat.lt_or_ge i (2 ^ 16) with hi | hi
    · have hr : p.routine? (.ofPosition i) = some r := by
        rw [routine?, hposition]
        exact hfirst.getElem?_mod_iff.mpr hi
      exact ⟨_, r, resolve_of_first hfirst, hr, fun hm => Machine.performs_of_routine? hm hvalid hr,
        iff_of_true rfl hi, iff_of_true hfirst.holds hi⟩
    · obtain ⟨r', hr', hname⟩ := hfirst.exists_other hi
      rw [← hposition] at hr'
      have hne : r' ≠ r := fun heq => hname (heq ▸ hfirst.holds)
      exact ⟨_, r', resolve_of_first hfirst, hr',
        fun hm => Machine.performs_of_routine? hm hvalid hr',
        iff_of_false hne (Nat.not_lt_of_ge hi), iff_of_false hname (Nat.not_lt_of_ge hi)⟩

/-- Two routines of one name behind another one. -/
def twins : Program where
  code := #[2, 1, 0, 0, 0, 0, 0, 0, 0, 22, 2, 2, 0, 0, 0, 0, 0, 0, 0, 22]
  sources := .empty
  types := ⟨#[.scalar .i64]⟩
  routines := #[⟨"one", 0, 0, [], some ⟨0⟩⟩, ⟨"two", 10, 0, [], some ⟨0⟩⟩, ⟨"two", 0, 0, [], none⟩]
  constants := []
  natives := #[]
  entry := none

/-- The first of the two is called. -/
theorem named_twins : twins.validate = .ok () ∧
    First (fun r => r.name = "two") twins.routines 1 ⟨"two", 10, 0, [], some ⟨0⟩⟩ ∧
    ∃ id, twins.resolve (some "two") = .ok id ∧
      twins.routine? id = some ⟨"two", 10, 0, [], some ⟨0⟩⟩ ∧
      ∀ {σ : Type} {m : Machine σ}, m.BuiltFor twins →
        m.Performs id ⟨"two", 10, 0, [], some ⟨0⟩⟩ := by
  have hvalid : twins.validate = .ok () := by decide +kernel
  have hfirst : First (fun r => r.name = "two") twins.routines 1 ⟨"two", 10, 0, [], some ⟨0⟩⟩ := by
    refine ⟨rfl, rfl, fun j hj y hy => ?_⟩
    obtain rfl : j = 0 := by omega
    cases hy
    decide
  obtain ⟨-, -, hnamed⟩ := named_iff hvalid "two"
  obtain ⟨id, r', hresolve, hr', hperforms, hsame, -⟩ := hnamed 1 _ hfirst
  obtain rfl := hsame.mpr (by decide)
  exact ⟨hvalid, hfirst, id, hresolve, hr', hperforms⟩

/-- A routine behind as many others as there are ids. -/
def crowded : Program :=
  { twins with
    routines := (Array.replicate (2 ^ 16) ⟨"other", 0, 0, [], some ⟨0⟩⟩).push
      ⟨"last", 10, 0, [], some ⟨0⟩⟩ }

theorem valid_crowded : crowded.Valid := by
  refine ⟨by decide, by decide, fun r hr => ?_, nofun, nofun⟩
  have hcases : r ∈ Array.replicate (2 ^ 16) ⟨"other", 0, 0, [], some ⟨0⟩⟩ ∨
      r = ⟨"last", 10, 0, [], some ⟨0⟩⟩ := Array.mem_push.mp (Array.mem_toList_iff.mp hr)
  rcases hcases with hr | rfl
  · obtain rfl := Array.eq_of_mem_replicate hr
    exact ⟨by decide, by decide, by decide⟩
  · exact ⟨by decide, by decide, by decide⟩

/-- For the last routine, the first one is called. -/
theorem crowded_misleads : crowded.validate = .ok () ∧
    crowded.routines[2 ^ 16]? = some ⟨"last", 10, 0, [], some ⟨0⟩⟩ ∧
    crowded.resolve (some "last") = .ok ⟨0⟩ ∧
    crowded.routine? ⟨0⟩ = some ⟨"other", 0, 0, [], some ⟨0⟩⟩ := by
  have hlast : crowded.routines[2 ^ 16]? = some ⟨"last", 10, 0, [], some ⟨0⟩⟩ := by
    rw [crowded, Array.getElem?_push, Array.size_replicate, if_pos rfl]
  have hothers (j : Nat) (hj : j < 2 ^ 16) :
      crowded.routines[j]? = some ⟨"other", 0, 0, [], some ⟨0⟩⟩ := by
    rw [crowded, Array.getElem?_push, Array.size_replicate, if_neg (Nat.ne_of_lt hj),
      Array.getElem?_replicate, if_pos hj]
  have hfirst : First (fun r => r.name = "last") crowded.routines (2 ^ 16)
      ⟨"last", 10, 0, [], some ⟨0⟩⟩ := by
    refine ⟨hlast, rfl, fun j hj y hy => ?_⟩
    cases (hothers j hj).symm.trans hy
    decide
  have hid : RoutineId.ofPosition (2 ^ 16) = ⟨0⟩ := by decide
  exact ⟨validate_ok_iff.mpr valid_crowded, hlast, hid ▸ resolve_of_first hfirst,
    hothers 0 (by decide)⟩

end Program
end ForeignVM
