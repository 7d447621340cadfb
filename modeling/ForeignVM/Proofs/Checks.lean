import ForeignVM.Program.Validity
import ForeignVM.Proofs.Search

/-!
# ForeignVM.Proofs.Checks

What the checks of a program establish. They stop at the first violation, and every condition has
been looked at if they find none.

* `Program.Admits`  — what is asked of one routine.
* `Program.Valid`   — all conditions; `validate_ok_iff`: they are what is checked.
-/

namespace ForeignVM
namespace Program

variable {p : Program}

/-- What is asked of a routine, if instructions start at the given addresses. -/
structure Admits (p : Program) (boundaries : List UInt32) (r : Routine) : Prop where
  entry : r.entry ∈ boundaries
  params : r.params.toNat ≤ r.locals.length
  types : ∀ ty ∈ r.locals ++ r.ret.toList, ty.position < p.types.size

/-- The type of a constant and the routine that computes it are there. -/
def Resolves (p : Program) (c : Constant) : Prop :=
  c.ty.position < p.types.size ∧ c.initializer.position < p.routines.size

/-- All that makes a program valid. -/
structure Valid (p : Program) : Prop where
  types : p.types.validate = .ok ()
  whole : (decodeAll p.code).2 = none
  routines : ∀ r ∈ p.routines.toList, p.Admits ((decodeAll p.code).1.map (·.ip)) r
  constants : ∀ c ∈ p.constants, p.Resolves c
  entry : ∀ id, p.entry = some id → id.position < p.routines.size

theorem requireRoutine_ok_iff {id : RoutineId} :
    p.requireRoutine id = .ok () ↔ id.position < p.routines.size := by
  unfold requireRoutine routine?
  cases h : p.routines[id.position]? with
  | none => simpa using h
  | some r => simpa using (Array.getElem?_eq_some_iff.mp h).1

theorem requireTypes_ok_iff {ids : List TypeId} :
    p.requireTypes ids = .ok () ↔ ∀ id ∈ ids, id.position < p.types.size := by
  rw [← TypeTable.requireAll_ok_iff, requireTypes]
  cases p.types.requireAll ids <;> simp

theorem checkRoutine_ok_iff {boundaries : List UInt32} {r : Routine} :
    p.checkRoutine boundaries r = .ok () ↔ p.Admits boundaries r := by
  unfold checkRoutine
  split
  · next hmissing => exact ⟨nofun, fun h => absurd h.entry (by simpa using hmissing)⟩
  · next hentry =>
    split
    · next hexceed => exact ⟨nofun, fun h => absurd h.params (Nat.not_le_of_lt hexceed)⟩
    · next hparams =>
      rw [requireTypes_ok_iff]
      exact ⟨fun h => ⟨by simpa using hentry, Nat.le_of_not_lt hparams, h⟩, Admits.types⟩

theorem checkRoutines_ok_iff {boundaries : List UInt32} {rs : List Routine} :
    p.checkRoutines boundaries rs = .ok () ↔ ∀ r ∈ rs, p.Admits boundaries r := by
  induction rs with
  | nil => simp [checkRoutines]
  | cons r rs ih =>
    rw [List.forall_mem_cons, ← ih, ← checkRoutine_ok_iff, checkRoutines]
    cases p.checkRoutine boundaries r <;> simp

theorem checkConstants_ok_iff {cs : List Constant} :
    p.checkConstants cs = .ok () ↔ ∀ c ∈ cs, p.Resolves c := by
  induction cs with
  | nil => simp [checkConstants]
  | cons c cs ih =>
    have htype : p.requireTypes [c.ty] = .ok () ↔ c.ty.position < p.types.size := by
      rw [requireTypes_ok_iff, List.forall_mem_singleton]
    rw [List.forall_mem_cons, ← ih, Resolves, ← htype, ← requireRoutine_ok_iff, checkConstants]
    cases p.requireTypes [c.ty] <;> cases p.requireRoutine c.initializer <;> simp

theorem checkEntry_ok_iff :
    p.checkEntry = .ok () ↔ ∀ id, p.entry = some id → id.position < p.routines.size := by
  unfold checkEntry
  cases p.entry with
  | none => simp
  | some id => simp [requireRoutine_ok_iff]

theorem validate_ok_iff : p.validate = .ok () ↔ p.Valid := by
  unfold validate
  cases htypes : p.types.validate with
  | error e => exact ⟨nofun, fun h => by cases htypes.symm.trans h.types⟩
  | ok u =>
    rcases hdecode : decodeAll p.code with ⟨instrs, _ | e⟩
    · have hinstrs : instrs = (decodeAll p.code).1 := congrArg Prod.fst hdecode.symm
      have hchecks : p.Valid ↔ p.checkRoutines (instrs.map (·.ip)) p.routines.toList = .ok () ∧
          p.checkConstants p.constants = .ok () ∧ p.checkEntry = .ok () := by
        rw [checkRoutines_ok_iff, checkConstants_ok_iff, checkEntry_ok_iff, hinstrs]
        exact ⟨fun h => ⟨h.routines, h.constants, h.entry⟩, fun ⟨hroutines, hconstants, hentry⟩ =>
          ⟨htypes, congrArg Prod.snd hdecode, hroutines, hconstants, hentry⟩⟩
      rw [hchecks]
      dsimp only
      cases p.checkRoutines (instrs.map (·.ip)) p.routines.toList with
      | error e => simp
      | ok u => cases p.checkConstants p.constants <;> simp
    · exact ⟨nofun, fun h => by cases (congrArg Prod.snd hdecode).symm.trans h.whole⟩

end Program
end ForeignVM
