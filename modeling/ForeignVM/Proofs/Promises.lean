import ForeignVM.Proofs.Declared
import ForeignVM.Proofs.Lookups

/-!
# ForeignVM.Proofs.Promises

What a valid program promises to a host. Its types are laid out; its pool is refused only because
of the names and the places of its constants, and a machine only because of its natives; and in all
that the host does with its machines and its pool, what instructions look up is there.

* `Pool.forProgram_error`, `Machine.build_error` — why there is no pool, and no machine.
* `BuiltFor.provides`     — a machine of a valid program has all that is looked up.
* `Moment.backed_of_steps` — the frames of every run stand for what is there.
* `promises_of_validate`  — all of this.
-/

namespace ForeignVM

/-! ## The pool -/

namespace Pool

variable {program : Program} {l : Layouts}

/-- Every entry is that of a constant of the program. -/
theorem describes_of_entry {p : Pool} (hl : Layouts.compute program.types = .ok l)
    (h : forProgram program = .ok p) :
    ∀ o e, p.entry o = .ok e → ∃ c ∈ program.constants, Describes l c e := by
  refine forProgram_induction
    (fun p => ∀ o e, p.entry o = .ok e → ∃ c ∈ program.constants, Describes l c e) hl h ?_ ?_
  · intro o e he
    exact absurd he (entry_empty o e)
  · intro p q c s hc hp hs hdeclares o e he
    obtain ⟨_, rfl⟩ | ⟨_, he⟩ := hdeclares.entry he
    · exact ⟨c, hc, rfl, rfl, rfl, rfl, by rw [Layouts.sizeOf, hs]⟩
    · exact hp o e he

/-- If the types of all constants are laid out, one of them has been declared before, or was
compiled for another place. -/
theorem forProgram_error (hl : Layouts.compute program.types = .ok l)
    (hsizes : ∀ c ∈ program.constants, ∃ n, l.sizeOf c.ty = .ok n) {e : RuntimeError}
    (h : forProgram program = .error e) :
    (∃ name, e = .pool (.alreadyDeclared name)) ∨
      ∃ name compiled assigned, e = .pool (.offsetMismatch name compiled assigned) := by
  unfold forProgram at h
  rw [hl] at h
  obtain ⟨c, hc, p, hfails⟩ := foldlM_error h
  obtain ⟨n, hn⟩ := hsizes c hc
  unfold declareConstant at hfails
  rw [hn] at hfails
  dsimp only at hfails
  split at hfails
  · next cause hdeclare =>
    cases hfails
    unfold declare at hdeclare
    split at hdeclare
    · cases hdeclare
      exact .inl ⟨_, rfl⟩
    · cases hdeclare
  · split at hfails
    · cases hfails
    · cases hfails
      exact .inr ⟨_, _, _, rfl⟩

end Pool

/-! ## The machine -/

theorem FrameLayout.exists_ofLocals {l : Layouts} {locals : List TypeId}
    (h : ∀ ty ∈ locals, ∃ s, l.shape ty = .ok s) : ∃ f, ofLocals l locals = .ok f := by
  obtain ⟨shapes, hshapes⟩ := exists_mapM h
  exact ⟨_, by rw [ofLocals, hshapes]⟩

namespace Machine

variable {σ : Type} {m : Machine σ} {program : Program}

theorem bindNative_error {registry : String → Option (Native σ)} {name : String}
    {e : RuntimeError} (h : bindNative registry name = .error e) :
    registry name = none ∧ e = .unknownNative name := by
  unfold bindNative at h
  cases hn : registry name with
  | some _ =>
    rw [hn] at h
    cases h
  | none =>
    rw [hn] at h
    cases h
    exact ⟨rfl, rfl⟩

/-- The first native that the registry lacks is what a machine of a valid program lacks. -/
theorem build_error (hvalid : program.Valid) {registry : String → Option (Native σ)}
    {limits : Limits} {e : RuntimeError} (h : build program registry limits = .error e) :
    ∃ front name back, program.natives.toList = front ++ name :: back ∧
      (∀ n ∈ front, (registry n).isSome) ∧ registry name = none ∧ e = .unknownNative name := by
  obtain ⟨l, hl, hdescribes⟩ := Layouts.exists_compute hvalid.types
  obtain ⟨callees, hcallees⟩ : ∃ callees, program.routines.toList.mapM (calleeOf l) = .ok callees :=
    exists_mapM fun r hr => by
      obtain ⟨frame, hframe⟩ := FrameLayout.exists_ofLocals fun ty hty =>
        hdescribes.exists_shape ((hvalid.routines r hr).types ty (List.mem_append_left _ hty))
      exact ⟨⟨r, frame⟩, by rw [calleeOf, hframe]⟩
  unfold build at h
  rw [hl] at h
  dsimp only at h
  rw [hcallees] at h
  dsimp only at h
  split at h
  · next hnatives =>
    cases h
    obtain ⟨front, name, back, hsplit, hfront, hname⟩ := mapM_error hnatives
    refine ⟨front, name, back, hsplit, fun n hn => ?_, bindNative_error hname⟩
    obtain ⟨_, hbound⟩ := hfront n hn
    obtain ⟨native, hregistry, _⟩ := bindNative_ok_iff.mp hbound
    exact Option.isSome_of_eq_some hregistry
  · cases h

theorem BuiltFor.callee?_eq_none_iff (hm : m.BuiltFor program) {id : RoutineId} :
    m.callee? id = none ↔ program.routines.size ≤ id.position := by
  have hlength := length_of_mapM hm.parts.2.1
  rw [Array.length_toList, Array.length_toList] at hlength
  rw [← hlength]
  exact Array.getElem?_eq_none_iff

/-- A machine of a valid program has all that its instructions look up. -/
theorem BuiltFor.provides (hm : m.BuiltFor program) (hvalid : program.Valid) {pool : Pool}
    (hpool : Pool.forProgram program = .ok pool) : m.Provides pool where
  result id c hc ty hty := by
    have htypes := (hvalid.routines _ (hm.callee hc).1).types ty
      (List.mem_append_right _ (Option.mem_toList.mpr hty))
    exact (Layouts.describes_compute hm.layouts).exists_shape htypes
  signature ty params ret hsig := hm.shape_of_signature hsig
  constant o e he := by
    obtain ⟨c, hc, hdescribes⟩ := Pool.describes_of_entry hm.layouts hpool o e he
    obtain ⟨htype, hinitializer⟩ := hvalid.constants c hc
    obtain ⟨s, hs⟩ := (Layouts.describes_compute hm.layouts).exists_shape htype
    have hsize := hdescribes.size
    rw [Layouts.sizeOf, hs] at hsize
    obtain ⟨callee, hcallee⟩ : ∃ callee, m.callee? c.initializer = some callee :=
      Option.ne_none_iff_exists'.mp fun hnone =>
        absurd (hm.callee?_eq_none_iff.mp hnone) (Nat.not_le_of_lt hinitializer)
    exact ⟨s, callee, hdescribes.ty ▸ hs, Except.ok.inj hsize, hdescribes.initializer ▸ hcallee⟩

end Machine

/-! ## Runs -/

namespace Moment

open Machine ForeignVM.Action

variable {program : Program} {pool : Pool}

/-- Nothing runs, and the constants are those of `pool`, some of which may be ready. -/
structure Rests (pool : Pool) (a : Moment program) : Prop where
  fuel : a.fuel = none
  calls : a.state.calls = .empty
  same : Pool.SameEntries pool a.state.pool

/-- The next instruction of the run is `i`, and it fails with the error. -/
def Fails (a : Moment program) (i : Instr) (e : RuntimeError) : Prop :=
  ∃ fuel l t, a.fuel = some (fuel + 1) ∧ decodeAt a.machine.program.code a.state.ip = .ok l ∧
    l.instr = i ∧ a.machine.cycle .recorder a.state = .error e t

theorem backed_of_step (hm : ∀ a : Moment program, a.machine.Provides pool) {a b : Moment program}
    (h : Step a b) (ha : a.state.Backed a.machine pool) : b.state.Backed b.machine pool := by
  have hprovides := hm a
  cases h with
  | @begin _ m _ s t id args h =>
    have hstart := ha.start .recorder id args
    rw [h] at hstart
    exact hstart
  | @refuse _ m _ s t id args e h =>
    have hstart := ha.start .recorder id args
    rw [h] at hstart
    exact .idle hstart.same rfl
  | next h =>
    have hcycle := ha.cycle .recorder hprovides
    rw [h] at hcycle
    exact hcycle
  | finish h =>
    have hcycle := ha.cycle .recorder hprovides
    rw [h] at hcycle
    exact hcycle
  | fail h =>
    have hcycle := ha.cycle .recorder hprovides
    rw [h] at hcycle
    exact .idle hcycle.same rfl
  | exhaust => exact .idle ha.same rfl
  | @native _ m _ s id args context =>
    obtain ⟨e, hr⟩ | ⟨t, outcome, hrun, hr⟩ := m.callNative_cases .recorder id args context s
    · rw [hr]
      exact ha
    · rw [hr]
      cases outcome <;> exact ha.congr hrun.pool hrun.calls
  | touch _ _ => exact ha.congr rfl rfl
  | renew _ => exact .idle ha.same rfl

theorem backed_of_steps (hm : ∀ a : Moment program, a.machine.Provides pool)
    {first a : Moment program} (hfirst : first.Rests pool) (h : Steps first a) :
    a.state.Backed a.machine pool := by
  induction h with
  | refl => exact .idle hfirst.same hfirst.calls
  | tail _ hstep ih => exact backed_of_step hm hstep ih

/-- What a valid program promises of the instruction at a moment. -/
structure Promised (a : Moment program) : Prop where
  /-- No type is missing. -/
  types : ∀ i e, i.looksUp → a.Fails i e → ∀ cause, e ≠ .type cause
  /-- A call finds its routine, if the program has one of that number. -/
  call : ∀ id id', a.Fails (.call id) (.unknownRoutine id') →
    id' = id ∧ program.routines.size ≤ id.position
  /-- A constant that was declared has an initializer, which is a routine. -/
  constGet : ∀ o e, a.Fails (.constGet o) e →
    (∀ id, e ≠ .unknownRoutine id) ∧ ∀ o', e ≠ .pool (.missingInitializer o')
  /-- A return, also one from an initializer, finds the place of the constant, which has the right
  size. -/
  ret : ∀ e, a.Fails .ret e →
    (∀ o expected got, e ≠ .pool (.sizeMismatch o expected got)) ∧
      ∀ o, e ≠ .pool (.undeclaredOffset o)

theorem promised_of_backed {a : Moment program} (hm : a.machine.Provides pool)
    (ha : a.state.Backed a.machine pool) : a.Promised := by
  have hremaining {i : Instr} {e : RuntimeError} (hi : i.looksUp) (h : a.Fails i e)
      (hstatic : e.IsStatic) : a.machine.Remaining a.state.calls.current? i e := by
    obtain ⟨_, l, t, _, hl, rfl, hc⟩ := h
    exact a.machine.faults_cycle .recorder hm ha hl hi e t hc hstatic
  refine ⟨?_, ?_, ?_, ?_⟩
  · rintro i _ hi h cause rfl
    cases hremaining hi h trivial
  · intro id id' h
    cases hremaining rfl h trivial with
    | call hnone => exact ⟨rfl, a.built.callee?_eq_none_iff.mp hnone⟩
  · intro o e h
    constructor
    · rintro id rfl
      cases hremaining rfl h trivial
    · rintro o' rfl
      cases hremaining rfl h trivial
  · intro e h
    constructor
    · rintro o expected got rfl
      cases hremaining rfl h trivial
    · rintro o rfl
      cases hremaining rfl h trivial

end Moment

/-- What a program promises. -/
structure Program.Promises (program : Program) : Prop where
  laid : ∃ l, Layouts.compute program.types = .ok l
  pooled : ∀ e, Pool.forProgram program = .error e →
    (∃ name, e = .pool (.alreadyDeclared name)) ∨
      ∃ name compiled assigned, e = .pool (.offsetMismatch name compiled assigned)
  /-- A machine lacks nothing but the first native that is not registered. -/
  built : ∀ {σ : Type} (registry : String → Option (Native σ)) (limits : Limits) (e : RuntimeError),
    Machine.build program registry limits = .error e →
      ∃ front name back, program.natives.toList = front ++ name :: back ∧
        (∀ n ∈ front, (registry n).isSome) ∧ registry name = none ∧ e = .unknownNative name
  /-- However a host uses machines of the program and its pool. -/
  runs : ∀ pool, Pool.forProgram program = .ok pool → ∀ first a : Moment program,
    first.Rests pool → Moment.Steps first a → a.Promised

/-- A valid program keeps its promises. -/
theorem promises_of_validate {program : Program} (h : program.validate = .ok ()) :
    program.Promises := by
  obtain ⟨l, hl, hsizes⟩ := Program.sizes_of_validate h
  have hvalid := Program.validate_ok_iff.mp h
  refine ⟨⟨l, hl⟩, fun e => Pool.forProgram_error hl hsizes,
    fun _ _ _ => Machine.build_error hvalid, fun pool hpool first a hfirst hsteps => ?_⟩
  have hprovides (a : Moment program) : a.machine.Provides pool := a.built.provides hvalid hpool
  exact Moment.promised_of_backed (hprovides a) (Moment.backed_of_steps hprovides hfirst hsteps)

/-- A program that calls a routine that it does not have. -/
def lacking : Program where
  code := ([.call ⟨7⟩, .ret, .pushBool 1, .ret].flatMap Instr.encode).toArray
  sources := .empty
  types := ⟨#[.scalar .bool]⟩
  routines := #[⟨"main", 0, 0, [], none⟩, ⟨"answer", 6, 0, [], some ⟨0⟩⟩]
  constants := [⟨"answer", ⟨0⟩, ⟨1⟩, 0⟩]
  natives := #["print", "read"]
  entry := some ⟨0⟩

/-- A registry in which each of some natives returns nothing. -/
def idleNatives (names : List String) (name : String) : Option (Native Unit) :=
  if name ∈ names then some fun _ memory host => (.ok .void, memory, host) else none

/-- No machine is built without `read`; with it, the run fails at the call, whose operand is not
below the number of routines. -/
theorem promises_of_validate_lacking :
    lacking.validate = .ok () ∧
    (∃ front back, lacking.natives.toList = front ++ "read" :: back ∧
      ∀ n ∈ front, (idleNatives ["print"] n).isSome) ∧
    ∃ (pool : Pool) (first a : Moment lacking), Pool.forProgram lacking = .ok pool ∧
      first.Rests pool ∧ Moment.Steps first a ∧ a.Fails (.call ⟨7⟩) (.unknownRoutine ⟨7⟩) ∧
      lacking.routines.size ≤ RoutineId.position ⟨7⟩ := by
  have hvalid : lacking.validate = .ok () := by decide +kernel
  have hpromises := promises_of_validate hvalid
  refine ⟨hvalid, ?_, ?_⟩
  · have hbuild : Machine.build lacking (idleNatives ["print"]) .standard =
        .error (.unknownNative "read") := rfl
    obtain ⟨front, name, back, hsplit, hfront, _, hname⟩ := hpromises.built _ _ _ hbuild
    cases hname
    exact ⟨front, back, hsplit, hfront⟩
  · obtain ⟨pool, hpool⟩ : ∃ pool, Pool.forProgram lacking = .ok pool := ⟨_, rfl⟩
    obtain ⟨m, hm⟩ : ∃ m : Machine Unit,
      Machine.build lacking (idleNatives ["print", "read"]) ⟨3, 8⟩ = .ok m := ⟨_, rfl⟩
    let first : Moment lacking := ⟨m, ⟨_, _, hm⟩, none, .idle .empty pool () []⟩
    obtain ⟨t, ht⟩ : ∃ t, m.start .recorder ⟨0⟩ [] first.state = .ok () t := by
      cases hm
      exact ⟨_, rfl⟩
    have hsteps : Moment.Steps first ⟨m, ⟨_, _, hm⟩, some m.limits.fuel.toNat, t⟩ :=
      .single (.begin ht)
    have hfails : Moment.Fails ⟨m, ⟨_, _, hm⟩, some m.limits.fuel.toNat, t⟩ (.call ⟨7⟩)
        (.unknownRoutine ⟨7⟩) := by
      cases hm
      cases ht
      exact ⟨2, _, _, rfl, rfl, rfl, rfl⟩
    have hfirst : first.Rests pool := ⟨rfl, rfl, .refl _⟩
    have hpromised := hpromises.runs pool hpool first _ hfirst hsteps
    exact ⟨pool, first, _, hpool, hfirst, hsteps, hfails, (hpromised.call _ _ hfails).2⟩

end ForeignVM
