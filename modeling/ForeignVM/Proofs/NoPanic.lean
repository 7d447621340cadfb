import ForeignVM.Proofs.StrictCalls

/-!
# ForeignVM.Proofs.NoPanic

No run of a machine that has been built ends in a panic, whatever its code does: it need not be
valid, jumps may lead anywhere and operands may be any. The strict machine does exactly what the
plain one does, and what a host has done before makes no difference.

* `follows_step`, `follows_cycle` — one case per instruction; then fetching and executing.
* `execute_calm`, `callFrom_calm` — whole runs, by induction on the fuel.
* `Hosted`                        — the states that a host comes to with the machines of a program.
* `NeverPanics`, `runs_without_panic` — what holds of all of them.
-/

namespace ForeignVM

theorem Arithmetic.apply_proper {l : Layouts} {op : Arithmetic} {a b v : Value}
    (h : op.apply a b = .ok v) : v.Proper l := by
  unfold apply at h
  split at h <;> cases h <;> exact ⟨nofun, trivial⟩

theorem Value.bool_proper {l : Layouts} {x : Except RuntimeError Bool} {v : Value}
    (h : x.map Value.bool = .ok v) : v.Proper l := by
  cases x with
  | error e => cases h
  | ok b =>
    cases h
    exact ⟨nofun, trivial⟩

namespace Machine

open ForeignVM.Action

variable {σ τ : Type} {m : Machine σ} (hm : m.Sane) {watch : Observer τ} {s : State σ τ}

section

variable (hs : s.Orderly m)

include hs

theorem tidy_binary (ip : UInt32) {f : Value → Value → Except RuntimeError Value}
    (hf : ∀ a b v, f a b = .ok v → v.Proper m.layouts) :
    Tidy m (fun _ => True) (binary ip f s) := by
  refine .bind (.pop hs ip) fun b t ht _ => .bind (.pop ht ip) fun a t ht _ => ?_
  exact .bind (.check ht fun _ => hf a b _) fun v t ht hv => .push ht hv

theorem tidy_malloc (ty : TypeId) (count : UInt32) :
    Tidy m (fun _ => True) (m.malloc watch ty count s) := by
  refine .bind (.check hs fun _ _ => trivial) fun size t ht _ => ?_
  refine .bind (.allocate ht size) fun address t ht _ => ?_
  exact .bind (.emit ht watch _) fun _ t ht _ => .push ht ⟨nofun, trivial⟩

theorem tidy_fieldAddr (ip : UInt32) (ty : TypeId) (field : UInt16) :
    Tidy m (fun _ => True) (m.fieldAddr ip ty field s) := by
  refine .bind (.popPointer hs ip) fun p t ht _ => ?_
  dsimp only
  split
  · exact .throw ht _
  · exact .bind (.check ht fun _ _ => trivial) fun _ _ hu _ => .push hu ⟨nofun, trivial⟩

theorem tidy_ptrIndex (ip : UInt32) (ty : TypeId) :
    Tidy m (fun _ => True) (m.ptrIndex ip ty s) := by
  refine .bind (.pop hs ip) fun index t ht _ => ?_
  cases index.int64? with
  | none => exact .throw ht _
  | some i =>
    refine .bind (.popPointer ht ip) fun p t ht _ => ?_
    exact .bind (.check ht fun _ _ => trivial) fun _ _ hu _ => .push hu ⟨nofun, trivial⟩

theorem tidy_nativeRef (id : NativeId) (ty : TypeId) :
    Tidy m (fun _ => True) (m.nativeRef id ty s) := by
  unfold nativeRef
  split
  · exact .throw hs _
  · exact .bind (.check hs fun _ _ => trivial) fun _ _ ht _ => .push ht ⟨nofun, trivial⟩

theorem tidy_procContext (ip : UInt32) : Tidy m (fun _ => True) (procContext ip s) := by
  refine .bind (.pop hs ip) fun v t ht _ => ?_
  cases v.contextWord? with
  | none => exact .throw ht _
  | some context =>
    exact .bind (.popProc ht ip) fun p _ hu _ => .push hu ⟨nofun, trivial⟩

include hm

theorem follows_localSlot (ip : UInt32) (i : UInt16) :
    Follows m (fun place => place.2.shape.Own m.layouts) s (m.localSlotStrict ip i)
      (m.localSlot ip i) := by
  refine .get ?_
  cases hf : s.calls.current? with
  | none => exact .fail hs _
  | some f =>
    obtain ⟨c, hc⟩ := hs.current hf
    dsimp only
    rw [callee_eq hc, frameStrict_eq hc, pure_bind, pure_bind]
    cases hslot : c.frame.slots[i.toNat]? with
    | none =>
      dsimp only
      rw [hm.routineStrict_eq hc, pure_bind]
      exact .fail hs _
    | some slot =>
      have hown := hm.slot hc slot (Array.mem_toList_iff.mpr (Array.mem_of_getElem? hslot))
      exact .bind (.plainly (.check hs fun _ _ => trivial)) fun _ _ ht _ => .pure ht hown

omit hm in
theorem follows_cast (ip : UInt32) (kinds : UInt8) :
    Follows m (fun _ => True) s (castStrict ip kinds) (cast ip kinds) := by
  unfold castStrict cast
  cases Cast.unpack? kinds with
  | none => exact .fail hs _
  | some pair =>
    refine .bind (.plainly (.pop hs ip)) fun v t ht hv => ?_
    unfold Value.castTo
    by_cases hkind : v.isOfKind pair.1
    · rw [if_pos hkind, if_pos hkind]
      have htarget : (Shape.scalar pair.2).Own m.layouts := trivial
      exact .bind (follows_coerce ht htarget hv.own) fun _ _ hu hw => .plainly (.push hu hw)
    · rw [if_neg hkind, if_neg hkind]
      exact .fail ht _

/-- One case per instruction. -/
theorem follows_perform (ip : UInt32) (i : Instr) :
    Follows m (fun _ => True) s (m.performStrict watch ip i) (m.perform watch ip i) := by
  cases i with
  | nop | ret => exact .plainly (.pure hs trivial)
  | pushI64 v => exact .plainly (.push hs ⟨nofun, trivial⟩)
  | pushU64 v => exact .plainly (.push hs ⟨nofun, trivial⟩)
  | pushF64 x => exact .plainly (.push hs ⟨nofun, trivial⟩)
  | pushBool b => exact .plainly (.push hs ⟨nofun, trivial⟩)
  | pushZero ty =>
    refine .bind (.shape hs hm ty) fun shape t ht hshape => ?_
    rw [Shape.zeroStrict_eq]
    exact .asked (.plainly (.push ht (Shape.decode_proper hshape _)))
  | pop => exact .plainly (.bind (.pop hs ip) fun _ _ ht _ => .pure ht trivial)
  | dup =>
    exact .plainly (.bind (.pop hs ip) fun _ _ ht hv =>
      .bind (.push ht hv) fun _ _ hu _ => .push hu hv)
  | swap =>
    refine .plainly (.bind (.pop hs ip) fun b t ht hb => .bind (.pop ht ip) fun a t ht ha => ?_)
    exact .bind (.push ht hb) fun _ _ hu _ => .push hu ha
  | localGet i =>
    refine .bind (follows_localSlot hm hs ip i) fun place t ht hown => ?_
    exact .bind (follows_load ht place.1 hown) fun _ _ hu hv => .plainly (.push hu hv)
  | localSet i =>
    refine .bind (.plainly (.pop hs ip)) fun v t ht hv => ?_
    refine .bind (follows_localSlot hm ht ip i) fun place t ht hown => ?_
    exact follows_store ht place.1 hown hv.own
  | localAddr i =>
    refine .bind (follows_localSlot hm hs ip i) fun place t ht _ => ?_
    exact .plainly (.push ht ⟨nofun, trivial⟩)
  | add | sub | mul =>
    exact .plainly (tidy_binary hs ip fun _ _ _ => Arithmetic.apply_proper)
  | lt | eq => exact .plainly (tidy_binary hs ip fun _ _ _ => Value.bool_proper)
  | not =>
    exact .plainly (.bind (.popBool hs ip) fun _ _ ht _ => .push ht ⟨nofun, trivial⟩)
  | cast kinds => exact follows_cast hs ip kinds
  | jump target => exact .plainly (.jump hs target)
  | jumpIfFalse target =>
    refine .plainly (.bind (.popBool hs ip) fun b t ht _ => ?_)
    cases b with
    | false => exact .jump ht target
    | true => exact .pure ht trivial
  | call id =>
    refine .callee hs hm fun c _ => ?_
    refine .bind (follows_popMany hs ip _) fun args t ht hargs => ?_
    exact follows_enter hm ht id (fun a ha => (hargs a ha).own) _
  | constGet offset => exact follows_constGet hm hs offset
  | fieldGet ty field =>
    refine .bind (.plainly (.popAggregate hs _ ip ty)) fun a t ht ha => ?_
    have hget := Aggregate.getStrict_eq hm.layouts ha field
    exact .bind (.ask ht hget fun _ => Aggregate.get_proper hm.layouts ha) fun _ _ hu hv =>
      .plainly (.push hu hv)
  | fieldSet ty field =>
    refine .bind (.plainly (.pop hs ip)) fun v t ht hv => ?_
    refine .bind (.plainly (.popAggregate ht _ ip ty)) fun a t ht ha => ?_
    refine .bind (.ask ht (Aggregate.setStrict_eq hm.layouts ha field hv.own) fun _ => id) ?_
    exact fun b t ht hb => .plainly (.push ht ⟨nofun, Aggregate.set_own ha hb⟩)
  | fieldAddr ty field => exact .plainly (tidy_fieldAddr hs ip ty field)
  | load ty =>
    refine .bind (.plainly (.popPointer hs ip)) fun p t ht _ => ?_
    refine .bind (.shape ht hm ty) fun shape t ht hshape => ?_
    exact .bind (follows_load ht p.address hshape) fun _ _ hu hv => .plainly (.push hu hv)
  | store ty =>
    refine .bind (.plainly (.pop hs ip)) fun v t ht hv => ?_
    refine .bind (.plainly (.popPointer ht ip)) fun p t ht _ => ?_
    refine .bind (.shape ht hm ty) fun shape t ht hshape => ?_
    exact follows_store ht p.address hshape hv.own
  | malloc ty count => exact .plainly (tidy_malloc hs ty count)
  | ptrIndex ty => exact .plainly (tidy_ptrIndex hs ip ty)
  | procRef id ty =>
    refine .callee hs hm fun c _ => ?_
    refine .bind (.plainly (.check hs fun _ _ => trivial)) fun _ t ht _ => ?_
    exact .plainly (.push ht ⟨nofun, trivial⟩)
  | nativeRef id ty => exact .plainly (tidy_nativeRef hs id ty)
  | procContext => exact .plainly (tidy_procContext hs ip)
  | callProc ty => exact follows_callProc hm hs ip ty

theorem follows_step (l : Located) :
    Follows m (fun o => ∀ v, o = some v → v.Own m.layouts) s (m.stepStrict watch l)
      (m.step watch l) := by
  unfold stepStrict step
  cases l.instr with
  | ret => exact follows_leave hm hs l.ip
  | _ =>
    exact .bind (follows_perform hm hs l.ip _) fun _ _ ht _ => .pure ht fun _ h => nomatch h

theorem follows_cycle :
    Follows m (fun o => ∀ v, o = some v → v.Own m.layouts) s (m.cycleStrict watch)
      (m.cycle watch) := by
  refine .get ?_
  refine .bind (.ask hs (decodeStrict_eq _ _) fun _ _ => trivial) fun l t ht _ => ?_
  refine .bind (.plainly (.emit ht watch _)) fun _ t ht _ => ?_
  exact .bind (.plainly (.jump ht _)) fun _ t ht _ => follows_step hm ht l

/-- By induction on the fuel. -/
theorem run_calm (fuel : Nat) :
    m.runStrict watch fuel s = calm (m.run watch fuel s) ∧
      Tidy m (Value.Own m.layouts) (m.run watch fuel s) := by
  induction fuel generalizing s with
  | zero => exact ⟨rfl, hs⟩
  | succ fuel ih =>
    obtain ⟨hsame, htidy⟩ := follows_cycle hm hs
    rw [runStrict, run, hsame]
    cases hc : m.cycle watch s with
    | error e t =>
      rw [hc] at htidy
      exact ⟨rfl, htidy⟩
    | ok o t =>
      rw [hc] at htidy
      obtain ⟨ht, hown⟩ := htidy
      cases o with
      | none => exact ih ht
      | some v => exact ⟨rfl, ht, hown v rfl⟩

end

/-! ## Calls by the host -/

theorem releaseFramesStrict_eq (frames : List Frame) (memory : Memory) :
    releaseFramesStrict frames memory = .ok (releaseFrames frames memory) := by
  induction frames generalizing memory with
  | nil => rfl
  | cons f rest ih =>
    rw [releaseFramesStrict, Memory.freeStrict_eq, releaseFrames]
    cases memory.free f.locals <;> exact ih _

theorem unwindStrict_eq (e : RuntimeError) (s : State σ τ) :
    unwindStrict (.error e) s = calm (.error e (unwind s)) := by
  rw [unwindStrict, releaseFramesStrict_eq]
  rfl

theorem ready_unwind (hs : s.Orderly m) : (unwind s).Ready m :=
  ⟨List.forall_mem_nil _, hs.pool⟩

/-- What holds after a call by the host. -/
def Served (m : Machine σ) : EStateM.Result RuntimeError (State σ τ) Value → Prop
  | .ok v s => s.Ready m ∧ v.Own m.layouts
  | .error _ s => s.Ready m

theorem Served.ready {r : EStateM.Result RuntimeError (State σ τ) Value} (h : Served m r) :
    (finalState r).Ready m := by
  cases r with
  | ok v s => exact h.1
  | error e s => exact h

section

variable (hs : s.Ready m)

include hs

theorem orderly_cleared : ({ s with operands := .empty } : State σ τ).Orderly m :=
  ⟨⟨hs.frames, hs.pool⟩, List.forall_mem_nil _⟩

include hm

theorem execute_calm (id : RoutineId) {args : List Value}
    (hargs : ∀ a ∈ args, Value.Own m.layouts a) :
    m.executeStrict watch id args s = calm (m.execute watch id args s) ∧
      Served m (m.execute watch id args s) := by
  obtain ⟨hsame, htidy⟩ :=
    follows_enter hm (orderly_cleared hs) id hargs .host
  rw [executeStrict, execute, hsame]
  cases henter : m.enter watch id args .host { s with operands := .empty } with
  | error e t =>
    rw [henter] at htidy
    exact ⟨unwindStrict_eq e t, ready_unwind htidy⟩
  | ok _ t =>
    rw [henter] at htidy
    obtain ⟨ht, -⟩ := htidy
    obtain ⟨hrun, hdone⟩ := run_calm hm ht m.limits.fuel.toNat
    dsimp only [calm]
    rw [hrun]
    cases hr : m.run watch m.limits.fuel.toNat t with
    | error e u =>
      rw [hr] at hdone
      exact ⟨unwindStrict_eq e u, ready_unwind hdone⟩
    | ok v u =>
      rw [hr] at hdone
      obtain ⟨hu, hv⟩ := hdone
      exact ⟨rfl, hu.toReady, hv⟩

theorem callFrom_calm (p : ProcRef) {args : List Value}
    (hargs : ∀ a ∈ args, Value.Own m.layouts a) :
    m.callFromStrict watch p args s = calm (m.callFrom watch p args s) ∧
      Served m (m.callFrom watch p args s) := by
  unfold callFromStrict callFrom
  cases p.target with
  | none => exact ⟨rfl, hs⟩
  | some target =>
    cases target with
    | routine id =>
      dsimp only
      by_cases hcontext : p.context ≠ 0
      · rw [if_pos hcontext, if_pos hcontext]
        exact ⟨rfl, hs⟩
      · rw [if_neg hcontext, if_neg hcontext]
        exact execute_calm hm hs id hargs
    | native id =>
      obtain ⟨t, outcome, ⟨hcalls, hpool, -⟩, hown, hplain, hstrict⟩ :=
        callNative_spec hm id hargs p.context s
      have hready : t.Ready m := ⟨hcalls ▸ hs.frames, hpool ▸ hs.pool⟩
      dsimp only
      rw [hplain, hstrict]
      cases outcome with
      | error e => exact ⟨rfl, hready⟩
      | ok v => exact ⟨rfl, hready, hown v rfl⟩

end

/-! ## Hosts -/

/-- The states that a host comes to with the machines of a program whose types, and whose constants
together, take less than 2⁶⁴ bytes. The host calls routines and procs, changes the memory and its
own state between two calls, and goes on with the pool on new machines. The aggregates that it
passes have layouts of the machine; all else is up to it. -/
inductive Hosted (program : Program) : {σ : Type} → Machine σ → State σ τ → Prop where
  | fresh {σ : Type} {m : Machine σ} {pool : Pool} (hm : m.BuiltFor program)
      (hbounded : m.layouts.Bounded) (hnatives : m.NativesOwn)
      (hpool : Pool.forProgram program = .ok pool) (hstorage : pool.reserved < 2 ^ 64)
      (memory : Memory) (host : σ) (trace : τ) : Hosted program m (.idle memory pool host trace)
  | execute {σ : Type} {m : Machine σ} {s : State σ τ} (h : Hosted program m s)
      {args : List Value} (hargs : ∀ a ∈ args, Value.Own m.layouts a) (watch : Observer τ)
      (id : RoutineId) : Hosted program m (finalState (m.execute watch id args s))
  | callFrom {σ : Type} {m : Machine σ} {s : State σ τ} (h : Hosted program m s)
      {args : List Value} (hargs : ∀ a ∈ args, Value.Own m.layouts a) (watch : Observer τ)
      (p : ProcRef) : Hosted program m (finalState (m.callFrom watch p args s))
  | touch {σ : Type} {m : Machine σ} {s : State σ τ} (h : Hosted program m s) (memory : Memory)
      (host : σ) : Hosted program m { s with memory := memory, host := host }
  | renew {σ σ' : Type} {m : Machine σ} {m' : Machine σ'} {s : State σ τ}
      (h : Hosted program m s) (hm : m'.BuiltFor program) (hnatives : m'.NativesOwn)
      (memory : Memory) (host : σ') (trace : τ) :
      Hosted program m' (.idle memory s.pool host trace)

namespace Hosted

variable {program : Program}

theorem built (h : Hosted program m s) :
    m.BuiltFor program ∧ m.layouts.Bounded ∧ m.NativesOwn := by
  induction h with
  | fresh hm hbounded hnatives => exact ⟨hm, hbounded, hnatives⟩
  | renew _ hm hnatives _ _ _ ih =>
    have hlayouts := Except.ok.inj (ih.1.layouts.symm.trans hm.layouts)
    exact ⟨hm, hlayouts ▸ ih.2.1, hnatives⟩
  | execute _ _ _ _ ih | callFrom _ _ _ _ ih | touch _ _ _ ih => exact ih

theorem sane (h : Hosted program m s) : m.Sane :=
  sane_of_built h.built.1 h.built.2.1 h.built.2.2

/-- By induction on what the host has done. -/
theorem ready (h : Hosted program m s) : s.Ready m := by
  induction h with
  | fresh hm _ _ hpool =>
    exact ⟨List.forall_mem_nil _, Pool.regular_of_forProgram hm.layouts hpool⟩
  | execute h hargs watch id ih => exact (execute_calm h.sane ih id hargs).2.ready
  | callFrom h hargs watch p ih => exact (callFrom_calm h.sane ih p hargs).2.ready
  | touch _ _ _ ih => exact ⟨ih.frames, ih.pool⟩
  | renew h hm _ _ _ _ ih =>
    have hlayouts := Except.ok.inj (h.built.1.layouts.symm.trans hm.layouts)
    exact ⟨List.forall_mem_nil _, hlayouts ▸ ih.pool⟩

end Hosted

/-- No operand is void, and each aggregate has the layout that its type has in the machine and
exactly as many bytes. -/
def Stocked (m : Machine σ) (s : State σ τ) : Prop :=
  ∀ v ∈ s.operands.values, v ≠ .void ∧ ∀ a, v = .aggregate a →
    m.layouts.aggregate a.ty = .ok a.layout ∧ a.bytes.length = a.layout.size

theorem stocked_of_orderly (hs : s.Orderly m) : Stocked m s := by
  intro v hv
  obtain ⟨hvoid, hown⟩ := hs.operands v hv
  refine ⟨hvoid, ?_⟩
  rintro a rfl
  exact ⟨Layouts.aggregate_of_own hown, a.length_bytes⟩

/-- What holds of a state, whatever the host calls next. Aggregates among the arguments have layouts
of the machine. -/
structure NeverPanics (m : Machine σ) (watch : Observer τ) (s : State σ τ) : Prop where
  /-- No check fails in a call of a routine, which ends as it does without the checks. -/
  execute (id : RoutineId) {args : List Value} (hargs : ∀ a ∈ args, Value.Own m.layouts a) :
    (∀ p t, m.executeStrict watch id args s ≠ .error (.panic p) t) ∧
      m.executeStrict watch id args s = calm (m.execute watch id args s)
  callFrom (p : ProcRef) {args : List Value} (hargs : ∀ a ∈ args, Value.Own m.layouts a) :
    (∀ p' t, m.callFromStrict watch p args s ≠ .error (.panic p') t) ∧
      m.callFromStrict watch p args s = calm (m.callFrom watch p args s)
  /-- Wherever a jump leads, operands are read as the types that the opcode gives them. -/
  operandTypes (ip : UInt32) :
    decodeStrict m.program.code ip = refuse .code (decodeAt m.program.code ip)
  /-- Before every instruction, and after it even if it fails. -/
  operands (id : RoutineId) {args : List Value} (hargs : ∀ a ∈ args, Value.Own m.layouts a)
    {s₁ t : State σ τ} {n : Nat} (hstart : m.start watch id args s = .ok () s₁)
    (ht : m.after watch n s₁ = some t) : Stocked m t ∧ Stocked m (finalState (m.cycle watch t))

theorem calm_ne_panic {α : Type} (r : EStateM.Result RuntimeError (State σ τ) α) (p : Panic)
    (t : State σ τ) : calm r ≠ .error (.panic p) t := by
  cases r <;> nofun

include hm in
theorem orderly_after (hs : s.Ready m) {id : RoutineId} {args : List Value}
    (hargs : ∀ a ∈ args, Value.Own m.layouts a) {s₁ t : State σ τ} {n : Nat}
    (hstart : m.start watch id args s = .ok () s₁) (ht : m.after watch n s₁ = some t) :
    t.Orderly m := by
  refine m.after_keeps watch (P := fun t => t.Orderly m) (fun t u ht hc => ?_) ?_ ht
  · have htidy : Tidy m _ (m.cycle watch t) := (follows_cycle hm ht).tidy
    rw [hc] at htidy
    exact htidy.1
  · have htidy : Tidy m _ (m.start watch id args s) :=
      (follows_enter hm (orderly_cleared hs) id hargs .host).tidy
    rw [hstart] at htidy
    exact htidy.1

/-- The program need not be valid, and the arguments need not fit the parameters. -/
theorem runs_without_panic {program : Program} (h : Hosted program m s) (watch : Observer τ) :
    m.NeverPanics watch s where
  execute id _ hargs := by
    have hcalm : m.executeStrict watch id _ s = _ := (execute_calm h.sane h.ready id hargs).1
    exact ⟨fun p t => hcalm ▸ calm_ne_panic _ p t, hcalm⟩
  callFrom p _ hargs := by
    have hcalm : m.callFromStrict watch p _ s = _ := (callFrom_calm h.sane h.ready p hargs).1
    exact ⟨fun p t => hcalm ▸ calm_ne_panic _ p t, hcalm⟩
  operandTypes ip := decodeStrict_eq _ _
  operands id _ hargs _ t _ hstart ht := by
    have horderly := orderly_after h.sane h.ready hargs hstart ht
    exact ⟨stocked_of_orderly horderly,
      stocked_of_orderly (follows_cycle h.sane horderly).tidy.finalState⟩

/-- A program whose main routine lets a native have a constant and stores what it returns. The code
of its last routine is not there. -/
def lost : Program where
  code := ([.nativeRef ⟨0⟩ ⟨2⟩, .constGet 0, .callProc ⟨2⟩, .localSet 0, .localGet 0,
    .fieldGet ⟨1⟩ 1, .ret, .pushZero ⟨1⟩, .pushU64 5, .fieldSet ⟨1⟩ 1, .ret].flatMap
      Instr.encode).toArray
  sources := .empty
  types := ⟨#[.scalar .u64, .struct "Pair" (.ofList [("left", ⟨0⟩), ("right", ⟨0⟩)]),
    .proc [⟨1⟩] (some ⟨1⟩) false]⟩
  routines := #[⟨"main", 0, 1, [⟨1⟩], some ⟨0⟩⟩, ⟨"pair", 25, 0, [], some ⟨1⟩⟩,
    ⟨"lost", 1000, 0, [], none⟩]
  constants := [⟨"pair", ⟨1⟩, ⟨1⟩, 0⟩]
  natives := #["echo"]
  entry := none

/-- Returns its argument. -/
def echo : Native Unit := fun call memory host => (.ok (call.args.headD .void), memory, host)

def echoing (name : String) : Option (Native Unit) := if name = "echo" then some echo else none

/-- What the main routine of `lost` returns for a pair of zeros. -/
def lostAnswer : Option UInt64 :=
  match Machine.build lost echoing .standard, Pool.forProgram lost with
  | .ok m, .ok pool =>
    match m.layouts.shape ⟨1⟩ with
    | .ok shape =>
      match m.execute .silent ⟨0⟩ [shape.zero] (.idle .empty pool () ()) with
      | .ok (.uint answer) _ => some answer
      | _ => none
    | _ => none
  | _, _ => none

theorem echo_own (l : Layouts) : Native.Own l echo := by
  intro call memory host v memory' host' _ hargs hrun
  cases hrun
  cases hcall : call.args with
  | nil => trivial
  | cons a rest => exact hargs a (hcall ▸ List.mem_cons_self)

/-- The host passes a pair of its own, and calls a routine without code after it. -/
theorem runs_without_panic_lost :
    ∃ (m : Machine Unit) (pool : Pool) (shape : Shape),
      Machine.build lost echoing .standard = .ok m ∧ Pool.forProgram lost = .ok pool ∧
      m.layouts.shape ⟨1⟩ = .ok shape ∧ ∃ s : State Unit Unit,
        m.executeStrict .silent ⟨0⟩ [shape.zero] (.idle .empty pool () ()) = .ok (.uint 5) s ∧
        ∀ p t, m.executeStrict .silent ⟨2⟩ [] s ≠ .error (.panic p) t := by
  have hanswer : lostAnswer = some 5 := by decide +kernel
  unfold lostAnswer at hanswer
  split at hanswer
  case h_2 => cases hanswer
  next m pool hm hpool =>
  split at hanswer
  case h_2 => cases hanswer
  next shape hshape =>
  split at hanswer
  case h_2 => cases hanswer
  next answer s hs =>
  cases hanswer
  have hnatives : m.NativesOwn := by
    refine nativesOwn_of_build hm fun name native h => ?_
    unfold echoing at h
    split at h <;> cases h
    exact echo_own _
  have hbounded : m.layouts.Bounded := by
    have hlayouts : (Layouts.compute lost.types).map (fun l => decide l.Bounded) = .ok true := by
      decide +kernel
    rw [BuiltFor.layouts ⟨_, _, hm⟩] at hlayouts
    exact of_decide_eq_true (Except.ok.inj hlayouts)
  have hstorage : pool.reserved < 2 ^ 64 := by
    have hreserved : (Pool.forProgram lost).toOption.map Pool.reserved = some 17 := by
      decide +kernel
    rw [hpool] at hreserved
    rw [Option.some.inj hreserved]
    decide
  have hfirst : Hosted lost m (.idle .empty pool () ()) :=
    .fresh ⟨_, _, hm⟩ hbounded hnatives hpool hstorage _ _ _
  have hargs : ∀ a ∈ [shape.zero], Value.Own m.layouts a :=
    List.forall_mem_singleton.mpr (Shape.decode_own (hfirst.sane.layouts.own hshape) _)
  have hagain := hfirst.execute hargs .silent ⟨0⟩
  rw [hs] at hagain
  refine ⟨m, pool, shape, hm, hpool, hshape, s, ?_, ?_⟩
  · have hcalm := (runs_without_panic hfirst .silent).execute ⟨0⟩ hargs
    rw [hs] at hcalm
    exact hcalm.2
  · exact ((runs_without_panic hagain .silent).execute ⟨2⟩ (List.forall_mem_nil _)).1

/-- A routine that gets the second field of a value of the last type, whose size has wrapped around
to zero. -/
def outsized : Program where
  code := ([.pushZero ⟨64⟩, .fieldGet ⟨64⟩ 1, .ret].flatMap Instr.encode).toArray
  sources := .empty
  types := .doubled
  routines := #[⟨"main", 0, 0, [], none⟩]
  constants := []
  natives := #[]
  entry := none

def outsizedPanic : Option Panic :=
  match Machine.build outsized (fun _ => (none : Option (Native Unit))) .standard,
      Pool.forProgram outsized with
  | .ok m, .ok pool =>
    match m.executeStrict .silent ⟨0⟩ [] (.idle .empty pool () ()) with
    | .error (.panic p) _ => some p
    | _ => none
  | _, _ => none

/-- The field lies behind the bytes of the value. -/
theorem panic_of_outsized : ∃ (m : Machine Unit) (pool : Pool),
    Machine.build outsized (fun _ => none) .standard = .ok m ∧
      Pool.forProgram outsized = .ok pool ∧ m.NativesOwn ∧
      ∃ t : State Unit Unit, m.executeStrict .silent ⟨0⟩ [] (.idle .empty pool () ()) =
        .error (.panic (.slice (2 ^ 63) 0 0)) t := by
  have hpanic : outsizedPanic = some (.slice (2 ^ 63) 0 0) := by decide +kernel
  unfold outsizedPanic at hpanic
  split at hpanic
  case h_2 => cases hpanic
  next m pool hm hpool =>
  split at hpanic
  case h_2 => cases hpanic
  next p t ht =>
  cases hpanic
  have hnatives : m.NativesOwn := fun id name native h => nomatch m.native_of_build hm h
  exact ⟨m, pool, hm, hpool, hnatives, t, ht⟩

end Machine
end ForeignVM
