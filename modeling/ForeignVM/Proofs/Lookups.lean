import ForeignVM.Proofs.Indirect

/-!
# ForeignVM.Proofs.Lookups

What instructions look up: the routine and the locals of the current frame, routines by their ids,
constants by their offsets, and the types of results and constants. If the frames have been entered
for reasons that a machine and its pool stand for, these lookups succeed; the few that may still
fail are listed.

* `Action.Faults`     — the errors about a program that an action may end with on a state.
* `Machine.Provides`  — the machine has the types and the routines that are looked up.
* `State.Backed`      — the frames stand for routines, types and constants that are there;
  `Backed.cycle`: instructions keep this.
* `Remaining`         — the errors that remain; `faults_cycle`: there is no other.
-/

namespace ForeignVM

/-- The error is about a routine, a type or a constant, all of which are settled before a run. -/
def RuntimeError.IsStatic : RuntimeError → Prop
  | .unknownRoutine _ | .type _ | .pool _ => True
  | _ => False

theorem RuntimeError.IsRefusal.not_static {e : RuntimeError} (h : e.IsRefusal) : ¬ e.IsStatic := by
  cases e with
  | typeMismatch _ _ => exact id
  | closureContext => exact id
  | abort _ => exact id
  | _ => exact h.elim

/-- A constant is not stored twice; of the right size, it is refused for no other reason. -/
theorem Pool.store_error {p q : Pool} {o : UInt32} {e : PoolEntry} {bytes : Bytes}
    {cause : PoolError} (he : p.entry o = .ok e) (hsize : bytes.length = e.size)
    (h : p.store o bytes = .error cause q) : cause = .alreadyInitialized o := by
  unfold store at h
  rw [he] at h
  dsimp only at h
  split at h
  · cases h
    rfl
  · rw [if_neg (not_not.mpr hsize)] at h
    cases h

/-! ## Errors of an action on a state -/

/-- If the action ends on the state with an error about the program, this is one of `P`. -/
abbrev Action.Faults {σ τ α : Type} (P : RuntimeError → Prop) (a : Action σ τ α)
    (s : State σ τ) : Prop :=
  Raises (fun e => e.IsStatic → P e) a s

/-- Operands, memory and conversions have nothing to do with what is settled before a run. -/
theorem admits_static (P : RuntimeError → Prop) : Admits fun e => e.IsStatic → P e where
  operands _ := False.elim
  memory _ := False.elim
  refusal _ h hstatic := absurd hstatic h.not_static

/-! ## Frames that stand for what is there -/

/-- What becomes of the result is settled by a type or a constant that is there. -/
def FrameKind.Backed (l : Layouts) (pool : Pool) : FrameKind → Prop
  | .host | .call => True
  | .procCall ret => ∀ ty ∈ ret, ∃ s, l.shape ty = .ok s
  | .constant o => ∃ e, pool.entry o = .ok e

structure Frame.Backed {σ : Type} (m : Machine σ) (pool : Pool) (f : Frame) : Prop where
  routine : ∃ c, m.callee? f.routine = some c
  kind : f.kind.Backed m.layouts pool

/-- All frames of the state are such, and the constants are those of `pool`. -/
structure State.Backed {σ τ : Type} (m : Machine σ) (pool : Pool) (s : State σ τ) : Prop where
  same : Pool.SameEntries pool s.pool
  frames : ∀ f ∈ s.calls.frames, f.Backed m pool

/-- The types of results have shapes; a constant has a type of the size that is reserved for it,
and a routine that computes it. -/
structure Machine.Provides {σ : Type} (m : Machine σ) (pool : Pool) : Prop where
  result : ∀ id c, m.callee? id = some c → ∀ ty ∈ c.routine.ret, ∃ s, m.layouts.shape ty = .ok s
  signature : ∀ ty params ret, m.layouts.types.signature ty = .ok (params, ret) →
    ∀ ty' ∈ ret, ∃ s, m.layouts.shape ty' = .ok s
  constant : ∀ o e, pool.entry o = .ok e → ∃ s c, m.layouts.shape e.ty = .ok s ∧ s.size = e.size ∧
    m.callee? e.initializer = some c

namespace State.Backed

open Machine ForeignVM.Action

variable {σ τ : Type} {m : Machine σ} {pool : Pool} {s t : State σ τ} (h : s.Backed m pool)

theorem idle (hsame : Pool.SameEntries pool s.pool) (hcalls : s.calls = .empty) :
    s.Backed m pool where
  same := hsame
  frames f hf := by
    rw [hcalls] at hf
    cases hf

include h

theorem congr (hpool : t.pool = s.pool) (hcalls : t.calls = s.calls) : t.Backed m pool :=
  ⟨hpool ▸ h.same, hcalls ▸ h.frames⟩

theorem within (ht : s.Within t) : t.Backed m pool := h.congr ht.pool ht.calls

theorem current {f : Frame} (hf : s.calls.current? = some f) : f.Backed m pool :=
  h.frames f (List.mem_of_mem_head? hf)

theorem tail (hpool : Pool.SameEntries s.pool t.pool) (hcalls : t.calls = s.calls.tail) :
    t.Backed m pool where
  same := h.same.trans hpool
  frames f hf := by
    rw [hcalls] at hf
    exact h.frames f (List.mem_of_mem_tail hf)

variable (watch : Observer τ)

theorem enter {id : RoutineId} {kind : FrameKind} (hkind : kind.Backed m.layouts pool)
    (args : List Value) : (finalState (m.enter watch id args kind s)).Backed m pool := by
  have hentering := m.entering_enter watch id args kind s
  generalize m.enter watch id args kind s = r at hentering
  cases hentering with
  | begun hc _ _ => exact ⟨h.same, List.forall_mem_cons.mpr ⟨⟨⟨_, hc⟩, hkind⟩, h.frames⟩⟩
  | refused => exact h
  | rejected _ _ => exact h.congr rfl rfl
  | noPlace _ _ => exact h.congr rfl rfl

theorem start (id : RoutineId) (args : List Value) :
    (finalState (m.start watch id args s)).Backed m pool := by
  have hhost : FrameKind.host.Backed m.layouts pool := trivial
  refine enter ?_ watch hhost args
  exact h.congr rfl rfl

theorem leave {f : Frame} (hf : s.calls.current? = some f) (ip : UInt32) :
    (finalState (m.leave watch ip s)).Backed m pool := by
  have hleaving := m.leaving_leave watch hf ip
  generalize m.leave watch ip s = r at hleaving
  cases hleaving with
  | failed ht => exact h.within ht
  | dangling _ => exact h.tail (.refl _) rfl
  | finished _ _ _ _ => exact h.tail (.refl _) rfl
  | undelivered _ _ => exact h.tail (.refl _) rfl
  | delivered _ _ _ hd =>
    refine h.tail ?_ (m.calls_deliver watch hd)
    generalize f.kind = kind at hd
    cases hd with
    | constant _ _ _ hstore => exact .of_store hstore
    | _ => exact .refl _

/-- One case per instruction that leaves the frame or touches the pool. -/
theorem perform (hm : m.Provides pool) (ip : UInt32) (i : Instr) :
    (finalState (m.perform watch ip i s)).Backed m pool := by
  by_cases hinner : i.isInner
  · exact h.within (m.perform_within watch hinner ip s)
  cases i with
  | malloc ty count =>
    obtain ⟨e, hr⟩ | ⟨size, a, memory, _, hr⟩ := m.malloc_cases watch ty count s <;>
      rw [Machine.perform, hr] <;> exact h.congr rfl rfl
  | call id =>
    obtain ⟨e, hr⟩ | ⟨c, args, _, _, hr⟩ := m.call_cases watch ip id s
    · rw [hr]
      exact h
    · rw [hr]
      have hcall : FrameKind.call.Backed m.layouts pool := trivial
      refine enter ?_ watch hcall args
      exact h.congr rfl rfl
  | constGet offset =>
    obtain ⟨e, hr⟩ | ⟨_, _, _, _, _, _, _, hr⟩ | ⟨id, hclear, _, hr⟩ :=
      m.constGet_cases watch offset s
    · rw [Machine.perform, hr]
      exact h
    · rw [Machine.perform, hr]
      exact h.congr rfl rfl
    · rw [Machine.perform, hr]
      obtain ⟨⟨e, he⟩, _⟩ := Pool.isInitialized_eq_ok_iff.mp hclear
      have hkind : (FrameKind.constant offset).Backed m.layouts pool :=
        ⟨e, (h.same.entry offset).symm.trans he⟩
      refine enter ?_ watch hkind []
      exact h.congr rfl rfl
  | callProc ty =>
    have hcalling := m.calling_callProc watch ip ty s
    rw [Machine.perform]
    generalize m.callProc watch ip ty s = r at hcalling
    cases hcalling with
    | failed ht => exact h.within ht
    | @routine params ret _ _ _ hsig _ _ _ =>
      have hkind : (FrameKind.procCall ret).Backed m.layouts pool := hm.signature ty params ret hsig
      refine enter ?_ watch hkind _
      exact h.congr rfl rfl
    | @native _ _ _ _ t _ _ _ _ _ _ hrun hr =>
      have ht : t.Backed m pool := h.congr hrun.pool hrun.calls
      obtain ⟨e, rfl⟩ | ⟨_, rfl⟩ | ⟨_, v, _, rfl⟩ := hr
      · exact ht
      · exact ht
      · exact ht.congr rfl rfl
  | _ => exact absurd rfl hinner

theorem step (hm : m.Provides pool) (l : Located) :
    (finalState (m.step watch l s)).Backed m pool := by
  by_cases hret : l.instr = .ret
  · rw [m.step_ret watch hret]
    cases hf : s.calls.current? with
    | none =>
      rw [m.leave_without_frame watch hf]
      exact h
    | some f => exact h.leave watch hf l.ip
  · rw [m.step_eq watch hret, finalState_unfinished]
    exact h.perform watch hm l.ip l.instr

theorem cycle (hm : m.Provides pool) : (finalState (m.cycle watch s)).Backed m pool := by
  rw [cycle_eq]
  cases decodeAt m.program.code s.ip with
  | error e => exact h
  | ok l =>
    have hfetched : (fetched watch s l).Backed m pool := h.congr rfl rfl
    exact hfetched.step watch hm l

end State.Backed

/-! ## The errors that remain -/

/-- Instructions that look something up about the program, and the return. -/
def Instr.looksUp : Instr → Bool
  | .localGet _ | .localSet _ | .localAddr _ | .call _ | .constGet _ | .ret => true
  | _ => false

namespace Machine

open ForeignVM.Action

variable {σ τ : Type} (m : Machine σ) (watch : Observer τ)

/-- The errors about the program that such an instruction may end with; `f?` is the current frame.
The operands of calls and reads need not be there, and a constant may get ready twice. -/
inductive Remaining (f? : Option Frame) : Instr → RuntimeError → Prop where
  | call {id : RoutineId} (h : m.callee? id = none) : Remaining f? (.call id) (.unknownRoutine id)
  | constGet {o : UInt32} : Remaining f? (.constGet o) (.pool (.undeclaredOffset o))
  | ret {f : Frame} {o : UInt32} (hf : f? = some f) (hkind : f.kind = .constant o) :
      Remaining f? .ret (.pool (.alreadyInitialized o))

variable {P : RuntimeError → Prop} {pool : Pool} {s : State σ τ}

theorem faults_enter {id : RoutineId} (hc : ∃ c, m.callee? id = some c) (args : List Value)
    (kind : FrameKind) : Faults P (m.enter watch id args kind) s := by
  obtain ⟨c, hc⟩ := hc
  have hfound : m.callee? id ≠ none := hc ▸ Option.some_ne_none c
  exact .enter m (admits_static P) watch (fun hnone => absurd hnone hfound) False.elim
    (fun _ _ _ => False.elim) args kind

theorem faults_localSlot (hs : s.Backed m pool) (ip : UInt32) (i : UInt16) :
    Faults P (m.localSlot ip i : Action σ τ (UInt64 × Slot)) s := by
  refine .localSlot m (admits_static P) (fun f hf hnone => ?_) (fun _ _ => False.elim) ip i
  obtain ⟨c, hc⟩ := (hs.current hf).routine
  cases hc.symm.trans hnone

variable (hm : m.Provides pool)
include hm

theorem faults_constGet (hs : s.Backed m pool) (o : UInt32) (f? : Option Frame) :
    Faults (m.Remaining f? (.constGet o)) (m.constGet watch o) s := by
  refine .get (.check (fun cause hcause _ => ?_) fun ready hready => ?_)
  · cases he : s.pool.entry o with
    | ok e =>
      rw [Pool.isInitialized, he] at hcause
      cases hcause
    | error cause' =>
      rw [Pool.isInitialized, he] at hcause
      cases hcause
      unfold Pool.entry at he
      split at he
      · cases he
      · cases he
        exact .constGet
  · obtain ⟨⟨e, he⟩, _⟩ := Pool.isInitialized_eq_ok_iff.mp hready
    obtain ⟨sh, c, hsh, _, hc⟩ := hm.constant o e ((hs.same.entry o).symm.trans he)
    split
    · refine .found ⟨e, he⟩ fun e' he' => ?_
      cases he.symm.trans he'
      exact .found ⟨sh, hsh⟩ fun _ _ => .found ⟨_, Pool.data_of_entry he⟩ fun _ _ =>
        .ok ⟨_, _, rfl⟩
    · refine .found ⟨_, Pool.initializer_of_entry he⟩ fun id hid => .bind (.ok ⟨_, _, rfl⟩) ?_
      cases hid.symm.trans (Pool.initializer_of_entry he)
      exact fun _ _ _ => m.faults_enter watch ⟨c, hc⟩ [] _

theorem faults_storeConstant (hsame : Pool.SameEntries pool s.pool) {o : UInt32}
    (he : ∃ e, pool.entry o = .ok e) (hP : P (.pool (.alreadyInitialized o))) (v : Value) :
    Faults P (m.storeConstant watch o v) s := by
  obtain ⟨e, he⟩ := he
  have hentry : s.pool.entry o = .ok e := (hsame.entry o).trans he
  obtain ⟨sh, _, hsh, hsize, _⟩ := hm.constant o e he
  refine .get (.found ⟨e, hentry⟩ fun e' he' => ?_)
  cases hentry.symm.trans he'
  refine .found ⟨sh, hsh⟩ fun sh' hsh' => ?_
  cases hsh.symm.trans hsh'
  refine .check (fun _ hencode hstatic => ?_) fun bytes hbytes => .bind (.changePool ?_) ?_
  · exact absurd hstatic (Shape.refusal_of_encode hencode).not_static
  · intro cause _ hstore _
    rw [Pool.store_error hentry ((Shape.length_of_encode hbytes).trans hsize) hstore]
    exact hP
  · exact fun _ _ _ => .ok ⟨_, _, rfl⟩

theorem faults_deliver (hsame : Pool.SameEntries pool s.pool) {kind : FrameKind}
    (hkind : kind.Backed m.layouts pool)
    (hP : ∀ o, kind = .constant o → P (.pool (.alreadyInitialized o))) (v : Value) :
    Faults P (m.deliver watch v kind) s := by
  cases kind with
  | host => exact .pure ()
  | call =>
    unfold deliver
    dsimp only
    split
    · exact .pure ()
    · exact .ok ⟨_, _, rfl⟩
  | procCall ret =>
    cases ret with
    | none => exact .pure ()
    | some ty =>
      exact .found (hkind ty rfl) fun sh _ => .bind (.coerce (admits_static P) sh v) fun _ _ _ =>
        .push _
  | constant o =>
    exact .bind (m.faults_storeConstant watch hm hsame hkind (hP o rfl) v) fun _ _ _ =>
      .ok ⟨_, _, rfl⟩

theorem faults_result {id : RoutineId} {c : Callee} (hc : m.callee? id = some c) (ip : UInt32) :
    Faults P (m.result ip c.routine.ret : Action σ τ Value) s := by
  refine .result m (admits_static P) ip fun ty hty e he => ?_
  obtain ⟨sh, hsh⟩ := hm.result id c hc ty hty
  cases hsh.symm.trans he

theorem faults_handOver {f : Frame} (hsame : Pool.SameEntries pool s.pool)
    (hkind : f.kind.Backed m.layouts pool) (v : Value) :
    Faults (m.Remaining (some f) .ret) (m.handOver watch f v) s := by
  have hdeliver := m.faults_deliver watch hm hsame hkind (P := m.Remaining (some f) .ret)
    (fun o ho => .ret rfl ho) v
  unfold handOver
  split
  · exact .pure _
  · exact .bind hdeliver fun _ _ _ => .ok ⟨_, _, rfl⟩

theorem faults_leave (hs : s.Backed m pool) (ip : UInt32) :
    Faults (m.Remaining s.calls.current? .ret) (m.leave watch ip) s := by
  intro e t he hstatic
  cases hf : s.calls.current? with
  | none =>
    cases (m.leave_without_frame watch hf).symm.trans he
    exact hstatic.elim
  | some f =>
    obtain ⟨⟨c, hc⟩, hkind⟩ := hs.current hf
    rw [m.leave_eq watch hf, hc] at he
    dsimp only at he
    obtain ⟨e', u, hr, _⟩ | ⟨v, n, hr, _⟩ := m.result_cases ip c.routine.ret s
    · rw [hr] at he
      cases he
      exact m.faults_result hm hc ip e t hr hstatic
    · rw [hr] at he
      dsimp only at he
      split at he
      · cases he
        exact hstatic.elim
      · refine m.faults_handOver watch hm ?_ hkind v e t he hstatic
        exact hs.same

/-- One case per instruction; after all but the return the run goes on. -/
theorem faults_step (hs : s.Backed m pool) {l : Located} (hi : l.instr.looksUp) :
    Faults (m.Remaining s.calls.current? l.instr) (m.step watch l) s := by
  obtain ⟨i, ip, next⟩ := l
  have hgo {P : RuntimeError → Prop} {a : Action σ τ Unit} (ha : Faults P a s) :
      Faults P (a >>= fun _ => pure none : Action σ τ (Option Value)) s :=
    .bind ha fun _ _ _ => .pure none
  cases i with
  | localGet i =>
    exact hgo (.bind (m.faults_localSlot hs ip i) fun _ _ _ =>
      .bind (.load (admits_static _) _ _) fun _ _ _ => .push _)
  | localSet i =>
    refine hgo (.bind (.pop (admits_static _) ip) fun v t hpop => ?_)
    -- the local is looked up after an operand is gone, but in the same frame
    have hwithin := inner_pop ip s
    rw [hpop] at hwithin
    exact .bind (m.faults_localSlot (hs.within hwithin) ip i) fun _ _ _ =>
      .store (admits_static _) _ _ _
  | localAddr i =>
    exact hgo (.bind (m.faults_localSlot hs ip i) fun _ _ _ => .ok ⟨_, _, rfl⟩)
  | call id =>
    refine hgo (.callee m (fun hnone _ => .call hnone) fun c hc => ?_)
    exact .bind (.popMany (admits_static _) ip _) fun _ _ _ => m.faults_enter watch ⟨c, hc⟩ _ _
  | constGet o => exact hgo (m.faults_constGet watch hm hs o _)
  | ret => exact m.faults_leave watch hm hs ip
  | _ => cases hi

/-- An instruction that looks something up ends with one of the errors that remain, or with one
that is not about the program. -/
theorem faults_cycle (hs : s.Backed m pool) {l : Located}
    (hl : decodeAt m.program.code s.ip = .ok l) (hi : l.instr.looksUp) :
    Faults (m.Remaining s.calls.current? l.instr) (m.cycle watch) s := by
  intro e t he
  rw [cycle_eq, hl] at he
  have hfetched : (fetched watch s l).Backed m pool := hs.congr rfl rfl
  exact m.faults_step watch hm hfetched hi e t he

end Machine
end ForeignVM
