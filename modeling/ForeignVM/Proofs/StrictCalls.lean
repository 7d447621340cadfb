import ForeignVM.Proofs.Orderly

/-!
# ForeignVM.Proofs.StrictCalls

Calls and returns of the strict machine do what those of the plain machine do.

* `follows_enter`, `follows_leave` — a call of a routine, and the return from the current frame.
* `follows_constGet`               — the value of a constant, or a call of its initializer.
* `follows_callNative`, `follows_callProc` — calls of natives and through proc values.
-/

namespace ForeignVM
namespace Machine

open ForeignVM.Action

variable {σ τ : Type} {m : Machine σ} (hm : m.Sane) {watch : Observer τ} {s : State σ τ}
  (hs : s.Orderly m)

include hs

theorem follows_release (address : UInt64) :
    Follows m (fun _ => True) s (releaseStrict address) (release address) :=
  .get <| .bind (.ask hs (Memory.freeStrict_eq _ _) fun _ _ => trivial) fun _ _ ht _ =>
    .plainly (.setMemory ht _)

theorem follows_load (address : UInt64) {shape : Shape} (hshape : shape.Own m.layouts) :
    Follows m (Value.Proper m.layouts) s (loadStrict address shape) (load address shape) := by
  refine .get (.ask hs (Memory.loadStrict_eq _ _ _) fun v hv => ?_)
  unfold Memory.load at hv
  split at hv <;> cases hv
  exact Shape.decode_proper hshape _

theorem follows_store (address : UInt64) {shape : Shape} (hshape : shape.Own m.layouts) {v : Value}
    (hv : v.Own m.layouts) :
    Follows m (fun _ => True) s (storeStrict address shape v) (store address shape v) :=
  .get <| .bind (.ask hs (Memory.storeStrict_eq hshape hv) fun _ _ => trivial) fun _ _ ht _ =>
    .plainly (.setMemory ht _)

/-- A store that is refused leaves the pool as it was, as the checks of the strict machine do. -/
theorem follows_storePool (offset : UInt32) (bytes : Bytes) :
    Follows m (fun _ => True) s (changePoolStrict (·.storeStrict offset bytes))
      (changePool (·.store offset bytes)) := by
  have hstrict := hs.pool.storeStrict_eq offset bytes
  have hrun : (changePoolStrict (·.storeStrict offset bytes) : Strict σ τ Unit) s =
      match s.pool.storeStrict offset bytes with
      | .ok pool => .ok () { s with pool := pool }
      | .error e => .error e s := by
    change ((Strict.ask (s.pool.storeStrict offset bytes) >>= _ : Strict σ τ Unit)) s = _
    cases s.pool.storeStrict offset bytes <;> rfl
  constructor
  case same =>
    rw [hrun, hstrict, changePool_run]
    cases hp : s.pool.store offset bytes with
    | error e q =>
      rw [Pool.eq_of_store_refused hp]
      rfl
    | ok _ q => rfl
  case tidy =>
    rw [changePool_run]
    cases hp : s.pool.store offset bytes with
    | error e q =>
      rw [Pool.eq_of_store_refused hp]
      exact hs
    | ok _ q => exact ⟨⟨⟨hs.frames, hs.pool.of_store hp⟩, hs.operands⟩, trivial⟩

theorem follows_coerce {shape : Shape} (hshape : shape.Own m.layouts) {v : Value}
    (hv : v.Own m.layouts) :
    Follows m (Value.Proper m.layouts) s (Strict.ask (shape.coerceStrict v))
      (ofResult (shape.coerce v)) :=
  .ask hs (Shape.coerceStrict_eq hshape hv) fun _ => Shape.coerce_proper hshape

theorem follows_popMany (ip : UInt32) (n : Nat) :
    Follows m (fun vs => ∀ v ∈ vs, v.Proper m.layouts) s (popManyStrict ip n) (popMany ip n) := by
  refine .get ?_
  by_cases hheight : s.operands.height < s.calls.base + n
  · rw [if_pos hheight, if_pos hheight]
    exact .fail hs _
  · rw [if_neg hheight, if_neg hheight]
    have hroom : n ≤ s.operands.values.length := by
      have heq := s.operands.height_eq
      omega
    rw [front_ok hroom]
    refine ⟨rfl, hs.drop n, fun v hv => ?_⟩
    exact hs.operands v (List.mem_of_mem_take (List.mem_reverse.mp hv))

/-- By induction on the slots. -/
theorem follows_storeArgs (locals : UInt64) {slots : List Slot}
    (hslots : ∀ slot ∈ slots, slot.shape.Own m.layouts) {args : List Value}
    (hargs : ∀ a ∈ args, Value.Own m.layouts a) :
    Follows m (fun _ => True) s (storeArgsStrict locals slots args)
      (storeArgs locals slots args) := by
  induction slots generalizing args s with
  | nil => exact .pure hs trivial
  | cons slot slots ih =>
    cases args with
    | nil => exact .pure hs trivial
    | cons arg args =>
      refine .bind (.plainly (.check hs fun _ _ => trivial)) fun address t ht _ => ?_
      refine .get ?_
      have hslot := hslots slot List.mem_cons_self
      have harg := hargs arg List.mem_cons_self
      -- the strict machine takes the bytes of the place, the plain one only looks at it
      have hread := Memory.readStrict_eq t.memory address slot.shape.size
      rw [Memory.read] at hread
      cases hat : t.memory.blockAt address slot.shape.size with
      | error e =>
        rw [hat] at hread
        rw [hread]
        exact .fail ht _
      | ok block =>
        rw [hat] at hread
        rw [hread, check_ok, pure_bind]
        have hplace := ByteStore.length_read block.bytes (Address.offset address) slot.shape.size
        refine .asked ?_
        rw [Shape.writeStrict_exact hslot harg hplace]
        cases slot.shape.encode arg with
        | error e => exact .bind (follows_release ht locals) fun _ _ hu _ => .fail hu e
        | ok bytes =>
          refine .get ?_
          refine .bind (.ask ht (Memory.writeStrict_eq _ _ _) fun _ _ => trivial) ?_
          intro memory u hu _
          refine .bind (.plainly (.setMemory hu memory)) fun _ u hu _ => ih hu ?_ ?_
          · exact fun slot hmem => hslots slot (.tail _ hmem)
          · exact fun a hmem => hargs a (.tail _ hmem)

include hm

theorem follows_enter (id : RoutineId) {args : List Value}
    (hargs : ∀ a ∈ args, Value.Own m.layouts a) (kind : FrameKind) :
    Follows m (fun _ => True) s (m.enterStrict watch id args kind)
      (m.enter watch id args kind) := by
  refine .callee hs hm fun c hc => .get ?_
  by_cases hdepth : m.limits.recursion.toNat ≤ s.calls.depth
  · rw [if_pos hdepth, if_pos hdepth]
    exact .fail hs _
  rw [if_neg hdepth, if_neg hdepth]
  by_cases harity : args.length ≠ c.routine.params.toNat
  · rw [if_pos harity, if_pos harity]
    exact .fail hs _
  rw [if_neg harity, if_neg harity]
  rw [frameStrict_eq hc, pure_bind]
  refine .bind (P := fun _ => True) ?_ fun locals t ht _ => ?_
  · refine .bind (.plainly (.allocate hs _)) fun locals t ht _ => ?_
    exact .bind (follows_storeArgs ht locals (hm.slot hc) hargs) fun _ _ hu _ => .pure hu trivial
  · refine ⟨rfl, ⟨⟨fun f hf => ?_, ht.pool⟩, ht.operands⟩, trivial⟩
    obtain rfl | hf := List.mem_cons.mp hf
    · exact ⟨c, hc⟩
    · exact ht.frames f hf

/-- The result of a routine may be void, but never an aggregate with another layout. -/
theorem follows_result (ip : UInt32) (ret : Option TypeId) :
    Follows m (Value.Own m.layouts) s (m.resultStrict ip ret) (m.result ip ret) := by
  cases ret with
  | none => exact .pure hs trivial
  | some ty =>
    refine .bind (.plainly (.pop hs ip)) fun v t ht hv => ?_
    refine .bind (.shape ht hm ty) fun shape u hu hshape => ?_
    exact (follows_coerce hu hshape hv.own).mono fun _ h => h.own

theorem follows_storeConstant (offset : UInt32) {v : Value} (hv : v.Own m.layouts) :
    Follows m (Value.Proper m.layouts) s (m.storeConstantStrict watch offset v)
      (m.storeConstant watch offset v) := by
  refine .get ?_
  refine .bind (.ask hs (hs.pool.entryStrict_eq offset) fun _ _ => trivial) fun entry t ht _ => ?_
  refine .bind (.shape ht hm _) fun shape t ht hshape => ?_
  refine .bind (.ask ht (Shape.writeStrict_exact hshape hv List.length_replicate) fun _ => id) ?_
  intro bytes t ht hbytes
  refine .bind (follows_storePool ht offset bytes) fun _ u hu _ => ?_
  refine .bind (.plainly (.emit hu watch _)) fun _ u hu _ => ?_
  rw [Shape.readStrict_eq (Nat.le_of_eq (Shape.length_of_encode hbytes).symm)]
  exact .pure hu (Shape.decode_proper hshape bytes)

theorem follows_deliver {v : Value} (hv : v.Own m.layouts) (kind : FrameKind) :
    Follows m (fun _ => True) s (m.deliverStrict watch v kind) (m.deliver watch v kind) := by
  cases kind with
  | host => exact .pure hs trivial
  | call =>
    cases v with
    | void => exact .pure hs trivial
    | _ => exact .plainly (.push hs ⟨nofun, hv⟩)
  | procCall ret =>
    cases ret with
    | none => exact .pure hs trivial
    | some ty =>
      refine .bind (.shape hs hm ty) fun shape t ht hshape => ?_
      exact .bind (follows_coerce ht hshape hv) fun _ _ hu hw => .plainly (.push hu hw)
  | constant offset =>
    exact .bind (follows_storeConstant hm hs offset hv) fun _ _ ht hw => .plainly (.push ht hw)

theorem follows_leave (ip : UInt32) :
    Follows m (fun o => ∀ v, o = some v → v.Own m.layouts) s (m.leaveStrict watch ip)
      (m.leave watch ip) := by
  refine .get ?_
  cases hf : s.calls.current? with
  | none => exact .fail hs _
  | some f =>
    dsimp only
    refine .callee hs hm fun c _ => ?_
    refine .bind (follows_result hm hs ip _) fun v t ht hv => ?_
    refine .bind (P := fun _ => True) ⟨rfl, ⟨⟨fun g hg => ?_, ht.pool⟩, fun w hw => ?_⟩, trivial⟩ ?_
    · exact ht.frames g (List.mem_of_mem_tail hg)
    · exact ht.operands w (List.mem_of_mem_drop hw)
    intro _ t ht _
    refine .bind (follows_release ht _) fun _ t ht _ => ?_
    refine .bind (.plainly (.emit ht watch _)) fun _ t ht _ => ?_
    cases hkind : f.kind with
    | host =>
      exact .pure ht fun w hw => Option.some.inj hw ▸ hv
    | _ =>
      refine .bind (follows_deliver hm ht hv _) fun _ t ht _ => ?_
      exact .bind (.plainly (.jump ht _)) fun _ t ht _ => .pure ht fun _ h => nomatch h

theorem follows_constGet (offset : UInt32) :
    Follows m (fun _ => True) s (m.constGetStrict watch offset) (m.constGet watch offset) := by
  refine .get ?_
  refine .bind (.ask hs (hs.pool.isInitializedStrict_eq offset) fun _ _ => trivial) ?_
  intro b t ht _
  cases b with
  | false =>
    refine .bind (.ask ht (hs.pool.initializerStrict_eq offset) fun _ _ => trivial) ?_
    intro initializer t ht _
    refine .bind (.plainly (.emit ht watch _)) fun _ t ht _ => ?_
    exact follows_enter hm ht initializer (List.forall_mem_nil _) _
  | true =>
    refine .bind (.ask ht (hs.pool.entryStrict_eq offset) fun _ => id) fun entry t ht hentry => ?_
    refine .bind (.plainly (.check ht fun _ => id)) fun shape t ht hshape => ?_
    refine .bind (.ask ht (hs.pool.dataStrict_eq offset) fun _ => id) fun bytes t ht hbytes => ?_
    have hlength := hs.pool.size_of_data hentry hshape hbytes
    rw [Shape.readStrict_eq (Nat.le_of_eq hlength.symm)]
    refine .asked (.bind (.plainly (.emit ht watch _)) fun _ t ht _ => ?_)
    exact .plainly (.push ht (Shape.decode_proper (hm.layouts.own hshape) bytes))

omit hs in
/-- A native changes the memory and what the host keeps, whenever it is called. -/
theorem callNative_spec (id : NativeId) {args : List Value}
    (hargs : ∀ a ∈ args, Value.Own m.layouts a) (context : UInt64) (s : State σ τ) :
    ∃ (t : State σ τ) (outcome : Except RuntimeError Value),
      (t.calls = s.calls ∧ t.pool = s.pool ∧ t.operands = s.operands) ∧
      (∀ v, outcome = .ok v → v.Own m.layouts) ∧
      m.callNative watch id args context s = (ofResult outcome : Action σ τ Value) t ∧
      m.callNativeStrict watch id args context s =
        calm ((ofResult outcome : Action σ τ Value) t) := by
  unfold callNative callNativeStrict
  cases hn : m.native? id with
  | none => exact ⟨s, .error _, ⟨rfl, rfl, rfl⟩, nofun, rfl, rfl⟩
  | some entry =>
    obtain ⟨name, native⟩ := entry
    dsimp only
    rw [hm.element_name hn]
    obtain ⟨outcome, memory, host, hrun⟩ : ∃ outcome memory host,
        native ⟨name, args, context, m.layouts⟩ s.memory s.host = (outcome, memory, host) :=
      ⟨_, _, _, rfl⟩
    let t : State σ τ :=
      { s with memory := memory, host := host, trace := watch (.native id) s.trace }
    have hown : ∀ v, outcome = .ok v → v.Own m.layouts := by
      rintro v rfl
      exact hm.natives id name native hn _ _ _ _ _ _ rfl hargs hrun
    refine ⟨t, outcome, ⟨rfl, rfl, rfl⟩, hown, ?_, ?_⟩
    · simp only [bind_run, emit_run, get_run, set_run, hrun, t]
    · let r := native ⟨name, args, context, m.layouts⟩ s.memory s.host
      change Strict.ask (refuse (fun e => e) r.1)
        { s with memory := r.2.1, host := r.2.2, trace := watch (.native id) s.trace } = _
      rw [show r = _ from hrun]
      cases outcome <;> rfl

theorem follows_callNative (id : NativeId) {args : List Value}
    (hargs : ∀ a ∈ args, Value.Own m.layouts a) (context : UInt64) :
    Follows m (Value.Own m.layouts) s (m.callNativeStrict watch id args context)
      (m.callNative watch id args context) := by
  obtain ⟨t, outcome, ⟨hcalls, hpool, hoperands⟩, hown, hplain, hstrict⟩ :=
    callNative_spec hm id hargs context s
  refine ⟨hstrict.trans (hplain ▸ rfl), ?_⟩
  rw [hplain]
  exact .check (hs.congr hcalls hpool hoperands) hown

omit hs hm in
/-- By induction on the shapes. -/
theorem coerceArgsStrict_eq {shapes : List Shape} {args : List Value}
    (hshapes : ∀ shape ∈ shapes, shape.Own m.layouts) (hargs : ∀ a ∈ args, a.Own m.layouts) :
    coerceArgsStrict shapes args = refuse (fun e => e) (coerceArgs shapes args) := by
  induction shapes generalizing args with
  | nil => rfl
  | cons shape shapes ih =>
    cases args with
    | nil => rfl
    | cons arg args =>
      have hrest := ih (fun s h => hshapes s (.tail _ h)) fun a h => hargs a (.tail _ h)
      rw [coerceArgsStrict, coerceArgs, hrest,
        Shape.coerceStrict_eq (hshapes shape List.mem_cons_self) (hargs arg List.mem_cons_self)]
      cases shape.coerce arg with
      | error e => rfl
      | ok v => cases coerceArgs shapes args <;> rfl

omit hs hm in
theorem own_of_coerceArgs {shapes : List Shape} {args args' : List Value}
    (hshapes : ∀ shape ∈ shapes, shape.Own m.layouts) (h : coerceArgs shapes args = .ok args') :
    ∀ a ∈ args', a.Own m.layouts := by
  induction shapes generalizing args args' with
  | nil =>
    cases h
    exact List.forall_mem_nil _
  | cons shape shapes ih =>
    cases args with
    | nil =>
      cases h
      exact List.forall_mem_nil _
    | cons arg args =>
      rw [coerceArgs] at h
      cases hv : shape.coerce arg with
      | error e =>
        rw [hv] at h
        cases h
      | ok v =>
        cases hrest : coerceArgs shapes args with
        | error e =>
          rw [hv, hrest] at h
          cases h
        | ok rest =>
          rw [hv, hrest] at h
          cases h
          exact List.forall_mem_cons.mpr ⟨Shape.coerce_own (hshapes shape List.mem_cons_self) hv,
            ih (fun s h => hshapes s (.tail _ h)) hrest⟩

theorem follows_callTarget (p : ProcRef) {args : List Value}
    (hargs : ∀ a ∈ args, Value.Own m.layouts a) (ret : Option TypeId) {shape? : Option Shape}
    (hshape : ∀ shape, shape? = some shape → shape.Own m.layouts) :
    Follows m (fun _ => True) s (m.callTargetStrict watch p args ret shape?)
      (m.callTarget watch p args ret shape?) := by
  unfold callTargetStrict callTarget
  cases p.target with
  | none => exact .fail hs _
  | some target =>
    cases target with
    | routine id =>
      dsimp only
      by_cases hcontext : p.context ≠ 0
      · rw [if_pos hcontext, if_pos hcontext]
        exact .fail hs _
      · rw [if_neg hcontext, if_neg hcontext]
        exact follows_enter hm hs id hargs _
    | native id =>
      refine .bind (follows_callNative hm hs id hargs _) fun v t ht hv => ?_
      cases shape? with
      | none => exact .pure ht trivial
      | some shape =>
        exact .bind (follows_coerce ht (hshape shape rfl) hv) fun _ _ hu hw =>
          .plainly (.push hu hw)

theorem follows_callProc (ip : UInt32) (ty : TypeId) :
    Follows m (fun _ => True) s (m.callProcStrict watch ip ty) (m.callProc watch ip ty) := by
  refine .bind (.plainly (.check hs fun _ _ => trivial)) fun sig t ht _ => ?_
  refine .bind (.plainly (.check ht fun _ => id)) fun shapes t ht hshapes => ?_
  refine .bind (.plainly (.check ht fun _ => id)) fun shape? t ht hshape? => ?_
  have hparams : ∀ shape ∈ shapes, shape.Own m.layouts := fun _ =>
    hm.layouts.own_of_mem_mapM hshapes
  have hret : ∀ shape, shape? = some shape → shape.Own m.layouts := by
    rintro shape rfl
    exact hm.layouts.own_of_mapM hshape?
  refine .bind (follows_popMany ht ip _) fun raw t ht hraw => ?_
  refine .bind (.plainly (.popProc ht ip)) fun p t ht _ => ?_
  have hargs := coerceArgsStrict_eq hparams fun a ha => (hraw a ha).own
  refine .bind (.ask ht hargs fun _ => own_of_coerceArgs hparams) fun args t ht hown => ?_
  exact follows_callTarget hm ht p hown _ hret

end Machine
end ForeignVM
