import ForeignVM.Proofs.Isolation
import ForeignVM.Proofs.Locals

/-!
# ForeignVM.Proofs.Entries

How frames are entered in a run: by the host, by the two instructions for calls, and by the first
use of a constant; with which arguments, and what a refused call leaves behind.

* `Machine.Gives`   — the routine that an instruction calls, and the arguments that it gives.
* `Machine.Opens`   — a frame is entered in a run; `exists_opens`: by any instruction that does.
* `Machine.enter_error` — a call that fails leaves no frame and no block.
* `Machine.enter_rejected` — an argument that does not fit makes a call fail.
-/

namespace ForeignVM

open Address

namespace Machine

open ForeignVM.Action

variable {σ τ : Type} (m : Machine σ) (watch : Observer τ)

/-- The routine that an instruction calls, and the arguments; a proc value lies below the
arguments, which are converted to the types of its signature. -/
inductive Gives (pool : Pool) (values : List Value) : Instr → RoutineId → List Value → Prop where
  | call {id : RoutineId} {c : Callee} (hc : m.callee? id = some c) :
      Gives pool values (.call id) id (values.take c.routine.params.toNat).reverse
  | callProc {ty : TypeId} {params : List TypeId} {ret : Option TypeId} {shapes : List Shape}
      {p : ProcRef} {id : RoutineId} {args : List Value}
      (hsig : m.layouts.types.signature ty = .ok (params, ret))
      (hshapes : params.mapM m.layouts.shape = .ok shapes)
      (hp : values[params.length]? = some (.proc p)) (ht : p.target = some (.routine id))
      (hargs : coerceArgs shapes (values.take params.length).reverse = .ok args) :
      Gives pool values (.callProc ty) id args
  | initializer {offset : UInt32} {id : RoutineId} (hready : pool.isInitialized offset = .ok false)
      (hid : pool.initializer offset = .ok id) : Gives pool values (.constGet offset) id []

/-- In a run, a frame is entered in `s`; `t` is the state at the first instruction of the
routine. -/
inductive Opens : State σ τ → RoutineId → List Value → State σ τ → Prop where
  | host {s t : State σ τ} {id : RoutineId} {args : List Value} (hidle : s.calls = .empty)
      (h : m.start watch id args s = .ok () t) : Opens s id args t
  | program {s t : State σ τ} {l : Located} {id : RoutineId} {args : List Value}
      (hs : m.Reached watch s) (hl : decodeAt m.program.code s.ip = .ok l)
      (hgives : m.Gives s.pool s.operands.values l.instr id args)
      (h : m.cycle watch s = .ok none t) (hdeeper : s.calls.depth < t.calls.depth) :
      Opens s id args t

variable {m watch} {s t : State σ τ}

theorem Gives.unique {pool : Pool} {values args args' : List Value} {i : Instr} {id id' : RoutineId}
    (h : m.Gives pool values i id args) (h' : m.Gives pool values i id' args') :
    id' = id ∧ args' = args := by
  cases h with
  | call hc =>
    cases h' with
    | call hc' =>
      cases hc.symm.trans hc'
      exact ⟨rfl, rfl⟩
  | callProc hsig hshapes hp ht hargs =>
    cases h' with
    | callProc hsig' hshapes' hp' ht' hargs' =>
      cases hsig.symm.trans hsig'
      cases hshapes.symm.trans hshapes'
      cases hp.symm.trans hp'
      cases ht.symm.trans ht'
      cases hargs.symm.trans hargs'
      exact ⟨rfl, rfl⟩
  | initializer _ hid =>
    cases h' with
    | initializer _ hid' =>
      cases hid.symm.trans hid'
      exact ⟨rfl, rfl⟩

/-! ## Instructions that enter a frame -/

/-- The call of a routine from `s`, as far as memory and frames go. -/
def EntersFrom (m : Machine σ) (watch : Observer τ) (s : State σ τ) (id : RoutineId)
    (args : List Value) (t : State σ τ) : Prop :=
  ∃ kind s', m.enter watch id args kind s' = .ok () t ∧ s'.calls = s.calls ∧ s'.memory = s.memory

theorem enters_of_call {ip : UInt32} {id : RoutineId} {u : Unit}
    (h : m.perform watch ip (.call id) s = .ok u t) :
    ∃ args, m.Gives s.pool s.operands.values (.call id) id args ∧
      EntersFrom m watch s id args t := by
  obtain ⟨c, _, hcallee, h⟩ := bind_eq_ok h
  obtain ⟨hc, rfl⟩ := callee_ok hcallee
  obtain ⟨args, s', hpop, h⟩ := bind_eq_ok h
  obtain ⟨-, rfl, rfl⟩ := popMany_ok hpop
  exact ⟨_, .call hc, .call, _, h, rfl, rfl⟩

theorem enters_of_constGet {ip offset : UInt32} {u : Unit}
    (h : m.perform watch ip (.constGet offset) s = .ok u t)
    (hdeeper : s.calls.depth < t.calls.depth) :
    ∃ id args, m.Gives s.pool s.operands.values (.constGet offset) id args ∧
      EntersFrom m watch s id args t := by
  rw [perform] at h
  obtain ⟨e, he⟩ | ⟨_, _, _, _, _, _, _, hread⟩ | ⟨id, hready, hid, henter⟩ :=
    m.constGet_cases watch offset s
  · cases h.symm.trans he
  · cases h.symm.trans hread
    exact absurd hdeeper (Nat.lt_irrefl _)
  · exact ⟨id, [], .initializer hready hid, _, _, henter.symm.trans h, rfl, rfl⟩

/-- Natives do not enter frames. -/
theorem enters_of_callTarget {p : ProcRef} {args : List Value} {ret : Option TypeId}
    {shape? : Option Shape} {u : Unit}
    (h : m.callTarget watch p args ret shape? s = .ok u t)
    (hdeeper : s.calls.depth < t.calls.depth) :
    ∃ id, p.target = some (.routine id) ∧
      m.enter watch id args (.procCall ret) s = .ok () t := by
  unfold callTarget at h
  cases htarget : p.target with
  | none =>
    rw [htarget] at h
    cases h
  | some target =>
    rw [htarget] at h
    cases target with
    | routine id =>
      dsimp only at h
      split at h
      · cases h
      · exact ⟨id, rfl, h⟩
    | native id =>
      obtain ⟨v, s', hcall, h⟩ := bind_eq_ok h
      have hcalls : s'.calls = s.calls := by
        obtain ⟨e, he⟩ | ⟨s'', outcome, hrun, hc⟩ :=
          m.callNative_cases watch id args p.context s
        · cases hcall.symm.trans he
        · obtain ⟨-, rfl⟩ := check_eq_ok (hc.symm.trans hcall)
          exact hrun.calls
      have hsame : t.calls = s'.calls := by
        cases shape? with
        | none =>
          cases h
          rfl
        | some sh =>
          obtain ⟨w, _, hrun, hpush⟩ := bind_eq_ok h
          obtain ⟨-, rfl⟩ := check_eq_ok hrun
          cases hpush
          rfl
      rw [hsame, hcalls] at hdeeper
      exact absurd hdeeper (Nat.lt_irrefl _)

theorem enters_of_callProc {ip : UInt32} {ty : TypeId} {u : Unit}
    (h : m.perform watch ip (.callProc ty) s = .ok u t)
    (hdeeper : s.calls.depth < t.calls.depth) :
    ∃ id args, m.Gives s.pool s.operands.values (.callProc ty) id args ∧
      EntersFrom m watch s id args t := by
  rw [perform, callProc] at h
  obtain ⟨⟨params, ret⟩, _, hrun, h⟩ := bind_eq_ok h
  obtain ⟨hsig, rfl⟩ := check_eq_ok hrun
  obtain ⟨shapes, _, hrun, h⟩ := bind_eq_ok h
  obtain ⟨hshapes, rfl⟩ := check_eq_ok hrun
  obtain ⟨shape?, _, hrun, h⟩ := bind_eq_ok h
  obtain ⟨-, rfl⟩ := check_eq_ok hrun
  rw [length_of_mapM hshapes] at h
  obtain ⟨raw, _, hpop, h⟩ := bind_eq_ok h
  obtain ⟨-, rfl, rfl⟩ := popMany_ok hpop
  obtain ⟨p, s', hpop, h⟩ := bind_eq_ok h
  obtain ⟨v, _, hpop, hproc⟩ := bind_eq_ok hpop
  obtain ⟨-, hv, rfl⟩ := pop_ok hpop
  cases v with
  | proc p' =>
    cases hproc
    obtain ⟨args, _, hrun, h⟩ := bind_eq_ok h
    obtain ⟨hargs, rfl⟩ := check_eq_ok hrun
    obtain ⟨id, htarget, henter⟩ := enters_of_callTarget h hdeeper
    have hp : s.operands.values[params.length]? = some (.proc p) := List.head?_drop.symm.trans hv
    exact ⟨id, args, .callProc hsig hshapes hp htarget hargs, _, _, henter, rfl, rfl⟩
  | _ => cases hproc

/-- RET takes the current frame away. -/
theorem calls_of_ret {l : Located} (hret : l.instr = .ret) (h : m.step watch l s = .ok none t) :
    t.calls = s.calls.tail := by
  rw [m.step_ret watch hret] at h
  cases hf : s.calls.current? with
  | none => cases (m.leave_without_frame watch hf).symm.trans h
  | some f =>
    have hleaving := m.leaving_leave watch hf l.ip
    rw [h] at hleaving
    cases hleaving with
    | delivered _ _ _ hd => exact m.calls_deliver watch hd

/-- Whatever instruction increases the number of calls, it has called a routine. -/
theorem enters_of_step {l : Located} (h : m.step watch l s = .ok none t)
    (hdeeper : s.calls.depth < t.calls.depth) :
    ∃ id args, m.Gives s.pool s.operands.values l.instr id args ∧
      EntersFrom m watch s id args t := by
  by_cases hret : l.instr = .ret
  · have hcalls := congrArg CallStack.depth (calls_of_ret hret h)
    have hle : s.calls.tail.depth ≤ s.calls.depth := Nat.sub_le _ _
    omega
  · rw [m.step_eq watch hret] at h
    obtain ⟨-, h⟩ := unfinished_eq_ok h
    by_cases hinner : l.instr.isInner
    · have hwithin := m.perform_within watch hinner l.ip s
      rw [h] at hwithin
      have hcalls : t.calls = s.calls := hwithin.calls
      rw [hcalls] at hdeeper
      exact absurd hdeeper (Nat.lt_irrefl _)
    · generalize l.instr = i at h hinner
      cases i with
      | malloc ty count =>
        rw [perform] at h
        obtain ⟨e, he⟩ | ⟨_, _, _, -, hok⟩ := m.malloc_cases watch ty count s
        · cases h.symm.trans he
        · cases h.symm.trans hok
          exact absurd hdeeper (Nat.lt_irrefl _)
      | call id => exact ⟨id, enters_of_call h⟩
      | constGet offset => exact enters_of_constGet h hdeeper
      | callProc ty => exact enters_of_callProc h hdeeper
      | _ => exact absurd rfl hinner

/-- In a run, every instruction that increases the number of calls enters a frame. -/
theorem exists_opens {l : Located} (hs : m.Reached watch s)
    (hl : decodeAt m.program.code s.ip = .ok l) (h : m.cycle watch s = .ok none t)
    (hdeeper : s.calls.depth < t.calls.depth) : ∃ id args, m.Opens watch s id args t := by
  have hstep := h
  rw [cycle_of_decoded hl] at hstep
  obtain ⟨id, args, hgives, -⟩ := enters_of_step hstep hdeeper
  exact ⟨id, args, .program hs hl hgives h hdeeper⟩

theorem Opens.enters {id : RoutineId} {args : List Value} (h : m.Opens watch s id args t) :
    EntersFrom m watch s id args t := by
  cases h with
  | host hidle h => exact ⟨_, _, h, rfl, rfl⟩
  | program hs hl hgives h hdeeper =>
    rw [cycle_of_decoded hl] at h
    obtain ⟨id', args', hgives', henters⟩ := enters_of_step h hdeeper
    obtain ⟨rfl, rfl⟩ := hgives.unique hgives'
    exact henters

theorem Reached.cycle (hs : m.Reached watch s) (h : m.cycle watch s = .ok none t) :
    m.Reached watch t := by
  obtain ⟨id, args, s₀, s₁, n, hidle, hstart, hafter⟩ := hs
  exact ⟨id, args, s₀, s₁, n + 1, hidle, hstart, (m.after_succ watch).mpr ⟨s, hafter, h⟩⟩

theorem Opens.reached {id : RoutineId} {args : List Value} (h : m.Opens watch s id args t) :
    m.Reached watch t := by
  cases h with
  | host hidle h => exact ⟨id, args, s, t, 0, hidle, h, rfl⟩
  | program hs _ _ h _ => exact hs.cycle h

/-! ## Calls that fail -/

/-- Arguments are stored into the new block only. -/
theorem storeArgs_others {locals : UInt64} {b k : Nat} (hlocals : locals = ofBlock b)
    (hb : b < half) (hk : k ≠ b) (slots : List Slot) (args : List Value) :
    ∀ s : State σ τ, (finalState (storeArgs locals slots args s)).memory.blocks.get? k =
      s.memory.blocks.get? k := by
  subst hlocals
  refine keeps_storeArgs (R := fun memory memory' => memory'.blocks.get? k = memory.blocks.get? k)
    (fun _ => rfl) (fun h h' => h'.trans h) (ofBlock b) (fun ha hw => ?_) (fun hfree => ?_)
    slots args
  · obtain ⟨old, hold⟩ := Memory.exists_of_write hw
    obtain ⟨hblock, -⟩ := Slot.block_of_advance hb ha
    exact (Memory.get?_write hw hold k).trans (if_neg (hblock.symm ▸ hk))
  · rw [Memory.get?_free hfree, block_ofBlock hb, if_neg hk]

variable {id : RoutineId} {args : List Value} {kind : FrameKind} {c : Callee}

/-- A call that fails pushes no frame and leaves no block. -/
theorem enter_error (hfit : m.FramesFit) {e : RuntimeError}
    (h : m.enter watch id args kind s = .error e t) :
    t = { s with memory := t.memory } ∧
      ∀ k, t.memory.blocks.get? k = s.memory.blocks.get? k := by
  have hentering := m.entering_enter watch id args kind s
  rw [h] at hentering
  cases hentering with
  | refused => exact ⟨rfl, fun k => rfl⟩
  | noPlace hc hout => exact absurd (hfit _ _ hc) hout
  | @rejected memory released e hadds hfree =>
    refine ⟨rfl, fun k => ?_⟩
    by_cases hk : k = s.memory.next
    · rw [hk, s.memory.unused_absent _ (Nat.le_refl _), Memory.get?_free hfree,
        block_ofBlock hadds.room, if_pos rfl]
    · obtain ⟨e', he⟩ | ⟨c, allocated, -, -, halloc, henter⟩ := m.enter_cases watch id args kind s
      · obtain ⟨-, hsame⟩ := EStateM.Result.error.inj (h.symm.trans he)
        exact congrArg (fun s => s.memory.blocks.get? k) hsame
      · have hothers := storeArgs_others rfl hadds.room hk c.frame.slots.toList args
          { s with memory := allocated }
        rw [h] at henter
        generalize storeArgs (ofBlock s.memory.next) c.frame.slots.toList args
          { s with memory := allocated } = r at hothers henter
        cases r with
        | ok _ _ => cases henter
        | error e' u =>
          cases henter
          exact hothers.trans ((Memory.get?_alloc halloc k).trans (if_neg hk))

theorem arity_of_enter {u : Unit} (hc : m.callee? id = some c)
    (h : m.enter watch id args kind s = .ok u t) : args.length = c.routine.params.toNat := by
  by_contra hne
  simp only [enter, callee, hc, bind_run, pure_run, get_run] at h
  split at h
  · cases h
  · cases h

/-- An argument that its place does not take makes a call fail. -/
theorem enter_rejected (hc : m.callee? id = some c)
    (hhouses : c.frame.Houses m.layouts c.routine.locals) {i : Nat} {v : Value} {ty : TypeId}
    {sh : Shape} {e : RuntimeError} (hv : args[i]? = some v) (hty : c.routine.locals[i]? = some ty)
    (hsh : m.layouts.shape ty = .ok sh) (he : sh.coerce v = .error e) :
    ∃ e' t, m.enter watch id args kind s = .error e' t := by
  cases h : m.enter watch id args kind s with
  | error e' t => exact ⟨e', t, rfl⟩
  | ok u t =>
    obtain ⟨c', f, new, hc', hfill, -⟩ := enter_ok h
    cases hc.symm.trans hc'
    obtain ⟨slot, hslot, -, hshape⟩ := hhouses.exists_slot hty
    cases hshape.symm.trans hsh
    rw [← Array.getElem?_toList] at hslot
    obtain ⟨bytes, hbytes⟩ := Block.encode_of_fill hfill hslot hv
    cases (Shape.encode_error_of_coerce he).symm.trans hbytes

end Machine
end ForeignVM
