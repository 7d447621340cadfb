import ForeignVM.Machine.Run
import ForeignVM.Proofs.Placement
import ForeignVM.Proofs.Within

/-!
# ForeignVM.Proofs.Calls

What calls, returns and single instructions can come to. Every inductive type here lists the
outcomes of one function; whatever holds of all instructions is proved by `cases` on `Effect`.

* `enter_cases`, `Entering`         — a routine begins, or its block is released again.
* `leave_cases`, `Leaving`          — a return; `Delivering` for its result in the caller.
* `NativeRun`, `Calling`            — a native, and a call through a proc value.
* `malloc_cases`, `constGet_cases`  — allocation, and the two ways to a constant.
* `Effect`, `effect_cycle`          — one instruction, from its fetch on.
-/

namespace ForeignVM

/-- The instruction allocates a block for the program. -/
def Instr.isMalloc : Instr → Bool
  | .malloc _ _ => true
  | _ => false

theorem Instr.not_malloc_of_isInner {i : Instr} (h : i.isInner) : i.isMalloc = false := by
  cases i <;> first | rfl | cases h

namespace Machine

open ForeignVM.Action

variable {σ τ : Type} (m : Machine σ) (watch : Observer τ)

/-! ## Entering a routine -/

/-- What becomes of arguments that are stored from a state on: they are there; or a value does not
fit its slot, and the block is released; or, unless the slots lie in the block, one of them has no
place. -/
inductive Storing (locals : UInt64) (inside : Prop) (s : State σ τ) :
    EStateM.Result RuntimeError (State σ τ) Unit → Prop where
  | stored {memory : Memory} (h : s.memory.Rewrites memory) :
      Storing locals inside s (.ok () { s with memory := memory })
  | rejected {memory released : Memory} {e : RuntimeError} (h : s.memory.Rewrites memory)
      (hfree : memory.free locals = .ok released) :
      Storing locals inside s (.error e { s with memory := released })
  | noPlace {memory : Memory} {e : RuntimeError} (h : s.memory.Rewrites memory)
      (hout : ¬ inside) : Storing locals inside s (.error e { s with memory := memory })

/-- What has been written before the rest is stored does not matter. -/
theorem Storing.after {locals : UInt64} {inside inside' : Prop} {s : State σ τ}
    {memory : Memory} {r : EStateM.Result RuntimeError (State σ τ) Unit}
    (h : Storing locals inside { s with memory := memory } r) (hw : s.memory.Rewrites memory)
    (himp : inside' → inside) : Storing locals inside' s r := by
  cases h with
  | stored h => exact .stored (hw.trans h)
  | rejected h hfree => exact .rejected (hw.trans h) hfree
  | noPlace h hout => exact .noPlace (hw.trans h) fun hi => hout (himp hi)

/-- A slot that lies in a block has a place there. -/
theorem place_of_inside {memory : Memory} {locals : UInt64} {b size : Nat} {block : Block}
    {slot : Slot} (hlocals : locals = Address.ofBlock b) (hb : b < Address.half)
    (hblock : memory.blocks.get? b = some block) (hsize : block.size = size)
    (hhalf : size < Address.half) (hin : slot.Inside size) :
    ∃ a, Address.advance locals slot.offset = .ok a ∧
      memory.blockAt a slot.shape.size = .ok block := by
  have hlive : memory.Live b := Option.isSome_iff_exists.mpr ⟨block, hblock⟩
  unfold Slot.Inside at hin
  rw [hlocals]
  obtain ⟨a, ha, hab, hao⟩ := Memory.advance_ofBlock hlive.pos hb (n := slot.offset) (by omega)
  refine ⟨a, ha, Memory.blockAt_of_fits (by rw [hab, hblock]) ?_⟩
  rw [hao, hsize]
  exact hin

/-- A slot that has a place in a block lies there, if its offset is a word. -/
theorem inside_of_place {memory : Memory} {locals a : UInt64} {b size : Nat} {block block' : Block}
    {slot : Slot} (hlocals : locals = Address.ofBlock b) (hb : b < Address.half)
    (hblock : memory.blocks.get? b = some block) (hsize : block.size = size)
    (hword : slot.offset < 2 ^ 64) (ha : Address.advance locals slot.offset = .ok a)
    (hat : memory.blockAt a slot.shape.size = .ok block') : slot.Inside size := by
  rw [hlocals] at ha
  obtain ⟨-, hsame, hoffset⟩ := Address.shift_ok_iff.mp ha
  rw [Address.block_ofBlock hb] at hsame
  rw [Address.offset_ofBlock hb] at hoffset
  obtain ⟨hcell, hroom⟩ := Memory.blockAt_ok_iff.mp hat
  rw [hsame, hblock] at hcell
  obtain rfl := Option.some.inj hcell
  -- a word that is negative as a signed word does not lead into the block
  have hposition : Address.offset a = slot.offset := by
    unfold signedWord at hoffset
    rw [Int.bmod_def] at hoffset
    split at hoffset <;> omega
  rw [Slot.Inside, ← hposition, ← hsize]
  exact hroom

theorem storing_storeArgs {locals : UInt64} {b size : Nat} (hlocals : locals = Address.ofBlock b)
    (hb : b < Address.half) (hsize : size < Address.half) (slots : List Slot)
    (args : List Value) (s : State σ τ)
    (hblock : (s.memory.blocks.get? b).map Block.size = some size) :
    Storing locals (∀ slot ∈ slots, slot.Inside size) s
      ((storeArgs locals slots args : Action σ τ Unit) s) := by
  induction slots generalizing args s with
  | nil => exact .stored (.refl _)
  | cons slot slots ih =>
    cases args with
    | nil => exact .stored (.refl _)
    | cons arg args =>
      obtain ⟨old, hold, hsz⟩ := Option.map_eq_some_iff.mp hblock
      have hlive : s.memory.Live b := Option.isSome_iff_exists.mpr ⟨old, hold⟩
      have hplace (hin : ∀ slot' ∈ slot :: slots, slot'.Inside size) :=
        place_of_inside hlocals hb hold hsz hsize (hin slot List.mem_cons_self)
      unfold storeArgs
      cases ha : Address.advance locals slot.offset with
      | error e =>
        refine .noPlace (.refl _) ?_
        intro hin
        obtain ⟨a, hadv, _⟩ := hplace hin
        cases ha.symm.trans hadv
      | ok address =>
        simp only [check_ok, bind_run, pure_run, get_run]
        cases hat : s.memory.blockAt address slot.shape.size with
        | error e =>
          refine .noPlace (.refl _) ?_
          intro hin
          obtain ⟨a, hadv, hata⟩ := hplace hin
          cases ha.symm.trans hadv
          cases hat.symm.trans hata
        | ok block =>
          simp only [check_ok, pure_run]
          cases he : slot.shape.encode arg with
          | error e =>
            obtain ⟨released, hf⟩ := hlocals ▸ Memory.free_of_live hlive hb
            simp only [bind_run, release_run, hf, throw_run]
            exact .rejected (.refl _) hf
          | ok bytes =>
            obtain ⟨memory, hw⟩ := Memory.write_of_blockAt hat (Shape.length_of_encode he)
            have hrw := Memory.write_ok hw
            simp only [bind_run, get_run, hw, check_ok, pure_run, setMemory_run]
            refine .after (ih args _ ?_) hrw fun hin slot' hmem => hin slot' (.tail _ hmem)
            exact (hrw.size b).trans hblock

/-- The state in which a routine begins that has been called from `s`. -/
def entered (s : State σ τ) (id : RoutineId) (kind : FrameKind) (c : Callee) (memory : Memory) :
    State σ τ :=
  { s with
    memory := memory
    calls :=
      s.calls.push ⟨id, kind, s.ip, Address.ofBlock s.memory.next, s.operands.height⟩
    ip := c.routine.entry
    trace := watch (.called id) s.trace }

/-- What becomes of a call: the routine begins in a new frame with a block of its own; or the call
is refused before anything has changed; or an argument does not fit, and the block is released; or,
unless the slots lie in the block, one of them has no place. -/
inductive Entering (id : RoutineId) (kind : FrameKind) (s : State σ τ) :
    EStateM.Result RuntimeError (State σ τ) Unit → Prop where
  | begun {c : Callee} {memory : Memory} (hc : m.callee? id = some c)
      (hdepth : s.calls.depth < m.limits.recursion.toNat) (h : s.memory.Adds memory) :
      Entering id kind s (.ok () (entered watch s id kind c memory))
  | refused {e : RuntimeError} : Entering id kind s (.error e s)
  | rejected {memory released : Memory} {e : RuntimeError} (h : s.memory.Adds memory)
      (hfree : memory.free (Address.ofBlock s.memory.next) = .ok released) :
      Entering id kind s (.error e { s with memory := released })
  | noPlace {c : Callee} {memory : Memory} {e : RuntimeError} (hc : m.callee? id = some c)
      (hout : ¬ c.frame.Fits) : Entering id kind s (.error e { s with memory := memory })

/-- A call that is not refused: a block is allocated, and the arguments are stored into it. -/
theorem enter_eq {id : RoutineId} {c : Callee} {args : List Value} {s : State σ τ}
    (hc : m.callee? id = some c) (hdepth : s.calls.depth < m.limits.recursion.toNat)
    (hargs : args.length = c.routine.params.toNat) (kind : FrameKind) :
    m.enter watch id args kind s =
      match s.memory.alloc c.frame.size with
      | .error e => .error (.memory e) s
      | .ok (locals, memory) =>
        match storeArgs locals c.frame.slots.toList args { s with memory := memory } with
        | .error e t => .error e t
        | .ok _ t => .ok ()
          { t with
            calls := t.calls.push ⟨id, kind, t.ip, locals, t.operands.height⟩
            ip := c.routine.entry
            trace := watch (.called id) t.trace } := by
  simp only [enter, callee, hc, bind_run, pure_run, get_run, if_neg (Nat.not_le_of_lt hdepth),
    hargs, ne_eq, not_true, if_false, newLocals, allocate_run]
  cases s.memory.alloc c.frame.size with
  | error e => rfl
  | ok r =>
    dsimp only
    cases storeArgs r.1 c.frame.slots.toList args { s with memory := r.2 } <;> rfl

/-- A call is refused at once, or there is a block and the arguments are stored into it. -/
theorem enter_cases (id : RoutineId) (args : List Value) (kind : FrameKind) (s : State σ τ) :
    (∃ e, m.enter watch id args kind s = .error e s) ∨
    ∃ c memory, m.callee? id = some c ∧ s.calls.depth < m.limits.recursion.toNat ∧
      s.memory.alloc c.frame.size = .ok (Address.ofBlock s.memory.next, memory) ∧
      m.enter watch id args kind s =
        match storeArgs (Address.ofBlock s.memory.next) c.frame.slots.toList args
          { s with memory := memory } with
        | .error e t => .error e t
        | .ok _ t => .ok ()
          { t with
            calls := t.calls.push
              ⟨id, kind, t.ip, Address.ofBlock s.memory.next, t.operands.height⟩
            ip := c.routine.entry
            trace := watch (.called id) t.trace } := by
  cases hc : m.callee? id with
  | none => exact .inl ⟨.unknownRoutine id, by simp only [enter, callee, hc, bind_run, throw_run]⟩
  | some c =>
    by_cases hdepth : m.limits.recursion.toNat ≤ s.calls.depth
    · refine .inl ⟨.recursionLimit m.limits.recursion, ?_⟩
      simp only [enter, callee, hc, bind_run, pure_run, get_run, if_pos hdepth, throw_run]
    by_cases hargs : args.length = c.routine.params.toNat
    · have henter := m.enter_eq watch hc (Nat.lt_of_not_le hdepth) hargs kind
      cases ha : s.memory.alloc c.frame.size with
      | error e =>
        rw [ha] at henter
        exact .inl ⟨_, henter⟩
      | ok r =>
        obtain ⟨locals, memory⟩ := r
        obtain rfl := (Memory.alloc_ok ha).1
        rw [ha] at henter
        exact .inr ⟨c, memory, rfl, Nat.lt_of_not_le hdepth, ha, henter⟩
    · refine .inl ⟨.arityMismatch c.routine.name c.routine.params.toNat args.length, ?_⟩
      simp only [enter, callee, hc, bind_run, pure_run, get_run, if_neg hdepth, ne_eq, hargs,
        not_false_eq_true, if_true, throw_run]

theorem entering_enter (id : RoutineId) (args : List Value) (kind : FrameKind) (s : State σ τ) :
    Entering m watch id kind s (m.enter watch id args kind s) := by
  obtain ⟨e, h⟩ | ⟨c, memory, hc, hdepth, ha, h⟩ := m.enter_cases watch id args kind s
  · rw [h]
    exact .refused
  rw [h]
  obtain ⟨_, hadds⟩ := Memory.alloc_ok ha
  obtain ⟨hsize, hblock⟩ := Memory.alloc_block ha
  have hs := storing_storeArgs rfl hadds.room hsize c.frame.slots.toList args
    { s with memory := memory } (by rw [hblock]; rfl)
  generalize storeArgs _ c.frame.slots.toList args { s with memory := memory } = r at hs ⊢
  cases hs with
  | stored h => exact .begun hc hdepth (hadds.rewrites h)
  | rejected h hfree => exact .rejected (hadds.rewrites h) hfree
  | noPlace h hout => exact .noPlace hc hout

/-! ## Returning -/

/-- `v` is what a routine with this result type can return. -/
def IsResult : Option TypeId → Value → Prop
  | none, v => v = .void
  | some ty, v => ∃ s w, m.layouts.shape ty = .ok s ∧ s.coerce w = .ok v

/-- The result is taken from above the base of the frame, if the routine has one. -/
theorem result_cases (ip : UInt32) (ret : Option TypeId) (s : State σ τ) :
    (∃ e t, m.result ip ret s = .error e t ∧ s.Within t) ∨
    ∃ v n, m.result ip ret s = .ok v { s with operands := s.operands.drop n } ∧
      m.IsResult ret v ∧ (n = 0 ∨ s.calls.base + n ≤ s.operands.height) := by
  cases ret with
  | none => exact .inr ⟨.void, 0, rfl, rfl, .inl rfl⟩
  | some ty =>
    simp only [result]
    obtain ⟨_, hp⟩ | ⟨hb, w, _, hp⟩ := pop_cases ip s
    · exact .inl ⟨_, s, bind_error hp, .refl s⟩
    · have hw : s.Within { s with operands := s.operands.drop 1 } := .ofOperands (.drop hb)
      rw [bind_ok hp]
      unfold shape
      cases hs : m.layouts.shape ty with
      | error e => exact .inl ⟨_, _, rfl, hw⟩
      | ok sh =>
        simp only [check_ok, bind_run, pure_run]
        cases hc : sh.coerce w with
        | error e => exact .inl ⟨_, _, rfl, hw⟩
        | ok v => exact .inr ⟨v, 1, rfl, ⟨sh, w, hs, hc⟩, .inr hb⟩

/-- How the result `v` of a frame of a kind reaches the frame below it. -/
inductive Delivering (v : Value) (s : State σ τ) : FrameKind → State σ τ → Prop where
  | nothing (h : v = .void) : Delivering v s .call s
  | value (h : v ≠ .void) : Delivering v s .call { s with operands := s.operands.push v }
  | dropped : Delivering v s (.procCall none) s
  | converted {ty : TypeId} {sh : Shape} {w : Value} (hs : m.layouts.shape ty = .ok sh)
      (hw : sh.coerce v = .ok w) :
      Delivering v s (.procCall (some ty)) { s with operands := s.operands.push w }
  | constant {offset : UInt32} {entry : PoolEntry} {sh : Shape} {bytes : Bytes} {pool : Pool}
      (he : s.pool.entry offset = .ok entry) (hs : m.layouts.shape entry.ty = .ok sh)
      (hb : sh.encode v = .ok bytes) (hp : s.pool.store offset bytes = .ok () pool) :
      Delivering v s (.constant offset)
        { s with
          pool := pool
          trace := watch (.constReady offset) s.trace
          operands := s.operands.push (sh.decode bytes) }

/-- A result that cannot be delivered changes nothing. -/
theorem deliver_cases {kind : FrameKind} (hkind : kind ≠ .host) (v : Value) (s : State σ τ) :
    (∃ e, m.deliver watch v kind s = .error e s) ∨
    ∃ t, m.deliver watch v kind s = .ok () t ∧ Delivering m watch v s kind t := by
  cases kind with
  | host => exact absurd rfl hkind
  | call =>
    by_cases hv : v = .void
    · subst hv
      exact .inr ⟨s, rfl, .nothing rfl⟩
    · refine .inr ⟨_, ?_, .value hv⟩
      cases v with
      | void => exact absurd rfl hv
      | _ => rfl
  | procCall ret =>
    cases ret with
    | none => exact .inr ⟨s, rfl, .dropped⟩
    | some ty =>
      simp only [deliver, shape]
      cases hs : m.layouts.shape ty with
      | error e => exact .inl ⟨_, rfl⟩
      | ok sh =>
        simp only [check_ok, bind_run, pure_run]
        cases hw : sh.coerce v with
        | error e => exact .inl ⟨_, rfl⟩
        | ok w => exact .inr ⟨_, rfl, .converted hs hw⟩
  | constant offset =>
    simp only [deliver, storeConstant, bind_run, get_run]
    cases he : s.pool.entry offset with
    | error e => exact .inl ⟨_, rfl⟩
    | ok entry =>
      simp only [check_ok, pure_run, shape]
      cases hs : m.layouts.shape entry.ty with
      | error e => exact .inl ⟨_, rfl⟩
      | ok sh =>
        simp only [check_ok, pure_run]
        cases hb : sh.encode v with
        | error e => exact .inl ⟨_, rfl⟩
        | ok bytes =>
          simp only [ofResult_ok, pure_run, changePool_run]
          cases hp : s.pool.store offset bytes with
          | error e pool => exact .inl ⟨_, by rw [Pool.eq_of_store_refused hp]⟩
          | ok _ pool => exact .inr ⟨_, rfl, .constant he hs hb hp⟩

/-- The state after frame `f` has returned `v` and before the frame below it gets the value. -/
def left (s : State σ τ) (f : Frame) (v : Value) (memory : Memory) : State σ τ :=
  { s with
    memory := memory
    calls := s.calls.tail
    operands := s.operands.cut f.base
    trace := watch (.returned v) s.trace }

/-- What becomes of a return from frame `f`. -/
inductive Leaving (f : Frame) (s : State σ τ) :
    EStateM.Result RuntimeError (State σ τ) (Option Value) → Prop where
  | failed {e : RuntimeError} {t : State σ τ} (h : s.Within t) : Leaving f s (.error e t)
  | dangling {cause : MemoryError} (hfree : s.memory.free f.locals = .error cause) :
      Leaving f s
        (.error (.memory cause)
          { s with calls := s.calls.tail, operands := s.operands.cut f.base })
  | finished {c : Callee} {v : Value} {memory : Memory} (hc : m.callee? f.routine = some c)
      (hv : m.IsResult c.routine.ret v) (hfree : s.memory.free f.locals = .ok memory)
      (hkind : f.kind = .host) : Leaving f s (.ok (some v) (left watch s f v memory))
  | undelivered {v : Value} {memory : Memory} {e : RuntimeError}
      (hfree : s.memory.free f.locals = .ok memory) (hkind : f.kind ≠ .host) :
      Leaving f s (.error e (left watch s f v memory))
  | delivered {c : Callee} {v : Value} {memory : Memory} {t : State σ τ}
      (hc : m.callee? f.routine = some c) (hv : m.IsResult c.routine.ret v)
      (hfree : s.memory.free f.locals = .ok memory)
      (h : Delivering m watch v (left watch s f v memory) f.kind t) :
      Leaving f s (.ok none { t with ip := f.returnIp })

theorem leave_without_frame {ip : UInt32} {s : State σ τ} (h : s.calls.current? = none) :
    m.leave watch ip s = .error (.stackUnderflow ip) s := by
  simp only [leave, bind_run, get_run, h, throw_run]

/-- What becomes of the result once the frame is gone. -/
def handOver (f : Frame) (v : Value) : Action σ τ (Option Value) :=
  match f.kind with
  | .host => pure (some v)
  | kind => do
    m.deliver watch v kind
    jump f.returnIp
    pure none

theorem handOver_cases (f : Frame) (v : Value) (s : State σ τ) :
    (f.kind = .host ∧ m.handOver watch f v s = .ok (some v) s) ∨
    f.kind ≠ .host ∧
      ((∃ e, m.handOver watch f v s = .error e s) ∨
      ∃ t, m.deliver watch v f.kind s = .ok () t ∧ Delivering m watch v s f.kind t ∧
        m.handOver watch f v s = .ok none { t with ip := f.returnIp }) := by
  by_cases hhost : f.kind = .host
  · refine .inl ⟨hhost, ?_⟩
    rw [handOver, hhost]
    rfl
  · have hrun : m.handOver watch f v =
        (m.deliver watch v f.kind >>= fun _ => jump f.returnIp >>= fun _ => pure none) := by
      unfold handOver
      cases hk : f.kind <;> first | rfl | exact absurd hk hhost
    refine .inr ⟨hhost, ?_⟩
    rw [hrun]
    obtain ⟨e, hd⟩ | ⟨t, hd, ht⟩ := m.deliver_cases watch hhost v s
    · exact .inl ⟨e, bind_error hd⟩
    · exact .inr ⟨t, hd, ht, bind_ok hd⟩

/-- There is no result; or the frame goes, and its block cannot be released; or it is released and
the result is handed over. -/
theorem leave_cases {s : State σ τ} {f : Frame} (hf : s.calls.current? = some f) (ip : UInt32) :
    (∃ e t, m.leave watch ip s = .error e t ∧ s.Within t) ∨
    ∃ c v t, m.callee? f.routine = some c ∧ m.result ip c.routine.ret s = .ok v t ∧
      m.IsResult c.routine.ret v ∧
      ((∃ cause, s.memory.free f.locals = .error cause ∧ m.leave watch ip s =
        .error (.memory cause)
          { s with calls := s.calls.tail, operands := s.operands.cut f.base }) ∨
      ∃ memory, s.memory.free f.locals = .ok memory ∧
        m.leave watch ip s = m.handOver watch f v (left watch s f v memory)) := by
  have hbase : s.calls.base = f.base := by simp only [CallStack.base, hf]
  simp only [leave, bind_run, get_run, hf, callee]
  cases hc : m.callee? f.routine with
  | none => exact .inl ⟨_, _, rfl, .refl s⟩
  | some c =>
    simp only [pure_run]
    obtain ⟨e, t, hr, hw⟩ | ⟨v, n, hr, hv, hn⟩ := m.result_cases ip c.routine.ret s
    · rw [hr]
      exact .inl ⟨e, t, rfl, hw⟩
    · have hcut : (s.operands.drop n).cut f.base = s.operands.cut f.base := by
        rcases hn with rfl | hn
        · rfl
        · exact Operands.cut_drop (hbase ▸ hn)
      refine .inr ⟨c, v, _, rfl, hr, hv, ?_⟩
      rw [hr]
      simp only [modify_run, hcut, release_run]
      cases hfree : s.memory.free f.locals with
      | error cause => exact .inl ⟨cause, rfl, rfl⟩
      | ok memory => exact .inr ⟨memory, rfl, rfl⟩

theorem leaving_leave {s : State σ τ} {f : Frame} (hf : s.calls.current? = some f) (ip : UInt32) :
    Leaving m watch f s (m.leave watch ip s) := by
  obtain ⟨e, t, h, hw⟩ | ⟨c, v, t, hc, _, hv, ⟨cause, hfree, h⟩ | ⟨memory, hfree, h⟩⟩ :=
    m.leave_cases watch hf ip
  · rw [h]
    exact .failed hw
  · rw [h]
    exact .dangling hfree
  · rw [h]
    obtain ⟨hkind, hr⟩ | ⟨hkind, ⟨e, hr⟩ | ⟨u, _, hd, hr⟩⟩ :=
      m.handOver_cases watch f v (left watch s f v memory)
    · rw [hr]
      exact .finished hc hv hfree hkind
    · rw [hr]
      exact .undelivered hfree hkind
    · rw [hr]
      exact .delivered hc hv hfree hd

/-! ## Natives and proc values -/

theorem bindNative_ok_iff {registry : String → Option (Native σ)} {name : String}
    {bound : String × Native σ} :
    bindNative registry name = .ok bound ↔ ∃ native, registry name = some native ∧
      (name, native) = bound := by
  unfold bindNative
  cases registry name <;> simp

/-- The natives of a machine are those of the registry that it has been built with. -/
theorem native_of_build {program : Program} {registry : String → Option (Native σ)}
    {limits : Limits} (h : Machine.build program registry limits = .ok m) {id : NativeId}
    {name : String} {native : Native σ} (hn : m.native? id = some (name, native)) :
    registry name = some native := by
  unfold build at h
  split at h
  · cases h
  · split at h
    · cases h
    · split at h
      · cases h
      · next natives hnatives =>
        cases h
        unfold native? at hn
        rw [List.getElem?_toArray] at hn
        obtain ⟨name', _, hbind⟩ := exists_of_mem_mapM hnatives (List.mem_of_getElem? hn)
        obtain ⟨native', hregistry, hsame⟩ := bindNative_ok_iff.mp hbind
        cases hsame
        exact hregistry

/-- `t` and the outcome are what a native makes of `s`. -/
structure NativeRun (id : NativeId) (s t : State σ τ) (outcome : Except RuntimeError Value) :
    Prop where
  runs : ∃ name native args context, m.native? id = some (name, native) ∧
    native ⟨name, args, context, m.layouts⟩ s.memory s.host = (outcome, t.memory, t.host)
  pool : t.pool = s.pool
  calls : t.calls = s.calls
  operands : t.operands = s.operands
  ip : t.ip = s.ip
  trace : t.trace = watch (.native id) s.trace

theorem callNative_cases (id : NativeId) (args : List Value) (context : UInt64)
    (s : State σ τ) :
    (∃ e, m.callNative watch id args context s = .error e s) ∨
    ∃ t outcome, NativeRun m watch id s t outcome ∧
      m.callNative watch id args context s = (ofResult outcome : Action σ τ Value) t := by
  unfold callNative
  cases hn : m.native? id with
  | none => exact .inl ⟨_, rfl⟩
  | some entry =>
    obtain ⟨name, native⟩ := entry
    simp only [bind_run, emit_run, get_run, set_run]
    refine .inr ⟨{ s with memory := _, host := _, trace := watch (.native id) s.trace }, _, ?_, rfl⟩
    exact ⟨⟨name, native, args, context, hn, rfl⟩, rfl, rfl, rfl, rfl, rfl⟩

/-- What becomes of a call through a proc value: it fails before anything is called; or a routine
is entered; or a native runs, and its result is converted, dropped or refused. -/
inductive Calling (ty : TypeId) (s : State σ τ) :
    EStateM.Result RuntimeError (State σ τ) Unit → Prop where
  | failed {e : RuntimeError} {t : State σ τ} (h : s.Within t) : Calling ty s (.error e t)
  | routine {params : List TypeId} {ret : Option TypeId} {p : ProcRef} {id : RoutineId}
      {args : List Value} (hsig : m.layouts.types.signature ty = .ok (params, ret))
      (hn : s.calls.base + (params.length + 1) ≤ s.operands.height)
      (hp : s.operands.values[params.length]? = some (.proc p))
      (ht : p.target = some (.routine id)) :
      Calling ty s
        (m.enter watch id args (.procCall ret)
          { s with operands := s.operands.drop (params.length + 1) })
  | native {params : List TypeId} {ret : Option TypeId} {p : ProcRef} {id : NativeId}
      {t : State σ τ} {outcome : Except RuntimeError Value}
      {r : EStateM.Result RuntimeError (State σ τ) Unit}
      (hsig : m.layouts.types.signature ty = .ok (params, ret))
      (hn : s.calls.base + (params.length + 1) ≤ s.operands.height)
      (hp : s.operands.values[params.length]? = some (.proc p))
      (ht : p.target = some (.native id))
      (hrun : NativeRun m watch id
        { s with operands := s.operands.drop (params.length + 1) } t outcome)
      (hr : (∃ e, r = .error e t) ∨ (ret = none ∧ r = .ok () t) ∨
        ∃ ty' v, ret = some ty' ∧ r = .ok () { t with operands := t.operands.push v }) :
      Calling ty s r

/-- Before a proc value is called, its arguments are taken and the value itself below them; `rest`
is what is done with them. -/
theorem popCallee_cases (ip : UInt32) (n : Nat)
    (rest : List Value → ProcRef → Action σ τ Unit) (s : State σ τ) :
    (∃ e t, s.Within t ∧
      (popMany ip n >>= fun raw => popProc ip >>= rest raw : Action σ τ Unit) s = .error e t) ∨
    ∃ raw p, s.calls.base + (n + 1) ≤ s.operands.height ∧
      s.operands.values[n]? = some (.proc p) ∧
      (popMany ip n >>= fun raw => popProc ip >>= rest raw : Action σ τ Unit) s =
        rest raw p { s with operands := s.operands.drop (n + 1) } := by
  obtain ⟨_, hpop⟩ | ⟨hb, hpop⟩ := popMany_cases ip n s
  · exact .inl ⟨_, s, .refl s, bind_error hpop⟩
  · have hw : s.Within { s with operands := s.operands.drop n } := .ofOperands (.drop hb)
    rw [bind_ok hpop]
    simp only [popProc, bind_run]
    obtain ⟨_, hpop'⟩ | ⟨hb', v, hv, hpop'⟩ := pop_cases ip { s with operands := s.operands.drop n }
    · rw [hpop']
      exact .inl ⟨_, _, hw, rfl⟩
    · have hw' := hw.trans (.ofOperands (.drop hb'))
      rw [hpop']
      cases v with
      | proc p =>
        have hn : s.calls.base + 1 ≤ s.operands.height - n := hb'
        refine .inr ⟨(s.operands.values.take n).reverse, p, by omega, ?_, ?_⟩
        · rw [← hv]
          exact List.head?_drop.symm
        · rw [Operands.drop_drop]
          rfl
      | _ => exact .inl ⟨_, _, hw', rfl⟩

/-- What a call through the proc value `p` does once it has been taken. -/
theorem calling_callTarget {ty : TypeId} {params : List TypeId} {ret : Option TypeId}
    {p : ProcRef} {shape? : Option Shape} {s : State σ τ}
    (hsig : m.layouts.types.signature ty = .ok (params, ret))
    (hret : ret.mapM m.layouts.shape = .ok shape?)
    (hn : s.calls.base + (params.length + 1) ≤ s.operands.height)
    (hp : s.operands.values[params.length]? = some (.proc p)) (args : List Value) :
    Calling m watch ty s
      (m.callTarget watch p args ret shape?
        { s with operands := s.operands.drop (params.length + 1) }) := by
  have hw : s.Within { s with operands := s.operands.drop (params.length + 1) } :=
    .ofOperands (.drop hn)
  unfold callTarget
  cases ht : p.target with
  | none => exact .failed hw
  | some target =>
    cases target with
    | routine id =>
      dsimp only
      split
      · exact .failed hw
      · exact .routine hsig hn hp ht
    | native id =>
      dsimp only
      obtain ⟨e, hc⟩ | ⟨t, outcome, hrun, hc⟩ := m.callNative_cases watch id args p.context
        { s with operands := s.operands.drop (params.length + 1) }
      · rw [bind_error hc]
        exact .failed hw
      · refine .native hsig hn hp ht hrun ?_
        cases outcome with
        | error e => exact .inl ⟨e, bind_error hc⟩
        | ok v =>
          rw [bind_ok hc]
          cases ret with
          | none =>
            cases hret
            exact .inr (.inl ⟨rfl, rfl⟩)
          | some ty' =>
            cases hs : m.layouts.shape ty' with
            | error e =>
              rw [Option.mapM_some, hs] at hret
              cases hret
            | ok sh =>
              rw [Option.mapM_some, hs] at hret
              cases hret
              simp only [bind_run]
              cases sh.coerce v with
              | error e => exact .inl ⟨e, rfl⟩
              | ok w => exact .inr (.inr ⟨ty', w, rfl, rfl⟩)

theorem calling_callProc (ip : UInt32) (ty : TypeId) (s : State σ τ) :
    Calling m watch ty s (m.callProc watch ip ty s) := by
  unfold callProc
  cases hsig : m.layouts.types.signature ty with
  | error e => exact .failed (.refl s)
  | ok sig =>
    obtain ⟨params, ret⟩ := sig
    rw [check_ok, bind_run, pure_run]
    dsimp only
    cases hshapes : params.mapM m.layouts.shape with
    | error e => exact .failed (.refl s)
    | ok shapes =>
      rw [check_ok, bind_run, pure_run]
      dsimp only
      cases hret : ret.mapM m.layouts.shape with
      | error e => exact .failed (.refl s)
      | ok shape? =>
        rw [check_ok, bind_run, pure_run, length_of_mapM hshapes]
        obtain ⟨e, t, hw, h⟩ | ⟨raw, p, hn, hp, h⟩ := popCallee_cases ip params.length
          (fun raw p => ofResult (coerceArgs shapes raw) >>= fun args =>
            m.callTarget watch p args ret shape?) s
        · dsimp only
          rw [h]
          exact .failed hw
        · dsimp only
          rw [h]
          cases coerceArgs shapes raw with
          | error e => exact .failed (.ofOperands (.drop hn))
          | ok args => exact m.calling_callTarget watch hsig hret hn hp args

/-! ## Allocation and constants -/

theorem malloc_cases (ty : TypeId) (count : UInt32) (s : State σ τ) :
    (∃ e, m.malloc watch ty count s = .error e s) ∨
    ∃ size a memory, s.memory.alloc size = .ok (a, memory) ∧
      m.malloc watch ty count s = .ok ()
        { s with
          memory := memory
          trace := watch (.allocated a size) s.trace
          operands := s.operands.push (.pointer ⟨a, ty⟩) } := by
  unfold malloc
  cases m.allocationSize ty count with
  | error e => exact .inl ⟨e, rfl⟩
  | ok size =>
    simp only [ofResult_ok, bind_run, pure_run, allocate_run]
    cases ha : s.memory.alloc size with
    | error e => exact .inl ⟨_, rfl⟩
    | ok r => exact .inr ⟨size, r.1, r.2, ha, rfl⟩

/-- A constant is read if its flag is set; else its initializer is called. -/
theorem constGet_cases (offset : UInt32) (s : State σ τ) :
    (∃ e, m.constGet watch offset s = .error e s) ∨
    (∃ entry sh bytes, s.pool.isInitialized offset = .ok true ∧
      s.pool.entry offset = .ok entry ∧ m.layouts.shape entry.ty = .ok sh ∧
      s.pool.data offset = .ok bytes ∧
      m.constGet watch offset s = .ok ()
        { s with
          trace := watch (.constHit offset) s.trace
          operands := s.operands.push (sh.decode bytes) }) ∨
    ∃ id, s.pool.isInitialized offset = .ok false ∧ s.pool.initializer offset = .ok id ∧
      m.constGet watch offset s =
        m.enter watch id [] (.constant offset)
          { s with trace := watch (.constInit offset) s.trace } := by
  simp only [constGet, bind_run, get_run]
  cases hi : s.pool.isInitialized offset with
  | error e => exact .inl ⟨_, rfl⟩
  | ok ready =>
    cases ready with
    | false =>
      simp only [check_ok, pure_run, Bool.false_eq_true, if_false, bind_run]
      cases s.pool.initializer offset with
      | error e => exact .inl ⟨_, rfl⟩
      | ok id => exact .inr (.inr ⟨id, trivial, rfl, rfl⟩)
    | true =>
      simp only [check_ok, pure_run, if_true, bind_run]
      cases he : s.pool.entry offset with
      | error e => exact .inl ⟨_, rfl⟩
      | ok entry =>
        simp only [check_ok, pure_run, shape]
        cases hs : m.layouts.shape entry.ty with
        | error e => exact .inl ⟨_, rfl⟩
        | ok sh =>
          simp only [check_ok, pure_run]
          cases hd : s.pool.data offset with
          | error e => exact .inl ⟨_, rfl⟩
          | ok bytes => exact .inr (.inl ⟨entry, sh, bytes, trivial, rfl, hs, rfl, rfl⟩)

theorem call_cases (ip : UInt32) (id : RoutineId) (s : State σ τ) :
    (∃ e, m.perform watch ip (.call id) s = .error e s) ∨
    ∃ c args, m.callee? id = some c ∧
      s.calls.base + c.routine.params.toNat ≤ s.operands.height ∧
      m.perform watch ip (.call id) s =
        m.enter watch id args .call
          { s with operands := s.operands.drop c.routine.params.toNat } := by
  simp only [perform, callee, bind_run]
  cases hc : m.callee? id with
  | none => exact .inl ⟨_, rfl⟩
  | some c =>
    simp only [pure_run]
    obtain ⟨_, hpop⟩ | ⟨hb, hpop⟩ := popMany_cases ip c.routine.params.toNat s
    · rw [hpop]
      exact .inl ⟨_, rfl⟩
    · rw [hpop]
      exact .inr ⟨c, _, rfl, hb, rfl⟩

/-! ## One instruction -/

/-- The result of an instruction after which the run goes on. -/
def unfinished :
    EStateM.Result RuntimeError (State σ τ) Unit →
      EStateM.Result RuntimeError (State σ τ) (Option Value)
  | .ok _ t => .ok none t
  | .error e t => .error e t

theorem unfinished_eq_ok {r : EStateM.Result RuntimeError (State σ τ) Unit} {o : Option Value}
    {t : State σ τ} (h : unfinished r = .ok o t) : o = none ∧ r = .ok () t := by
  cases r with
  | error e u => cases h
  | ok _ u =>
    cases h
    exact ⟨rfl, rfl⟩

/-- The state in which a fetched instruction is executed. -/
def fetched (s : State σ τ) (l : Located) : State σ τ :=
  { s with trace := watch (.instr l) s.trace, ip := l.next }

theorem cycle_eq (s : State σ τ) :
    m.cycle watch s =
      match decodeAt m.program.code s.ip with
      | .ok l => m.step watch l (fetched watch s l)
      | .error e => .error (.code e) s := by
  simp only [cycle, bind_run, get_run]
  cases decodeAt m.program.code s.ip <;> rfl

theorem step_ret {l : Located} (h : l.instr = .ret) :
    m.step watch l = m.leave watch l.ip := by rw [step, h]

theorem step_eq {l : Located} (h : l.instr ≠ .ret) (s : State σ τ) :
    m.step watch l s = unfinished (m.perform watch l.ip l.instr s) := by
  have hstep : m.step watch l =
      (m.perform watch l.ip l.instr >>= fun _ => pure none : Action σ τ (Option Value)) := by
    unfold step
    split
    · next hi => exact absurd hi h
    · rfl
  rw [hstep, bind_run]
  cases m.perform watch l.ip l.instr s <;> rfl

/-- The instruction calls a native: what it refers to lies below the arguments. -/
def CallsNative (i : Instr) (s : State σ τ) : Prop :=
  ∃ ty params ret p id, i = .callProc ty ∧ m.layouts.types.signature ty = .ok (params, ret) ∧
    s.operands.values[params.length]? = some (.proc p) ∧ p.target = some (.native id)

/-- All that the execution of an instruction can come to. -/
inductive Effect (s : State σ τ) :
    Instr → EStateM.Result RuntimeError (State σ τ) (Option Value) → Prop where
  | inner {i : Instr} {t : State σ τ} (hi : i.isInner) (h : s.Within t) :
      Effect s i (.ok none t)
  | failed {i : Instr} {e : RuntimeError} {t : State σ τ} (h : s.Within t) :
      Effect s i (.error e t)
  | allocated {ty : TypeId} {count : UInt32} {size : Nat} {a : UInt64} {memory : Memory}
      {v : Value} (h : s.memory.alloc size = .ok (a, memory)) :
      Effect s (.malloc ty count)
        (.ok none
          { s with
            memory := memory
            trace := watch (.allocated a size) s.trace
            operands := s.operands.push v })
  | read {offset : UInt32} {v : Value} :
      Effect s (.constGet offset)
        (.ok none
          { s with
            trace := watch (.constHit offset) s.trace
            operands := s.operands.push v })
  | initializing {offset : UInt32} {id : RoutineId}
      (h : s.pool.isInitialized offset = .ok false) :
      Effect s (.constGet offset)
        (unfinished
          (m.enter watch id [] (.constant offset)
            { s with trace := watch (.constInit offset) s.trace }))
  | calling {i : Instr} {id : RoutineId} {args : List Value} {kind : FrameKind} {n : Nat}
      (hkind : kind = .call ∨ ∃ ret, kind = .procCall ret)
      (hn : s.calls.base + n ≤ s.operands.height) (hmalloc : ¬ i.isMalloc)
      (hnative : ¬ m.CallsNative i s) :
      Effect s i
        (unfinished (m.enter watch id args kind { s with operands := s.operands.drop n }))
  | native {ty : TypeId} {params : List TypeId} {ret : Option TypeId} {p : ProcRef}
      {id : NativeId} {t : State σ τ} {outcome : Except RuntimeError Value}
      {r : EStateM.Result RuntimeError (State σ τ) (Option Value)}
      (hsig : m.layouts.types.signature ty = .ok (params, ret))
      (hn : s.calls.base + (params.length + 1) ≤ s.operands.height)
      (hp : s.operands.values[params.length]? = some (.proc p))
      (ht : p.target = some (.native id))
      (hrun : NativeRun m watch id
        { s with operands := s.operands.drop (params.length + 1) } t outcome)
      (hr : (∃ e, r = .error e t) ∨ r = .ok none t ∨
        ∃ v, r = .ok none { t with operands := t.operands.push v }) :
      Effect s (.callProc ty) r
  | leaving {f : Frame} {r : EStateM.Result RuntimeError (State σ τ) (Option Value)}
      (hf : s.calls.current? = some f) (h : Leaving m watch f s r) : Effect s .ret r

theorem effect_step (l : Located) (s : State σ τ) :
    Effect m watch s l.instr (m.step watch l s) := by
  by_cases hret : l.instr = .ret
  · rw [m.step_ret watch hret, hret]
    cases hf : s.calls.current? with
    | none =>
      rw [m.leave_without_frame watch hf]
      exact .failed (.refl s)
    | some f => exact .leaving hf (m.leaving_leave watch hf l.ip)
  · rw [m.step_eq watch hret]
    by_cases hinner : l.instr.isInner
    · have h := m.perform_within watch hinner l.ip s
      generalize m.perform watch l.ip l.instr s = r at h
      cases r with
      | ok u t => exact .inner hinner h
      | error e t => exact .failed h
    · generalize l.instr = i at hinner
      cases i with
      | malloc ty count =>
        obtain ⟨e, h⟩ | ⟨size, a, memory, ha, h⟩ := m.malloc_cases watch ty count s
        · rw [perform, h]
          exact .failed (.refl s)
        · rw [perform, h]
          exact .allocated ha
      | call id =>
        obtain ⟨e, h⟩ | ⟨c, args, _, hn, h⟩ := m.call_cases watch l.ip id s
        · rw [h]
          exact .failed (.refl s)
        · rw [h]
          refine .calling (.inl rfl) hn Bool.false_ne_true ?_
          rintro ⟨_, _, _, _, _, hi, _⟩
          cases hi
      | constGet offset =>
        obtain ⟨e, h⟩ | ⟨_, _, _, _, _, _, _, h⟩ | ⟨id, hi, _, h⟩ := m.constGet_cases watch offset s
        · rw [perform, h]
          exact .failed (.refl s)
        · rw [perform, h]
          exact .read
        · rw [perform, h]
          exact .initializing hi
      | callProc ty =>
        have h := m.calling_callProc watch l.ip ty s
        rw [perform]
        generalize m.callProc watch l.ip ty s = r at h
        cases h with
        | failed h => exact .failed h
        | routine hsig hn hp ht =>
          refine .calling (.inr ⟨_, rfl⟩) hn Bool.false_ne_true ?_
          rintro ⟨_, _, _, p', _, hi, hsig', hp', ht'⟩
          cases hi
          cases hsig.symm.trans hsig'
          cases hp.symm.trans hp'
          cases ht.symm.trans ht'
        | native hsig hn hp ht hrun hr =>
          refine .native hsig hn hp ht hrun ?_
          obtain ⟨e, rfl⟩ | ⟨_, rfl⟩ | ⟨_, v, _, rfl⟩ := hr
          · exact .inl ⟨e, rfl⟩
          · exact .inr (.inl rfl)
          · exact .inr (.inr ⟨v, rfl⟩)
      | _ => exact absurd rfl hinner

/-- An instruction is not found, or it is executed. -/
theorem effect_cycle (s : State σ τ) :
    (∃ e, decodeAt m.program.code s.ip = .error e ∧ m.cycle watch s = .error (.code e) s) ∨
    ∃ l, decodeAt m.program.code s.ip = .ok l ∧
      Effect m watch (fetched watch s l) l.instr (m.cycle watch s) := by
  rw [cycle_eq]
  cases decodeAt m.program.code s.ip with
  | error e => exact .inl ⟨e, rfl, rfl⟩
  | ok l => exact .inr ⟨l, rfl, m.effect_step watch l (fetched watch s l)⟩

end Machine
end ForeignVM
