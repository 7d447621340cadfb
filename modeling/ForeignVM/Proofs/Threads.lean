import ForeignVM.Proofs.Ownership

/-!
# ForeignVM.Proofs.Threads

What a sequence of nested calls can see of a state: the routines, the bytes of their locals, their
operands and where they go on, but neither where their blocks lie nor what is below them.

* `Thread`, `Ground`                — what calls see, and what lies below them.
* `Shows`                           — a state shows a thread above a ground; `Shows.unique`.
* `Shows.pop`, `localGet`, `enter`, … — what actions do to the thread.
* `Shows.begin`, `left_outermost`   — a thread begins on a new ground, and leaves it as it was.
-/

namespace ForeignVM

/-- Where a slot lies in its block. -/
def Slot.position (slot : Slot) : Nat := (signedWord slot.offset).toNat

theorem Slot.position_of_inside {slot : Slot} {size : Nat} (h : slot.Inside size)
    (hsize : size < Address.half) : slot.position = slot.offset := by
  unfold Slot.Inside at h
  unfold Address.half at hsize
  unfold position signedWord
  rw [Int.bmod_eq_of_le] <;> omega

/-- An address that is reached from the start of a block lies in this block. -/
theorem Slot.block_of_advance {slot : Slot} {b : Nat} {a : UInt64} (hb : b < Address.half)
    (h : Address.advance (Address.ofBlock b) slot.offset = .ok a) :
    Address.block a = b ∧ Address.offset a = slot.position := by
  unfold Address.advance Address.shift at h
  split at h
  · cases h
  · dsimp only at h
    rw [Address.block_ofBlock hb, Address.offset_ofBlock hb, Int.natCast_zero, Int.zero_add] at h
    split at h
    · next hin =>
      obtain rfl := Except.ok.inj h
      have hlt : (signedWord slot.offset).toNat < Address.half := by omega
      clear hin
      rw [Address.block, Address.offset, UInt64.toNat_ofNat', Slot.position]
      generalize (signedWord slot.offset).toNat = n at hlt
      unfold Address.half at *
      omega
    · cases h

/-! ## Threads -/

/-- A call of a thread: its routine, its block, and its operands, the top first. -/
structure Activation where
  routine : RoutineId
  locals : Block
  operands : List Value

/-- A call that waits for the one above it: how that one was entered, where it returns to. -/
structure Caller where
  kind : FrameKind
  resume : UInt32
  activation : Activation

/-- What nested calls see of a state. -/
structure Thread where
  ip : UInt32
  top : Activation
  callers : List Caller

/-- What lies below a thread: the state in which its outermost call was entered, and why it was. -/
structure Ground (σ τ : Type) where
  below : State σ τ
  kind : FrameKind

/-- The frame was entered by a program for a result that stays in the program. -/
def FrameKind.isCall : FrameKind → Bool
  | .call | .procCall _ => true
  | .host | .constant _ => false

namespace Thread

/-- The thread with other operands of its innermost call. -/
def give (a : Thread) (operands : List Value) : Thread :=
  { a with top := { a.top with operands := operands } }

/-- The thread behind an instruction that has given a value. -/
def receive (a : Thread) (ip : UInt32) (v : Value) : Thread :=
  ⟨ip, { a.top with operands := v :: a.top.operands }, a.callers⟩

end Thread

/-- The frame is that of a call whose locals are in its block. -/
structure Frame.Holds (memory : Memory) (f : Frame) (a : Activation) : Prop where
  routine : f.routine = a.routine
  starts : f.locals = Address.ofBlock f.block
  block : memory.blocks.get? f.block = some a.locals

/-- The frames and the operands are those of nested calls above a ground. Inner blocks are newer. -/
inductive Stands {σ τ : Type} (memory : Memory) (g : Ground σ τ) :
    List Frame → List Value → Activation → List Caller → Prop where
  | outermost {f : Frame} {a : Activation} (hf : f.Holds memory a)
      (hbase : f.base = g.below.operands.values.length) (hkind : f.kind = g.kind)
      (hresume : f.returnIp = g.below.ip) (hnewer : ∀ h ∈ g.below.calls.frames, h.block < f.block) :
      Stands memory g (f :: g.below.calls.frames) (a.operands ++ g.below.operands.values) a []
  | inner {f : Frame} {frames : List Frame} {values : List Value} {a b : Activation}
      {callers : List Caller} (hbelow : Stands memory g frames values b callers)
      (hf : f.Holds memory a) (hbase : f.base = values.length) (hkind : f.kind.isCall)
      (hnewer : ∀ h ∈ frames, h.block < f.block) :
      Stands memory g (f :: frames) (a.operands ++ values) a (⟨f.kind, f.returnIp, b⟩ :: callers)

/-- The state shows the thread, and what lies below it is as it was. -/
structure Shows {σ τ : Type} (s : State σ τ) (g : Ground σ τ) (a : Thread) : Prop where
  ip : s.ip = a.ip
  stands : Stands s.memory g s.calls.frames s.operands.values a.top a.callers
  kept : ∀ f ∈ g.below.calls.frames,
    s.memory.blocks.get? f.block = g.below.memory.blocks.get? f.block

namespace Frame.Holds

variable {memory memory' : Memory} {f : Frame} {a : Activation}

theorem congr (h : f.Holds memory a)
    (hsame : memory'.blocks.get? f.block = memory.blocks.get? f.block) : f.Holds memory' a :=
  ⟨h.routine, h.starts, hsame.trans h.block⟩

theorem block_lt (h : f.Holds memory a) : f.block < memory.next :=
  (Memory.bounds_of_get? h.block).2

theorem unique {b : Activation} (h : f.Holds memory b) (h' : f.Holds memory a)
    (hoperands : b.operands = a.operands) : b = a := by
  have hroutine : b.routine = a.routine := h.routine.symm.trans h'.routine
  have hlocals : b.locals = a.locals := Option.some.inj (h.block.symm.trans h'.block)
  cases a
  cases b
  simp only at hroutine hlocals hoperands
  rw [hroutine, hlocals, hoperands]

end Frame.Holds

namespace Stands

variable {σ τ : Type} {memory memory' : Memory} {g : Ground σ τ} {frames : List Frame}
  {values : List Value} {a : Activation} {callers : List Caller}

theorem congr (h : Stands memory g frames values a callers)
    (hsame : ∀ f ∈ frames, memory'.blocks.get? f.block = memory.blocks.get? f.block) :
    Stands memory' g frames values a callers := by
  induction h with
  | outermost hf hbase hkind hresume hnewer =>
    exact .outermost (hf.congr (hsame _ List.mem_cons_self)) hbase hkind hresume hnewer
  | inner _ hf hbase hkind hnewer ih =>
    exact .inner (ih fun f hmem => hsame f (.tail _ hmem))
      (hf.congr (hsame _ List.mem_cons_self)) hbase hkind hnewer

/-- The frames of the ground are below the current frame of the thread. -/
theorem suffix (h : Stands memory g frames values a callers) :
    g.below.calls.frames <:+ frames.tail := by
  induction h with
  | outermost => exact List.suffix_refl _
  | inner _ _ _ _ _ ih => exact ih.trans (List.tail_suffix _)

/-- The current frame, and the operands that are not its own. -/
theorem current (h : Stands memory g frames values a callers) :
    ∃ f rest lower, frames = f :: rest ∧ f.Holds memory a ∧ values = a.operands ++ lower ∧
      f.base = lower.length ∧ (∀ h ∈ rest, h.block < f.block) ∧
      ∀ memory' a', f.Holds memory' a' →
        (∀ h ∈ rest, memory'.blocks.get? h.block = memory.blocks.get? h.block) →
        Stands memory' g frames (a'.operands ++ lower) a' callers := by
  cases h with
  | @outermost f a hf hbase hkind hresume hnewer =>
    exact ⟨f, _, _, rfl, hf, rfl, hbase, hnewer,
      fun _ _ hf' _ => .outermost hf' hbase hkind hresume hnewer⟩
  | @inner f frames values a b callers hbelow hf hbase hkind hnewer =>
    exact ⟨f, _, _, rfl, hf, rfl, hbase, hnewer,
      fun _ _ hf' hsame => .inner (hbelow.congr hsame) hf' hbase hkind hnewer⟩

/-- A state shows one thread above a ground. -/
theorem unique {b : Activation} {callers' : List Caller}
    (h : Stands memory g frames values a callers) (h' : Stands memory g frames values b callers') :
    b = a ∧ callers' = callers := by
  -- what stands on the frames of the ground has more frames than the ground
  have hmore {values : List Value} {a : Activation} {callers : List Caller}
      (h : Stands memory g g.below.calls.frames values a callers) : False := by
    obtain ⟨f, rest, _, hframes, _⟩ := h.current
    have hlength := h.suffix.length_le
    rw [hframes] at hlength
    exact Nat.not_succ_le_self _ hlength
  generalize hframes : frames = frames' at h'
  generalize hvalues : values = values' at h'
  induction h generalizing b callers' frames' values' with
  | @outermost f a hf _ _ _ _ =>
    cases h' with
    | @outermost _ b hf' _ _ _ _ =>
      cases hframes
      exact ⟨hf'.unique hf (List.append_cancel_right hvalues).symm, rfl⟩
    | inner hbelow _ _ _ _ =>
      cases hframes
      exact absurd hbelow hmore
  | @inner f frames values a c callers hbelow hf hbase _ _ ih =>
    cases h' with
    | outermost _ _ _ _ _ =>
      cases hframes
      exact absurd hbelow hmore
    | @inner _ _ values' b d _ hbelow' hf' hbase' _ _ =>
      cases hframes
      obtain ⟨hoperands, hrest⟩ :=
        List.append_inj' hvalues (by rw [← hbase, ← hbase'])
      obtain ⟨rfl, rfl⟩ := ih _ rfl _ hrest hbelow'
      exact ⟨hf'.unique hf hoperands.symm, rfl⟩

theorem block_lt (h : Stands memory g frames values a callers) :
    ∀ f ∈ frames, f.block < memory.next := by
  obtain ⟨f, rest, _, rfl, hf, _, _, hnewer, _⟩ := h.current
  intro f' hf'
  cases hf' with
  | head => exact hf.block_lt
  | tail _ hf' => exact Nat.lt_trans (hnewer f' hf') hf.block_lt

end Stands

/-! ## Elementary actions -/

namespace Shows

variable {σ τ : Type} {s : State σ τ} {g : Ground σ τ} {a : Thread}

/-- Whatever changes only the current frame's block and operands changes only the innermost call
of the thread. -/
theorem update (h : Shows s g a) : ∃ f lower, s.calls.current? = some f ∧
    f.Holds s.memory a.top ∧ s.operands.values = a.top.operands ++ lower ∧
    f.base = lower.length ∧
    ∀ (t : State σ τ) (a' : Thread), t.ip = a'.ip → a'.callers = a.callers →
      t.calls = s.calls → t.operands.values = a'.top.operands ++ lower →
      f.Holds t.memory a'.top →
      (∀ k, k ≠ f.block → t.memory.blocks.get? k = s.memory.blocks.get? k) → Shows t g a' := by
  obtain ⟨f, rest, lower, hframes, hf, hvalues, hbase, hnewer, hupdate⟩ := h.stands.current
  have hcurrent : s.calls.current? = some f := by rw [CallStack.current?, hframes]; rfl
  refine ⟨f, lower, hcurrent, hf, hvalues, hbase, fun t a' hip hcallers hcalls ht hf' hsame => ?_⟩
  have hrest : ∀ h ∈ rest, t.memory.blocks.get? h.block = s.memory.blocks.get? h.block :=
    fun f' hf' => hsame _ (Nat.ne_of_lt (hnewer f' hf'))
  refine ⟨hip, ?_, fun f' hf' => ?_⟩
  · rw [hcallers, hcalls, ht]
    exact hupdate t.memory a'.top hf' hrest
  · have hsuffix := h.stands.suffix
    rw [hframes] at hsuffix
    rw [hrest f' (hsuffix.subset hf'), h.kept f' hf']

/-- Changes of the operands of the innermost call. -/
theorem operands (h : Shows s g a) : ∃ lower, s.calls.base = lower.length ∧
    s.operands.values = a.top.operands ++ lower ∧
    ∀ (t : State σ τ) vs, t.ip = s.ip → t.calls = s.calls → t.memory = s.memory →
      t.operands.values = vs ++ lower → Shows t g (a.give vs) := by
  obtain ⟨f, lower, hcurrent, hf, hvalues, hbase, hupdate⟩ := h.update
  refine ⟨lower, ?_, hvalues, fun t vs hip hcalls hmemory ht => ?_⟩
  · rw [CallStack.base, hcurrent]
    exact hbase
  · refine hupdate t (a.give vs) (hip.trans h.ip) rfl hcalls ht ?_ fun k _ => by rw [hmemory]
    rw [hmemory]
    exact ⟨hf.routine, hf.starts, hf.block⟩

theorem unique {b : Thread} (h : Shows s g a) (h' : Shows s g b) : b = a := by
  obtain ⟨htop, hcallers⟩ := h.stands.unique h'.stands
  have hip : b.ip = a.ip := h'.ip.symm.trans h.ip
  cases a
  cases b
  simp only at hip htop hcallers
  rw [hip, htop, hcallers]

/-- Only the frames, the operands and the blocks of the frames matter. -/
theorem carry {t : State σ τ} {ip : UInt32} (h : Shows s g a) (hip : t.ip = ip)
    (hframes : t.calls.frames = s.calls.frames) (hvalues : t.operands.values = s.operands.values)
    (hsame : ∀ f ∈ s.calls.frames, t.memory.blocks.get? f.block = s.memory.blocks.get? f.block) :
    Shows t g { a with ip := ip } := by
  refine ⟨hip, ?_, fun f hf => ?_⟩
  · rw [hframes, hvalues]
    exact h.stands.congr hsame
  · have hmem := List.mem_of_mem_tail (h.stands.suffix.subset hf)
    rw [hsame f hmem, h.kept f hf]

theorem jump (h : Shows s g a) (ip : UInt32) (trace : τ) :
    Shows { s with ip := ip, trace := trace } g { a with ip := ip } :=
  ⟨rfl, h.stands, h.kept⟩

theorem push (h : Shows s g a) (v : Value) :
    Shows { s with operands := s.operands.push v } g (a.give (v :: a.top.operands)) := by
  obtain ⟨lower, _, hvalues, hgive⟩ := h.operands
  exact hgive _ _ rfl rfl rfl (congrArg (v :: ·) hvalues)

theorem pop {ip : UInt32} {v : Value} {t : State σ τ} (h : Shows s g a)
    (hpop : Action.pop ip s = .ok v t) :
    ∃ vs, a.top.operands = v :: vs ∧ Shows t g (a.give vs) := by
  obtain ⟨lower, hbase, hvalues, hgive⟩ := h.operands
  obtain ⟨hb, hv, rfl⟩ := Action.pop_ok hpop
  rw [hbase, s.operands.height_eq, hvalues, List.length_append] at hb
  cases hops : a.top.operands with
  | nil =>
    rw [hops, List.length_nil] at hb
    omega
  | cons v' vs =>
    rw [hops] at hvalues
    rw [hvalues] at hv
    cases hv
    refine ⟨vs, rfl, hgive _ vs rfl rfl rfl ?_⟩
    change s.operands.values.drop 1 = _
    rw [hvalues]
    rfl

theorem popMany {ip : UInt32} {n : Nat} {xs : List Value} {t : State σ τ} (h : Shows s g a)
    (hpop : Action.popMany ip n s = .ok xs t) :
    xs = (a.top.operands.take n).reverse ∧ Shows t g (a.give (a.top.operands.drop n)) := by
  obtain ⟨lower, hbase, hvalues, hgive⟩ := h.operands
  obtain ⟨hb, rfl, rfl⟩ := Action.popMany_ok hpop
  rw [hbase, s.operands.height_eq, hvalues, List.length_append] at hb
  have hn : n ≤ a.top.operands.length := by omega
  refine ⟨?_, hgive _ _ rfl rfl rfl ?_⟩
  · rw [hvalues, List.take_append_of_le_length hn]
  · change s.operands.values.drop n = _
    rw [hvalues, List.drop_append_of_le_length hn]

end Shows

/-! ## Locals -/

/-- The block of a frame after arguments have been stored into its leading slots. -/
def Block.fill : List Slot → List Value → Block → Option Block
  | slot :: slots, arg :: args, b =>
    match slot.shape.encode arg with
    | .ok bytes => fill slots args (b.put slot.position bytes)
    | .error _ => none
  | _, _, b => some b

theorem Block.size_fill {slots : List Slot} {args : List Value} {b new : Block}
    (h : Block.fill slots args b = some new) : new.size = b.size := by
  fun_induction Block.fill slots args b with
  | case1 slot slots arg args b bytes _ ih => exact ih h
  | case2 => cases h
  | case3 =>
    cases h
    rfl

/-- What a routine with a result type returns if it has these operands. -/
def Machine.result? (l : Layouts) : Option TypeId → List Value → Option Value
  | none, _ => some .void
  | some _, [] => none
  | some ty, v :: _ =>
    match l.shape ty with
    | .error _ => none
    | .ok sh => (sh.coerce v).toOption

namespace Machine

open ForeignVM.Action

variable {σ τ : Type} {m : Machine σ} {watch : Observer τ} {s t : State σ τ}

theorem callee_ok {id : RoutineId} {c : Callee} (h : m.callee id s = .ok c t) :
    m.callee? id = some c ∧ s = t := by
  unfold callee at h
  cases hc : m.callee? id with
  | none => rw [hc] at h; cases h
  | some c' =>
    rw [hc] at h
    cases h
    exact ⟨rfl, rfl⟩

theorem localSlot_ok {ip : UInt32} {i : UInt16} {r : UInt64 × Slot}
    (h : m.localSlot ip i s = .ok r t) :
    s = t ∧ ∃ f c, s.calls.current? = some f ∧ m.callee? f.routine = some c ∧
      c.frame.slots[i.toNat]? = some r.2 ∧ Address.advance f.locals r.2.offset = .ok r.1 := by
  simp only [localSlot, bind_run, get_run] at h
  cases hf : s.calls.current? with
  | none => rw [hf] at h; cases h
  | some f =>
    rw [hf] at h
    obtain ⟨c, _, hrun, h⟩ := bind_eq_ok h
    obtain ⟨hc, rfl⟩ := callee_ok hrun
    cases hslot : c.frame.slots[i.toNat]? with
    | none => rw [hslot] at h; cases h
    | some slot =>
      rw [hslot] at h
      obtain ⟨address, _, hrun, h⟩ := bind_eq_ok h
      obtain ⟨ha, rfl⟩ := check_eq_ok hrun
      cases h
      exact ⟨rfl, f, c, rfl, hc, hslot, ha⟩

theorem load_ok {address : UInt64} {shape : Shape} {v : Value}
    (h : Action.load address shape s = .ok v t) :
    s = t ∧ s.memory.load address shape = .ok v := by
  obtain ⟨_, _, hget, h⟩ := bind_eq_ok h
  cases hget
  exact (check_eq_ok h).symm

theorem store_ok {address : UInt64} {shape : Shape} {v : Value} {u : Unit}
    (h : Action.store address shape v s = .ok u t) :
    ∃ memory, s.memory.store address shape v = .ok memory ∧ t = { s with memory := memory } := by
  obtain ⟨_, _, hget, h⟩ := bind_eq_ok h
  cases hget
  obtain ⟨memory, _, hrun, h⟩ := bind_eq_ok h
  obtain ⟨hstore, rfl⟩ := check_eq_ok hrun
  cases h
  exact ⟨memory, hstore, rfl⟩

/-- What writes to slots and the release of their block keep, the storing of arguments keeps. -/
theorem keeps_storeArgs {R : Memory → Memory → Prop} (hrefl : ∀ memory, R memory memory)
    (htrans : ∀ {m₁ m₂ m₃ : Memory}, R m₁ m₂ → R m₂ m₃ → R m₁ m₃) (locals : UInt64)
    (hwrite : ∀ {memory memory' : Memory} {slot : Slot} {address : UInt64} {bytes : Bytes},
      Address.advance locals slot.offset = .ok address →
      memory.write address bytes = .ok memory' → R memory memory')
    (hfree : ∀ {memory memory' : Memory}, memory.free locals = .ok memory' → R memory memory')
    (slots : List Slot) (args : List Value) (s : State σ τ) :
    R s.memory (finalState (storeArgs locals slots args s)).memory := by
  induction slots generalizing args s with
  | nil => exact hrefl _
  | cons slot slots ih =>
    cases args with
    | nil => exact hrefl _
    | cons arg args =>
      simp only [storeArgs, bind_run, get_run]
      cases ha : Address.advance locals slot.offset with
      | error e => exact hrefl _
      | ok address =>
        simp only [check_ok, pure_run]
        cases s.memory.blockAt address slot.shape.size with
        | error e => exact hrefl _
        | ok old =>
          simp only [check_ok, pure_run]
          cases slot.shape.encode arg with
          | error e =>
            simp only [release, bind_run, get_run]
            cases hreleased : s.memory.free locals with
            | error e => exact hrefl _
            | ok memory => exact hfree hreleased
          | ok bytes =>
            simp only [bind_run, get_run]
            cases hwritten : s.memory.write address bytes with
            | error e => exact hrefl _
            | ok memory =>
              exact htrans (hwrite ha hwritten) (ih args { s with memory := memory })

/-- Arguments are stored into the block of the frame and nowhere else. -/
theorem storeArgs_ok {locals : UInt64} {slots : List Slot} {args : List Value} {b : Nat}
    {old : Block} {u : Unit} (hlocals : locals = Address.ofBlock b) (hb : b < Address.half)
    (hold : s.memory.blocks.get? b = some old)
    (h : storeArgs locals slots args s = .ok u t) :
    ∃ memory new, t = { s with memory := memory } ∧ Block.fill slots args old = some new ∧
      ∀ k, memory.blocks.get? k = if k = b then some new else s.memory.blocks.get? k := by
  have hsame : ∀ k, s.memory.blocks.get? k =
      if k = b then some old else s.memory.blocks.get? k := by
    intro k
    split
    · next hk => rw [hk, hold]
    · rfl
  induction slots generalizing args s old with
  | nil =>
    cases h
    exact ⟨_, old, rfl, by rw [Block.fill]; exact nofun, hsame⟩
  | cons slot slots ih =>
    cases args with
    | nil =>
      cases h
      exact ⟨_, old, rfl, by rw [Block.fill]; exact nofun, hsame⟩
    | cons arg args =>
      unfold storeArgs at h
      obtain ⟨address, _, hrun, h⟩ := bind_eq_ok h
      obtain ⟨ha, rfl⟩ := check_eq_ok hrun
      obtain ⟨_, _, hget, h⟩ := bind_eq_ok h
      cases hget
      obtain ⟨_, _, hrun, h⟩ := bind_eq_ok h
      obtain ⟨_, rfl⟩ := check_eq_ok hrun
      obtain ⟨hblock, hoffset⟩ := Slot.block_of_advance hb (hlocals ▸ ha)
      cases he : slot.shape.encode arg with
      | error e =>
        rw [he] at h
        obtain ⟨_, _, _, h⟩ := bind_eq_ok h
        cases h
      | ok bytes =>
        rw [he] at h
        obtain ⟨_, _, hget, h⟩ := bind_eq_ok h
        cases hget
        obtain ⟨memory, _, hrun, h⟩ := bind_eq_ok h
        obtain ⟨hw, rfl⟩ := check_eq_ok hrun
        obtain ⟨_, _, hset, h⟩ := bind_eq_ok h
        cases hset
        have hget := Memory.get?_write hw (hblock.symm ▸ hold)
        rw [hblock, hoffset] at hget
        obtain ⟨memory', new, rfl, hfill, hnew⟩ := ih
          (by rw [hget, if_pos rfl]) h (fun k => by
            dsimp only
            rw [hget]
            split <;> rfl)
        refine ⟨memory', new, rfl, ?_, fun k => ?_⟩
        · rw [Block.fill, he]
          exact hfill
        · rw [hnew]
          dsimp only
          rw [hget]
          split <;> rfl

/-- `t` comes of `s` by a call of a routine: there is a new frame, and it has the only new block. -/
structure Begun (s t : State σ τ) (id : RoutineId) (kind : FrameKind) (c : Callee) (f : Frame)
    (new : Block) : Prop where
  ip : t.ip = c.routine.entry
  frames : t.calls.frames = f :: s.calls.frames
  operands : t.operands = s.operands
  kind : f.kind = kind
  resume : f.returnIp = s.ip
  base : f.base = s.operands.values.length
  holds : f.Holds t.memory ⟨id, new, []⟩
  block : f.block = s.memory.next
  others : ∀ k, k ≠ f.block → t.memory.blocks.get? k = s.memory.blocks.get? k

/-- A routine that is entered begins with its arguments in a new block. -/
theorem enter_ok {id : RoutineId} {args : List Value} {kind : FrameKind} {u : Unit}
    (h : m.enter watch id args kind s = .ok u t) :
    ∃ c f new, m.callee? id = some c ∧
      Block.fill c.frame.slots.toList args ⟨c.frame.size, .empty⟩ = some new ∧
      Begun s t id kind c f new := by
  obtain ⟨e, herror⟩ | ⟨c, allocated, hc, _, ha, henter⟩ := m.enter_cases watch id args kind s
  · cases h.symm.trans herror
  rw [henter] at h
  obtain ⟨_, hadds⟩ := Memory.alloc_ok ha
  have hget := Memory.get?_alloc ha
  have hblock := Address.block_ofBlock hadds.room
  generalize hlocals : Address.ofBlock s.memory.next = locals at h hblock
  cases hs : storeArgs locals c.frame.slots.toList args { s with memory := allocated } with
  | error e s' => rw [hs] at h; cases h
  | ok u' s' =>
    obtain ⟨memory, new, rfl, hfill, hnew⟩ := storeArgs_ok hlocals.symm hadds.room
      ((Memory.alloc_block ha).2) hs
    rw [hs] at h
    cases h
    refine ⟨c, ⟨id, kind, s.ip, locals, s.operands.height⟩, new, hc, hfill, ?_⟩
    refine ⟨rfl, rfl, rfl, rfl, rfl, s.operands.height_eq, ⟨rfl, ?_, ?_⟩, hblock, ?_⟩
    · rw [Frame.block, hblock, hlocals]
    · exact (hnew _).trans (if_pos hblock)
    · intro k hk
      have hne : k ≠ s.memory.next := fun heq => hk (heq.trans hblock.symm)
      exact ((hnew k).trans (if_neg hne)).trans ((hget k).trans (if_neg hne))

/-- The block of a frame has no more bytes than addresses can name. -/
theorem room_of_enter {id : RoutineId} {args : List Value} {kind : FrameKind} {c : Callee}
    {u : Unit} (hc : m.callee? id = some c) (h : m.enter watch id args kind s = .ok u t) :
    c.frame.size < Address.half := by
  obtain ⟨e, he⟩ | ⟨c', _, hc', _, halloc, _⟩ := m.enter_cases watch id args kind s
  · cases h.symm.trans he
  · cases hc.symm.trans hc'
    exact (Memory.alloc_block halloc).1

/-- A return that succeeds gives its result to the host or to the frame below. -/
theorem leave_ok {ip : UInt32} {f : Frame} {o : Option Value} (hf : s.calls.current? = some f)
    (h : m.leave watch ip s = .ok o t) :
    ∃ c v s' memory, m.callee? f.routine = some c ∧ m.result ip c.routine.ret s = .ok v s' ∧
      s.memory.free f.locals = .ok memory ∧
      ((f.kind = .host ∧ o = some v) ∨
        (f.kind ≠ .host ∧ o = none ∧ ∃ u,
          m.deliver watch v f.kind (left watch s f v memory) = .ok () u ∧
          Delivering m watch v (left watch s f v memory) f.kind u ∧
          t = { u with ip := f.returnIp })) := by
  obtain ⟨_, _, hr, _⟩ | ⟨c, v, s', hc, hresult, _, ⟨_, _, hr⟩ | ⟨memory, hfree, hr⟩⟩ :=
    m.leave_cases watch hf ip
  · cases h.symm.trans hr
  · cases h.symm.trans hr
  refine ⟨c, v, s', memory, hc, hresult, hfree, ?_⟩
  rw [hr] at h
  obtain ⟨hkind, hover⟩ | ⟨hkind, ⟨_, hover⟩ | ⟨u, hd, hdelivering, hover⟩⟩ :=
    m.handOver_cases watch f v (left watch s f v memory)
  · cases h.symm.trans hover
    exact .inl ⟨hkind, rfl⟩
  · cases h.symm.trans hover
  · cases h.symm.trans hover
    exact .inr ⟨hkind, rfl, u, hd, hdelivering, rfl⟩

end Machine

namespace Shows

open Machine ForeignVM.Action

variable {σ τ : Type} {m : Machine σ} {watch : Observer τ} {s t : State σ τ} {g : Ground σ τ}
  {a : Thread} {ip : UInt32} {u : Unit}

theorem localGet {i : UInt16} (h : Shows s g a)
    (hget : m.perform watch ip (.localGet i) s = .ok u t) :
    ∃ c slot, m.callee? a.top.routine = some c ∧ c.frame.slots[i.toNat]? = some slot ∧
      Shows t g (a.give
        (slot.shape.decode (a.top.locals.bytes.read slot.position slot.shape.size) ::
          a.top.operands)) := by
  rw [perform] at hget
  obtain ⟨r, _, hslot, hget⟩ := bind_eq_ok hget
  obtain ⟨rfl, f, c, hf, hc, hslots, ha⟩ := localSlot_ok hslot
  obtain ⟨f', lower, hf', hholds, _⟩ := h.update
  cases hf.symm.trans hf'
  rw [hholds.routine] at hc
  rw [hholds.starts] at ha
  obtain ⟨hblock, hoffset⟩ := Slot.block_of_advance f.block_lt ha
  obtain ⟨v, _, hload, hpush⟩ := bind_eq_ok hget
  obtain ⟨rfl, hv⟩ := load_ok hload
  cases hpush
  have hvalue := Memory.load_cases hv (hblock.symm ▸ hholds.block)
  rw [hoffset] at hvalue
  exact ⟨c, r.2, hc, hslots, hvalue ▸ h.push v⟩

theorem localSet {i : UInt16} (h : Shows s g a)
    (hset : m.perform watch ip (.localSet i) s = .ok u t) :
    ∃ v vs c slot bytes, a.top.operands = v :: vs ∧ m.callee? a.top.routine = some c ∧
      c.frame.slots[i.toNat]? = some slot ∧ slot.shape.encode v = .ok bytes ∧
      Shows t g { a with
        top := ⟨a.top.routine, a.top.locals.put slot.position bytes, vs⟩ } := by
  rw [perform] at hset
  obtain ⟨v, _, hpop, hset⟩ := bind_eq_ok hset
  obtain ⟨vs, hops, h'⟩ := h.pop hpop
  obtain ⟨r, _, hslot, hset⟩ := bind_eq_ok hset
  obtain ⟨rfl, f, c, hf, hc, hslots, ha⟩ := localSlot_ok hslot
  obtain ⟨f', lower, hf', hholds, hvalues, _, hupdate⟩ := h'.update
  cases hf.symm.trans hf'
  have hroutine : f.routine = a.top.routine := hholds.routine
  rw [hroutine] at hc
  rw [hholds.starts] at ha
  obtain ⟨hblock, hoffset⟩ := Slot.block_of_advance f.block_lt ha
  obtain ⟨memory, hstore, rfl⟩ := store_ok hset
  obtain ⟨bytes, hbytes, hwrite⟩ := Memory.store_cases hstore
  have hget := Memory.get?_write hwrite (hblock.symm ▸ hholds.block)
  rw [hblock, hoffset] at hget
  refine ⟨v, vs, c, r.2, bytes, hops, hc, hslots, hbytes, ?_⟩
  refine hupdate _ _ h'.ip rfl rfl hvalues ⟨hroutine, hholds.starts, ?_⟩ fun k hk => ?_
  · exact (hget f.block).trans (if_pos rfl)
  · exact (hget k).trans (if_neg hk)

/-! ## Calls and returns -/

/-- A routine that is called begins above its caller. -/
theorem enter {id : RoutineId} {args : List Value} {kind : FrameKind} (h : Shows s g a)
    (hkind : kind.isCall) (henter : m.enter watch id args kind s = .ok u t) :
    ∃ c new, m.callee? id = some c ∧
      Block.fill c.frame.slots.toList args ⟨c.frame.size, .empty⟩ = some new ∧
      Shows t g ⟨c.routine.entry, ⟨id, new, []⟩, ⟨kind, a.ip, a.top⟩ :: a.callers⟩ := by
  obtain ⟨c, f, new, hc, hfill, hbegun⟩ := enter_ok henter
  have hnewer : ∀ f' ∈ s.calls.frames, f'.block < f.block := fun f' hf' =>
    hbegun.block ▸ h.stands.block_lt f' hf'
  have hbelow := h.carry (t := { s with memory := t.memory }) h.ip rfl rfl
    fun f' hf' => hbegun.others _ (Nat.ne_of_lt (hnewer f' hf'))
  refine ⟨c, new, hc, hfill, hbegun.ip, ?_, hbelow.kept⟩
  have hstands := Stands.inner hbelow.stands hbegun.holds hbegun.base
    (hbegun.kind.symm ▸ hkind) hnewer
  rw [hbegun.kind, hbegun.resume, h.ip] at hstands
  rw [hbegun.frames, hbegun.operands]
  exact hstands

/-- A routine that is called on a new ground begins there. -/
theorem begin {id : RoutineId} {args : List Value} {kind : FrameKind}
    (hlt : ∀ f ∈ s.calls.frames, f.block < s.memory.next)
    (henter : m.enter watch id args kind s = .ok u t) :
    ∃ c new, m.callee? id = some c ∧
      Block.fill c.frame.slots.toList args ⟨c.frame.size, .empty⟩ = some new ∧
      Shows t ⟨s, kind⟩ ⟨c.routine.entry, ⟨id, new, []⟩, []⟩ := by
  obtain ⟨c, f, new, hc, hfill, hbegun⟩ := enter_ok henter
  have hnewer : ∀ f' ∈ s.calls.frames, f'.block < f.block := fun f' hf' =>
    hbegun.block ▸ hlt f' hf'
  refine ⟨c, new, hc, hfill, hbegun.ip, ?_, ?_⟩
  · rw [hbegun.frames, hbegun.operands]
    exact .outermost (g := ⟨s, kind⟩) hbegun.holds hbegun.base hbegun.kind hbegun.resume hnewer
  · intro f' hf'
    exact hbegun.others _ (Nat.ne_of_lt (hnewer f' hf'))

theorem isCall {f : Frame} (h : Shows s g a) (hinside : a.callers ≠ [])
    (hf : s.calls.current? = some f) : f.kind.isCall := by
  have hstands := h.stands
  generalize a.callers = callers at hstands hinside
  generalize hframes : s.calls.frames = frames at hstands
  generalize s.operands.values = values at hstands
  rw [CallStack.current?, hframes] at hf
  cases hstands with
  | outermost _ _ _ _ _ => exact absurd rfl hinside
  | inner _ _ _ hkind _ =>
    cases hf
    exact hkind

/-- What is returned depends on the operands of the innermost call. -/
theorem result {ret : Option TypeId} {v : Value} (h : Shows s g a)
    (hr : m.result ip ret s = .ok v t) : result? m.layouts ret a.top.operands = some v := by
  cases ret with
  | none =>
    cases hr
    rfl
  | some ty =>
    obtain ⟨w, _, hpop, hr⟩ := bind_eq_ok hr
    obtain ⟨vs, hops, _⟩ := h.pop hpop
    obtain ⟨sh, _, hrun, hr⟩ := bind_eq_ok hr
    obtain ⟨hs, rfl⟩ := check_eq_ok hrun
    obtain ⟨hc, _⟩ := check_eq_ok hr
    simp only [hops, result?, hs, hc]
    rfl

section

variable {f : Frame} {memory : Memory} (h : Shows s g a) (hf : s.calls.current? = some f)
  (hfree : s.memory.free f.locals = .ok memory)
include h hf hfree

/-- After a return within the thread, the caller is the innermost call. -/
theorem left_inner (watch : Observer τ) (v : Value) {b : Caller} {rest : List Caller}
    (hcallers : a.callers = b :: rest) :
    f.kind = b.kind ∧ f.kind.isCall ∧ f.returnIp = b.resume ∧
      Shows (left watch s f v memory) g ⟨a.ip, b.activation, rest⟩ := by
  obtain ⟨hip, hstands, hkept⟩ := h
  have hget := Memory.get?_free hfree
  rw [hcallers] at hstands
  generalize hframes : s.calls.frames = frames at hstands
  generalize hvalues : s.operands.values = values at hstands
  rw [CallStack.current?, hframes] at hf
  cases hstands with
  | @inner f' frames values _ _ _ hbelow hholds hbase hkind hnewer =>
    cases hf
    have hsame : ∀ f' ∈ frames, memory.blocks.get? f'.block = s.memory.blocks.get? f'.block :=
      fun f' hf' => (hget _).trans (if_neg (Nat.ne_of_lt (hnewer f' hf')))
    refine ⟨rfl, hkind, rfl, hip, ?_, fun f' hf' => ?_⟩
    · have htail : s.calls.tail.frames = frames := congrArg List.tail hframes
      have hcut : (s.operands.cut f.base).values = values := by
        rw [Operands.values_cut, hvalues, s.operands.height_eq, hvalues, hbase, List.length_append,
          Nat.add_sub_cancel, List.drop_left']
        rfl
      change Stands memory g s.calls.tail.frames (s.operands.cut f.base).values _ _
      rw [htail, hcut]
      exact hbelow.congr hsame
    · have hmem := List.mem_of_mem_tail (hbelow.suffix.subset hf')
      exact (hsame f' hmem).trans (hkept f' hf')

/-- After the return of the outermost call, the ground is as it was. -/
theorem left_outermost (watch : Observer τ) (v : Value) (hcallers : a.callers = []) :
    f.kind = g.kind ∧ f.returnIp = g.below.ip ∧
      (left watch s f v memory).calls.frames = g.below.calls.frames ∧
      (left watch s f v memory).operands.values = g.below.operands.values ∧
      ∀ f' ∈ g.below.calls.frames,
        memory.blocks.get? f'.block = g.below.memory.blocks.get? f'.block := by
  obtain ⟨_, hstands, hkept⟩ := h
  have hget := Memory.get?_free hfree
  rw [hcallers] at hstands
  generalize hframes : s.calls.frames = frames at hstands
  generalize hvalues : s.operands.values = values at hstands
  rw [CallStack.current?, hframes] at hf
  cases hstands with
  | @outermost f' _ hholds hbase hkind hresume hnewer =>
    cases hf
    refine ⟨hkind, hresume, congrArg List.tail hframes, ?_, fun f' hf' => ?_⟩
    · change (s.operands.cut f.base).values = _
      rw [Operands.values_cut, hvalues, s.operands.height_eq, hvalues, hbase, List.length_append,
        Nat.add_sub_cancel, List.drop_left']
      rfl
    · exact ((hget _).trans (if_neg (Nat.ne_of_lt (hnewer f' hf')))).trans (hkept f' hf')

end

end Shows
end ForeignVM
