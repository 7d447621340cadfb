import ForeignVM.Proofs.Checks
import ForeignVM.Proofs.Entries

/-!
# ForeignVM.Proofs.Lifetimes

The locals of a frame from its entry to its return. Whatever else runs in between, a local has the
value that it has been given last in this frame: by LOCAL_SET, or else as an argument, or else zero.
Only STORE and natives reach it from elsewhere.

* `Machine.WritesAt`     — the instructions that can write to any block.
* `Machine.Life`         — the states in which the frame is open, and what has been given to its
  locals; `exists_life`.
* `Machine.get?_of_cycle` — what an instruction does not do to a block.
* `Machine.Tended`       — what every instruction keeps; `tended_of_life`.
* `locals_independent`   — frames have independent, fresh locals, or are not entered.
-/

namespace ForeignVM

open Address

namespace Machine

open ForeignVM.Action

variable {σ τ : Type} (m : Machine σ) (watch : Observer τ)

/-- The instruction at `s` is STORE, or it calls a native. -/
def WritesAt (s : State σ τ) : Prop :=
  (∃ l ty, decodeAt m.program.code s.ip = .ok l ∧ l.instr = .store ty) ∨ m.NativeAt s

/-- In a run from `t` on, `f` is a frame that is still open above `below`. Its locals have been
given these values last; `first` are those that they have been given at `t`. No STORE and no native
has changed the block of the frame. -/
inductive Life (f : Frame) (below : List Frame) (first : UInt16 → Option Value) (t : State σ τ) :
    (UInt16 → Option Value) → State σ τ → Prop where
  | entered : Life f below first t first t
  /-- LOCAL_SET in this frame. -/
  | assigned {given : UInt16 → Option Value} {u u' : State σ τ} {l : Located} {i : UInt16}
      {v : Value} (hu : Life f below first t given u) (hcurrent : u.calls.frames = f :: below)
      (hl : decodeAt m.program.code u.ip = .ok l) (hi : l.instr = .localSet i)
      (hv : u.operands.values.head? = some v) (h : m.cycle watch u = .ok none u') :
      Life f below first t (Function.update given i (some v)) u'
  /-- Anything else, in this frame or above it. -/
  | passed {given : UInt16 → Option Value} {u u' : State σ τ}
      (hu : Life f below first t given u)
      (hother : u.calls.frames = f :: below → ∀ l i, decodeAt m.program.code u.ip = .ok l →
        l.instr ≠ .localSet i)
      (hkept : m.WritesAt u → u'.memory.blocks.get? f.block = u.memory.blocks.get? f.block)
      (h : m.cycle watch u = .ok none u') (hopen : ∃ above, u'.calls.frames = above ++ f :: below) :
      Life f below first t given u'

variable {m watch} {s t u u' : State σ τ} {f : Frame} {below : List Frame}
  {first given : UInt16 → Option Value}

/-! ## What an instruction does to a block -/

/-- Two states with the same memory. -/
def SameMemory (s t : State σ τ) : Prop := t.memory = s.memory

instance : IsPreorder (State σ τ) SameMemory where
  refl _ := rfl
  trans _ _ _ h h' := h'.trans h

theorem sameMemory_congruence :
    Congruence fun _ (a : Action σ τ _) (_ : Action σ τ _) => Keeps SameMemory a where
  pure := .pure
  throw := .throw
  bind := .bind
  push _ _ := rfl
  pop ip s := by
    obtain ⟨-, h⟩ | ⟨-, v, -, h⟩ := pop_cases ip s <;> rw [h] <;> exact rfl

/-- One case per instruction that is not plain. -/
theorem perform_sameMemory {i : Instr} (hi : i.isInner) (hset : ∀ j, i ≠ .localSet j)
    (hstore : ∀ ty, i ≠ .store ty) (ip : UInt32) :
    Keeps SameMemory (m.perform watch ip i) := by
  have h := sameMemory_congruence (σ := σ) (τ := τ)
  have hslot (i : UInt16) := m.keeps_localSlot h ip i
  cases i with
  | localGet i => exact .bind (hslot i) fun _ => .bind (keeps_load _ _) h.push
  | localSet i => exact absurd rfl (hset i)
  | localAddr i => exact .bind (hslot i) fun _ => h.push _
  | jump target => exact fun s => rfl
  | jumpIfFalse target =>
    refine .bind (h.popBool ip) fun b => ?_
    split
    · exact fun s => rfl
    · exact .pure ()
  | fieldAddr ty field => exact h.fieldAddr (.refl m) ip ty field
  | load ty =>
    exact .bind (h.popPointer ip) fun _ => .bind (h.shape (.refl m) ty) fun _ =>
      .bind (keeps_load _ _) h.push
  | store ty => exact absurd rfl (hstore ty)
  | ptrIndex ty => exact h.ptrIndex (.refl m) ip ty
  | malloc _ _ | call _ | constGet _ | callProc _ => cases hi
  | _ => exact h.perform (.refl m) watch watch rfl ip

/-- What LOCAL_SET has done. -/
theorem localSet_of_perform {i : UInt16} {ip : UInt32} {r : Unit}
    (h : m.perform watch ip (.localSet i) s = .ok r t) :
    ∃ v g c slot a bytes memory, s.operands.values.head? = some v ∧ s.calls.current? = some g ∧
      m.callee? g.routine = some c ∧ c.frame.slots[i.toNat]? = some slot ∧
      Address.advance g.locals slot.offset = .ok a ∧ slot.shape.encode v = .ok bytes ∧
      s.memory.write a bytes = .ok memory ∧ t.calls = s.calls ∧ t.memory = memory := by
  obtain ⟨v, s', hpop, h⟩ := bind_eq_ok h
  obtain ⟨-, hv, rfl⟩ := pop_ok hpop
  obtain ⟨⟨a, slot⟩, s', hslot, h⟩ := bind_eq_ok h
  obtain ⟨rfl, g, c, hg, hc, hslot, ha⟩ := localSlot_ok hslot
  obtain ⟨memory, hstore, rfl⟩ := store_ok h
  obtain ⟨bytes, hbytes, hwrite⟩ := Memory.store_cases hstore
  exact ⟨v, g, c, slot, a, bytes, memory, hv, hg, hc, hslot, ha, hbytes, hwrite, rfl, rfl⟩

/-- The block of the frame is where its locals are, and not block `k`. -/
structure Apart (k : Nat) (g : Frame) : Prop where
  starts : g.locals = ofBlock g.block
  ne : g.block ≠ k

/-- LOCAL_SET and RET use the block of the current frame. -/
def UsesFrame : Instr → Prop
  | .localSet _ | .ret => True
  | _ => False

/-- A return releases the block of its frame only. -/
theorem get?_of_leave {k : Nat} {ip : UInt32} {g : Frame} (hg : s.calls.current? = some g)
    (h : m.leave watch ip s = .ok none t) (hapart : Apart k g) :
    t.memory.blocks.get? k = s.memory.blocks.get? k := by
  obtain ⟨c, v, s', memory, -, -, hfree, ⟨-, ho⟩ | ⟨-, -, u, -, hdelivering, rfl⟩⟩ :=
    leave_ok hg h
  · cases ho
  · have hmemory : u.memory = memory := m.memory_deliver watch hdelivering
    have hfreed := (Memory.get?_free hfree k).trans (if_neg hapart.ne.symm)
    exact hmemory ▸ hfreed

/-- LOCAL_SET writes to the block of its frame only. -/
theorem get?_of_localSet {k : Nat} {i : UInt16} {ip : UInt32} {r : Unit}
    (h : m.perform watch ip (.localSet i) s = .ok r t)
    (hframe : ∀ g, s.calls.current? = some g → Apart k g) :
    t.memory.blocks.get? k = s.memory.blocks.get? k := by
  obtain ⟨v, g, c, slot, a, bytes, memory, -, hg, -, -, ha, -, hwrite, -, rfl⟩ :=
    localSet_of_perform h
  obtain ⟨hstarts, hne⟩ := hframe g hg
  rw [hstarts] at ha
  obtain ⟨hblock, -⟩ := Slot.block_of_advance g.block_lt ha
  obtain ⟨b, hb⟩ := Memory.exists_of_write hwrite
  rw [Memory.get?_write hwrite hb, hblock, if_neg hne.symm]

/-- Of the other instructions that stay in the frame, only STORE writes. -/
theorem get?_of_inner {k : Nat} {i : Instr} {ip : UInt32} {r : Unit}
    (h : m.perform watch ip i s = .ok r t) (hi : i.isInner) (hstore : ∀ ty, i ≠ .store ty)
    (hframe : ∀ g, s.calls.current? = some g → UsesFrame i → Apart k g) :
    t.memory.blocks.get? k = s.memory.blocks.get? k := by
  by_cases hset : ∃ j, i = .localSet j
  · obtain ⟨j, rfl⟩ := hset
    exact get?_of_localSet h fun g hg => hframe g hg trivial
  · have hkeeps : Keeps SameMemory (m.perform watch ip i) :=
      perform_sameMemory hi (fun j hj => hset ⟨j, hj⟩) hstore ip
    have hsame := hkeeps s
    rw [h] at hsame
    exact congrArg (fun memory => memory.blocks.get? k) hsame

/-- A call allocates a new block and stores into it. -/
theorem get?_of_enter {k : Nat} {id : RoutineId} {args : List Value} {kind : FrameKind} {r : Unit}
    (h : m.enter watch id args kind s = .ok r t) (hk : s.memory.Live k) :
    t.memory.blocks.get? k = s.memory.blocks.get? k := by
  obtain ⟨c, f, new, -, -, hbegun⟩ := enter_ok h
  have hlt := hk.lt
  exact hbegun.others k (hbegun.block ▸ Nat.ne_of_lt hlt)

/-- Of the instructions that are not for any block, only those that use the current frame reach a
live block, and only its own. -/
theorem get?_of_cycle {k : Nat} (h : m.cycle watch u = .ok none u') (hk : u.memory.Live k)
    (hwrites : ¬ m.WritesAt u)
    (hframe : ∀ g l, u.calls.current? = some g → decodeAt m.program.code u.ip = .ok l →
      UsesFrame l.instr → Apart k g) :
    u'.memory.blocks.get? k = u.memory.blocks.get? k := by
  obtain ⟨e, -, herror⟩ | ⟨l, hl, heffect⟩ := m.effect_cycle watch u
  · cases h.symm.trans herror
  rw [h] at heffect
  rw [cycle_of_decoded hl] at h
  by_cases hret : l.instr = .ret
  · rw [m.step_ret watch hret] at h
    cases hg : u.calls.current? with
    | none => cases (m.leave_without_frame watch (s := fetched watch u l) hg).symm.trans h
    | some g =>
      exact get?_of_leave (s := fetched watch u l) hg h (hframe g l hg hl (hret ▸ trivial))
  rw [m.step_eq watch hret] at h
  obtain ⟨-, h⟩ := unfinished_eq_ok h
  by_cases hinner : l.instr.isInner
  · exact get?_of_inner (s := fetched watch u l) h hinner
      (fun ty hty => hwrites (.inl ⟨l, ty, hl, hty⟩)) fun g hg => hframe g l hg hl
  generalize hr : (EStateM.Result.ok none u' : EStateM.Result RuntimeError (State σ τ) _) = r
    at heffect
  generalize hi : l.instr = i at heffect hinner hret
  cases heffect with
  | inner hi _ => exact absurd hi hinner
  | failed _ => cases hr
  | allocated halloc =>
    cases hr
    have hlt := hk.lt
    exact (Memory.get?_alloc halloc k).trans (if_neg (Nat.ne_of_lt hlt))
  | read =>
    cases hr
    rfl
  | initializing _ =>
    have henter := get?_of_enter (unfinished_eq_ok hr.symm).2 hk
    exact henter
  | calling _ _ _ _ =>
    have henter := get?_of_enter (unfinished_eq_ok hr.symm).2 hk
    exact henter
  | native hsig hn hp ht _ _ =>
    exact absurd (.inr ⟨l, hl, _, _, _, _, _, hi, hsig, hp, ht⟩) hwrites
  | leaving _ _ => exact absurd rfl hret

/-! ## What every instruction keeps -/

/-- The frame is open above `below`, the frames above it are not in its way, and its block records
what its locals have been given. -/
structure Tended (m : Machine σ) (f : Frame) (below : List Frame) (c : Callee)
    (given : UInt16 → Option Value) (u : State σ τ) : Prop where
  above : ∃ above, u.calls.frames = above ++ f :: below ∧ ∀ g ∈ above, Apart f.block g
  remembers : f.Remembers m u.memory c given

theorem Tended.live {c : Callee} (h : Tended m f below c given u) : u.memory.Live f.block := by
  obtain ⟨b, hb, -⟩ := h.remembers.records
  exact Option.isSome_iff_exists.mpr ⟨b, hb⟩

/-- A frame that is entered above has a block of its own. -/
theorem apart_of_cycle {above : List Frame} (h : m.cycle watch u = .ok none u')
    (hlive : u.memory.Live f.block) (hframes : u.calls.frames = above ++ f :: below)
    (habove : ∀ g ∈ above, Apart f.block g)
    (hopen : ∃ above', u'.calls.frames = above' ++ f :: below) :
    ∃ above', u'.calls.frames = above' ++ f :: below ∧ ∀ g ∈ above', Apart f.block g := by
  have hnesting := m.nesting_cycle watch u
  rw [h] at hnesting
  simp only [finalState_ok] at hnesting
  generalize hcalls : u'.calls = calls at hnesting hopen
  cases hnesting with
  | same => exact ⟨above, hframes, habove⟩
  | closed =>
    have htail : u.calls.tail.frames = (above ++ f :: below).tail := congrArg List.tail hframes
    cases above with
    | nil =>
      obtain ⟨above', hframes'⟩ := hopen
      have hlength := congrArg List.length (htail.symm.trans hframes')
      simp only [List.nil_append, List.tail_cons, List.length_append, List.length_cons] at hlength
      omega
    | cons g above => exact ⟨above, htail, (List.forall_mem_cons.mp habove).2⟩
  | opened g _ _ =>
    refine ⟨g :: above, congrArg (g :: ·) hframes, List.forall_mem_cons.mpr ⟨?_, habove⟩⟩
    obtain ⟨e, -, herror⟩ | ⟨l, hl, -⟩ := m.effect_cycle watch u
    · cases h.symm.trans herror
    rw [cycle_of_decoded hl] at h
    have hdeeper : (fetched watch u l).calls.depth < u'.calls.depth := by
      rw [hcalls]
      exact Nat.lt_succ_self _
    obtain ⟨id, args, -, kind, s', henter, hsame, hmemory⟩ := enters_of_step h hdeeper
    obtain ⟨c, g', new, -, -, hbegun⟩ := enter_ok henter
    have hsame' : g = g' := by
      have hcons := hbegun.frames
      rw [hcalls, hsame] at hcons
      exact (List.cons.inj hcons).1
    have hnext : g'.block = u.memory.next := hbegun.block.trans (congrArg Memory.next hmemory)
    have hlt := hlive.lt
    exact hsame' ▸ ⟨hbegun.holds.starts, hnext ▸ Nat.ne_of_gt hlt⟩

/-- LOCAL_SET in the frame. -/
theorem Tended.assigned {c : Callee} (hu : Tended m f below c given u)
    (hcurrent : u.calls.frames = f :: below) {l : Located} {i : UInt16} {v : Value}
    (hl : decodeAt m.program.code u.ip = .ok l) (hi : l.instr = .localSet i)
    (hv : u.operands.values.head? = some v) (h : m.cycle watch u = .ok none u') :
    Tended m f below c (Function.update given i (some v)) u' := by
  have hret : l.instr ≠ .ret := fun hret => by cases hi.symm.trans hret
  rw [cycle_of_decoded hl, m.step_eq watch hret] at h
  obtain ⟨-, h⟩ := unfinished_eq_ok h
  rw [hi] at h
  obtain ⟨w, g, c', slot, a, bytes, memory, hw, hg, hc', hslot, ha, hbytes, hwrite, hcalls, rfl⟩ :=
    localSet_of_perform h
  have hw' : u.operands.values.head? = some w := hw
  cases hv.symm.trans hw'
  have hg' : u.calls.current? = some g := hg
  rw [CallStack.current?, hcurrent] at hg'
  cases hg'
  obtain ⟨hcallee, hhouses, hsmall, hstarts, b, hb, hrecords⟩ := hu.remembers
  cases hcallee.symm.trans hc'
  rw [hstarts] at ha
  obtain ⟨hblock, hoffset⟩ := Slot.block_of_advance f.block_lt ha
  have hinside := hhouses.inside slot (FrameLayout.Houses.mem_of_getElem? hslot)
  rw [Slot.position_of_inside hinside hsmall] at hoffset
  have hcell := Memory.get?_write hwrite (hblock.symm ▸ hb) f.block
  rw [hblock, if_pos rfl, hoffset] at hcell
  have hframes : u'.calls.frames = f :: below := (congrArg CallStack.frames hcalls).trans hcurrent
  exact ⟨⟨[], hframes, List.forall_mem_nil _⟩, hcallee, hhouses, hsmall, hstarts, _, hcell,
    hrecords.put hhouses hslot hbytes⟩

/-- Anything else. -/
theorem Tended.passed {c : Callee} (hu : Tended m f below c given u)
    (hother : u.calls.frames = f :: below → ∀ l i, decodeAt m.program.code u.ip = .ok l →
      l.instr ≠ .localSet i)
    (hkept : m.WritesAt u → u'.memory.blocks.get? f.block = u.memory.blocks.get? f.block)
    (h : m.cycle watch u = .ok none u') (hopen : ∃ above, u'.calls.frames = above ++ f :: below) :
    Tended m f below c given u' := by
  obtain ⟨above, hframes, habove⟩ := hu.above
  have hcell : u'.memory.blocks.get? f.block = u.memory.blocks.get? f.block := by
    by_cases hwrites : m.WritesAt u
    · exact hkept hwrites
    · refine get?_of_cycle h hu.live hwrites fun g l hg hl huses => ?_
      rw [CallStack.current?, hframes] at hg
      cases above with
      | cons g' above =>
        cases hg
        exact habove g List.mem_cons_self
      | nil =>
        -- the frame would be left, or given a value
        rw [cycle_of_decoded hl] at h
        generalize hi : l.instr = i at huses
        cases i with
        | localSet i => exact absurd hi (hother hframes l i hl)
        | ret =>
          have hframes' := congrArg CallStack.frames (calls_of_ret hi h)
          have htail : (fetched watch u l).calls.tail.frames = below := congrArg List.tail hframes
          obtain ⟨above', hopen⟩ := hopen
          have hlength := congrArg List.length ((hframes'.trans htail).symm.trans hopen)
          rw [List.length_append, List.length_cons] at hlength
          omega
        | _ => exact huses.elim
  obtain ⟨hcallee, hhouses, hsmall, hstarts, b, hb, hrecords⟩ := hu.remembers
  exact ⟨apart_of_cycle h hu.live hframes habove hopen, hcallee, hhouses, hsmall, hstarts, b,
    hcell.trans hb, hrecords⟩

/-- By induction on the life of the frame. -/
theorem tended_of_life {c : Callee} (ht : Tended m f below c first t)
    (h : m.Life watch f below first t given u) : Tended m f below c given u := by
  induction h with
  | entered => exact ht
  | assigned _ hcurrent hl hi hv h ih => exact ih.assigned hcurrent hl hi hv h
  | passed _ hother hkept h hopen ih => exact ih.passed hother hkept h hopen

theorem reached_of_life (ht : m.Reached watch t) (h : m.Life watch f below first t given u) :
    m.Reached watch u := by
  induction h with
  | entered => exact ht
  | assigned _ _ _ _ _ h ih => exact ih.cycle h
  | passed _ _ _ h _ ih => exact ih.cycle h

/-- In a run in which the frame stays open and nothing else writes to its block, every state is one
of its life. -/
theorem exists_life (n : Nat) : ∀ u, m.after watch n t = some u →
    (∀ k ≤ n, ∀ w, m.after watch k t = some w → ∃ above, w.calls.frames = above ++ f :: below) →
    (∀ k < n, ∀ w w', m.after watch k t = some w → m.cycle watch w = .ok none w' → m.WritesAt w →
      w'.memory.blocks.get? f.block = w.memory.blocks.get? f.block) →
    ∃ given, m.Life watch f below first t given u := by
  induction n with
  | zero =>
    intro u hu _ _
    cases hu
    exact ⟨first, .entered⟩
  | succ n ih =>
    intro u' hu' hopen hkept
    obtain ⟨u, hu, h⟩ := (m.after_succ watch).mp hu'
    obtain ⟨given, hlife⟩ := ih u hu (fun k hk => hopen k (Nat.le_succ_of_le hk))
      fun k hk => hkept k (Nat.lt_succ_of_lt hk)
    by_cases hset : u.calls.frames = f :: below ∧
        ∃ l i, decodeAt m.program.code u.ip = .ok l ∧ l.instr = .localSet i
    · obtain ⟨hcurrent, l, i, hl, hi⟩ := hset
      have hret : l.instr ≠ .ret := hi ▸ nofun
      have hperform := h
      rw [cycle_of_decoded hl, m.step_eq watch hret] at hperform
      obtain ⟨-, hperform⟩ := unfinished_eq_ok hperform
      rw [hi] at hperform
      obtain ⟨v, _, _, _, _, _, _, hv, -⟩ := localSet_of_perform hperform
      exact ⟨_, .assigned hlife hcurrent hl hi hv h⟩
    · refine ⟨given, .passed hlife (fun hcurrent l i hl hi => hset ⟨hcurrent, l, i, hl, hi⟩)
        (hkept n (Nat.lt_succ_self n) u u' hu h) h (hopen (n + 1) (Nat.le_refl _) u' hu')⟩

/-! ## Frames -/

variable (m watch) in
/-- At `t` the frame `f` of a routine has been entered from `s`, and its locals are variables of its
own. -/
structure HasVariables (s t : State σ τ) (id : RoutineId) (args : List Value) (f : Frame)
    (c : Callee) : Prop where
  frames : t.calls.frames = f :: s.calls.frames
  routine : f.routine = id
  callee : m.callee? id = some c
  entry : t.ip = c.routine.entry
  arity : args.length = c.routine.params.toNat
  /-- There is a local for every argument. -/
  params : c.routine.params.toNat ≤ c.routine.locals.length
  fresh : ¬ s.memory.Live f.block
  /-- As long as the frame is open, and unless STORE or a native changes its block, the run goes
  through its life. -/
  life : ∀ n u, m.after watch n t = some u →
    (∀ k ≤ n, ∀ w, m.after watch k t = some w →
      ∃ above, w.calls.frames = above ++ f :: s.calls.frames) →
    (∀ k < n, ∀ w w', m.after watch k t = some w → m.cycle watch w = .ok none w' → m.WritesAt w →
      w'.memory.blocks.get? f.block = w.memory.blocks.get? f.block) →
    ∃ given, m.Life watch f s.calls.frames (fun i => args[i.toNat]?) t given u
  /-- All its life, when it is the current frame, its locals have what they have been given last;
  the arguments have been given to the first of them, and nothing to the others. -/
  holds : ∀ given u, m.Life watch f s.calls.frames (fun i => args[i.toNat]?) t given u →
    u.calls.frames = f :: s.calls.frames → ∀ ip trace,
      m.HoldsLocals watch c.routine.locals given { u with ip := ip, trace := trace }

theorem hasVariables_of_opens {program : Program} (hvalid : program.validate = .ok ())
    (hm : m.BuiltFor program) (hbounded : m.FramesBounded) {id : RoutineId} {args : List Value}
    (h : m.Opens watch s id args t) : ∃ f c, m.HasVariables watch s t id args f c := by
  obtain ⟨kind, s', henter, hcalls, hmemory⟩ := h.enters
  obtain ⟨c, f, new, hc, hfill, hbegun⟩ := enter_ok henter
  obtain ⟨hroutine, hframe⟩ := hm.callee hc
  have hadmits := (Program.validate_ok_iff.mp hvalid).routines c.routine hroutine
  have hhouses := FrameLayout.houses_of_ofLocals hm.layouts hframe (hbounded.callee hc)
  have hsmall := room_of_enter hc henter
  have hframes : t.calls.frames = f :: s.calls.frames := hcalls ▸ hbegun.frames
  have hid : f.routine = id := hbegun.holds.routine
  have hblock : f.block = s.memory.next := hmemory ▸ hbegun.block
  have htended : Tended m f s.calls.frames c (fun i => args[i.toNat]?) t :=
    ⟨⟨[], hframes, nofun⟩, hid ▸ hc, hhouses, hsmall, hbegun.holds.starts, new,
      hbegun.holds.block, FrameLayout.records_fill hhouses hsmall hfill⟩
  refine ⟨f, c, hframes, hid, hc, hbegun.ip, arity_of_enter hc henter, hadmits.params, ?_,
    exists_life, fun given u hlife hcurrent ip trace => ?_⟩
  · rw [hblock, Memory.not_live_iff]
    exact s.memory.unused_absent _ (Nat.le_refl _)
  · have hbased := m.based_of_reached watch (reached_of_life h.reached hlife)
    have hf : u.calls.current? = some f := by
      rw [CallStack.current?, hcurrent]
      rfl
    exact (tended_of_life htended hlife).remembers.holdsLocals
      (s := { u with ip := ip, trace := trace }) hf hbased.base_le

end Machine

/-- In every run of a valid program whose frames take less than 2⁶⁴ bytes, a frame that is entered,
by whomever, has locals of its own: they begin with the arguments and with zeros, have what
LOCAL_SET has given them last in this frame, and their addresses lead to them. A call whose
arguments do not fit is refused, and then neither a frame nor a block is left. -/
theorem locals_independent {σ τ : Type} {program : Program} (hvalid : program.validate = .ok ())
    {m : Machine σ} (hm : m.BuiltFor program) (hbounded : m.FramesBounded) (watch : Observer τ) :
    (∀ s id args t, m.Opens watch s id args t → ∃ f c, m.HasVariables watch s t id args f c) ∧
    (∀ s t l, m.Reached watch s → decodeAt m.program.code s.ip = .ok l →
      m.cycle watch s = .ok none t → s.calls.depth < t.calls.depth →
      ∃ id args, m.Opens watch s id args t) ∧
    (∀ id args kind (s : State σ τ) e t, m.enter watch id args kind s = .error e t →
      t = { s with memory := t.memory } ∧
        ∀ k, t.memory.blocks.get? k = s.memory.blocks.get? k) ∧
    ∀ id c args kind (s : State σ τ) (i : Nat) v ty sh e, m.callee? id = some c →
      args[i]? = some v → c.routine.locals[i]? = some ty → m.layouts.shape ty = .ok sh →
      sh.coerce v = .error e → ∃ e' t, m.enter watch id args kind s = .error e' t := by
  have hfit : m.FramesFit := by
    obtain ⟨_, _, hbuild⟩ := hm
    exact Machine.fits_of_build hbuild hbounded
  refine ⟨fun s id args t => Machine.hasVariables_of_opens hvalid hm hbounded,
    fun s t l => Machine.exists_opens, fun id args kind s e t => Machine.enter_error hfit,
    fun id c args kind s i v ty sh e hc hv hty hsh he => ?_⟩
  have hhouses := FrameLayout.houses_of_ofLocals hm.layouts (hm.callee hc).2 (hbounded.callee hc)
  exact Machine.enter_rejected hc hhouses hv hty hsh he

/-- A routine that copies its parameter, a byte, into a wider local. -/
def Program.copying : Program where
  code := ([.localGet 0, .localSet 1, .nop, .ret].flatMap Instr.encode).toArray
  sources := .empty
  types := ⟨#[.scalar .u8, .scalar .i64]⟩
  routines := #[⟨"copy", 0, 1, [⟨0⟩, ⟨1⟩], none⟩]
  constants := []
  natives := #[]
  entry := none

/-- Before the copy the wider local is zero, afterwards it has what is left of the argument. -/
theorem locals_independent_copying : Program.copying.validate = .ok () ∧
    ∃ (m : Machine Unit) (t u : State Unit (List Event)) (f : Frame) (c : Callee)
      (given : UInt16 → Option Value), m.BuiltFor .copying ∧ m.FramesBounded ∧
      m.Opens .recorder .blank ⟨0⟩ [.int 300] t ∧
      m.HasVariables .recorder .blank t ⟨0⟩ [.int 300] f c ∧
      m.Life .recorder f [] (fun i => [Value.int 300][i.toNat]?) t given u ∧
      given 1 = some (.uint 44) ∧
      m.HoldsLocals .recorder c.routine.locals (fun i => [Value.int 300][i.toNat]?) t ∧
      m.HoldsLocals .recorder c.routine.locals given u := by
  have hvalid : Program.copying.validate = .ok () := by decide
  obtain ⟨m, hm, hbounded⟩ : ∃ m : Machine Unit,
      Machine.build .copying (fun _ => none) .standard = .ok m ∧ m.FramesBounded :=
    ⟨_, rfl, by decide⟩
  have hbuilt : m.BuiltFor .copying := ⟨_, _, hm⟩
  obtain ⟨t, s, u, hstart, hget, hset, hlget, hlset, hv, hsame, hsame'⟩ :
      ∃ t s u, m.start .recorder ⟨0⟩ [.int 300] .blank = .ok () t ∧
        m.cycle .recorder t = .ok none s ∧ m.cycle .recorder s = .ok none u ∧
        decodeAt m.program.code t.ip = .ok ⟨.localGet 0, 0, 3⟩ ∧
        decodeAt m.program.code s.ip = .ok ⟨.localSet 1, 3, 6⟩ ∧
        s.operands.values.head? = some (.uint 44) ∧ s.calls.frames = t.calls.frames ∧
        u.calls.frames = t.calls.frames := by
    cases hm
    exact ⟨_, _, _, rfl, rfl, rfl, rfl, rfl, rfl, rfl, rfl⟩
  have hopens : m.Opens .recorder .blank ⟨0⟩ [.int 300] t := .host rfl hstart
  obtain ⟨f, c, hvariables⟩ :=
    (locals_independent hvalid hbuilt hbounded (.recorder : Observer (List Event))).1 _ _ _ _ hopens
  have hframes : t.calls.frames = [f] := hvariables.frames
  have hother : ∀ l i, decodeAt m.program.code t.ip = .ok l → l.instr ≠ .localSet i := by
    intro l i hl
    cases hlget.symm.trans hl
    exact nofun
  have hwrites : ¬ m.WritesAt t := by
    rintro (⟨l, ty, hl, hi⟩ | ⟨l, hl, _, _, _, _, _, hi, _⟩) <;> cases hlget.symm.trans hl <;>
      cases hi
  have hread : m.Life .recorder f [] (fun i => [Value.int 300][i.toNat]?) t _ s :=
    .passed .entered (fun _ => hother) (fun h => absurd h hwrites) hget
      ⟨[], hsame.trans hframes⟩
  have hlife := Machine.Life.assigned hread (hsame.trans hframes) hlset rfl hv hset
  exact ⟨hvalid, m, t, u, f, c, _, hbuilt, hbounded, hopens, hvariables, hlife,
    Function.update_self _ _ _, hvariables.holds _ t .entered hframes t.ip t.trace,
    hvariables.holds _ u hlife (hsame'.trans hframes) u.ip u.trace⟩

/-- A routine with two locals of 2⁶³ bytes and a byte, which gets the first of them. The size of the
frame wraps around to one. -/
def Program.overgrown : Program where
  code := ([.localGet 0, .ret].flatMap Instr.encode).toArray
  sources := .empty
  types := .doubled
  routines := #[⟨"main", 0, 0, [⟨63⟩, ⟨63⟩, ⟨0⟩], none⟩]
  constants := []
  natives := #[]
  entry := none

/-- What LOCAL_GET does where the routine has begun. -/
def overgrownLocal : Option RuntimeError :=
  match Machine.build .overgrown (fun _ => (none : Option (Native Unit))) .standard with
  | .error _ => none
  | .ok m =>
    match m.start .recorder ⟨0⟩ [] .blank with
    | .error _ _ => none
    | .ok _ t =>
      match m.step .recorder ⟨.localGet 0, 0, 3⟩ t with
      | .error e _ => some e
      | .ok _ _ => none

/-- The local has no place in the block of the frame. -/
theorem displaced_of_overgrown : Program.overgrown.validate = .ok () ∧
    ∃ (m : Machine Unit) (t : State Unit (List Event)), m.BuiltFor .overgrown ∧
      m.Opens .recorder .blank ⟨0⟩ [] t ∧
      (∃ u, m.step .recorder ⟨.localGet 0, 0, 3⟩ t =
        .error (.memory (.invalidAddress 0x100000000)) u) ∧
      ¬ ∃ f c, m.HasVariables .recorder .blank t ⟨0⟩ [] f c := by
  have hlocal : overgrownLocal = some (.memory (.invalidAddress 0x100000000)) := by decide +kernel
  unfold overgrownLocal at hlocal
  split at hlocal
  case h_1 => cases hlocal
  next m hm =>
  split at hlocal
  case h_1 => cases hlocal
  next t hstart =>
  split at hlocal
  case h_2 => cases hlocal
  next e u hstep =>
  cases hlocal
  refine ⟨by decide +kernel, m, t, ⟨_, _, hm⟩, .host rfl hstart, ⟨u, hstep⟩, ?_⟩
  rintro ⟨f, c, hvariables⟩
  have hholds := hvariables.holds _ t .entered hvariables.frames t.ip t.trace
  exact hholds.reached 0 (.localGet 0) List.mem_cons_self 0 3 _ u hstep _ rfl

end ForeignVM
