import ForeignVM.Proofs.Path

/-!
# ForeignVM.Proofs.Ownership

Who owns the blocks of the memory. A live block belongs to a frame, or to the program and the
host: they own what was live before the run, what MALLOC and natives have allocated since, and
not what natives have released.

* `Machine.MallocAt`, `NativeAt` — the instructions that allocate for the program and the host.
* `Machine.Allocates`, `Releases`, `owned` — what the instruction at a state does to their blocks.
* `Accounted`                    — all live blocks are theirs or those of frames.
* `accounted_cycle`              — every instruction keeps the accounts.
* `Counted`, `counted_cycle`     — the number of live blocks, if natives leave it alone.
-/

namespace ForeignVM

/-- The block of the locals of a frame. -/
def Frame.block (f : Frame) : Nat := Address.block f.locals

theorem Frame.block_lt (f : Frame) : f.block < Address.half := by
  have h := f.locals.toNat_lt
  unfold block Address.block Address.half
  omega

/-! ## Accounts -/

/-- All live blocks are owned or belong to frames; all that are owned live, and no frame has one
of them. A frame may have lost its block. -/
structure Accounted (own : Nat → Prop) (memory : Memory) (frames : List Frame) : Prop where
  starts : ∀ f ∈ frames, f.locals = Address.ofBlock f.block
  allocated : ∀ f ∈ frames, 0 < f.block ∧ f.block < memory.next
  apart : ∀ f ∈ frames, ¬ own f.block
  live : ∀ i, own i → memory.Live i
  only : ∀ i, memory.Live i → own i ∨ ∃ f ∈ frames, f.block = i

namespace Accounted

variable {own own' : Nat → Prop} {memory memory' : Memory} {f : Frame} {frames : List Frame}

/-- Nothing runs, and all live blocks are owned. -/
theorem idle (memory : Memory) : Accounted memory.Live memory [] :=
  ⟨nofun, nofun, nofun, fun _ h => h, fun _ h => .inl h⟩

theorem live_iff (h : Accounted own memory []) (i : Nat) : memory.Live i ↔ own i := by
  refine ⟨?_, h.live i⟩
  intro hi
  obtain ho | ⟨f, hf, _⟩ := h.only i hi
  · exact ho
  · cases hf

theorem congr (h : Accounted own memory frames) (heq : ∀ i, own' i ↔ own i) :
    Accounted own' memory frames := by
  obtain rfl : own' = own := funext fun i => propext (heq i)
  exact h

theorem rewrites (h : Accounted own memory frames) (hw : memory.Rewrites memory') :
    Accounted own memory' frames where
  starts := h.starts
  allocated f hf := hw.next ▸ h.allocated f hf
  apart := h.apart
  live i hi := (hw.live i).mpr (h.live i hi)
  only i hi := h.only i ((hw.live i).mp hi)

/-- A frame gets a new block. -/
theorem enter (h : Accounted own memory frames) (hadds : memory.Adds memory')
    (hf : f.locals = Address.ofBlock memory.next) : Accounted own memory' (f :: frames) := by
  have hblock : f.block = memory.next := by rw [Frame.block, hf, Address.block_ofBlock hadds.room]
  have hnext := hadds.next
  refine ⟨?_, ?_, ?_, ?_, ?_⟩
  · intro g hg
    cases hg with
    | head => rw [hblock, hf]
    | tail _ hmem => exact h.starts g hmem
  · intro g hg
    cases hg with
    | head =>
      have hpos := memory.next_pos
      omega
    | tail _ hmem =>
      have hbounds := h.allocated g hmem
      omega
  · intro g hg
    cases hg with
    | head =>
      intro ho
      have hlt := (h.live _ ho).lt
      omega
    | tail _ hmem => exact h.apart g hmem
  · intro i hi
    exact (hadds.live i).mpr (.inr (h.live i hi))
  · intro i hi
    obtain rfl | hl := (hadds.live i).mp hi
    · exact .inr ⟨f, List.mem_cons_self, hblock⟩
    · obtain ho | ⟨g, hg, hi⟩ := h.only i hl
      · exact .inl ho
      · exact .inr ⟨g, .tail _ hg, hi⟩

/-- A frame goes, and its block is released unless that has happened before. -/
theorem leave (h : Accounted own memory (f :: frames))
    (hfree : memory.free f.locals = .ok memory' ∨
      ∃ e, memory.free f.locals = .error e ∧ memory' = memory) :
    Accounted own memory' frames := by
  have hstep : memory'.next = memory.next ∧ ∀ i, memory'.Live i ↔ memory.Live i ∧ i ≠ f.block := by
    obtain hfree | ⟨e, hfree, rfl⟩ := hfree
    · exact ⟨(Memory.free_ok hfree).next, (Memory.free_ok hfree).live⟩
    · refine ⟨rfl, fun i => ⟨fun hi => ⟨hi, ?_⟩, fun hi => hi.1⟩⟩
      rintro rfl
      obtain ⟨memory', hok⟩ := Memory.free_of_live hi f.block_lt
      rw [← h.starts f List.mem_cons_self, hfree] at hok
      cases hok
  obtain ⟨hnext, hlive⟩ := hstep
  refine ⟨fun g hg => h.starts g (.tail _ hg), ?_, fun g hg => h.apart g (.tail _ hg), ?_, ?_⟩
  · intro g hg
    rw [hnext]
    exact h.allocated g (.tail _ hg)
  · intro i hi
    refine (hlive i).mpr ⟨h.live i hi, ?_⟩
    rintro rfl
    exact h.apart f List.mem_cons_self hi
  · intro i hi
    obtain ⟨hl, hne⟩ := (hlive i).mp hi
    obtain ho | ⟨g, hg, hi⟩ := h.only i hl
    · exact .inl ho
    · cases hg with
      | head => exact absurd hi.symm hne
      | tail _ hmem => exact .inr ⟨g, hmem, hi⟩

/-- A block that is allocated and released at once leaves no trace. -/
theorem reject {released : Memory} (h : Accounted own memory frames) (hadds : memory.Adds memory')
    (hfree : memory'.free (Address.ofBlock memory.next) = .ok released) :
    Accounted own released frames :=
  (h.enter (f := ⟨⟨0⟩, .host, 0, Address.ofBlock memory.next, 0⟩) hadds rfl).leave (.inl hfree)

/-- Allocations and releases on behalf of the program and the host. -/
theorem evolves (h : Accounted own memory frames) (hmem : memory.Evolves memory')
    (hown : ∀ i, own' i ↔
      (own i ∨ memory.next ≤ i ∧ i < memory'.next) ∧ memory'.Live i) :
    Accounted own' memory' frames := by
  have hnext := hmem.next_le
  refine ⟨h.starts, ?_, ?_, fun i hi => ((hown i).mp hi).2, ?_⟩
  · intro f hf
    have hbounds := h.allocated f hf
    omega
  · intro f hf ho
    obtain ⟨ho | ⟨hle, _⟩, _⟩ := (hown f.block).mp ho
    · exact h.apart f hf ho
    · have hbounds := h.allocated f hf
      omega
  · intro i hi
    obtain hl | hle := hmem.live_or_fresh hi
    · obtain ho | hf := h.only i hl
      · exact .inl ((hown i).mpr ⟨.inl ho, hi⟩)
      · exact .inr hf
    · exact .inl ((hown i).mpr ⟨.inr ⟨hle, hi.lt⟩, hi⟩)

end Accounted

/-! ## Numbers -/

/-- Every frame has its block, a block of its own, and besides them `n` blocks are live. -/
structure Counted (n : Nat) (memory : Memory) (frames : List Frame) : Prop where
  starts : ∀ f ∈ frames, f.locals = Address.ofBlock f.block
  live : ∀ f ∈ frames, memory.Live f.block
  apart : (frames.map Frame.block).Nodup
  count : memory.live = n + frames.length

namespace Counted

variable {n : Nat} {memory memory' : Memory} {f : Frame} {frames : List Frame}

theorem rewrites (h : Counted n memory frames) (hw : memory.Rewrites memory') :
    Counted n memory' frames :=
  ⟨h.starts, fun f hf => (hw.live _).mpr (h.live f hf), h.apart, hw.count.trans h.count⟩

/-- One more block, which belongs to no frame. -/
theorem alloc (h : Counted n memory frames) (hadds : memory.Adds memory') :
    Counted (n + 1) memory' frames := by
  refine ⟨h.starts, fun f hf => (hadds.live _).mpr (.inr (h.live f hf)), h.apart, ?_⟩
  rw [hadds.count, h.count]
  omega

theorem enter (h : Counted n memory frames) (hadds : memory.Adds memory')
    (hf : f.locals = Address.ofBlock memory.next) : Counted n memory' (f :: frames) := by
  have hblock : f.block = memory.next := by rw [Frame.block, hf, Address.block_ofBlock hadds.room]
  refine ⟨?_, ?_, ?_, ?_⟩
  · intro g hg
    cases hg with
    | head => rw [hblock, hf]
    | tail _ hmem => exact h.starts g hmem
  · intro g hg
    cases hg with
    | head => exact (hadds.live _).mpr (.inl hblock)
    | tail _ hmem => exact (hadds.live _).mpr (.inr (h.live g hmem))
  · refine List.nodup_cons.mpr ⟨?_, h.apart⟩
    intro hmem
    obtain ⟨g, hg, hsame⟩ := List.mem_map.mp hmem
    have hlt := (h.live g hg).lt
    omega
  · rw [hadds.count, h.count, List.length_cons]
    omega

/-- A frame that has its block can go, and the block with it. -/
theorem leave (h : Counted n memory (f :: frames)) :
    ∃ memory', memory.free f.locals = .ok memory' ∧ Counted n memory' frames := by
  have hlive := h.live f List.mem_cons_self
  obtain ⟨memory', hfree⟩ := Memory.free_of_live hlive f.block_lt
  rw [← h.starts f List.mem_cons_self] at hfree
  have hdrops := Memory.free_ok hfree
  obtain ⟨hnew, hapart⟩ := List.nodup_cons.mp h.apart
  refine ⟨memory', hfree, fun g hg => h.starts g (.tail _ hg), ?_, hapart, ?_⟩
  · intro g hg
    refine (hdrops.live _).mpr ⟨h.live g (.tail _ hg), fun hsame => hnew ?_⟩
    exact List.mem_map.mpr ⟨g, hg, hsame⟩
  · have hcount := h.count
    have hless := hdrops.count
    rw [List.length_cons] at hcount
    omega

end Counted

namespace Machine

open ForeignVM.Action

variable {σ τ : Type} (m : Machine σ) (watch : Observer τ)

/-! ## What an instruction does to the blocks -/

/-- The memory after the instruction at `s`, also if it fails. -/
def memoryAfter (s : State σ τ) : Memory := (finalState (m.cycle watch s)).memory

/-- The instruction at `s` is MALLOC. -/
def MallocAt (s : State σ τ) : Prop :=
  ∃ l, decodeAt m.program.code s.ip = .ok l ∧ l.instr.isMalloc

/-- The instruction at `s` calls a native. -/
def NativeAt (s : State σ τ) : Prop :=
  ∃ l, decodeAt m.program.code s.ip = .ok l ∧ m.CallsNative l.instr s

variable {m} in
theorem mallocAt_iff {s : State σ τ} {l : Located} (hl : decodeAt m.program.code s.ip = .ok l) :
    m.MallocAt s ↔ l.instr.isMalloc := by
  unfold MallocAt
  simp only [hl, Except.ok.injEq, exists_eq_left']

variable {m} in
theorem nativeAt_iff {s : State σ τ} {l : Located} (hl : decodeAt m.program.code s.ip = .ok l) :
    m.NativeAt s ↔ m.CallsNative l.instr s := by
  unfold NativeAt
  simp only [hl, Except.ok.injEq, exists_eq_left']

/-- The instruction at `s` allocates block `i`, whatever for. -/
def AllocatesAt (s : State σ τ) (i : Nat) : Prop :=
  s.memory.next ≤ i ∧ i < (m.memoryAfter watch s).next

/-- MALLOC or a native allocates block `i`. -/
def Allocates (s : State σ τ) (i : Nat) : Prop :=
  (m.MallocAt s ∨ m.NativeAt s) ∧ m.AllocatesAt watch s i

/-- A native releases block `i`. -/
def Releases (s : State σ τ) (i : Nat) : Prop :=
  m.NativeAt s ∧ (s.memory.Live i ∨ m.AllocatesAt watch s i) ∧ ¬ (m.memoryAfter watch s).Live i

/-- What the program and the host own after the instruction at `s`. -/
def owned (own : Nat → Prop) (s : State σ τ) (i : Nat) : Prop :=
  (own i ∨ m.Allocates watch s i) ∧ ¬ m.Releases watch s i

/-- Natives allocate, release and write, in any order, and do nothing else to the memory. -/
def NativesEvolve : Prop :=
  ∀ id name native, m.native? id = some (name, native) →
    ∀ (call : NativeCall) (memory : Memory) (host : σ), memory.Evolves (native call memory host).2.1

variable {own : Nat → Prop} {s : State σ τ}

theorem owned_of_rewrites (hw : s.memory.Rewrites (m.memoryAfter watch s)) (i : Nat) :
    m.owned watch own s i ↔ own i := by
  have hnone : ¬ m.AllocatesAt watch s i := fun ⟨hle, hlt⟩ => by
    rw [hw.next] at hlt
    omega
  constructor
  · rintro ⟨ho | ⟨_, ha⟩, _⟩
    · exact ho
    · exact absurd ha hnone
  · refine fun ho => ⟨.inl ho, ?_⟩
    rintro ⟨_, hl | ha, hdead⟩
    · exact hdead ((hw.live i).mpr hl)
    · exact hnone ha

/-- Blocks of frames are nobody else's business. -/
theorem owned_of_frame (hmalloc : ¬ m.MallocAt s) (hnative : ¬ m.NativeAt s) (i : Nat) :
    m.owned watch own s i ↔ own i := by
  constructor
  · rintro ⟨ho | ⟨hm | hn, _⟩, _⟩
    · exact ho
    · exact absurd hm hmalloc
    · exact absurd hn hnative
  · exact fun ho => ⟨.inl ho, fun hr => hnative hr.1⟩

theorem owned_of_malloc (hmalloc : m.MallocAt s) (hnative : ¬ m.NativeAt s)
    (hadds : s.memory.Adds (m.memoryAfter watch s)) (hlive : ∀ i, own i → s.memory.Live i)
    (i : Nat) :
    m.owned watch own s i ↔
      (own i ∨ s.memory.next ≤ i ∧ i < (m.memoryAfter watch s).next) ∧
        (m.memoryAfter watch s).Live i := by
  have hnext := hadds.next
  constructor
  · rintro ⟨ho | ⟨_, hle, hlt⟩, _⟩
    · exact ⟨.inl ho, (hadds.live i).mpr (.inr (hlive i ho))⟩
    · exact ⟨.inr ⟨hle, hlt⟩, (hadds.live i).mpr (.inl (by omega))⟩
  · rintro ⟨ho | ha, _⟩
    · exact ⟨.inl ho, fun hr => hnative hr.1⟩
    · exact ⟨.inr ⟨.inl hmalloc, ha⟩, fun hr => hnative hr.1⟩

theorem owned_of_native (hnative : m.NativeAt s) (hlive : ∀ i, own i → s.memory.Live i)
    (i : Nat) :
    m.owned watch own s i ↔
      (own i ∨ s.memory.next ≤ i ∧ i < (m.memoryAfter watch s).next) ∧
        (m.memoryAfter watch s).Live i := by
  constructor
  · rintro ⟨ho | ⟨_, ha⟩, hr⟩
    · exact ⟨.inl ho, by_contra fun hdead => hr ⟨hnative, .inl (hlive i ho), hdead⟩⟩
    · exact ⟨.inr ha, by_contra fun hdead => hr ⟨hnative, .inr ha, hdead⟩⟩
  · rintro ⟨ho | ha, hl⟩
    · exact ⟨.inl ho, fun hr => hr.2.2 hl⟩
    · exact ⟨.inr ⟨.inr hnative, ha⟩, fun hr => hr.2.2 hl⟩

/-! ## Every instruction keeps the accounts -/

/-- The accounts of a call, whether the routine begins or not. -/
theorem accounted_enter (hfit : m.FramesFit) (id : RoutineId) (args : List Value)
    (kind : FrameKind) (h : Accounted own s.memory s.calls.frames) :
    Accounted own (finalState (m.enter watch id args kind s)).memory
      (finalState (m.enter watch id args kind s)).calls.frames := by
  have hentering := m.entering_enter watch id args kind s
  generalize m.enter watch id args kind s = r at hentering
  cases hentering with
  | begun _ _ hadds => exact h.enter hadds rfl
  | refused => exact h
  | rejected hadds hfree => exact h.reject hadds hfree
  | noPlace hc hout => exact absurd (hfit _ _ hc) hout

/-- The accounts of a return: the block of the frame is released, now or before. -/
theorem accounted_leaving {f : Frame} (hf : s.calls.current? = some f)
    {r : EStateM.Result RuntimeError (State σ τ) (Option Value)} (hr : Leaving m watch f s r)
    (h : Accounted own s.memory s.calls.frames) :
    Accounted own (finalState r).memory (finalState r).calls.frames := by
  obtain ⟨rest, hframes⟩ : ∃ rest, s.calls.frames = f :: rest := List.head?_eq_some_iff.mp hf
  have htail : s.calls.tail.frames = rest := congrArg List.tail hframes
  have hpopped {memory : Memory}
      (hfree : s.memory.free f.locals = .ok memory ∨
        ∃ e, s.memory.free f.locals = .error e ∧ memory = s.memory) :
      Accounted own memory s.calls.tail.frames := by
    rw [hframes] at h
    exact htail ▸ h.leave hfree
  cases hr with
  | failed hw =>
    rw [finalState_error, hw.calls]
    exact h.rewrites hw.memory
  | dangling hfree => exact hpopped (.inr ⟨_, hfree, rfl⟩)
  | finished _ _ hfree _ => exact hpopped (.inl hfree)
  | undelivered hfree _ => exact hpopped (.inl hfree)
  | @delivered _ v memory t _ _ hfree hd =>
    have hcalls := m.calls_deliver watch hd
    have hmemory : t.memory = memory := m.memory_deliver watch hd
    simp only [finalState_ok, hcalls, hmemory]
    exact hpopped (.inl hfree)

theorem evolves_native (hnat : m.NativesEvolve) {id : NativeId} {s t : State σ τ}
    {outcome : Except RuntimeError Value} (h : NativeRun m watch id s t outcome) :
    s.memory.Evolves t.memory := by
  obtain ⟨name, native, args, context, hnative, hrun⟩ := h.runs
  have hmem := hnat id name native hnative ⟨name, args, context, m.layouts⟩ s.memory s.host
  rw [hrun] at hmem
  exact hmem

section

variable {r : EStateM.Result RuntimeError (State σ τ) (Option Value)}
  (hr : m.cycle watch s = r)
include hr

theorem memoryAfter_eq : m.memoryAfter watch s = (finalState r).memory := by
  rw [memoryAfter, hr]

/-- The accounts after an instruction that lets the blocks and the calls be. -/
theorem accounted_of_same (hw : s.memory.Rewrites (finalState r).memory)
    (hcalls : (finalState r).calls = s.calls) (h : Accounted own s.memory s.calls.frames) :
    Accounted (m.owned watch own s) (m.memoryAfter watch s) (finalState r).calls.frames := by
  have hmem := m.memoryAfter_eq watch hr
  refine Accounted.congr ?_ (m.owned_of_rewrites watch (hmem ▸ hw))
  rw [hmem, hcalls]
  exact h.rewrites hw

/-- The accounts after an instruction by which only frames get or lose a block. -/
theorem accounted_of_frame (hmalloc : ¬ m.MallocAt s) (hnative : ¬ m.NativeAt s)
    (h : Accounted own (finalState r).memory (finalState r).calls.frames) :
    Accounted (m.owned watch own s) (m.memoryAfter watch s) (finalState r).calls.frames :=
  Accounted.congr (m.memoryAfter_eq watch hr ▸ h) (m.owned_of_frame watch hmalloc hnative)

end

theorem accounted_cycle (hfit : m.FramesFit) (hnat : m.NativesEvolve)
    (h : Accounted own s.memory s.calls.frames) :
    Accounted (m.owned watch own s) (m.memoryAfter watch s)
      (finalState (m.cycle watch s)).calls.frames := by
  obtain ⟨e, _, hc⟩ | ⟨l, hl, heffect⟩ := m.effect_cycle watch s
  · rw [hc]
    exact m.accounted_of_same watch hc (.refl _) rfl h
  have hmalloc := mallocAt_iff hl
  have hnative := nativeAt_iff hl
  generalize hr : m.cycle watch s = r at heffect
  have hmem := m.memoryAfter_eq watch hr
  generalize l.instr = i at heffect hmalloc hnative
  cases heffect with
  | inner _ hw => exact m.accounted_of_same watch hr hw.memory hw.calls h
  | failed hw => exact m.accounted_of_same watch hr hw.memory hw.calls h
  | read => exact m.accounted_of_same watch hr (.refl _) rfl h
  | allocated ha =>
    have hadds := (Memory.alloc_ok ha).2
    have hno : ¬ m.NativeAt s := fun hn => by
      obtain ⟨_, _, _, _, _, hcall, _⟩ := hnative.mp hn
      cases hcall
    refine Accounted.evolves h (hmem ▸ .single (.alloc ha)) ?_
    exact m.owned_of_malloc watch (hmalloc.mpr rfl) hno (hmem ▸ hadds) h.live
  | initializing _ =>
    refine m.accounted_of_frame watch hr (hmalloc.not.mpr nofun) (hnative.not.mpr ?_) ?_
    · rintro ⟨_, _, _, _, _, hcall, _⟩
      cases hcall
    · rw [finalState_unfinished]
      exact m.accounted_enter watch hfit _ _ _ h
  | calling _ _ hno hno' =>
    refine m.accounted_of_frame watch hr (hmalloc.not.mpr hno) (hnative.not.mpr hno') ?_
    rw [finalState_unfinished]
    exact m.accounted_enter watch hfit _ _ _ h
  | @native ty _ _ p id t _ _ hsig _ hp ht hrun hstates =>
    have hcalls : m.NativeAt s := hnative.mpr ⟨ty, _, _, p, id, rfl, hsig, hp, ht⟩
    have hstate : (finalState r).memory = t.memory ∧ (finalState r).calls = s.calls := by
      obtain ⟨e, rfl⟩ | rfl | ⟨v, rfl⟩ := hstates <;> exact ⟨rfl, hrun.calls⟩
    have hevolves := m.evolves_native watch hnat hrun
    rw [hstate.2]
    refine h.evolves ?_ (m.owned_of_native watch hcalls h.live)
    rw [hmem, hstate.1]
    exact hevolves
  | leaving hf hleaving =>
    refine m.accounted_of_frame watch hr (hmalloc.not.mpr nofun) (hnative.not.mpr ?_)
      (m.accounted_leaving watch hf hleaving h)
    rintro ⟨_, _, _, _, _, hcall, _⟩
    cases hcall

/-! ## Every instruction keeps the numbers -/

/-- Natives neither allocate nor release. -/
def NativesQuiet : Prop :=
  ∀ id name native, m.native? id = some (name, native) →
    ∀ (call : NativeCall) (memory : Memory) (host : σ),
      memory.Rewrites (native call memory host).2.1

def succeeds {α : Type} : EStateM.Result RuntimeError (State σ τ) α → Bool
  | .ok _ _ => true
  | .error _ _ => false

/-- The instruction at `s` is MALLOC, and it succeeds. -/
def mallocs (s : State σ τ) : Bool :=
  match decodeAt m.program.code s.ip with
  | .ok l => l.instr.isMalloc && succeeds (m.cycle watch s)
  | .error _ => false

variable {n : Nat}

theorem counted_enter (hfit : m.FramesFit) (id : RoutineId) (args : List Value)
    (kind : FrameKind) (h : Counted n s.memory s.calls.frames) :
    Counted n (finalState (m.enter watch id args kind s)).memory
      (finalState (m.enter watch id args kind s)).calls.frames := by
  have hentering := m.entering_enter watch id args kind s
  generalize m.enter watch id args kind s = r at hentering
  cases hentering with
  | begun _ _ hadds => exact h.enter hadds rfl
  | refused => exact h
  | @rejected memory released _ hadds hfree =>
    have hframe := h.enter (f := ⟨id, kind, s.ip, Address.ofBlock s.memory.next, 0⟩) hadds rfl
    obtain ⟨memory', hfree', hleft⟩ := hframe.leave
    cases hfree.symm.trans hfree'
    exact hleft
  | noPlace hc hout => exact absurd (hfit _ _ hc) hout

theorem counted_leaving {f : Frame} (hf : s.calls.current? = some f)
    {r : EStateM.Result RuntimeError (State σ τ) (Option Value)} (hr : Leaving m watch f s r)
    (h : Counted n s.memory s.calls.frames) :
    Counted n (finalState r).memory (finalState r).calls.frames := by
  obtain ⟨rest, hframes⟩ : ∃ rest, s.calls.frames = f :: rest := List.head?_eq_some_iff.mp hf
  have htail : s.calls.tail.frames = rest := congrArg List.tail hframes
  obtain ⟨memory', hfree', hleft⟩ := (hframes ▸ h : Counted n s.memory (f :: rest)).leave
  have hpopped {memory : Memory} (hfree : s.memory.free f.locals = .ok memory) :
      Counted n memory s.calls.tail.frames := by
    cases hfree.symm.trans hfree'
    exact htail ▸ hleft
  cases hr with
  | failed hw =>
    rw [finalState_error, hw.calls]
    exact h.rewrites hw.memory
  | dangling hfree => cases hfree.symm.trans hfree'
  | finished _ _ hfree _ => exact hpopped hfree
  | undelivered hfree _ => exact hpopped hfree
  | @delivered _ v memory t _ _ hfree hd =>
    have hcalls := m.calls_deliver watch hd
    have hmemory : t.memory = memory := m.memory_deliver watch hd
    simp only [finalState_ok, hcalls, hmemory]
    exact hpopped hfree

theorem rewrites_native (hquiet : m.NativesQuiet) {id : NativeId} {s t : State σ τ}
    {outcome : Except RuntimeError Value} (h : NativeRun m watch id s t outcome) :
    s.memory.Rewrites t.memory := by
  obtain ⟨name, native, args, context, hnative, hrun⟩ := h.runs
  have hmem := hquiet id name native hnative ⟨name, args, context, m.layouts⟩ s.memory s.host
  rw [hrun] at hmem
  exact hmem

theorem counted_cycle (hfit : m.FramesFit) (hquiet : m.NativesQuiet)
    (h : Counted n s.memory s.calls.frames) :
    Counted (n + (m.mallocs watch s).toNat) (finalState (m.cycle watch s)).memory
      (finalState (m.cycle watch s)).calls.frames := by
  unfold mallocs
  obtain ⟨e, hl, hc⟩ | ⟨l, hl, heffect⟩ := m.effect_cycle watch s
  · rw [hl, hc]
    exact h
  rw [hl]
  dsimp only
  generalize m.cycle watch s = r at heffect ⊢
  generalize l.instr = i at heffect ⊢
  -- all but MALLOC keep the number of the other blocks
  have hother (hi : ¬ i.isMalloc)
      (hkept : Counted n (finalState r).memory (finalState r).calls.frames) :
      Counted (n + (i.isMalloc && succeeds r).toNat) (finalState r).memory
        (finalState r).calls.frames := by
    rw [Bool.eq_false_iff.mpr hi, Bool.false_and]
    exact hkept
  cases heffect with
  | inner hi hw =>
    refine hother (Bool.eq_false_iff.mp (Instr.not_malloc_of_isInner hi)) ?_
    rw [finalState_ok, hw.calls]
    exact h.rewrites hw.memory
  | failed hw =>
    rw [succeeds, Bool.and_false, finalState_error, hw.calls]
    exact h.rewrites hw.memory
  | read => exact hother nofun h
  | allocated ha => exact h.alloc (Memory.alloc_ok ha).2
  | initializing _ =>
    refine hother nofun ?_
    rw [finalState_unfinished]
    exact m.counted_enter watch hfit _ _ _ h
  | calling _ _ hmalloc _ =>
    refine hother hmalloc ?_
    rw [finalState_unfinished]
    exact m.counted_enter watch hfit _ _ _ h
  | @native _ _ _ _ _ t _ _ _ _ _ _ hrun hr =>
    refine hother nofun ?_
    have hstate : (finalState r).memory = t.memory ∧ (finalState r).calls = s.calls := by
      obtain ⟨e, rfl⟩ | rfl | ⟨v, rfl⟩ := hr <;> exact ⟨rfl, hrun.calls⟩
    have hw := m.rewrites_native watch hquiet hrun
    rw [hstate.1, hstate.2]
    exact h.rewrites hw
  | leaving hf hr => exact hother nofun (m.counted_leaving watch hf hr h)

end Machine
end ForeignVM
