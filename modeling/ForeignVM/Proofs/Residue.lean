import ForeignVM.Proofs.Ownership

/-!
# ForeignVM.Proofs.Residue

What a call by the host leaves behind: no frames, no operands, and of the blocks only those that
the program and the host own.

* `Machine.trail`, `visited` — the states in which instructions are fetched.
* `Machine.Walk`             — one instruction after the other, up to a last state.
* `execute_walk`             — a call by the host is such a walk, and what is left is cleared away.
* `Walk.owned_iff`           — who owns a block after a walk.
* `no_residue`               — all of it for every call by the host.
-/

namespace ForeignVM
namespace Machine

open ForeignVM.Action

variable {σ τ : Type} (m : Machine σ) (watch : Observer τ)

/-- The states in which a run of at most `fuel` instructions fetches them. -/
def trail : Nat → State σ τ → List (State σ τ)
  | 0, _ => []
  | fuel + 1, s =>
    s ::
      match m.cycle watch s with
      | .ok none t => trail fuel t
      | _ => []

/-- The states in which a call by the host fetches its instructions. -/
def visited (id : RoutineId) (args : List Value) (s : State σ τ) : List (State σ τ) :=
  match m.start watch id args s with
  | .ok _ t => m.trail watch m.limits.fuel.toNat t
  | .error _ _ => []

/-- The instructions at the states of a list follow one another and lead from `s` to `u`. -/
inductive Walk : State σ τ → List (State σ τ) → State σ τ → Prop where
  | nil (s : State σ τ) : Walk s [] s
  | cons {s u : State σ τ} {l : List (State σ τ)}
      (h : Walk (finalState (m.cycle watch s)) l u) : Walk s (s :: l) u

theorem walk_run (fuel : Nat) (s : State σ τ) :
    Walk m watch s (m.trail watch fuel s) (finalState (m.run watch fuel s)) := by
  induction fuel generalizing s with
  | zero => exact .nil s
  | succ fuel ih =>
    unfold trail run
    cases hc : m.cycle watch s with
    | error e t =>
      refine .cons ?_
      rw [hc]
      exact .nil t
    | ok o t =>
      refine .cons ?_
      rw [hc]
      cases o with
      | some v => exact .nil t
      | none => exact ih t

/-- A call by the host enters the routine, walks, and clears away what is left. -/
theorem execute_walk (id : RoutineId) (args : List Value) {s : State σ τ}
    (hidle : s.calls = .empty) :
    ∃ u, Walk m watch (finalState (m.start watch id args s)) (m.visited watch id args s) u ∧
      finalState (m.execute watch id args s) = unwind u := by
  unfold visited
  cases hs : m.start watch id args s with
  | error e t =>
    refine ⟨t, .nil t, ?_⟩
    rw [m.execute_of_refused watch hs]
    rfl
  | ok _ t =>
    refine ⟨_, m.walk_run watch m.limits.fuel.toNat t, ?_⟩
    rw [m.execute_of_start watch hs]
    have hend := m.ending_run watch m.limits.fuel.toNat t
    generalize m.run watch m.limits.fuel.toNat t = r at hend
    cases hend with
    | failed _ _ _ => rfl
    | exhausted _ => rfl
    | finished _ hw hc =>
      -- the frame of the host was the last, so nothing is left to clear away
      obtain ⟨f, hroot, _, hbase⟩ := m.rooted_start watch hidle hs
      obtain ⟨l, g, c, memory, hg, hkind, _, _, _, rfl⟩ := m.finished_cases watch hc
      obtain ⟨rfl, hcalls⟩ := (m.rooted_after watch hroot hw).eq_push hg hkind
      have hempty : (CallStack.empty.push g).tail = CallStack.empty := rfl
      simp only [settle, finalState, unwind, left, fetched, hbase, Operands.cut_zero, hcalls,
        hempty]
      rfl

/-! ## Blocks after a walk -/

theorem next_le_enter (hfit : m.FramesFit) (id : RoutineId) (args : List Value)
    (kind : FrameKind) (s : State σ τ) :
    s.memory.next ≤ (finalState (m.enter watch id args kind s)).memory.next := by
  have h := m.entering_enter watch id args kind s
  generalize m.enter watch id args kind s = r at h
  cases h with
  | begun _ _ hadds => exact Nat.le_of_lt (hadds.next ▸ Nat.lt_succ_self _)
  | refused => exact Nat.le_refl _
  | rejected hadds hfree =>
    have hnext := (Memory.free_ok hfree).next
    rw [hadds.next] at hnext
    exact Nat.le_of_lt (hnext ▸ Nat.lt_succ_self _)
  | noPlace hc hout => exact absurd (hfit _ _ hc) hout

theorem next_le_cycle (hfit : m.FramesFit) (hnat : m.NativesEvolve) (s : State σ τ) :
    s.memory.next ≤ (m.memoryAfter watch s).next := by
  unfold memoryAfter
  obtain ⟨e, _, hc⟩ | ⟨l, _, h⟩ := m.effect_cycle watch s
  · rw [hc]
    exact Nat.le_refl _
  generalize m.cycle watch s = r at h
  generalize l.instr = i at h
  cases h with
  | inner _ hw => exact Nat.le_of_eq hw.memory.next.symm
  | failed hw => exact Nat.le_of_eq hw.memory.next.symm
  | allocated ha => exact Nat.le_of_lt ((Memory.alloc_ok ha).2.next ▸ Nat.lt_succ_self _)
  | read => exact Nat.le_refl _
  | @initializing offset _ _ =>
    rw [finalState_unfinished]
    exact m.next_le_enter watch hfit _ _ _
      { fetched watch s l with trace := watch (.constInit offset) (fetched watch s l).trace }
  | @calling _ _ _ _ n _ _ _ _ =>
    rw [finalState_unfinished]
    exact m.next_le_enter watch hfit _ _ _
      { fetched watch s l with operands := (fetched watch s l).operands.drop n }
  | native _ _ _ _ hrun hr =>
    have hle := (m.evolves_native watch hnat hrun).next_le
    obtain ⟨e, rfl⟩ | rfl | ⟨v, rfl⟩ := hr <;> exact hle
  | leaving _ hr =>
    cases hr with
    | failed hw => exact Nat.le_of_eq hw.memory.next.symm
    | dangling _ => exact Nat.le_refl _
    | finished _ _ hfree _ => exact Nat.le_of_eq (Memory.free_ok hfree).next.symm
    | undelivered hfree _ => exact Nat.le_of_eq (Memory.free_ok hfree).next.symm
    | delivered _ _ hfree hd =>
      refine Nat.le_of_eq (Eq.symm ?_)
      rw [finalState_ok]
      exact (congrArg Memory.next (m.memory_deliver watch hd)).trans (Memory.free_ok hfree).next

/-- Whom a block belongs to after the instructions at the states of a list. -/
def ownedAfter : List (State σ τ) → (Nat → Prop) → Nat → Prop
  | [], own => own
  | s :: l, own => ownedAfter l (m.owned watch own s)

namespace Walk

variable {m watch} {s u : State σ τ} {l : List (State σ τ)} {own : Nat → Prop}
variable (hfit : m.FramesFit) (hnat : m.NativesEvolve)
include hfit hnat

theorem accounted (h : Walk m watch s l u) (ha : Accounted own s.memory s.calls.frames) :
    Accounted (m.ownedAfter watch l own) u.memory u.calls.frames := by
  induction h generalizing own with
  | nil s => exact ha
  | cons _ ih => exact ih (m.accounted_cycle watch hfit hnat ha)

/-- Block numbers only grow on the way. -/
theorem next_le (h : Walk m watch s l u) : s.memory.next ≤ u.memory.next := by
  induction h with
  | nil s => exact Nat.le_refl _
  | cons _ ih => exact Nat.le_trans (m.next_le_cycle watch hfit hnat _) ih

theorem next_le_of_mem (h : Walk m watch s l u) {w : State σ τ} (hw : w ∈ l) :
    s.memory.next ≤ w.memory.next ∧ (m.memoryAfter watch w).next ≤ u.memory.next := by
  induction h with
  | nil s => cases hw
  | cons h ih =>
    cases hw with
    | head => exact ⟨Nat.le_refl _, h.next_le hfit hnat⟩
    | tail _ hmem =>
      obtain ⟨hle, hle'⟩ := ih hmem
      exact ⟨Nat.le_trans (m.next_le_cycle watch hfit hnat _) hle, hle'⟩

/-- A block number is given out by one instruction of the way at most. -/
theorem eq_of_allocatesAt (h : Walk m watch s l u) {w w' : State σ τ} {i : Nat} (hw : w ∈ l)
    (hw' : w' ∈ l) (ha : m.AllocatesAt watch w i) (ha' : m.AllocatesAt watch w' i) : w = w' := by
  obtain ⟨hle, hlt⟩ := ha
  obtain ⟨hle', hlt'⟩ := ha'
  induction h with
  | nil s => cases hw
  | @cons s _ _ h ih =>
    -- what the first instruction has allocated lies below all that the others allocate
    have hbelow {v : State σ τ} (hv : v ∈ _) : (m.memoryAfter watch s).next ≤ v.memory.next :=
      (h.next_le_of_mem hfit hnat hv).1
    cases hw with
    | head =>
      cases hw' with
      | head => rfl
      | tail _ hmem' =>
        have hsep := hbelow hmem'
        omega
    | tail _ hmem =>
      cases hw' with
      | head =>
        have hsep := hbelow hmem
        omega
      | tail _ hmem' => exact ih hmem hmem'

/-- What is owned in the end was owned at the start or allocated on the way, and has not been
released. The order does not matter, for no number is given out twice. -/
theorem owned_iff (h : Walk m watch s l u) (hlt : ∀ i, own i → i < s.memory.next) (i : Nat) :
    m.ownedAfter watch l own i ↔
      (own i ∨ ∃ w ∈ l, m.Allocates watch w i) ∧ ¬ ∃ w ∈ l, m.Releases watch w i := by
  induction h generalizing own with
  | nil s => simp [ownedAfter]
  | @cons s u l h ih =>
    have hnext := m.next_le_cycle watch hfit hnat s
    have hbound {j : Nat} (hj : own j ∨ m.Allocates watch s j) :
        j < (m.memoryAfter watch s).next := by
      obtain ho | ⟨_, ha⟩ := hj
      · exact Nat.lt_of_lt_of_le (hlt j ho) hnext
      · exact ha.2
    -- what the first instruction releases is not allocated later
    have hlater (hr : m.Releases watch s i) : ¬ ∃ w ∈ l, m.Allocates watch w i := by
      rintro ⟨w, hw, _, hle, _⟩
      have hmem : (m.memoryAfter watch s).next ≤ w.memory.next :=
        (h.next_le_of_mem hfit hnat hw).1
      obtain ⟨_, hl | ha, _⟩ := hr
      · have hfresh := hl.lt
        omega
      · have hgiven := ha.2
        omega
    rw [ownedAfter, ih fun j hj => hbound hj.1]
    simp only [owned, List.mem_cons, exists_eq_or_imp]
    by_cases hr : m.Releases watch s i
    · simp [hr, hlater hr]
    · simp only [hr, not_false_eq_true, and_true, false_or, or_assoc]

/-- The block of a frame is never owned. -/
theorem not_owned_of_frame (h : Walk m watch s l u)
    (ha : Accounted own s.memory s.calls.frames) {w : State σ τ} (hw : w ∈ l) {f : Frame}
    (hf : f ∈ w.calls.frames) :
    ¬ m.ownedAfter watch l own f.block ∧ 0 < f.block ∧ f.block < w.memory.next := by
  induction h generalizing own with
  | nil s => cases hw
  | @cons s _ _ h ih =>
    cases hw with
    | tail _ hmem => exact ih (m.accounted_cycle watch hfit hnat ha) hmem
    | head =>
      obtain ⟨hpos, hlt⟩ := ha.allocated f hf
      refine ⟨?_, hpos, hlt⟩
      intro ho
      have hwalk := Walk.cons h
      obtain ⟨ho | ⟨v, hv, _, hle, _⟩, _⟩ :=
        (hwalk.owned_iff hfit hnat (fun i hi => (ha.live i hi).lt) f.block).mp ho
      · exact ha.apart f hf ho
      · have hmem := (hwalk.next_le_of_mem hfit hnat hv).1
        omega

/-- Nor is a block that is allocated neither by MALLOC nor by a native. -/
theorem not_owned_of_entered (h : Walk m watch s l u) (hlt : ∀ i, own i → i < s.memory.next)
    {w : State σ τ} (hw : w ∈ l) {i : Nat} (hi : m.AllocatesAt watch w i)
    (hmalloc : ¬ m.MallocAt w) (hnative : ¬ m.NativeAt w) : ¬ m.ownedAfter watch l own i := by
  intro ho
  obtain ⟨ho | ⟨v, hv, hcause, hi'⟩, _⟩ := (h.owned_iff hfit hnat hlt i).mp ho
  · have hold := hlt i ho
    have hmem := (h.next_le_of_mem hfit hnat hw).1
    have hle := hi.1
    omega
  · obtain rfl := h.eq_of_allocatesAt hfit hnat hv hw hi' hi
    obtain hm | hn := hcause
    · exact hmalloc hm
    · exact hnative hn

omit hnat in
/-- Only the successful MALLOCs of the way count. -/
theorem counted (hquiet : m.NativesQuiet) (h : Walk m watch s l u) {n : Nat}
    (hc : Counted n s.memory s.calls.frames) :
    Counted (n + l.countP (m.mallocs watch)) u.memory u.calls.frames := by
  induction h generalizing n with
  | nil s => exact hc
  | @cons s _ l _ ih =>
    have hnext := ih (m.counted_cycle watch hfit hquiet hc)
    have hsum : (s :: l).countP (m.mallocs watch) =
        (m.mallocs watch s).toNat + l.countP (m.mallocs watch) := by
      rw [List.countP_cons, Nat.add_comm]
      cases m.mallocs watch s <;> rfl
    rw [hsum, ← Nat.add_assoc]
    exact hnext

end Walk

/-! ## Clearing away -/

theorem accounted_releaseFrames {own : Nat → Prop} {frames : List Frame} {memory : Memory}
    (h : Accounted own memory frames) : Accounted own (releaseFrames frames memory) [] := by
  induction frames generalizing memory with
  | nil => exact h
  | cons f rest ih =>
    unfold releaseFrames
    cases hfree : memory.free f.locals with
    | ok memory' => exact ih (h.leave (.inl hfree))
    | error e => exact ih (h.leave (.inr ⟨e, hfree, rfl⟩))

theorem counted_releaseFrames {n : Nat} {frames : List Frame} {memory : Memory}
    (h : Counted n memory frames) : (releaseFrames frames memory).live = n := by
  induction frames generalizing memory with
  | nil => exact h.count
  | cons f rest ih =>
    unfold releaseFrames
    obtain ⟨memory', hfree, hleft⟩ := h.leave
    rw [hfree]
    exact ih hleft

theorem next_releaseFrames (frames : List Frame) (memory : Memory) :
    (releaseFrames frames memory).next = memory.next := by
  induction frames generalizing memory with
  | nil => rfl
  | cons f rest ih =>
    unfold releaseFrames
    split
    · next hfree => rw [ih, (Memory.free_ok hfree).next]
    · exact ih memory

/-! ## The main result -/

/-- A call by the host from `s` allocates block `i` for a frame, whether or not the routine of the
frame begins. -/
def EntersWith (id : RoutineId) (args : List Value) (s : State σ τ) (i : Nat) : Prop :=
  (s.memory.next ≤ i ∧ i < (finalState (m.start watch id args s)).memory.next) ∨
    ∃ w ∈ m.visited watch id args s,
      ¬ m.MallocAt w ∧ ¬ m.NativeAt w ∧ m.AllocatesAt watch w i

/-- What a call by the host from `s` leaves behind in `u`. -/
structure NoResidue (id : RoutineId) (args : List Value) (s u : State σ τ) : Prop where
  calls : u.calls = .empty
  operands : u.operands = .empty
  /-- Every block that has been allocated for a frame is dead. -/
  entered : ∀ i, m.EntersWith watch id args s i → u.memory.Dead i
  /-- So is the block of every frame that has been live. -/
  frames : ∀ w ∈ m.visited watch id args s, ∀ f ∈ w.calls.frames, u.memory.Dead f.block
  /-- Those blocks live that lived before or have been allocated by MALLOC or a native, without
  those that a native has released. -/
  live : ∀ i, u.memory.Live i ↔
    (s.memory.Live i ∨ ∃ w ∈ m.visited watch id args s, m.Allocates watch w i) ∧
      ¬ ∃ w ∈ m.visited watch id args s, m.Releases watch w i
  /-- If natives neither allocate nor release, there are as many more live blocks as MALLOC has
  succeeded. -/
  count : m.NativesQuiet →
    u.memory.live = s.memory.live + (m.visited watch id args s).countP (m.mallocs watch)

theorem no_residue {program : Program} {registry : String → Option (Native σ)} {limits : Limits}
    (hbuild : Machine.build program registry limits = .ok m) (hbounded : m.FramesBounded)
    (hnat : m.NativesEvolve) (id : RoutineId) (args : List Value) {s : State σ τ}
    (hidle : s.calls = .empty) :
    NoResidue m watch id args s (finalState (m.execute watch id args s)) := by
  have hfit := Machine.fits_of_build hbuild hbounded
  obtain ⟨u, hwalk, hexec⟩ := m.execute_walk watch id args hidle
  have hframes : s.calls.frames = [] := congrArg CallStack.frames hidle
  have hstart := m.next_le_enter watch hfit id args .host { s with operands := .empty }
  have hlt (i : Nat) (hi : s.memory.Live i) :
      i < (finalState (m.start watch id args s)).memory.next := Nat.lt_of_lt_of_le hi.lt hstart
  have hidle' : Accounted s.memory.Live s.memory s.calls.frames := hframes ▸ .idle s.memory
  have hentered : Accounted s.memory.Live (finalState (m.start watch id args s)).memory
      (finalState (m.start watch id args s)).calls.frames :=
    m.accounted_enter watch hfit id args .host (s := { s with operands := .empty }) hidle'
  have hleft := accounted_releaseFrames (hwalk.accounted hfit hnat hentered)
  have hnext := next_releaseFrames u.calls.frames u.memory
  have hdead {i : Nat} (hpos : 0 < i) (hi : i < u.memory.next)
      (hown : ¬ m.ownedAfter watch (m.visited watch id args s) s.memory.Live i) :
      (unwind u).memory.Dead i :=
    Memory.dead_of_released hpos (hnext ▸ hi) fun hl => hown ((hleft.live_iff i).mp hl)
  rw [hexec]
  refine ⟨rfl, rfl, ?_, ?_, ?_, ?_⟩
  · intro i hi
    obtain ⟨hle, hi⟩ | ⟨w, hw, hmalloc, hnative, hi⟩ := hi
    · have hpos := s.memory.next_pos
      refine hdead (by omega) (Nat.lt_of_lt_of_le hi (hwalk.next_le hfit hnat)) ?_
      intro ho
      obtain ⟨ho | ⟨w, hw, _, hle', _⟩, _⟩ := (hwalk.owned_iff hfit hnat hlt i).mp ho
      · have hold := ho.lt
        omega
      · have hmem := (hwalk.next_le_of_mem hfit hnat hw).1
        omega
    · have hpos := w.memory.next_pos
      have hle := hi.1
      have hmem := (hwalk.next_le_of_mem hfit hnat hw).2
      refine hdead (by omega) (Nat.lt_of_lt_of_le hi.2 hmem) ?_
      exact hwalk.not_owned_of_entered hfit hnat hlt hw hi hmalloc hnative
  · intro w hw f hf
    obtain ⟨hown, hpos, hi⟩ := hwalk.not_owned_of_frame hfit hnat hentered hw hf
    have hafter := m.next_le_cycle watch hfit hnat w
    have hmem := (hwalk.next_le_of_mem hfit hnat hw).2
    exact hdead hpos (by omega) hown
  · intro i
    exact (hleft.live_iff i).trans (hwalk.owned_iff hfit hnat hlt i)
  · intro hquiet
    have hcount : Counted s.memory.live s.memory s.calls.frames := by
      rw [hframes]
      exact ⟨nofun, nofun, .nil, rfl⟩
    have hcount' :=
      m.counted_enter watch hfit id args .host (s := { s with operands := .empty }) hcount
    exact counted_releaseFrames (hwalk.counted hfit hquiet hcount')

/-- A program whose routine has three locals: two of 2⁶³ bytes, of which the first is a parameter,
and a byte. The size of the frame wraps around to one. -/
def sprawling : Program where
  code := #[]
  sources := .empty
  types := .doubled
  routines := #[⟨"main", 0, 1, [⟨63⟩, ⟨63⟩, ⟨0⟩], none⟩]
  constants := []
  natives := #[]
  entry := none

/-- How many blocks live after a call of the routine of `sprawling`, and how many instructions have
been fetched. -/
def sprawlingResidue : Option (Nat × Nat) :=
  match Machine.build sprawling (fun _ => none) .standard with
  | .error _ => none
  | .ok m =>
    let s : State Unit Unit := .idle .empty .empty () ()
    some ((finalState (m.execute .silent ⟨0⟩ [.int 0] s)).memory.live,
      (m.visited .silent ⟨0⟩ [.int 0] s).length)

/-- The argument has no place in the block, and the block is left. -/
theorem residue_of_sprawling : ∃ m : Machine Unit,
    Machine.build sprawling (fun _ => none) .standard = .ok m ∧ m.NativesEvolve ∧
      ¬ NoResidue m .silent ⟨0⟩ [.int 0] (.idle .empty .empty () ())
        (finalState (m.execute .silent ⟨0⟩ [.int 0] (.idle .empty .empty () ()))) := by
  have hresidue : sprawlingResidue = some (1, 0) := by decide +kernel
  unfold sprawlingResidue at hresidue
  split at hresidue
  case h_1 => cases hresidue
  next m hbuild =>
  obtain ⟨hlive, hlength⟩ := Prod.mk.inj (Option.some.inj hresidue)
  have hnone {id : NativeId} {name : String} {native : Native Unit} :
      m.native? id ≠ some (name, native) := fun hn => nomatch m.native_of_build hbuild hn
  refine ⟨m, hbuild, fun _ _ _ hn => absurd hn hnone, fun hleft => ?_⟩
  have hcount := hleft.count fun _ _ _ hn => absurd hn hnone
  rw [List.eq_nil_of_length_eq_zero hlength, hlive] at hcount
  cases hcount

/-- A program that allocates, calls a routine, and fails in it for want of operands. -/
def failing : Program where
  code := ([.malloc ⟨0⟩ 3, .call ⟨1⟩, .ret, .pop, .ret].flatMap Instr.encode).toArray
  sources := .empty
  types := ⟨#[.scalar .bool]⟩
  routines := #[⟨"main", 0, 0, [], none⟩, ⟨"pop", 11, 0, [⟨0⟩], none⟩]
  constants := []
  natives := #["tick"]
  entry := none

/-- A native that counts its calls. -/
def tick : Native Nat := fun _ memory calls => (.ok .void, memory, calls + 1)

/-- How many MALLOCs succeed when the host calls the first routine of `failing`. -/
def failingMallocs : Option Nat :=
  match Machine.build failing (fun _ => some tick) .standard with
  | .ok m =>
    some ((m.visited .recorder ⟨0⟩ [] (.idle .empty .empty 0 [])).countP (m.mallocs .recorder))
  | .error _ => none

/-- Three blocks are allocated, two of them for frames; one is left when the call has failed. -/
theorem no_residue_failing :
    ∃ m : Machine Nat, Machine.build failing (fun _ => some tick) .standard = .ok m ∧
      m.FramesBounded ∧
      (finalState (m.execute .recorder ⟨0⟩ [] (.idle .empty .empty 0 []))).memory.live = 1 := by
  obtain ⟨m, hbuild, hbounded⟩ : ∃ m,
      Machine.build failing (fun _ => some tick) .standard = .ok m ∧ m.FramesBounded :=
    ⟨_, rfl, by decide⟩
  have hnative {id : NativeId} {name : String} {native : Native Nat}
      (hn : m.native? id = some (name, native)) : native = tick :=
    (Option.some.inj (m.native_of_build hbuild hn)).symm
  have hevolve : m.NativesEvolve := fun id name native hn call memory host => by
    rw [hnative hn]
    exact .refl
  have hquiet : m.NativesQuiet := fun id name native hn call memory host => by
    rw [hnative hn]
    exact .refl memory
  have hmallocs : failingMallocs = some 1 := by decide +kernel
  rw [failingMallocs, hbuild] at hmallocs
  have hleft := no_residue m .recorder hbuild hbounded hevolve ⟨0⟩ []
    (s := .idle .empty .empty 0 []) rfl
  refine ⟨m, hbuild, hbounded, ?_⟩
  rw [hleft.count hquiet, Option.some.inj hmallocs]
  rfl

end Machine
end ForeignVM
