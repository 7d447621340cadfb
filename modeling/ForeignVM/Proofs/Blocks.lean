import ForeignVM.Value.Pointer
import Mathlib.Logic.Relation

/-!
# ForeignVM.Proofs.Blocks

Which blocks live. Block numbers are given out in ascending order and never twice, so a block
that has been released stays dead whatever is done to the memory afterwards.

* `Address.shift_ok_iff` — where a move of an address leads.
* `Memory.Live`     — a block is allocated and not released.
* `Memory.Adds`, `Memory.Drops`, `Memory.Rewrites` — what an allocation, a release and a write
  do to the blocks.
* `Memory.get?_alloc`, `get?_free`, `get?_write` — the cells of the blocks afterwards.
* `Memory.Evolves`  — what comes of allocating, releasing and writing, in any order; a block that
  lives has the size that it has always had.
* `Memory.Kept`     — what is true of the blocks of every memory that arises so.
* `Memory.Dead`     — no later memory gives access to a block; `dead_of_released` is the way
  there.
-/

namespace ForeignVM

namespace Address

theorem toNat_ofBlock {b : Nat} (h : b < half) : (ofBlock b).toNat = b * half := by
  rw [ofBlock, UInt64.toNat_ofNat']
  unfold half at *
  omega

theorem block_ofBlock {b : Nat} (h : b < half) : block (ofBlock b) = b := by
  rw [block, toNat_ofBlock h]
  exact Nat.mul_div_cancel _ (by decide)

theorem offset_ofBlock {b : Nat} (h : b < half) : offset (ofBlock b) = 0 := by
  rw [offset, toNat_ofBlock h]
  exact Nat.mul_mod_left _ _

theorem ne_zero_of_block {a : UInt64} (h : 0 < block a) : a ≠ 0 := by
  rintro rfl
  simp [block] at h

/-! ## Places in a block -/

theorem ext {a b : UInt64} (hblock : block a = block b) (hoffset : offset a = offset b) :
    a = b := by
  refine UInt64.toNat_inj.mp ?_
  unfold block offset half at *
  omega

theorem block_lt (a : UInt64) : block a < half := by
  have h := a.toNat_lt
  unfold block half
  omega

theorem offset_lt (a : UInt64) : offset a < half := Nat.mod_lt _ (by decide)

/-- A block and an offset make an address. -/
theorem block_offset_join {b o : Nat} (hb : b < half) (ho : o < half) :
    block (UInt64.ofNat (b * half + o)) = b ∧ offset (UInt64.ofNat (b * half + o)) = o := by
  unfold block offset half at *
  rw [UInt64.toNat_ofNat']
  omega

variable {a c : UInt64} {d : Int}

/-- A move changes the offset only, and is refused if the offset would leave its half. -/
theorem shift_ok_iff :
    shift a d = .ok c ↔ a ≠ 0 ∧ block c = block a ∧ (offset c : Int) = offset a + d := by
  unfold shift
  by_cases hnull : a = 0
  · simp [hnull]
  rw [if_neg hnull]
  dsimp only
  split
  · next hin =>
    obtain ⟨hblock, hoffset⟩ :=
      block_offset_join (block_lt a) (o := ((offset a : Int) + d).toNat) (by omega)
    constructor
    · intro h
      cases h
      exact ⟨hnull, hblock, by omega⟩
    · rintro ⟨_, hblock', hoffset'⟩
      exact congrArg _ (Address.ext (hblock.trans hblock'.symm) (by omega))
  · next hout =>
    constructor
    · intro h
      cases h
    · rintro ⟨_, _, hoffset⟩
      have hlt := offset_lt c
      omega

theorem shift_error {e : MemoryError} (ha : a ≠ 0) (h : shift a d = .error e) :
    e = .invalidAddress a := by
  unfold shift at h
  rw [if_neg ha] at h
  dsimp only at h
  split at h <;> cases h
  rfl

end Address

/-- The block with bytes written at an offset. -/
def Block.put (b : Block) (offset : Nat) (bytes : Bytes) : Block :=
  { b with bytes := b.bytes.write offset bytes }

namespace Memory

/-- Block `i` is allocated and not released. -/
def Live (m : Memory) (i : Nat) : Prop := (m.blocks.get? i).isSome

theorem Live.pos {m : Memory} {i : Nat} (h : m.Live i) : 0 < i := by
  obtain ⟨b, hb⟩ := Option.isSome_iff_exists.mp h
  exact (bounds_of_get? hb).1

theorem Live.lt {m : Memory} {i : Nat} (h : m.Live i) : i < m.next := by
  obtain ⟨b, hb⟩ := Option.isSome_iff_exists.mp h
  exact (bounds_of_get? hb).2

theorem not_live_iff {m : Memory} {i : Nat} : ¬ m.Live i ↔ m.blocks.get? i = none := by
  simp [Live]

/-! ## Allocation and release -/

/-- One more block lives in `m'`, under the next number. -/
structure Adds (m m' : Memory) : Prop where
  room : m.next < Address.half
  next : m'.next = m.next + 1
  live : ∀ i, m'.Live i ↔ i = m.next ∨ m.Live i
  count : m'.live = m.live + 1

/-- Block `b` lives in `m` and no longer in `m'`. -/
structure Drops (b : Nat) (m m' : Memory) : Prop where
  before : m.Live b
  next : m'.next = m.next
  live : ∀ i, m'.Live i ↔ m.Live i ∧ i ≠ b
  count : m'.live + 1 = m.live

/-- A block that is allocated takes the next number. -/
theorem alloc_ok {m m' : Memory} {size : Nat} {a : UInt64} (h : m.alloc size = .ok (a, m')) :
    a = Address.ofBlock m.next ∧ m.Adds m' := by
  unfold alloc at h
  split at h
  · cases h
  · next hc =>
    cases h
    refine ⟨rfl, ⟨by omega, rfl, ?_, ?_⟩⟩
    · intro i
      simp only [Live, get?_addBlock]
      split <;> simp [*]
    · have hc := SparseArray.count_put m.blocks m.next (some ⟨size, .empty⟩)
      rw [m.unused_absent _ (Nat.le_refl _)] at hc
      exact hc

theorem alloc_block {m m' : Memory} {size : Nat} {a : UInt64} (h : m.alloc size = .ok (a, m')) :
    size < Address.half ∧ m'.blocks.get? m.next = some ⟨size, .empty⟩ := by
  unfold alloc at h
  split at h
  · cases h
  · next hc =>
    cases h
    refine ⟨by omega, ?_⟩
    rw [get?_addBlock, if_pos rfl]

theorem live_setBlock_none {m : Memory} {i : Nat} (h : m.Live i) (k : Nat) :
    (m.setBlock i none).Live k ↔ m.Live k ∧ k ≠ i := by
  obtain ⟨b, hb⟩ := Option.isSome_iff_exists.mp h
  simp only [Live, get?_setBlock hb]
  split <;> simp [*]

theorem next_setBlock (m : Memory) (i : Nat) (b : Option Block) :
    (m.setBlock i b).next = m.next := by
  unfold setBlock
  split <;> rfl

theorem count_setBlock {m : Memory} {i : Nat} (h : m.Live i) (b : Option Block) :
    (m.setBlock i b).live + 1 = m.live + b.isSome.toNat := by
  obtain ⟨old, ho⟩ := Option.isSome_iff_exists.mp h
  have hc := SparseArray.count_put m.blocks i b
  rw [ho] at hc
  rw [setBlock, dif_pos (bounds_of_get? ho)]
  exact hc

/-- Only the start of a live block is released, and no other block with it. -/
theorem free_ok {m m' : Memory} {a : UInt64} (h : m.free a = .ok m') :
    m.Drops (Address.block a) m' := by
  unfold free at h
  split at h
  · cases h
  · split at h
    · next b hb =>
      have hl : m.Live (Address.block a) := Option.isSome_iff_exists.mpr ⟨b, hb⟩
      split at h
      · cases h
        exact ⟨hl, next_setBlock _ _ _, live_setBlock_none hl, count_setBlock hl none⟩
      · cases h
    · cases h

/-- The start of a live block can be released. -/
theorem free_of_live {m : Memory} {b : Nat} (h : m.Live b) (hb : b < Address.half) :
    ∃ m', m.free (Address.ofBlock b) = .ok m' := by
  have hblock := Address.block_ofBlock hb
  have hne : Address.ofBlock b ≠ 0 := Address.ne_zero_of_block (by rw [hblock]; exact h.pos)
  obtain ⟨old, ho⟩ := Option.isSome_iff_exists.mp h
  refine ⟨m.setBlock b none, ?_⟩
  simp only [free, hne, hblock, ho, Address.offset_ofBlock hb, if_true, if_false]

theorem live_of_blockAt {m : Memory} {a : UInt64} {length : Nat} {b : Block}
    (h : m.blockAt a length = .ok b) : m.blocks.get? (Address.block a) = some b := by
  unfold blockAt at h
  split at h
  · cases h
  · split at h
    · next b' hb =>
      split at h
      · cases h
        exact hb
      · cases h
    · cases h

/-! ## Reaching places -/

/-- What lies in a block can be reached from every place before it. -/
theorem exists_advance {a : UInt64} {n : Nat} (hpos : 0 < Address.block a)
    (hn : Address.offset a + n < Address.half) :
    ∃ c, Address.advance a n = .ok c ∧ Address.block c = Address.block a ∧
      Address.offset c = Address.offset a + n := by
  have hword : signedWord n = n := by
    unfold signedWord Address.half at *
    rw [Int.bmod_eq_of_le] <;> omega
  obtain ⟨hblock, hoffset⟩ := Address.block_offset_join (Address.block_lt a) hn
  refine ⟨_, Address.shift_ok_iff.mpr ⟨Address.ne_zero_of_block hpos, hblock, ?_⟩, hblock, hoffset⟩
  rw [hoffset, hword]
  exact Int.natCast_add _ _

/-- A place in a block can be reached from its start. -/
theorem advance_ofBlock {b n : Nat} (hpos : 0 < b) (hb : b < Address.half)
    (hn : n < Address.half) :
    ∃ a, Address.advance (Address.ofBlock b) n = .ok a ∧ Address.block a = b ∧
      Address.offset a = n := by
  have hblock := Address.block_ofBlock hb
  have hoffset := Address.offset_ofBlock hb
  obtain ⟨a, ha, hsame, hmoved⟩ : ∃ c, Address.advance (Address.ofBlock b) n = .ok c ∧
      Address.block c = Address.block (Address.ofBlock b) ∧
      Address.offset c = Address.offset (Address.ofBlock b) + n :=
    exists_advance (by omega) (by omega)
  exact ⟨a, ha, by omega, by omega⟩

theorem blockAt_of_fits {m : Memory} {a : UInt64} {length : Nat} {b : Block}
    (h : m.blocks.get? (Address.block a) = some b)
    (hfits : Address.offset a + length ≤ b.size) : m.blockAt a length = .ok b := by
  have hne : a ≠ 0 := Address.ne_zero_of_block (bounds_of_get? h).1
  simp only [blockAt, hne, if_false, h, if_pos hfits]

theorem blockAt_ok_iff {m : Memory} {a : UInt64} {length : Nat} {b : Block} :
    m.blockAt a length = .ok b ↔
      m.blocks.get? (Address.block a) = some b ∧ Address.offset a + length ≤ b.size := by
  constructor
  · intro h
    have hlive := live_of_blockAt h
    refine ⟨hlive, Nat.le_of_not_lt fun hfits => ?_⟩
    have hne : a ≠ 0 := Address.ne_zero_of_block (bounds_of_get? hlive).1
    simp [blockAt, hlive, hne, Nat.not_le_of_lt hfits] at h
  · rintro ⟨hb, hfits⟩
    exact blockAt_of_fits hb hfits

/-! ## Writing -/

/-- Only bytes inside blocks differ. -/
structure Rewrites (m m' : Memory) : Prop where
  next : m'.next = m.next
  size : ∀ i, (m'.blocks.get? i).map Block.size = (m.blocks.get? i).map Block.size
  count : m'.live = m.live

namespace Rewrites

variable {m m' m'' : Memory}

theorem refl (m : Memory) : Rewrites m m := ⟨rfl, fun _ => rfl, rfl⟩

theorem trans (h : Rewrites m m') (h' : Rewrites m' m'') : Rewrites m m'' :=
  ⟨h'.next.trans h.next, fun i => (h'.size i).trans (h.size i), h'.count.trans h.count⟩

theorem live (h : Rewrites m m') (i : Nat) : m'.Live i ↔ m.Live i := by
  have hs := congrArg Option.isSome (h.size i)
  simpa only [Live, Option.isSome_map, Bool.coe_iff_coe] using hs

end Rewrites

theorem Adds.rewrites {m m' m'' : Memory} (h : Adds m m') (h' : Rewrites m' m'') : Adds m m'' :=
  ⟨h.room, h'.next.trans h.next, fun i => (h'.live i).trans (h.live i), h'.count.trans h.count⟩

theorem write_of_blockAt {m : Memory} {a : UInt64} {length : Nat} {b : Block} {bytes : Bytes}
    (h : m.blockAt a length = .ok b) (hlen : bytes.length = length) :
    ∃ m', m.write a bytes = .ok m' := by
  rw [write, hlen, h]
  exact ⟨_, rfl⟩

theorem write_ok {m m' : Memory} {a : UInt64} {bytes : Bytes} (h : m.write a bytes = .ok m') :
    Rewrites m m' := by
  unfold write at h
  split at h
  · cases h
  · next b hb =>
    cases h
    have hg := live_of_blockAt hb
    have hl : m.Live (Address.block a) := Option.isSome_iff_exists.mpr ⟨b, hg⟩
    refine ⟨next_setBlock _ _ _, ?_, ?_⟩
    · intro i
      rw [get?_setBlock hg]
      split
      · next hi => rw [hi, hg]; rfl
      · rfl
    · have hc := count_setBlock hl (some { b with bytes := b.bytes.write (Address.offset a) bytes })
      simpa using hc

theorem store_ok {m m' : Memory} {a : UInt64} {s : Shape} {v : Value}
    (h : m.store a s v = .ok m') : Rewrites m m' := by
  unfold store at h
  split at h
  · cases h
  · split at h
    · cases h
    · split at h
      · cases h
      · next hw =>
        cases h
        exact write_ok hw

/-! ## Cells and bytes afterwards -/

section

variable {m m' : Memory} {a : UInt64} {b : Block}

/-- Only a live block is written to. -/
theorem exists_of_write {bytes : Bytes} (h : m.write a bytes = .ok m') :
    ∃ b, m.blocks.get? (Address.block a) = some b := by
  unfold write at h
  split at h
  · cases h
  · next b hb => exact ⟨b, live_of_blockAt hb⟩

theorem get?_write {bytes : Bytes} (h : m.write a bytes = .ok m')
    (hb : m.blocks.get? (Address.block a) = some b) (k : Nat) :
    m'.blocks.get? k =
      if k = Address.block a then some (b.put (Address.offset a) bytes) else m.blocks.get? k := by
  unfold write at h
  split at h
  · cases h
  · next b' hat =>
    cases h
    have hb' := live_of_blockAt hat
    cases hb.symm.trans hb'
    exact get?_setBlock hb _ k

theorem get?_alloc {size : Nat} (h : m.alloc size = .ok (a, m')) (k : Nat) :
    m'.blocks.get? k = if k = m.next then some ⟨size, .empty⟩ else m.blocks.get? k := by
  unfold alloc at h
  split at h
  · cases h
  · cases h
    exact get?_addBlock ..

theorem get?_free (h : m.free a = .ok m') (k : Nat) :
    m'.blocks.get? k = if k = Address.block a then none else m.blocks.get? k := by
  unfold free at h
  split at h
  · cases h
  · split at h
    · next b hb =>
      split at h
      · cases h
        exact get?_setBlock hb _ k
      · cases h
    · cases h

theorem load_cases {s : Shape} {v : Value} (h : m.load a s = .ok v)
    (hb : m.blocks.get? (Address.block a) = some b) :
    v = s.decode (b.bytes.read (Address.offset a) s.size) := by
  unfold load read at h
  cases hat : m.blockAt a s.size with
  | error e =>
    rw [hat] at h
    cases h
  | ok b' =>
    rw [hat] at h
    cases hb.symm.trans (live_of_blockAt hat)
    cases h
    rfl

theorem store_cases {s : Shape} {v : Value} (h : m.store a s v = .ok m') :
    ∃ bytes, s.encode v = .ok bytes ∧ m.write a bytes = .ok m' := by
  unfold store at h
  split at h
  · cases h
  · split at h
    · cases h
    · next bytes hbytes =>
      split at h
      · cases h
      · next hw =>
        cases h
        exact ⟨bytes, hbytes, hw⟩

end

/-! ## Any sequence of operations -/

inductive Operation : Memory → Memory → Prop where
  | alloc {m m' : Memory} {size : Nat} {a : UInt64} (h : m.alloc size = .ok (a, m')) :
      Operation m m'
  | free {m m' : Memory} {a : UInt64} (h : m.free a = .ok m') : Operation m m'
  | write {m m' : Memory} {a : UInt64} {bytes : Bytes} (h : m.write a bytes = .ok m') :
      Operation m m'

/-- What comes of any sequence of allocations, releases and writes. -/
def Evolves : Memory → Memory → Prop := Relation.ReflTransGen Operation

theorem Operation.next_le {m m' : Memory} (h : Operation m m') : m.next ≤ m'.next := by
  cases h with
  | alloc h =>
    rw [(alloc_ok h).2.next]
    exact Nat.le_succ _
  | free h => exact Nat.le_of_eq (free_ok h).next.symm
  | write h => exact Nat.le_of_eq (write_ok h).next.symm

/-- No operation brings a released block back. -/
theorem Operation.live_or_fresh {m m' : Memory} (h : Operation m m') {i : Nat}
    (hi : m'.Live i) : m.Live i ∨ m.next ≤ i := by
  cases h with
  | alloc h =>
    rcases ((alloc_ok h).2.live i).mp hi with rfl | hl
    · exact .inr (Nat.le_refl _)
    · exact .inl hl
  | free h => exact .inl (((free_ok h).live i).mp hi).1
  | write h => exact .inl (((write_ok h).live i).mp hi)

/-- A block keeps its size as long as it lives. One case per operation. -/
theorem Operation.size_of_live {m m' : Memory} (h : Operation m m') {i : Nat} {b : Block}
    (hb : m.blocks.get? i = some b) (hlive : m'.Live i) :
    ∃ b', m'.blocks.get? i = some b' ∧ b'.size = b.size := by
  cases h with
  | alloc h =>
    have hne : i ≠ m.next := Nat.ne_of_lt (bounds_of_get? hb).2
    exact ⟨b, by rw [get?_alloc h, if_neg hne, hb], rfl⟩
  | @free a h =>
    have hne : i ≠ Address.block a := (((free_ok h).live i).mp hlive).2
    exact ⟨b, by rw [get?_free h, if_neg hne, hb], rfl⟩
  | write h =>
    have hsize := (write_ok h).size i
    rw [hb] at hsize
    exact Option.map_eq_some_iff.mp hsize

namespace Evolves

variable {m m' : Memory}

theorem next_le (h : Evolves m m') : m.next ≤ m'.next := by
  induction h with
  | refl => exact Nat.le_refl _
  | tail _ hop ih => exact Nat.le_trans ih hop.next_le

theorem live_or_fresh (h : Evolves m m') {i : Nat} (hi : m'.Live i) : m.Live i ∨ m.next ≤ i := by
  induction h with
  | refl => exact .inl hi
  | tail hs hop ih =>
    rcases hop.live_or_fresh hi with hl | hn
    · exact ih hl
    · exact .inr (Nat.le_trans (next_le hs) hn)

/-- By induction on the operations: a block that lives in the end has lived all the time. -/
theorem size_of_live (h : Evolves m m') {i : Nat} {b : Block}
    (hb : m.blocks.get? i = some b) (hlive : m'.Live i) :
    ∃ b', m'.blocks.get? i = some b' ∧ b'.size = b.size := by
  induction h with
  | refl => exact ⟨b, hb, rfl⟩
  | tail hsteps hop ih =>
    rcases hop.live_or_fresh hlive with hbefore | hfresh
    · obtain ⟨b₁, hb₁, hsize₁⟩ := ih hbefore
      obtain ⟨b₂, hb₂, hsize₂⟩ := hop.size_of_live hb₁ hlive
      exact ⟨b₂, hb₂, hsize₂.trans hsize₁⟩
    · have hlt := (bounds_of_get? hb).2
      have hnext := next_le hsteps
      omega

end Evolves

/-- Every byte of every block has an address, and a block is determined by its bytes. -/
def Kept (m : Memory) : Prop :=
  ∀ i b, m.blocks.get? i = some b → b.size < Address.half ∧ b.bytes.Canonical

theorem kept_empty : empty.Kept := by
  intro i b hb
  simp [empty] at hb

theorem Operation.kept {m m' : Memory} (h : Operation m m') (hm : m.Kept) : m'.Kept := by
  intro i b hb
  cases h with
  | alloc h =>
    rw [get?_alloc h] at hb
    by_cases hi : i = m.next
    · rw [if_pos hi] at hb
      cases hb
      unfold Memory.alloc at h
      split at h
      · cases h
      · next hroom =>
        exact ⟨Nat.lt_of_not_le fun hle => hroom (.inl hle), ByteStore.canonical_empty⟩
    · rw [if_neg hi] at hb
      exact hm i b hb
  | @free a h =>
    rw [get?_free h] at hb
    by_cases hi : i = Address.block a
    · rw [if_pos hi] at hb
      cases hb
    · rw [if_neg hi] at hb
      exact hm i b hb
  | @write a bytes h =>
    obtain ⟨old, hold⟩ := exists_of_write h
    rw [get?_write h hold] at hb
    by_cases hi : i = Address.block a
    · rw [if_pos hi] at hb
      cases hb
      obtain ⟨hsize, hbytes⟩ := hm _ old hold
      exact ⟨hsize, hbytes.write _ _⟩
    · rw [if_neg hi] at hb
      exact hm i b hb

theorem Evolves.kept {m m' : Memory} (h : Evolves m m') (hm : m.Kept) : m'.Kept := by
  induction h with
  | refl => exact hm
  | tail _ hop ih => exact hop.kept ih

/-- Whatever is done to the memory, every access to block `i` fails: to read, to write and to
release it. -/
def Dead (m : Memory) (i : Nat) : Prop :=
  ∀ m', Evolves m m' → ∀ a, Address.block a = i →
    (∀ length, m'.read a length = .error (.invalidAddress a)) ∧
    (∀ bytes, m'.write a bytes = .error (.invalidAddress a)) ∧
    m'.free a = .error (.invalidAddress a)

theorem dead_of_released {m : Memory} {i : Nat} (hpos : 0 < i) (hlt : i < m.next)
    (h : ¬ m.Live i) : m.Dead i := by
  intro m' hs a ha
  have habsent : m'.blocks.get? (Address.block a) = none := by
    rw [ha]
    refine not_live_iff.mp ?_
    intro hl
    rcases hs.live_or_fresh hl with hl | hn
    · exact h hl
    · omega
  have hne : a ≠ 0 := Address.ne_zero_of_block (by omega)
  have hat : ∀ length, m'.blockAt a length = .error (.invalidAddress a) := fun length => by
    simp only [blockAt, hne, habsent, if_false]
  refine ⟨?_, ?_, ?_⟩
  · intro length
    rw [read, hat]
  · intro bytes
    rw [write, hat]
  · simp only [free, hne, habsent, if_false]

end Memory
end ForeignVM
