import ForeignVM.Proofs.Blocks

/-!
# ForeignVM.Proofs.Record

A memory as its users see it. All that a memory answers is determined by what has been demanded of
it and by its answers: which blocks have been given out and not taken back, and what has been
stored last at each of their positions.

* `Memory.modify`             — lends the bytes of a place to be changed.
* `Memory.Demand`, `Memory.serve` — what can be asked of a memory, and what comes of it.
* `Record`                    — demands with their answers; `Holds`, `Grants`, `byteAt` are the
  blocks and the bytes that a record tells of.
* `Agrees`                    — a memory that is as its record tells; `agrees_serve` for one
  demand, `agrees_after` for any number of them.
* `Session.answers_from_past` — what the past says about the next answer.
-/

namespace ForeignVM

namespace Address

/-- Why an address is refused where nothing can be done. -/
def refusal (a : UInt64) : MemoryError := if a = 0 then .nullDereference else .invalidAddress a

/-- No byte of the first place, of `n` bytes at `a`, lies in the second one. -/
def Apart (a : UInt64) (n : Nat) (c : UInt64) (k : Nat) : Prop :=
  block c ≠ block a ∨ offset c + k ≤ offset a ∨ offset a + n ≤ offset c

end Address

namespace Memory

open Address

variable {m m' : Memory} {a : UInt64} {n : Nat}

/-! ## Places -/

theorem blockAt_error {e : MemoryError} (h : m.blockAt a n = .error e) : e = refusal a := by
  unfold blockAt at h
  unfold refusal
  grind

theorem read_ok_iff {bytes : Bytes} :
    m.read a n = .ok bytes ↔ ∃ b, m.blockAt a n = .ok b ∧ bytes = b.bytes.read (offset a) n := by
  unfold read
  cases m.blockAt a n with
  | error e => simp
  | ok b => simp [eq_comm]

theorem read_error_iff {e : MemoryError} : m.read a n = .error e ↔ m.blockAt a n = .error e := by
  unfold read
  cases m.blockAt a n <;> simp

theorem write_ok_iff {bytes : Bytes} :
    (∃ m', m.write a bytes = .ok m') ↔ ∃ b, m.blockAt a bytes.length = .ok b := by
  unfold write
  cases m.blockAt a bytes.length <;> simp

theorem write_error_iff {bytes : Bytes} {e : MemoryError} :
    m.write a bytes = .error e ↔ m.blockAt a bytes.length = .error e := by
  unfold write
  cases m.blockAt a bytes.length <;> simp

theorem free_ok_iff : (∃ m', m.free a = .ok m') ↔ offset a = 0 ∧ m.Live (block a) := by
  constructor
  · rintro ⟨m', h⟩
    refine ⟨?_, (free_ok h).before⟩
    unfold free at h
    grind
  · rintro ⟨hoffset, hlive⟩
    have hstart : offset a = offset (ofBlock (block a)) :=
      hoffset.trans (offset_ofBlock (block_lt a)).symm
    rw [Address.ext (block_ofBlock (block_lt a)).symm hstart]
    exact free_of_live hlive (block_lt a)

theorem free_error {e : MemoryError} (h : m.free a = .error e) : e = refusal a := by
  unfold free at h
  unfold refusal
  grind

theorem read_of_live {b : Block} (h : m.blocks.get? (block a) = some b) :
    m.read a n = if offset a + n ≤ b.size then .ok (b.bytes.read (offset a) n)
      else .error (.invalidAddress a) := by
  have hne : a ≠ 0 := ne_zero_of_block (bounds_of_get? h).1
  by_cases hfits : offset a + n ≤ b.size <;> simp [read, blockAt, hne, h, hfits]

theorem read_of_absent (h : m.blocks.get? (block a) = none) : m.read a n = .error (refusal a) := by
  by_cases hnull : a = 0 <;> simp [read, blockAt, refusal, h, hnull]

/-- A write is read back, and read nowhere else. -/
theorem read_of_write {bytes : Bytes} (h : m.write a bytes = .ok m') :
    m'.read a bytes.length = .ok bytes ∧
      ∀ c k, Apart a bytes.length c k → m'.read c k = m.read c k := by
  obtain ⟨b, hb⟩ := write_ok_iff.mp ⟨m', h⟩
  obtain ⟨hget, hfits⟩ := blockAt_ok_iff.mp hb
  have hcells := get?_write h hget
  constructor
  · refine read_ok_iff.mpr ⟨b.put (offset a) bytes, blockAt_ok_iff.mpr ⟨?_, hfits⟩, ?_⟩
    · rw [hcells, if_pos rfl]
    · exact (b.bytes.read_write _ _).symm
  · intro c k hapart
    by_cases hc : block c = block a
    · have hread : (b.bytes.write (offset a) bytes).read (offset c) k = b.bytes.read (offset c) k :=
        b.bytes.read_write_apart (by unfold Apart at hapart; omega)
      have hput := hcells (block c)
      rw [if_pos hc] at hput
      rw [← hc] at hget
      rw [read_of_live hput, read_of_live hget, ← hread]
      rfl
    · have hsame := hcells (block c)
      rw [if_neg hc] at hsame
      cases hold : m.blocks.get? (block c) with
      | some b' => rw [read_of_live hold, read_of_live (hsame.trans hold)]
      | none => rw [read_of_absent hold, read_of_absent (hsame.trans hold)]

/-! ## Demands -/

/-- Lends `n` bytes from an address on to `change`, and keeps what it makes of them. There are as
many as before. -/
def modify (m : Memory) (a : UInt64) (n : Nat) (change : Bytes → Bytes) :
    Except MemoryError Memory :=
  match m.read a n with
  | .error e => .error e
  | .ok bytes => m.write a (fit n (change bytes))

inductive Demand where
  | alloc (size : Nat)
  | free (a : UInt64)
  | read (a : UInt64) (n : Nat)
  | write (a : UInt64) (bytes : Bytes)
  | modify (a : UInt64) (n : Nat) (change : Bytes → Bytes)

inductive Answer where
  | start (a : UInt64)
  | bytes (bytes : Bytes)
  | done
  | refused (e : MemoryError)

/-- The answer to a demand that gives nothing back, and the memory afterwards. -/
def settle (m : Memory) : Except MemoryError Memory → Answer × Memory
  | .ok m' => (.done, m')
  | .error e => (.refused e, m)

/-- A demand that is refused changes nothing. -/
def serve (m : Memory) : Demand → Answer × Memory
  | .alloc size =>
    match m.alloc size with
    | .ok (a, m') => (.start a, m')
    | .error e => (.refused e, m)
  | .free a => m.settle (m.free a)
  | .read a n =>
    match m.read a n with
    | .ok bytes => (.bytes bytes, m)
    | .error e => (.refused e, m)
  | .write a bytes => m.settle (m.write a bytes)
  | .modify a n change => m.settle (m.modify a n change)

/-- The memory after some demands. -/
def serveAll (m : Memory) (rs : List Demand) : Memory := rs.foldl (fun m r => (m.serve r).2) m

theorem modify_cases {change : Bytes → Bytes} (h : m.modify a n change = .ok m') :
    ∃ old, m.read a n = .ok old ∧ m.write a (fit n (change old)) = .ok m' := by
  unfold modify at h
  split at h
  · cases h
  · next old hold => exact ⟨old, hold, h⟩

theorem modify_ok_iff {change : Bytes → Bytes} :
    (∃ m', m.modify a n change = .ok m') ↔ ∃ b, m.blockAt a n = .ok b := by
  unfold modify read
  cases hb : m.blockAt a n with
  | error e => simp
  | ok b => simp [write_ok_iff, hb]

theorem modify_error {change : Bytes → Bytes} {e : MemoryError}
    (h : m.modify a n change = .error e) : m.blockAt a n = .error e := by
  unfold modify read at h
  cases hb : m.blockAt a n with
  | error e' => simpa [hb] using h
  | ok b => simp [hb, write_error_iff] at h

/-- What a memory does when it gives an answer. -/
inductive Serves (m : Memory) : Demand → Answer → Memory → Prop where
  | allocated {size : Nat} {a : UInt64} {m' : Memory} (h : m.alloc size = .ok (a, m')) :
      Serves m (.alloc size) (.start a) m'
  | freed {a : UInt64} {m' : Memory} (h : m.free a = .ok m') : Serves m (.free a) .done m'
  | found {a : UInt64} {n : Nat} {bytes : Bytes} (h : m.read a n = .ok bytes) :
      Serves m (.read a n) (.bytes bytes) m
  | wrote {a : UInt64} {bytes : Bytes} {m' : Memory} (h : m.write a bytes = .ok m') :
      Serves m (.write a bytes) .done m'
  | modified {a : UInt64} {n : Nat} {change : Bytes → Bytes} {old : Bytes} {m' : Memory}
      (hread : m.read a n = .ok old) (h : m.write a (fit n (change old)) = .ok m') :
      Serves m (.modify a n change) .done m'
  | refused {r : Demand} {e : MemoryError} : Serves m r (.refused e) m

theorem serves_serve (m : Memory) (r : Demand) : Serves m r (m.serve r).1 (m.serve r).2 := by
  cases r with
  | alloc size =>
    cases h : m.alloc size with
    | ok p => simpa only [serve, h] using .allocated h
    | error e => simpa only [serve, h] using .refused
  | free a =>
    cases h : m.free a with
    | ok m' => simpa only [serve, settle, h] using .freed h
    | error e => simpa only [serve, settle, h] using .refused
  | read a n =>
    cases h : m.read a n with
    | ok bytes => simpa only [serve, h] using .found h
    | error e => simpa only [serve, h] using .refused
  | write a bytes =>
    cases h : m.write a bytes with
    | ok m' => simpa only [serve, settle, h] using .wrote h
    | error e => simpa only [serve, settle, h] using .refused
  | modify a n change =>
    cases h : m.modify a n change with
    | ok m' =>
      obtain ⟨old, hread, hwrite⟩ := modify_cases h
      simpa only [serve, settle, h] using .modified hread hwrite
    | error e => simpa only [serve, settle, h] using .refused

theorem Serves.evolves {r : Demand} {answer : Answer} (h : Serves m r answer m') :
    m.Evolves m' := by
  cases h with
  | allocated h => exact .single (.alloc h)
  | freed h => exact .single (.free h)
  | found => exact .refl
  | wrote h => exact .single (.write h)
  | modified _ h => exact .single (.write h)
  | refused => exact .refl

theorem evolves_serveAll (m : Memory) (rs : List Demand) : m.Evolves (m.serveAll rs) := by
  induction rs generalizing m with
  | nil => exact .refl
  | cons r rs ih => exact (m.serves_serve r).evolves.trans (ih _)

end Memory

/-! ## Records -/

/-- Demands on a memory with its answers, the latest first. -/
abbrev Record := List (Memory.Demand × Memory.Answer)

namespace Record

open Memory Address

/-- A block of `size` bytes has been given out at `start`. -/
def Allocated (past : Record) (start : UInt64) (size : Nat) : Prop :=
  (Demand.alloc size, Answer.start start) ∈ past

/-- The block at `start` has been taken back. -/
def Released (past : Record) (start : UInt64) : Prop := (Demand.free start, Answer.done) ∈ past

def Holds (past : Record) (start : UInt64) (size : Nat) : Prop :=
  past.Allocated start size ∧ ¬ past.Released start

/-- `n` bytes from `a` on lie in a block that is held. -/
def Grants (past : Record) (a : UInt64) (n : Nat) : Prop :=
  ∃ start size, past.Holds start size ∧ block start = block a ∧ offset a + n ≤ size

def isAllocation : Demand × Answer → Bool
  | (.alloc _, .start _) => true
  | _ => false

def isRelease : Demand × Answer → Bool
  | (.free _, .done) => true
  | _ => false

/-- How many blocks have been given out. -/
def allocations (past : Record) : Nat := past.countP isAllocation

/-- How many blocks have been taken back. -/
def releases (past : Record) : Nat := past.countP isRelease

/-- What has been stored, and where, by somebody who saw the bytes as in `view`. A new block is
stored full of zeros. -/
def stored? (view : UInt64 → Nat → Bytes) : Demand × Answer → Option (UInt64 × Bytes)
  | (.alloc size, .start a) => some (a, List.replicate size 0)
  | (.write a bytes, .done) => some (a, bytes)
  | (.modify a n change, .done) => some (a, fit n (change (view a n)))
  | _ => none

/-- The byte that has been stored last at position `k` of block `i`. -/
def byteAt : Record → Nat → Nat → UInt8
  | [], _, _ => 0
  | e :: past, i, k =>
    match stored?
        (fun a n => (List.range n).map fun j => byteAt past (block a) (offset a + j)) e with
    | some (a, bytes) =>
      if block a = i ∧ offset a ≤ k ∧ k < offset a + bytes.length then bytes.getD (k - offset a) 0
      else byteAt past i k
    | none => byteAt past i k

/-- The bytes that have been stored last at `n` positions from `a` on. -/
def bytes (past : Record) (a : UInt64) (n : Nat) : Bytes :=
  (List.range n).map fun j => past.byteAt (block a) (offset a + j)

variable {past : Record} {e : Demand × Answer} {a : UInt64} {n i k : Nat}

theorem byteAt_of_stored {bytes : Bytes} (h : stored? past.bytes e = some (a, bytes)) :
    byteAt (e :: past) i k =
      if block a = i ∧ offset a ≤ k ∧ k < offset a + bytes.length then bytes.getD (k - offset a) 0
      else past.byteAt i k := by
  change stored? (fun a n => (List.range n).map fun j => byteAt past (block a) (offset a + j)) e =
    some (a, bytes) at h
  rw [byteAt, h]

theorem byteAt_of_not_stored (h : stored? past.bytes e = none) :
    byteAt (e :: past) i k = past.byteAt i k := by
  change stored? (fun a n => (List.range n).map fun j => byteAt past (block a) (offset a + j)) e =
    none at h
  rw [byteAt, h]

theorem allocated_cons {size : Nat} :
    Allocated (e :: past) a size ↔ e = (.alloc size, .start a) ∨ past.Allocated a size := by
  simp [Allocated, eq_comm]

theorem released_cons : Released (e :: past) a ↔ e = (.free a, .done) ∨ past.Released a := by
  simp [Released, eq_comm]

theorem allocations_cons :
    allocations (e :: past) = past.allocations + (isAllocation e).toNat := by
  cases h : isAllocation e <;> simp [allocations, h]

theorem releases_cons : releases (e :: past) = past.releases + (isRelease e).toNat := by
  cases h : isRelease e <;> simp [releases, h]

end Record

/-! ## Memories and their records -/

open Memory Address

/-- The memory holds the blocks and the bytes of which the record tells. -/
structure Agrees (m : Memory) (past : Record) : Prop where
  next : m.next = past.allocations + 1
  room : m.next ≤ half
  count : m.live + past.releases = past.allocations
  allocated : ∀ {a n}, past.Allocated a n → offset a = 0 ∧ block a < m.next
  released : ∀ {a}, past.Released a → block a < m.next
  holds : ∀ {a n}, past.Holds a n ↔
    offset a = 0 ∧ ∃ b, m.blocks.get? (block a) = some b ∧ b.size = n
  bytes : ∀ {i b}, m.blocks.get? i = some b → ∀ k < b.size, b.bytes.byteAt k = past.byteAt i k

namespace Agrees

variable {m m' : Memory} {past : Record} {a : UInt64} {n : Nat}

theorem empty : Agrees .empty [] where
  next := rfl
  room := by decide
  count := rfl
  allocated h := by cases h
  released h := by cases h
  holds := by simp [Record.Holds, Record.Allocated, Memory.empty]
  bytes h := by simp [Memory.empty] at h

theorem grants_iff (h : Agrees m past) : past.Grants a n ↔ ∃ b, m.blockAt a n = .ok b := by
  constructor
  · rintro ⟨start, size, hholds, hblock, hfits⟩
    obtain ⟨_, b, hb, rfl⟩ := h.holds.mp hholds
    exact ⟨b, blockAt_ok_iff.mpr ⟨hblock ▸ hb, hfits⟩⟩
  · rintro ⟨b, hb⟩
    obtain ⟨hget, hfits⟩ := blockAt_ok_iff.mp hb
    have hblock : block (ofBlock (block a)) = block a := block_ofBlock (block_lt a)
    refine ⟨ofBlock (block a), b.size, h.holds.mpr ⟨offset_ofBlock (block_lt a), b, ?_, rfl⟩,
      hblock, hfits⟩
    rw [hblock, hget]

theorem read_eq (h : Agrees m past) {b : Block} (hb : m.blockAt a n = .ok b) :
    b.bytes.read (offset a) n = past.bytes a n := by
  obtain ⟨hget, hfits⟩ := blockAt_ok_iff.mp hb
  rw [ByteStore.read_eq_map, Record.bytes]
  refine List.map_congr_left fun j hj => h.bytes hget _ ?_
  have hj := List.mem_range.mp hj
  omega

theorem read_ok_iff (h : Agrees m past) {bytes : Bytes} :
    m.read a n = .ok bytes ↔ past.Grants a n ∧ bytes = past.bytes a n := by
  rw [Memory.read_ok_iff, h.grants_iff]
  constructor
  · rintro ⟨b, hb, rfl⟩
    exact ⟨⟨b, hb⟩, h.read_eq hb⟩
  · rintro ⟨⟨b, hb⟩, rfl⟩
    exact ⟨b, hb, (h.read_eq hb).symm⟩

/-- The next number has never been given out. -/
theorem fresh (h : Agrees m past) (ha : block a = m.next) :
    (∀ size, ¬ past.Allocated a size) ∧ ¬ past.Released a := by
  constructor
  · intro size hallocated
    have hlt := (h.allocated hallocated).2
    omega
  · intro hreleased
    have hlt := h.released hreleased
    omega

/-- A new block. -/
theorem alloc (h : Agrees m past) {size : Nat} (halloc : m.alloc size = .ok (a, m')) :
    Agrees m' ((.alloc size, .start a) :: past) := by
  obtain ⟨rfl, hadds⟩ := alloc_ok halloc
  have hcells := get?_alloc halloc
  have hblock := block_ofBlock hadds.room
  have hoffset := offset_ofBlock hadds.room
  have hnext := hadds.next
  constructor
  case next => simp [Record.allocations_cons, Record.isAllocation, hnext, h.next]
  case room => rw [hnext]; exact hadds.room
  case count =>
    have hcount := hadds.count
    have hold := h.count
    simp [Record.allocations_cons, Record.releases_cons, Record.isAllocation, Record.isRelease]
    omega
  case allocated =>
    intro c k hc
    rcases Record.allocated_cons.mp hc with heq | hold
    · cases heq
      exact ⟨hoffset, by omega⟩
    · have hold := h.allocated hold
      omega
  case released =>
    intro c hc
    rcases Record.released_cons.mp hc with heq | hold
    · cases heq
    · have hold := h.released hold
      omega
  case holds =>
    intro c k
    rw [Record.Holds, Record.allocated_cons, Record.released_cons, hcells]
    by_cases hc : block c = m.next
    · obtain ⟨hnew, hlive⟩ := h.fresh hc
      have hstart : c = ofBlock m.next ↔ offset c = 0 :=
        ⟨fun heq => heq ▸ hoffset,
          fun h0 => Address.ext (hc.trans hblock.symm) (h0.trans hoffset.symm)⟩
      simp [hc, hnew, hlive, ← hstart, eq_comm, and_comm]
    · have hne : ¬ ofBlock m.next = c := fun heq => hc (heq ▸ hblock)
      have hold := h.holds (a := c) (n := k)
      rw [Record.Holds] at hold
      simp [hc, hne, hold]
  case bytes =>
    intro i b hb k hk
    rw [Record.byteAt_of_stored rfl, List.length_replicate, hblock, hoffset]
    rw [hcells] at hb
    split at hb
    · next hi =>
      cases hb
      have hk : k < size := hk
      rw [if_pos ⟨hi.symm, by omega, by omega⟩]
      simp [hk]
    · next hi =>
      rw [if_neg fun hc => hi hc.1.symm]
      exact h.bytes hb k hk

/-- A block less. -/
theorem free (h : Agrees m past) (hfree : m.free a = .ok m') :
    Agrees m' ((.free a, .done) :: past) := by
  have hdrops := free_ok hfree
  have hcells := get?_free hfree
  have hstart := (free_ok_iff.mp ⟨m', hfree⟩).1
  have hnext := hdrops.next
  constructor
  case next => simp [Record.allocations_cons, Record.isAllocation, hnext, h.next]
  case room => rw [hnext]; exact h.room
  case count =>
    have hcount := hdrops.count
    have hold := h.count
    simp [Record.allocations_cons, Record.releases_cons, Record.isAllocation, Record.isRelease]
    omega
  case allocated =>
    intro c k hc
    rcases Record.allocated_cons.mp hc with heq | hold
    · cases heq
    · rw [hnext]
      exact h.allocated hold
  case released =>
    intro c hc
    rw [hnext]
    rcases Record.released_cons.mp hc with heq | hold
    · cases heq
      exact hdrops.before.lt
    · exact h.released hold
  case holds =>
    intro c k
    have hold := h.holds (a := c) (n := k)
    rw [Record.Holds] at hold ⊢
    rw [Record.allocated_cons, Record.released_cons, hcells]
    by_cases hc : c = a
    · simp [hc]
    · have hblock : offset c = 0 → ¬ block c = block a := fun h0 heq =>
        hc (Address.ext heq (h0.trans hstart.symm))
      have hne : ¬ a = c := fun heq => hc heq.symm
      simp only [reduceCtorEq, Prod.mk.injEq, Demand.free.injEq, hne, false_and, false_or, hold]
      grind
  case bytes =>
    intro i b hb k hk
    rw [Record.byteAt_of_not_stored rfl]
    rw [hcells] at hb
    split at hb
    · cases hb
    · exact h.bytes hb k hk

/-- Whatever is neither an allocation nor a release leaves the blocks as they were. -/
theorem keep (h : Agrees m past) {e : Demand × Answer} (hw : m.Rewrites m')
    (hallocation : Record.isAllocation e = false) (hrelease : Record.isRelease e = false)
    (hbytes : ∀ {i b}, m'.blocks.get? i = some b → ∀ k < b.size,
      b.bytes.byteAt k = Record.byteAt (e :: past) i k) : Agrees m' (e :: past) := by
  have hallocated {c : UInt64} {k : Nat} :
      Record.Allocated (e :: past) c k ↔ past.Allocated c k := by
    rw [Record.allocated_cons]
    refine or_iff_right ?_
    rintro rfl
    cases hallocation
  have hreleased {c : UInt64} : Record.Released (e :: past) c ↔ past.Released c := by
    rw [Record.released_cons]
    refine or_iff_right ?_
    rintro rfl
    cases hrelease
  constructor
  case next => simp [Record.allocations_cons, hallocation, hw.next, h.next]
  case room => rw [hw.next]; exact h.room
  case count =>
    simp [Record.allocations_cons, Record.releases_cons, hallocation, hrelease, hw.count, h.count]
  case allocated => intro c k hc; rw [hw.next]; exact h.allocated (hallocated.mp hc)
  case released => intro c hc; rw [hw.next]; exact h.released (hreleased.mp hc)
  case holds =>
    intro c k
    have hsize := hw.size (block c)
    have hold := h.holds (a := c) (n := k)
    rw [Record.Holds] at hold ⊢
    rw [hallocated, hreleased, hold]
    simp only [← Option.map_eq_some_iff, hsize]
  case bytes => exact hbytes

/-- Bytes that are stored in a block. -/
theorem write (h : Agrees m past) {e : Demand × Answer} {bytes : Bytes}
    (hwrite : m.write a bytes = .ok m') (hstored : Record.stored? past.bytes e = some (a, bytes))
    (hallocation : Record.isAllocation e = false) (hrelease : Record.isRelease e = false) :
    Agrees m' (e :: past) := by
  refine h.keep (write_ok hwrite) hallocation hrelease fun {i b} hb k hk => ?_
  obtain ⟨old, hat⟩ := write_ok_iff.mp ⟨m', hwrite⟩
  obtain ⟨hget, hfits⟩ := blockAt_ok_iff.mp hat
  rw [get?_write hwrite hget] at hb
  rw [Record.byteAt_of_stored hstored]
  by_cases hi : i = block a
  · rw [if_pos hi] at hb
    cases hb
    simp only [Block.put, ByteStore.byteAt_write, hi, true_and]
    split
    · rfl
    · exact h.bytes hget k hk
  · rw [if_neg hi] at hb
    rw [if_neg fun hc => hi hc.1.symm]
    exact h.bytes hb k hk

end Agrees

/-- Serving one demand keeps memory and record in agreement. -/
theorem agrees_serve {m m' : Memory} {past : Record} {r : Demand} {answer : Answer}
    (h : Agrees m past) (hserves : m.Serves r answer m') : Agrees m' ((r, answer) :: past) := by
  have hquiet {e : Demand × Answer} (hstored : Record.stored? past.bytes e = none)
      (hallocation : Record.isAllocation e = false) (hrelease : Record.isRelease e = false) :
      Agrees m (e :: past) :=
    h.keep (.refl m) hallocation hrelease fun hb k hk =>
      (h.bytes hb k hk).trans (Record.byteAt_of_not_stored hstored).symm
  cases hserves with
  | allocated halloc => exact h.alloc halloc
  | freed hfree => exact h.free hfree
  | found => exact hquiet rfl rfl rfl
  | wrote hwrite => exact h.write hwrite rfl rfl rfl
  | modified hread hwrite =>
    refine h.write hwrite ?_ rfl rfl
    rw [(h.read_ok_iff.mp hread).2]
    rfl
  | refused => cases r <;> exact hquiet rfl rfl rfl

/-! ## Sessions -/

/-- A memory with all that has been asked of it. -/
structure Session where
  memory : Memory
  past : Record

namespace Session

def begin : Session := ⟨.empty, []⟩

def serve (s : Session) (r : Demand) : Session :=
  ⟨(s.memory.serve r).2, (r, (s.memory.serve r).1) :: s.past⟩

/-- The session after some demands on an empty memory. -/
def after (rs : List Demand) : Session := rs.foldl serve begin

theorem agrees_after (rs : List Demand) : Agrees (after rs).memory (after rs).past := by
  have hfold (s : Session) (h : Agrees s.memory s.past) :
      Agrees (rs.foldl serve s).memory (rs.foldl serve s).past := by
    induction rs generalizing s with
    | nil => exact h
    | cons r rs ih => exact ih _ (agrees_serve h (s.memory.serves_serve r))
  exact hfold begin .empty

end Session

/-- Every access to the address is refused as invalid. -/
def Memory.Refuses (m : Memory) (a : UInt64) : Prop :=
  (∀ n, m.read a n = .error (.invalidAddress a)) ∧
    (∀ bytes, m.write a bytes = .error (.invalidAddress a)) ∧
    (∀ n change, m.modify a n change = .error (.invalidAddress a)) ∧
    m.free a = .error (.invalidAddress a)

theorem Memory.Dead.refuses {m m' : Memory} {a : UInt64} (h : m.Dead (block a))
    (hm : m.Evolves m') : m'.Refuses a := by
  obtain ⟨hread, hwrite, hfree⟩ := h m' hm a rfl
  refine ⟨hread, hwrite, fun n change => ?_, hfree⟩
  rw [modify, hread]

/-- What a memory answers, in terms of its past alone. -/
structure AnswersFrom (past : Record) (m : Memory) : Prop where
  /-- A new block starts at an address that has never been given out, and holds zeros. -/
  alloc_ok : ∀ {size a m'}, m.alloc size = .ok (a, m') →
    offset a = 0 ∧ (∀ b n, past.Allocated b n → b ≠ a) ∧
      m'.read a size = .ok (List.replicate size 0)
  /-- There is none if it would be too large, or if all numbers of blocks have been used. -/
  alloc_error : ∀ {size e}, m.alloc size = .error e ↔
    (2 ^ 32 - 1 < size ∨ past.allocations = 2 ^ 32 - 1) ∧ e = .allocationTooLarge size
  /-- Bytes of a block that is held are read as they have been stored last. -/
  read_ok : ∀ {a n bytes}, m.read a n = .ok bytes ↔
    a ≠ 0 ∧ past.Grants a n ∧ bytes = past.bytes a n
  write_ok : ∀ {a bytes}, (∃ m', m.write a bytes = .ok m') ↔ a ≠ 0 ∧ past.Grants a bytes.length
  modify_ok : ∀ {a n change}, (∃ m', m.modify a n change = .ok m') ↔ a ≠ 0 ∧ past.Grants a n
  /-- A write is read back, and read nowhere else. -/
  written : ∀ {a bytes m'}, m.write a bytes = .ok m' →
    m'.read a bytes.length = .ok bytes ∧
      ∀ c k, Apart a bytes.length c k → m'.read c k = m.read c k
  modified : ∀ {a n change m'}, m.modify a n change = .ok m' →
    m'.read a n = .ok (fit n (change (past.bytes a n))) ∧
      ∀ c k, Apart a n c k → m'.read c k = m.read c k
  /-- What can be released is a block that is held, by the address at which it starts. -/
  free_ok : ∀ {a}, (∃ m', m.free a = .ok m') ↔ ∃ size, past.Holds a size
  /-- Whatever is asked later, a released block is out of reach. -/
  freed : ∀ {a m'}, m.free a = .ok m' → ∀ later c, block c = block a →
    (m'.serveAll later).Refuses c
  /-- The address alone decides why it is refused. -/
  refused : ∀ {a e}, (∃ n, m.read a n = .error e) ∨ (∃ bytes, m.write a bytes = .error e) ∨
      (∃ n change, m.modify a n change = .error e) ∨ m.free a = .error e →
    e = if a = 0 then .nullDereference else .invalidAddress a
  live : m.live + past.releases = past.allocations

namespace Agrees

variable {m m' : Memory} {past : Record} {a : UInt64} {n : Nat}

theorem ne_zero (h : Agrees m past) (hgrants : past.Grants a n) : a ≠ 0 := by
  obtain ⟨b, hb⟩ := h.grants_iff.mp hgrants
  exact ne_zero_of_block (bounds_of_get? (live_of_blockAt hb)).1

theorem granted_iff (h : Agrees m past) :
    (∃ b, m.blockAt a n = .ok b) ↔ a ≠ 0 ∧ past.Grants a n := by
  rw [← h.grants_iff]
  exact ⟨fun hgrants => ⟨h.ne_zero hgrants, hgrants⟩, fun hgrants => hgrants.2⟩

theorem alloc_error_iff (h : Agrees m past) {size : Nat} {e : MemoryError} :
    m.alloc size = .error e ↔
      (2 ^ 32 - 1 < size ∨ past.allocations = 2 ^ 32 - 1) ∧ e = .allocationTooLarge size := by
  have hnext := h.next
  have hroom := h.room
  have hlimit : half ≤ size ∨ half ≤ m.next ↔
      2 ^ 32 - 1 < size ∨ past.allocations = 2 ^ 32 - 1 := by
    unfold half at *
    omega
  rw [← hlimit, Memory.alloc]
  split
  · next hc => simp [hc, eq_comm]
  · next hc => simp [hc]

end Agrees

/-- After any demands on an empty memory, their record says what comes of the next one. -/
theorem Session.answers_from_past (rs : List Demand) :
    AnswersFrom (after rs).past (after rs).memory where
  alloc_ok := by
    intro size a m' h
    have hagrees := agrees_after rs
    obtain ⟨rfl, hadds⟩ := alloc_ok h
    have hblock := block_ofBlock hadds.room
    have hoffset := offset_ofBlock hadds.room
    refine ⟨hoffset, ?_, ?_⟩
    · rintro b n hb rfl
      exact (hagrees.fresh hblock).1 n hb
    · have hlive := (alloc_block h).2
      rw [← hblock] at hlive
      rw [read_of_live hlive, if_pos (by simp [hoffset]), ByteStore.read_empty]
  alloc_error := (agrees_after rs).alloc_error_iff
  read_ok := by
    intro a n bytes
    have hagrees := agrees_after rs
    rw [hagrees.read_ok_iff]
    exact ⟨fun h => ⟨hagrees.ne_zero h.1, h⟩, fun h => h.2⟩
  write_ok := write_ok_iff.trans (agrees_after rs).granted_iff
  modify_ok := modify_ok_iff.trans (agrees_after rs).granted_iff
  written := read_of_write
  modified := by
    intro a n change m' h
    obtain ⟨old, hread, hwrite⟩ := modify_cases h
    obtain ⟨_, rfl⟩ := (agrees_after rs).read_ok_iff.mp hread
    have hwritten := read_of_write hwrite
    rwa [length_fit] at hwritten
  free_ok := by
    intro a
    rw [free_ok_iff]
    simp only [(agrees_after rs).holds, Memory.Live, Option.isSome_iff_exists]
    grind
  freed := by
    intro a m' h later c hc
    have hdrops := free_ok h
    have hdead : m'.Dead (block a) :=
      dead_of_released hdrops.before.pos (hdrops.next ▸ hdrops.before.lt)
        fun hlive => ((hdrops.live _).mp hlive).2 rfl
    exact (hc ▸ hdead).refuses (m'.evolves_serveAll later)
  refused := by
    rintro a e (⟨n, h⟩ | ⟨bytes, h⟩ | ⟨n, change, h⟩ | h)
    · exact blockAt_error (read_error_iff.mp h)
    · exact blockAt_error (write_error_iff.mp h)
    · exact blockAt_error (modify_error h)
    · exact free_error h
  live := (agrees_after rs).count

namespace Session

/-- Two blocks, of which the first is stored to, read and taken back. -/
def borrowing : List Demand :=
  [.alloc 4, .alloc 2, .write 0x100000001 [7, 8], .read 0x100000000 4, .free 0x100000000]

def borrowed : Record :=
  [(.free 0x100000000, .done), (.read 0x100000000 4, .bytes [0, 7, 8, 0]),
    (.write 0x100000001 [7, 8], .done), (.alloc 2, .start 0x200000000),
    (.alloc 4, .start 0x100000000)]

/-- All demands are carried out, and the second block is left. -/
theorem answers_from_past_borrowed :
    (after borrowing).past = borrowed ∧
    (after borrowing).memory.read 0x200000000 2 = .ok [0, 0] ∧
    (∃ m, (after borrowing).memory.free 0x200000000 = .ok m) ∧
    (¬ ∃ m, (after borrowing).memory.free 0x100000000 = .ok m) ∧
    (after borrowing).memory.live = 1 := by
  have hpast : (after borrowing).past = borrowed := rfl
  have h : AnswersFrom borrowed (after borrowing).memory := answers_from_past borrowing
  have hholds : borrowed.Holds 0x200000000 2 :=
    ⟨by simp [borrowed, Record.Allocated], by simp [borrowed, Record.Released]⟩
  have hreleased : borrowed.Released 0x100000000 := List.mem_cons_self
  refine ⟨hpast, ?_, h.free_ok.mpr ⟨2, hholds⟩, fun hfree => ?_, ?_⟩
  · exact h.read_ok.mpr ⟨by decide, ⟨_, _, hholds, rfl, by decide⟩, by decide⟩
  · obtain ⟨_, hheld⟩ := h.free_ok.mp hfree
    exact hheld.2 hreleased
  · have hlive := h.live
    have hreleases : borrowed.releases = 1 := rfl
    have hallocations : borrowed.allocations = 2 := rfl
    omega

end Session

end ForeignVM
