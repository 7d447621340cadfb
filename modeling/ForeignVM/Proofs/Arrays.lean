import ForeignVM.Proofs.FieldPath
import ForeignVM.Proofs.Indirect
import ForeignVM.Proofs.Record

/-!
# ForeignVM.Proofs.Arrays

Arrays in memory. A block for several values of a type is an array: each index has a place of its
own, stored values are found again, and an index beyond the array leads to nothing. Address
arithmetic is done on the offset alone, and bounds are looked at when memory is used.

* `Pointer.index_ok_iff`  — where an index leads, and when it is refused.
* `Pointer.index_neg`     — the opposite index leads back.
* `Pointer.Spans`         — a pointer to a block for some number of values.
* `Pointer.IsArray`       — what can be done with it.
* `Machine.GivesArray`, `ReachesElements` — the instructions for arrays.
* `malloc_gives_array`    — every allocation gives an array, or is refused.
-/

namespace ForeignVM

open Address

/-! ## Indices -/

namespace Pointer

variable {l : Layouts} {p q : Pointer} {i : Int64} {s : Shape}

/-- The product fits a word wherever the offset stays in its half. -/
theorem index_ok_iff (hs : l.shape p.pointee = .ok s) :
    p.index l i = .ok q ↔ p.address ≠ 0 ∧ q.pointee = p.pointee ∧
      block q.address = block p.address ∧
        (offset q.address : Int) = offset p.address + i.toInt * signedWord s.size := by
  have hsize : l.sizeOf p.pointee = .ok s.size := by rw [Layouts.sizeOf, hs]
  generalize hd : i.toInt * signedWord s.size = d
  have hshift (c : UInt64) := shift_ok_iff (a := p.address) (c := c) (d := d)
  simp only [index, hsize, hd]
  split
  · constructor
    · intro h
      cases hmoved : shift p.address d with
      | error e =>
        rw [hmoved] at h
        cases h
      | ok c =>
        rw [hmoved] at h
        cases h
        obtain ⟨hnull, hblock, hoffset⟩ := (hshift c).mp hmoved
        exact ⟨hnull, rfl, hblock, hoffset⟩
    · rintro ⟨hnull, hpointee, hblock, hoffset⟩
      rw [(hshift q.address).mpr ⟨hnull, hblock, hoffset⟩, ← hpointee]
  · next hword =>
    constructor
    · intro h
      cases h
    · rintro ⟨_, _, _, hoffset⟩
      have hp := offset_lt p.address
      have hq := offset_lt q.address
      unfold half at hp hq
      omega

/-- Indexing fails at the pointer from which it starts. -/
theorem index_error (hs : l.shape p.pointee = .ok s) (hp : p.address ≠ 0) {e : RuntimeError}
    (h : p.index l i = .error e) : e = .memory (.invalidAddress p.address) := by
  have hsize : l.sizeOf p.pointee = .ok s.size := by rw [Layouts.sizeOf, hs]
  simp only [index, hsize] at h
  split at h
  · cases hmoved : shift p.address (i.toInt * signedWord s.size) with
    | ok c =>
      rw [hmoved] at h
      cases h
    | error e' =>
      rw [hmoved] at h
      cases h
      rw [shift_error hp hmoved]
  · cases h
    rfl

theorem exists_shape (h : p.index l i = .ok q) : ∃ s, l.shape p.pointee = .ok s := by
  unfold index Layouts.sizeOf at h
  cases hs : l.shape p.pointee with
  | ok s => exact ⟨s, rfl⟩
  | error e =>
    rw [hs] at h
    cases h

/-- No index leads to another block. -/
theorem block_of_index (h : p.index l i = .ok q) : block q.address = block p.address := by
  obtain ⟨s, hs⟩ := exists_shape h
  exact ((index_ok_iff hs).mp h).2.2.1

/-- An index whose distance is small can be negated, unless all distances are zero. -/
theorem neg_mul_of_lt {i : Int64} {k : Int} (h : (i.toInt * k).natAbs < 2 ^ 63) :
    (-i).toInt * k = -(i.toInt * k) := by
  by_cases hk : k = 0
  · rw [hk, Int.mul_zero, Int.mul_zero, Int.neg_zero]
  have hle : i.toInt.natAbs ≤ (i.toInt * k).natAbs := by
    rw [Int.natAbs_mul]
    exact Nat.le_mul_of_pos_right _ (Int.natAbs_pos.mpr hk)
  rw [Int64.toInt_neg, Int.bmod_eq_of_le (by omega) (by omega), Int.neg_mul]

/-- The opposite index leads back. -/
theorem index_neg (hp : 0 < block p.address) (h : p.index l i = .ok q) :
    q.index l (-i) = .ok p := by
  obtain ⟨s, hs⟩ := exists_shape h
  obtain ⟨_, hpointee, hblock, hoffset⟩ := (index_ok_iff hs).mp h
  refine (index_ok_iff (hpointee ▸ hs)).mpr
    ⟨ne_zero_of_block (hblock ▸ hp), hpointee.symm, hblock.symm, ?_⟩
  have hpl := offset_lt p.address
  have hql := offset_lt q.address
  unfold half at hpl hql
  rw [neg_mul_of_lt (by omega)]
  omega

/-! ## Arrays -/

/-- An index of an array of `n` elements. -/
def IndexBelow (n : Nat) (i : Int64) : Prop := 0 ≤ i.toInt ∧ i.toInt < n

/-- The pointer points to the start of a live block with room for exactly `n` values. -/
structure Spans (p : Pointer) (l : Layouts) (s : Shape) (n : Nat) (m : Memory) (b : Block) :
    Prop where
  shape : l.shape p.pointee = .ok s
  pos : 0 < s.size
  offset : offset p.address = 0
  block : m.blocks.get? (block p.address) = some b
  size : b.size = s.size * n
  small : s.size * n < half

/-- What can be done with an array of `n` values of a shape. -/
structure IsArray (p : Pointer) (l : Layouts) (s : Shape) (n : Nat) (m : Memory) : Prop where
  /-- Every element can be reached and has a value. -/
  element : ∀ i, IndexBelow n i → ∃ q v, p.index l i = .ok q ∧ q.load m l = .ok v
  /-- An element takes what its shape takes; other elements and other blocks stay. -/
  store : ∀ i q v w, IndexBelow n i → p.index l i = .ok q → s.coerce v = .ok w →
    ∃ m', q.store m l v = .ok m' ∧
      (∀ j r, IndexBelow n j → p.index l j = .ok r →
        r.load m' l = if j = i then .ok w else r.load m l) ∧
      ∀ b, b ≠ Address.block p.address → m'.blocks.get? b = m.blocks.get? b
  /-- What the shape refuses is not stored. -/
  refused : ∀ i q v e, IndexBelow n i → p.index l i = .ok q → s.coerce v = .error e →
    q.store m l v = .error e
  /-- There is no other element. -/
  outside : ∀ i, ¬ IndexBelow n i →
    p.index l i = .error (.memory (.invalidAddress p.address)) ∨
      ∃ q, p.index l i = .ok q ∧ q.load m l = .error (.memory (.invalidAddress q.address)) ∧
        ∀ v, q.store m l v = .error (.memory (.invalidAddress q.address))

/-- The pointer `q` points to element `k` of an array. -/
structure Element (q : Pointer) (l : Layouts) (s : Shape) (k : Nat) (m : Memory) (b : Block) :
    Prop where
  shape : l.shape q.pointee = .ok s
  block : m.blocks.get? (Address.block q.address) = some b
  offset : Address.offset q.address = k * s.size
  inside : Address.offset q.address + s.size ≤ b.size

namespace Element

variable {q r : Pointer} {l : Layouts} {s : Shape} {k k' : Nat} {m m' : Memory} {b : Block}
  {v w : Value}

theorem load_eq (h : q.Element l s k m b) :
    q.load m l = .ok (s.decode (b.bytes.read (k * s.size) s.size)) := by
  have hread := Memory.read_of_live (n := s.size) h.block
  rw [if_pos h.inside, h.offset] at hread
  simp only [load, h.shape, Memory.load, hread]

theorem store_eq (h : q.Element l s k m b) {bytes : Bytes} (hbytes : s.encode v = .ok bytes) :
    q.store m l v =
      .ok (m.setBlock (Address.block q.address) (some (b.put (k * s.size) bytes))) := by
  rw [store, h.shape, ← h.offset]
  exact Memory.store_of_fits h.block h.inside hbytes

/-- A store changes this element only. -/
theorem load_stored (h : q.Element l s k m b) (hr : r.Element l s k' m b)
    (hsame : Address.block r.address = Address.block q.address) (hstore : q.store m l v = .ok m')
    (hw : s.coerce v = .ok w) :
    r.load m' l = if k' = k then .ok w else r.load m l := by
  obtain ⟨bytes, hbytes, hdecode⟩ := Shape.exists_encode_of_coerce hw
  have hlength := Shape.length_of_encode hbytes
  cases (h.store_eq hbytes).symm.trans hstore
  have hput : (m.setBlock (Address.block q.address)
      (some (b.put (k * s.size) bytes))).blocks.get? (Address.block r.address) =
        some (b.put (k * s.size) bytes) := by
    rw [Memory.get?_setBlock h.block, if_pos hsame]
  have hafter : r.Element l s k' _ (b.put (k * s.size) bytes) :=
    ⟨hr.shape, hput, hr.offset, hr.inside⟩
  rw [hafter.load_eq, hr.load_eq]
  split
  · next heq =>
    have hread := b.bytes.read_write (k * s.size) bytes
    rw [hlength] at hread
    rw [heq, Block.put, hread, hdecode]
  · next hne =>
    -- one of the two lies behind the other
    have hapart : k' * s.size + s.size ≤ k * s.size ∨ k * s.size + bytes.length ≤ k' * s.size := by
      rw [hlength, ← Nat.succ_mul, ← Nat.succ_mul]
      rcases Nat.lt_or_gt_of_ne hne with hlt | hlt
      · exact .inl (Nat.mul_le_mul_right _ hlt)
      · exact .inr (Nat.mul_le_mul_right _ hlt)
    rw [Block.put, b.bytes.read_write_apart hapart]

end Element

namespace Spans

variable {p q r : Pointer} {l : Layouts} {s : Shape} {n : Nat} {b : Block} {m : Memory}
  {i j : Int64} {v w : Value}

theorem ne_zero (h : p.Spans l s n m b) : p.address ≠ 0 :=
  ne_zero_of_block (Memory.bounds_of_get? h.block).1

/-- The size of an element is no longer than that of all, and fits a word. -/
theorem signedWord_size (h : p.Spans l s n m b) (hn : 0 < n) : signedWord s.size = s.size := by
  have hle : s.size ≤ s.size * n := Nat.le_mul_of_pos_right _ hn
  have hsmall := h.small
  unfold half at hsmall
  unfold signedWord
  rw [Int.bmod_eq_of_le (by omega) (by omega)]

/-- Element `i` lies `i` sizes behind the start. -/
theorem exists_element (h : p.Spans l s n m b) (hi : IndexBelow n i) :
    ∃ q, p.index l i = .ok q ∧ Address.block q.address = Address.block p.address ∧
      q.Element l s i.toInt.toNat m b := by
  obtain ⟨k, hk⟩ := Int.eq_ofNat_of_zero_le hi.1
  have hlt : k < n := by
    have hhigh := hi.2
    omega
  have hroom : k * s.size + s.size ≤ s.size * n := by
    rw [← Nat.succ_mul, Nat.mul_comm s.size]
    exact Nat.mul_le_mul_right _ hlt
  have hsmall := h.small
  have hpos := h.pos
  obtain ⟨hblock, hoffset⟩ :=
    block_offset_join (block_lt p.address) (o := k * s.size) (by omega)
  let q : Pointer := ⟨UInt64.ofNat (Address.block p.address * half + k * s.size), p.pointee⟩
  have hindex : p.index l i = .ok q := by
    refine (index_ok_iff h.shape).mpr ⟨h.ne_zero, rfl, hblock, ?_⟩
    rw [hoffset, h.offset, hk, h.signedWord_size (by omega)]
    simp
  refine ⟨q, hindex, hblock, ?_⟩
  rw [hk, Int.toNat_natCast]
  exact ⟨h.shape, hblock ▸ h.block, hoffset, by rw [hoffset, h.size]; exact hroom⟩

theorem element_of_index (h : p.Spans l s n m b) (hi : IndexBelow n i)
    (hq : p.index l i = .ok q) :
    Address.block q.address = Address.block p.address ∧ q.Element l s i.toInt.toNat m b := by
  obtain ⟨q', hq', hsame⟩ := h.exists_element hi
  cases hq'.symm.trans hq
  exact hsame

/-- Behind the last element, or before the first, no element fits the block. -/
theorem not_fits (h : p.Spans l s n m b) (hi : ¬ IndexBelow n i) (hq : p.index l i = .ok q) :
    b.size < Address.offset q.address + s.size := by
  obtain ⟨_, _, _, hoffset⟩ := (index_ok_iff h.shape).mp hq
  have hpos := h.pos
  rw [h.size]
  rcases Nat.eq_zero_or_pos n with rfl | hn
  · omega
  rw [h.offset, h.signedWord_size hn] at hoffset
  have hoffset : (Address.offset q.address : Int) = i.toInt * s.size := by omega
  have hlow : 0 ≤ i.toInt := by
    refine Int.not_lt.mp fun hneg => ?_
    have hnegative := Int.mul_neg_of_neg_of_pos hneg (Int.natCast_pos.mpr hpos)
    omega
  have hhigh : (n : Int) ≤ i.toInt := Int.not_lt.mp fun hlt => hi ⟨hlow, hlt⟩
  have hmul : (n : Int) * s.size ≤ i.toInt * s.size :=
    Int.mul_le_mul_of_nonneg_right hhigh (Int.natCast_nonneg _)
  have hcomm : ((s.size * n : Nat) : Int) = n * s.size := by
    rw [Int.natCast_mul, Int.mul_comm]
  omega

theorem isArray (h : p.Spans l s n m b) : p.IsArray l s n m where
  element i hi := by
    obtain ⟨q, hq, _, helement⟩ := h.exists_element hi
    exact ⟨q, _, hq, helement.load_eq⟩
  store i q v w hi hq hw := by
    obtain ⟨hsame, helement⟩ := h.element_of_index hi hq
    obtain ⟨bytes, hbytes, _⟩ := Shape.exists_encode_of_coerce hw
    have hstore := helement.store_eq hbytes
    refine ⟨_, hstore, fun j r hj hr => ?_, fun b' hb' => ?_⟩
    · obtain ⟨hsame', helement'⟩ := h.element_of_index hj hr
      rw [helement.load_stored helement' (hsame'.trans hsame.symm) hstore hw]
      have hiff : j.toInt.toNat = i.toInt.toNat ↔ j = i := by
        have hlow := hi.1
        have hlow' := hj.1
        rw [← Int64.toInt_inj]
        omega
      simp only [hiff]
    · rw [Memory.get?_setBlock helement.block, if_neg (hsame.symm ▸ hb')]
  refused i q v e hi hq he := by
    obtain ⟨_, helement⟩ := h.element_of_index hi hq
    have hat := Memory.blockAt_of_fits helement.block helement.inside
    simp only [Pointer.store, helement.shape, Memory.store, hat, Shape.encode_error_of_coerce he]
  outside i hi := by
    cases hq : p.index l i with
    | error e => exact .inl (congrArg _ (index_error h.shape h.ne_zero hq))
    | ok q =>
      obtain ⟨_, hpointee, hblock, _⟩ := (index_ok_iff h.shape).mp hq
      have hout : ¬ Address.offset q.address + s.size ≤ b.size :=
        Nat.not_le_of_lt (h.not_fits hi hq)
      have hshape : l.shape q.pointee = .ok s := hpointee ▸ h.shape
      have hne : q.address ≠ 0 := ne_zero_of_block (hblock ▸ (Memory.bounds_of_get? h.block).1)
      have hat : m.blockAt q.address s.size = .error (.invalidAddress q.address) := by
        simp only [Memory.blockAt, hne, if_false, hblock, h.block, hout]
      refine .inr ⟨q, rfl, ?_, fun v => ?_⟩
      · simp only [Pointer.load, hshape, Memory.load, Memory.read, hat]
      · simp only [Pointer.store, hshape, Memory.store, hat]

/-- An array lasts as long as its block lives, whatever else is done to the memory. -/
theorem of_evolves (h : p.Spans l s n m b) {m' : Memory} (hm : m.Evolves m')
    (hlive : m'.Live (Address.block p.address)) : ∃ b', p.Spans l s n m' b' := by
  obtain ⟨b', hb', hsize⟩ := hm.size_of_live h.block hlive
  exact ⟨b', h.shape, h.pos, h.offset, hb', hsize.trans h.size, h.small⟩

end Spans

/-- If the elements take no bytes, the index behind the last one leads to a value too. -/
theorem not_isArray_of_size_eq_zero {l : Layouts} {p : Pointer} {s : Shape} {m : Memory}
    (hs : l.shape p.pointee = .ok s) (hsize : s.size = 0) (hp : p.address ≠ 0) :
    ¬ p.IsArray l s 1 m := by
  intro h
  have hword : signedWord s.size = 0 := by
    rw [hsize]
    decide
  have hindex (i : Int64) : p.index l i = .ok p :=
    (index_ok_iff hs).mpr ⟨hp, rfl, rfl, by rw [hword, Int.mul_zero, Int.add_zero]⟩
  obtain ⟨q, v, hq, hv⟩ := h.element 0 (by unfold IndexBelow; decide)
  cases (hindex 0).symm.trans hq
  obtain he | ⟨q, hq, he, -⟩ := h.outside 1 (by unfold IndexBelow; decide)
  · cases (hindex 1).symm.trans he
  · cases (hindex 1).symm.trans hq
    cases hv.symm.trans he

end Pointer

/-! ## Instructions -/

namespace Machine

open ForeignVM.Action

variable {σ τ : Type} (m : Machine σ) (watch : Observer τ) {ty : TypeId} {s : Shape}
  {count : UInt32} {st : State σ τ}

/-- What allocating `count` values of a type does. -/
structure GivesArray (ty : TypeId) (s : Shape) (count : UInt32) (st : State σ τ) : Prop where
  /-- A block has at most `2 ^ 32 - 1` bytes. A product that is no word is reported as the greatest
  word. -/
  tooLarge : 2 ^ 32 - 1 < s.size * count.toNat → ∀ ip next,
    m.step watch ⟨.malloc ty count, ip, next⟩ st =
      .error (.memory (.allocationTooLarge (if s.size * count.toNat < 2 ^ 64
        then s.size * count.toNat else 2 ^ 64 - 1))) st
  /-- The pointer to a block of its own is an array of zeros, and an array as long as the block
  lives. -/
  array : s.size * count.toNat ≤ 2 ^ 32 - 1 → ∃ p memory,
    (∀ ip next, m.step watch ⟨.malloc ty count, ip, next⟩ st = .ok none
      { st with
        memory := memory
        trace := watch (.allocated p.address (s.size * count.toNat)) st.trace
        operands := st.operands.push (.pointer p) }) ∧
    p.pointee = ty ∧ ¬ st.memory.Live (block p.address) ∧ memory.Live (block p.address) ∧
    (∀ b, b ≠ block p.address → memory.blocks.get? b = st.memory.blocks.get? b) ∧
    (∀ i q, Pointer.IndexBelow count.toNat i → p.index m.layouts i = .ok q →
      q.load memory m.layouts = .ok s.zero) ∧
    ∀ later, memory.Evolves later → later.Live (block p.address) →
      p.IsArray m.layouts s count.toNat later

theorem step_malloc (ip next : UInt32) :
    m.step watch ⟨.malloc ty count, ip, next⟩ st =
      match m.allocationSize ty count with
      | .error e => .error e st
      | .ok size =>
        match st.memory.alloc size with
        | .error e => .error (.memory e) st
        | .ok (a, memory) => .ok none
          { st with
            memory := memory
            trace := watch (.allocated a size) st.trace
            operands := st.operands.push (.pointer ⟨a, ty⟩) } := by
  change (m.malloc watch ty count >>= fun _ => pure none) st = _
  unfold malloc
  cases m.allocationSize ty count with
  | error e => rfl
  | ok size =>
    simp only [ofResult_ok, bind_run, pure_run, allocate_run]
    cases st.memory.alloc size <;> rfl

theorem givesArray {t : TypeTable} (hl : Layouts.compute t = .ok m.layouts)
    (hs : m.layouts.shape ty = .ok s) (hbounded : s.bounded) (hroom : st.memory.next < half) :
    m.GivesArray watch ty s count st := by
  have hsize : m.layouts.sizeOf ty = .ok s.size := by rw [Layouts.sizeOf, hs]
  refine ⟨fun hlarge ip next => ?_, fun hsmall => ?_⟩
  · rw [step_malloc, allocationSize, hsize]
    dsimp only
    by_cases hword : s.size * count.toNat < 2 ^ 64
    · have halloc : st.memory.alloc (s.size * count.toNat) =
          .error (.allocationTooLarge (s.size * count.toNat)) :=
        if_pos (.inl (by unfold half; omega))
      simp only [if_pos hword, halloc]
    · simp only [if_neg hword]
  · obtain ⟨memory, halloc⟩ : ∃ memory, st.memory.alloc (s.size * count.toNat) =
        .ok (ofBlock st.memory.next, memory) :=
      ⟨_, if_neg (by unfold half at *; omega)⟩
    obtain ⟨_, hadds⟩ := Memory.alloc_ok halloc
    obtain ⟨_, hcell⟩ := Memory.alloc_block halloc
    have hblock := block_ofBlock hroom
    let p : Pointer := ⟨ofBlock st.memory.next, ty⟩
    have hspans : p.Spans m.layouts s count.toNat memory ⟨s.size * count.toNat, .empty⟩ :=
      { shape := hs
        pos := Layouts.size_pos_of_compute hl ty s hs hbounded
        offset := offset_ofBlock hroom
        block := hblock ▸ hcell
        size := rfl
        small := by unfold half; omega }
    refine ⟨p, memory, fun ip next => ?_, rfl, ?_, ?_, fun b hb => ?_, fun i q hi hq => ?_,
      fun later hlater hlive => ?_⟩
    · have hword : s.size * count.toNat < 2 ^ 64 := by omega
      rw [step_malloc, allocationSize, hsize]
      simp only [if_pos hword, halloc]
      rfl
    · rw [hblock, Memory.not_live_iff]
      exact st.memory.unused_absent _ (Nat.le_refl _)
    · exact (hadds.live _).mpr (.inl hblock)
    · rw [Memory.get?_alloc halloc, if_neg (hblock ▸ hb)]
    · rw [(hspans.element_of_index hi hq).2.load_eq, ByteStore.read_empty]
      rfl
    · obtain ⟨b, hb⟩ := hspans.of_evolves hlater hlive
      exact hb.isArray

/-- How instructions reach the elements of an array of a type. No failure changes the memory. -/
structure ReachesElements (ty : TypeId) : Prop where
  index : ∀ (st : State σ τ) (p : Pointer) (v : Value) (i : Int64) (ip next : UInt32),
    st.calls.base ≤ st.operands.height → v.int64? = some i →
      m.step watch ⟨.ptrIndex ty, ip, next⟩
          { st with operands := (st.operands.push (.pointer p)).push v } =
        match Pointer.index ⟨p.address, ty⟩ m.layouts i with
        | .ok q => .ok none { st with operands := st.operands.push (.pointer q) }
        | .error e => .error e st
  load : ∀ (st : State σ τ) (p : Pointer) (ip next : UInt32),
    st.calls.base ≤ st.operands.height →
      m.step watch ⟨.load ty, ip, next⟩ { st with operands := st.operands.push (.pointer p) } =
        match Pointer.load ⟨p.address, ty⟩ st.memory m.layouts with
        | .ok v => .ok none { st with operands := st.operands.push v }
        | .error e => .error e st
  store : ∀ (st : State σ τ) (p : Pointer) (v : Value) (ip next : UInt32),
    st.calls.base ≤ st.operands.height →
      m.step watch ⟨.store ty, ip, next⟩
          { st with operands := (st.operands.push (.pointer p)).push v } =
        match Pointer.store ⟨p.address, ty⟩ st.memory m.layouts v with
        | .ok memory => .ok none { st with memory := memory }
        | .error e => .error e st

theorem pop_push_push (ip : UInt32) {v w : Value} (hst : st.calls.base ≤ st.operands.height) :
    pop ip { st with operands := (st.operands.push v).push w } =
      .ok w { st with operands := st.operands.push v } :=
  pop_push (s := { st with operands := st.operands.push v }) ip (Nat.le_succ_of_le hst)

theorem reachesElements (ty : TypeId) : m.ReachesElements watch ty where
  index st p v i ip next hst hi := by
    change (m.ptrIndex ip ty >>= fun _ => pure none) _ = _
    have hrun : m.ptrIndex ip ty { st with operands := (st.operands.push (.pointer p)).push v } =
        match Pointer.index ⟨p.address, ty⟩ m.layouts i with
        | .ok q => .ok () { st with operands := st.operands.push (.pointer q) }
        | .error e => .error e st := by
      change (pop ip >>= _) _ = _
      rw [bind_ok (pop_push_push ip hst), hi]
      change (popPointer ip >>= _) _ = _
      rw [bind_ok (popPointer_push ip hst)]
      cases Pointer.index ⟨p.address, ty⟩ m.layouts i <;> rfl
    rw [bind_run, hrun]
    cases Pointer.index ⟨p.address, ty⟩ m.layouts i <;> rfl
  load st p ip next hst := by
    change ((popPointer ip >>= fun p => m.shape ty >>= fun s => Action.load p.address s >>= push)
      >>= fun _ => pure none) _ = _
    rw [bind_run, bind_ok (popPointer_push ip hst), Pointer.load, shape]
    cases m.layouts.shape ty with
    | error e => rfl
    | ok s =>
      rw [check_ok, bind_run, pure_run]
      dsimp only
      rw [bind_run, load_run]
      cases st.memory.load p.address s <;> rfl
  store st p v ip next hst := by
    change ((pop ip >>= fun v => popPointer ip >>= fun p => m.shape ty >>= fun s =>
      Action.store p.address s v) >>= fun _ => pure none) _ = _
    rw [bind_run, bind_ok (pop_push_push ip hst), bind_ok (popPointer_push ip hst), Pointer.store,
      shape]
    cases m.layouts.shape ty with
    | error e => rfl
    | ok s =>
      rw [check_ok, bind_run, pure_run]
      dsimp only
      rw [store_run]
      cases st.memory.store p.address s v <;> rfl

end Machine

/-- In a machine whose types are laid out, allocation and pointer arithmetic give arrays of every
type that takes less than 2⁶⁴ bytes: every index of an array has its own value, and no other index
has one. Pointer arithmetic never leaves a block and can be undone. -/
theorem malloc_gives_array {σ τ : Type} (m : Machine σ) (watch : Observer τ) {t : TypeTable}
    (hl : Layouts.compute t = .ok m.layouts) :
    (∀ ty s, m.layouts.shape ty = .ok s → s.bounded → ∀ (count : UInt32) (st : State σ τ),
      st.memory.next < half → m.GivesArray watch ty s count st) ∧
    (∀ ty, m.ReachesElements watch ty) ∧
    (∀ (p q : Pointer) (i : Int64), 0 < block p.address → p.index m.layouts i = .ok q →
      q.index m.layouts (-i) = .ok p) ∧
    ∀ (p q : Pointer) (i : Int64), p.index m.layouts i = .ok q →
      block q.address = block p.address :=
  ⟨fun _ _ hs hbounded _ _ hroom => m.givesArray watch hl hs hbounded hroom,
    m.reachesElements watch, fun _ _ _ => Pointer.index_neg, fun _ _ _ => Pointer.block_of_index⟩

/-- Three integers in a new memory, and a block that would be one byte too long. -/
theorem malloc_gives_array_of_integers : ∃ (m : Machine Unit) (st : State Unit Unit),
    Layouts.compute ⟨#[.scalar .i32]⟩ = .ok m.layouts ∧
      (∃ p memory, p.IsArray m.layouts (.scalar .i32) 3 memory ∧
        m.step .silent ⟨.malloc (.ofPosition 0) 3, 0, 7⟩ st = .ok none
          { st with memory := memory, operands := st.operands.push (.pointer p) }) ∧
      m.step .silent ⟨.malloc (.ofPosition 0) 0x40000000, 0, 7⟩ st =
        .error (.memory (.allocationTooLarge 0x100000000)) st := by
  let m : Machine Unit := ⟨⟨#[], .empty, ⟨#[.scalar .i32]⟩, #[], [], #[], none⟩,
    ⟨⟨#[.scalar .i32]⟩, #[.scalar .i32]⟩, #[], #[], .standard⟩
  let st : State Unit Unit := .idle .empty .empty () ()
  have hl : Layouts.compute ⟨#[.scalar .i32]⟩ = .ok m.layouts := rfl
  obtain ⟨hmalloc, _⟩ := malloc_gives_array m (Observer.silent : Observer Unit) hl
  have hmalloc (count : UInt32) :=
    hmalloc (.ofPosition 0) (.scalar .i32) rfl rfl count st (by decide)
  obtain ⟨p, memory, hstep, _, _, hlive, _, _, harray⟩ := (hmalloc 3).array (by decide)
  exact ⟨m, st, hl, ⟨p, memory, harray memory .refl hlive, hstep 0 7⟩,
    (hmalloc 0x40000000).tooLarge (by decide) 0 7⟩

/-- The size of the last type of the table has wrapped around to zero. It is allocated, but it is no
array. -/
theorem no_array_of_doubled : ∃ (m : Machine Unit) (s : Shape) (st : State Unit Unit),
    Layouts.compute .doubled = .ok m.layouts ∧ m.layouts.shape (.ofPosition 64) = .ok s ∧
      st.memory.next < half ∧
      (∃ t, m.step .silent ⟨.malloc (.ofPosition 64) 1, 0, 7⟩ st = .ok none t) ∧
      ¬ m.GivesArray .silent (.ofPosition 64) s 1 st := by
  have hzero : (Layouts.compute .doubled).map (fun l => (l.sizeOf (.ofPosition 64)).toOption) =
      .ok (some 0) := by decide +kernel
  cases hl : Layouts.compute .doubled with
  | error e =>
    rw [hl] at hzero
    cases hzero
  | ok l =>
    rw [hl] at hzero
    have hzero : (l.sizeOf (.ofPosition 64)).toOption = some 0 := Except.ok.inj hzero
    cases hs : l.shape (.ofPosition 64) with
    | error e => simp [Layouts.sizeOf, hs, Except.toOption] at hzero
    | ok s =>
      have hsize : s.size = 0 := by simpa [Layouts.sizeOf, hs, Except.toOption] using hzero
      let m : Machine Unit := ⟨⟨#[], .empty, .doubled, #[], [], #[], none⟩, l, #[], #[], .standard⟩
      let st : State Unit Unit := .idle .empty .empty () ()
      refine ⟨m, s, st, rfl, hs, by decide, ?_, fun h => ?_⟩
      · have halloc : m.allocationSize (.ofPosition 64) 1 = .ok 0 := by
          simp [Machine.allocationSize, Layouts.sizeOf, hs, hsize, m]
        rw [m.step_malloc, halloc]
        exact ⟨_, rfl⟩
      · obtain ⟨p, memory, -, hty, -, hlive, -, -, harray⟩ := h.array (by rw [hsize]; decide)
        exact Pointer.not_isArray_of_size_eq_zero (hty ▸ hs) hsize (ne_zero_of_block hlive.pos)
          (harray memory .refl hlive)

end ForeignVM
