import ForeignVM.Proofs.Arrays
import ForeignVM.Proofs.Sizes
import ForeignVM.Proofs.Slots

/-!
# ForeignVM.Proofs.Derived

Pointers that are made from the address of a local, or from an allocation, by going to fields and
to other elements. All of them are aligned for what they point to. If only fields have been gone
to, they point into the block, so they can be used as long as it lives.

* `Pointer.Aligned`, `Lies`  — kept by fields and indices, and by fields.
* `Machine.Origin`, `Derived` — where pointers come from.
* `Machine.Usable`           — what can be done with a pointer into a block.
* `derived_pointers`         — what is true of all of them.
-/

namespace ForeignVM

open Address

/-! ## Alignments -/

/-- Of two alignments, the greater is a multiple of the other. -/
theorem align_dvd_of_le {a b : Nat} (ha : a ∣ wordSize) (hb : b ∣ wordSize) (h : a ≤ b) :
    a ∣ b := by
  have hall : ∀ a < 9, ∀ b < 9, a ∣ 8 → b ∣ 8 → a ≤ b → a ∣ b := by decide
  have hbound {n : Nat} (hn : n ∣ wordSize) : n < 9 :=
    Nat.lt_succ_of_le (Nat.le_of_dvd (by decide) hn)
  exact hall a (hbound ha) b (hbound hb) ha hb h

/-- A multiple of an alignment is one also as a signed word. -/
theorem dvd_signedWord {a n : Nat} (ha : a ∣ wordSize) (h : a ∣ n) : (a : Int) ∣ signedWord n := by
  have hword : (a : Int) ∣ ((2 ^ 64 : Nat) : Int) :=
    Int.natCast_dvd_natCast.mpr (Nat.dvd_trans ha (by decide))
  have hdiff : (a : Int) ∣ signedWord n - n := Int.dvd_trans hword Int.dvd_bmod_sub_self
  have hn : (a : Int) ∣ n := Int.natCast_dvd_natCast.mpr h
  have hsum := Int.dvd_add hdiff hn
  rwa [Int.sub_add_cancel] at hsum

theorem Slot.align_dvd_position {slot : Slot} {a : Nat} (ha : a ∣ wordSize)
    (h : a ∣ slot.offset) : a ∣ slot.position := by
  have hword := dvd_signedWord ha h
  unfold position
  rcases Int.le_total 0 (signedWord slot.offset) with hle | hle
  · rw [← Int.natCast_dvd_natCast, Int.toNat_of_nonneg hle]
    exact hword
  · rw [Int.toNat_of_nonpos hle]
    exact Nat.dvd_zero _

/-! ## Pointers -/

namespace Layouts.Conforms

variable {l : Layouts} {t : TypeTable} {id : TypeId} {name : String} {kind : AggregateKind}
  {fields : OrderedMap TypeId} {layout : AggregateLayout} {f : FieldLayout}

/-- The alignment of a field divides that of the aggregate. -/
theorem align_dvd_of_mem (h : l.Conforms id name kind fields layout) (hl : compute t = .ok l)
    (hf : f ∈ layout.fields) : f.shape.align ∣ layout.align := by
  have hword {g : FieldLayout} (hg : g ∈ layout.fields) : g.shape.align ∣ wordSize :=
    align_dvd_word hl g.ty g.shape (h.shape g hg)
  obtain ⟨g, hg, halign⟩ := h.align.1
  exact align_dvd_of_le (hword hf) (halign ▸ hword hg) (h.align.2 ⟨f, hf, rfl⟩)

end Layouts.Conforms

namespace Pointer

variable {l : Layouts} {t : TypeTable} {p q : Pointer} {s : Shape} {i : UInt16} {size : Nat}

/-- The pointer is aligned for what it points to. -/
structure Aligned (p : Pointer) (l : Layouts) (s : Shape) : Prop where
  shape : l.shape p.pointee = .ok s
  align : s.align ∣ offset p.address

/-- The pointee lies in a block of this size. -/
structure Lies (p : Pointer) (l : Layouts) (s : Shape) (size : Nat) : Prop where
  shape : l.shape p.pointee = .ok s
  bounded : s.bounded
  pos : 0 < block p.address
  small : size < half
  inside : offset p.address + s.size ≤ size

/-- What going to a field does to a pointer. -/
theorem field_cases (hl : Layouts.compute t = .ok l) (hs : l.shape p.pointee = .ok s)
    (h : p.field l i = .ok q) :
    ∃ id name kind fields layout f, s = .aggregate layout ∧
      l.Conforms id name kind fields layout ∧ layout.field i = .ok f ∧ f ∈ layout.fields ∧
      q.pointee = f.ty ∧ l.shape f.ty = .ok f.shape ∧ block q.address = block p.address ∧
      (offset q.address : Int) = offset p.address + signedWord f.offset := by
  unfold field at h
  rw [hs] at h
  cases s with
  | aggregate layout =>
    obtain ⟨kind, name, fields, -, hconforms⟩ := Layouts.exists_conforms hl hs
    dsimp only at h
    cases hf : layout.field i with
    | error e =>
      rw [hf] at h
      cases h
    | ok f =>
      have hmem := Aggregated.mem_of_field hf
      rw [hf] at h
      dsimp only at h
      cases ha : advance p.address f.offset with
      | error e =>
        rw [ha] at h
        cases h
      | ok address =>
        rw [ha] at h
        cases h
        obtain ⟨-, hblock, hoffset⟩ := shift_ok_iff.mp ha
        exact ⟨_, name, kind, fields, layout, f, rfl, hconforms, hf, hmem, rfl,
          hconforms.shape f hmem, hblock, hoffset⟩
  | _ => cases h

/-- An offset that is moved by a multiple of the alignment stays one. -/
theorem dvd_of_moved {a o o' : Nat} {d : Int} (ho : a ∣ o) (hd : (a : Int) ∣ d)
    (h : (o' : Int) = o + d) : a ∣ o' := by
  rw [← Int.natCast_dvd_natCast, h]
  exact Int.dvd_add (Int.natCast_dvd_natCast.mpr ho) hd

theorem Aligned.field (h : p.Aligned l s) (hl : Layouts.compute t = .ok l)
    (hq : p.field l i = .ok q) : ∃ s', q.Aligned l s' := by
  obtain ⟨_, _, _, _, layout, f, rfl, hconforms, -, hmem, hpointee, hshape, -, hoffset⟩ :=
    field_cases hl h.shape hq
  have hlayout := hconforms.align_dvd_of_mem hl hmem
  have hplace := (hconforms.align_dvd hl).2 f hmem
  have hword := Layouts.align_dvd_word hl f.ty f.shape hshape
  exact ⟨f.shape, hpointee ▸ hshape,
    dvd_of_moved (Nat.dvd_trans hlayout h.align) (dvd_signedWord hword hplace) hoffset⟩

theorem Aligned.index (h : p.Aligned l s) (hl : Layouts.compute t = .ok l) {k : Int64}
    (hq : p.index l k = .ok q) : q.Aligned l s := by
  obtain ⟨-, hpointee, -, hoffset⟩ := (index_ok_iff h.shape).mp hq
  have hword := Layouts.align_dvd_word hl p.pointee s h.shape
  have hsize := (Layouts.power_of_compute hl p.pointee s h.shape).2
  exact ⟨hpointee ▸ h.shape,
    dvd_of_moved h.align (Int.dvd_mul_of_dvd_right (dvd_signedWord hword hsize)) hoffset⟩

/-- A field lies where the aggregate lies. -/
theorem Lies.field (h : p.Lies l s size) (hl : Layouts.compute t = .ok l)
    (hq : p.field l i = .ok q) :
    block q.address = block p.address ∧ ∃ s', q.Lies l s' size := by
  obtain ⟨_, _, _, _, layout, f, rfl, hconforms, -, hmem, hpointee, hshape, hblock, hoffset⟩ :=
    field_cases hl h.shape hq
  have hbounded := h.bounded
  rw [Shape.bounded] at hbounded
  have hinside := (hconforms.arranged hbounded).inside f hmem
  have hroom : offset p.address + layout.size ≤ size := h.inside
  have hsmall := h.small
  unfold half at hsmall
  have hword : signedWord f.offset = f.offset := by
    unfold signedWord
    rw [Int.bmod_eq_of_le] <;> omega
  rw [hword] at hoffset
  exact ⟨hblock, f.shape, hpointee ▸ hshape, Aggregated.bounded_of_mem hbounded hmem,
    hblock ▸ h.pos, h.small, by omega⟩

/-- Every field that the pointee has can be gone to. -/
theorem Lies.exists_field (h : p.Lies l s size) (hl : Layouts.compute t = .ok l) {name : String}
    {ty : TypeId} (hfield : t.field p.pointee i = .ok (name, ty)) :
    ∃ q, p.field l i = .ok q ∧ q.pointee = ty := by
  have haggregate := hfield
  rw [Layouts.field_of_compute hl, Layouts.aggregate, h.shape] at haggregate
  cases s with
  | aggregate layout =>
    obtain ⟨kind, _, fields, hd, hconforms⟩ := Layouts.exists_conforms hl h.shape
    rw [hconforms.field_eq hd] at hfield
    cases hf : layout.field i with
    | error e =>
      rw [hf] at hfield
      cases hfield
    | ok f =>
      rw [hf] at hfield
      cases hfield
      have hbounded := h.bounded
      rw [Shape.bounded] at hbounded
      have hinside := (hconforms.arranged hbounded).inside f (Aggregated.mem_of_field hf)
      have hroom : offset p.address + layout.size ≤ size := h.inside
      have hsmall := h.small
      obtain ⟨a, ha, -⟩ := Memory.exists_advance (n := f.offset) h.pos (by omega)
      exact ⟨⟨a, f.ty⟩, by simp only [Pointer.field, h.shape, hf, ha], rfl⟩
  | _ => cases haggregate

/-- What lies in a live block has a value. -/
theorem Lies.exists_load (h : p.Lies l s size) {m : Memory} {b : Block}
    (hb : m.blocks.get? (block p.address) = some b) (hsize : b.size = size) :
    ∃ v, p.load m l = .ok v := by
  have hread := Memory.read_of_live (n := s.size) hb
  rw [if_pos (hsize ▸ h.inside)] at hread
  refine ⟨s.decode (b.bytes.read (offset p.address) s.size), ?_⟩
  simp only [load, h.shape, Memory.load, hread]

/-- What lies in a live block takes what its shape takes. -/
theorem Lies.exists_store (h : p.Lies l s size) {m : Memory} {b : Block}
    (hb : m.blocks.get? (block p.address) = some b) (hsize : b.size = size) {v w : Value}
    (hw : s.coerce v = .ok w) : ∃ m', p.store m l v = .ok m' := by
  obtain ⟨bytes, hbytes, -⟩ := Shape.exists_encode_of_coerce hw
  exact ⟨_, by rw [store, h.shape]; exact Memory.store_of_fits hb (hsize ▸ h.inside) hbytes⟩

end Pointer

namespace Machine

open ForeignVM.Action

variable {σ τ : Type} (m : Machine σ) (watch : Observer τ) {s t : State σ τ}

/-! ## Instructions that make pointers -/

section

variable {m watch}

theorem eq_of_popPointer {ip : UInt32} {p q : Pointer}
    (hp : s.operands.values[0]? = some (.pointer p)) (h : popPointer ip s = .ok q t) :
    q = p ∧ t = { s with operands := s.operands.drop 1 } := by
  obtain ⟨v, u, hpop, h⟩ := bind_eq_ok h
  obtain ⟨-, hv, rfl⟩ := pop_ok hpop
  rw [List.head?_eq_getElem?, hp] at hv
  cases hv
  cases h
  exact ⟨rfl, rfl⟩

/-- FIELD_ADDR makes of its operand the pointer to a field. -/
theorem field_of_step {ty : TypeId} {i : UInt16} {ip next : UInt32} {p q : Pointer}
    (hp : s.operands.values[0]? = some (.pointer p))
    (h : m.step watch ⟨.fieldAddr ty i, ip, next⟩ s = .ok none t)
    (hq : t.operands.values[0]? = some (.pointer q)) : p.field m.layouts i = .ok q := by
  obtain ⟨_, u, hperform, h⟩ := bind_eq_ok h
  cases h
  obtain ⟨p', s', hpop, hrest⟩ := bind_eq_ok hperform
  obtain ⟨rfl, rfl⟩ := eq_of_popPointer hp hpop
  split at hrest
  · cases hrest
  · obtain ⟨r, _, hrun, hpush⟩ := bind_eq_ok hrest
    obtain ⟨hfield, rfl⟩ := check_eq_ok hrun
    cases hpush
    cases hq
    exact hfield

/-- PTR_INDEX makes of the operand below its index the pointer to another element. -/
theorem index_of_step {ip next : UInt32} {p q : Pointer}
    (hp : s.operands.values[1]? = some (.pointer p))
    (h : m.step watch ⟨.ptrIndex p.pointee, ip, next⟩ s = .ok none t)
    (hq : t.operands.values[0]? = some (.pointer q)) : ∃ k, p.index m.layouts k = .ok q := by
  obtain ⟨_, u, hperform, h⟩ := bind_eq_ok h
  cases h
  obtain ⟨v, s', hpop, hrest⟩ := bind_eq_ok hperform
  obtain ⟨-, -, rfl⟩ := pop_ok hpop
  cases hk : v.int64? with
  | none =>
    rw [hk] at hrest
    cases hrest
  | some k =>
    rw [hk] at hrest
    obtain ⟨p', s', hpop, hrest⟩ := bind_eq_ok hrest
    have hbelow : (s.operands.drop 1).values[0]? = some (.pointer p) := by
      change (s.operands.values.drop 1)[0]? = _
      rw [List.getElem?_drop]
      exact hp
    obtain ⟨rfl, rfl⟩ := eq_of_popPointer hbelow hpop
    obtain ⟨r, _, hrun, hpush⟩ := bind_eq_ok hrest
    obtain ⟨hindex, rfl⟩ := check_eq_ok hrun
    cases hpush
    cases hq
    exact ⟨k, hindex⟩

/-- LOCAL_ADDR gives the address of a slot of the current frame. -/
theorem slot_of_step {i : UInt16} {ip next : UInt32} {p : Pointer}
    (h : m.step watch ⟨.localAddr i, ip, next⟩ s = .ok none t)
    (hp : t.operands.values[0]? = some (.pointer p)) :
    t.memory = s.memory ∧ ∃ f c slot, s.calls.current? = some f ∧
      m.callee? f.routine = some c ∧ c.frame.slots[i.toNat]? = some slot ∧
      Address.advance f.locals slot.offset = .ok p.address ∧ p.pointee = slot.ty := by
  obtain ⟨_, u, hperform, h⟩ := bind_eq_ok h
  cases h
  obtain ⟨⟨a, slot⟩, s', hslot, hpush⟩ := bind_eq_ok hperform
  obtain ⟨rfl, f, c, hf, hc, hslot, ha⟩ := localSlot_ok hslot
  cases hpush
  cases hp
  exact ⟨rfl, f, c, slot, hf, hc, hslot, ha, rfl⟩

theorem step_fieldAddr {st : State σ τ} {p : Pointer} (i : UInt16) (ip next : UInt32)
    (hst : st.calls.base ≤ st.operands.height) :
    m.step watch ⟨.fieldAddr p.pointee i, ip, next⟩
        { st with operands := st.operands.push (.pointer p) } =
      match p.field m.layouts i with
      | .ok q => .ok none { st with operands := st.operands.push (.pointer q) }
      | .error e => .error e st := by
  change ((popPointer ip >>= _) >>= fun _ => pure none) _ = _
  rw [bind_run, bind_ok (popPointer_push ip hst)]
  simp only [ne_eq, not_true, if_false]
  cases p.field m.layouts i <;> rfl

end

/-! ## Where pointers come from -/

/-- A pointer that is not made of another, the size of its block, and the memory that has it. -/
inductive Origin : Pointer → Nat → Memory → Prop where
  /-- In any run, the address of a local. -/
  | localAddr {s t : State σ τ} {i : UInt16} {l : Located} {f : Frame} {c : Callee} {p : Pointer}
      (hs : m.Reached watch s) (hf : s.calls.current? = some f)
      (hc : m.callee? f.routine = some c) (hl : decodeAt m.program.code s.ip = .ok l)
      (hi : l.instr = .localAddr i) (h : m.cycle watch s = .ok none t)
      (hp : t.operands.values[0]? = some (.pointer p)) : Origin p c.frame.size t.memory
  /-- A new block for one value or more. -/
  | malloc {s t : State σ τ} {ty : TypeId} {count : UInt32} {ip next : UInt32} {sh : Shape}
      {p : Pointer}
      (hcount : 0 < count) (hs : m.layouts.shape ty = .ok sh)
      (h : m.step watch ⟨.malloc ty count, ip, next⟩ s = .ok none t)
      (hp : t.operands.values[0]? = some (.pointer p)) :
      Origin p (sh.size * count.toNat) t.memory

/-- The pointers that instructions make of `p`, step by step, in whatever states. The flag says
whether it has all been done by FIELD_ADDR. -/
inductive Derived (p : Pointer) : Bool → Pointer → Prop where
  | origin : Derived p true p
  | field {s t : State σ τ} {fields : Bool} {ty : TypeId} {i : UInt16} {ip next : UInt32}
      {q r : Pointer} (hd : Derived p fields q) (hq : s.operands.values[0]? = some (.pointer q))
      (h : m.step watch ⟨.fieldAddr ty i, ip, next⟩ s = .ok none t)
      (hr : t.operands.values[0]? = some (.pointer r)) : Derived p fields r
  | index {s t : State σ τ} {fields : Bool} {ip next : UInt32} {q r : Pointer}
      (hd : Derived p fields q) (hq : s.operands.values[1]? = some (.pointer q))
      (h : m.step watch ⟨.ptrIndex q.pointee, ip, next⟩ s = .ok none t)
      (hr : t.operands.values[0]? = some (.pointer r)) : Derived p false r

/-- What holds of a pointer into a block that `p` points into, which has got its size by the time
of a memory. The equations say what the instructions do with the pointer on top of the operands. -/
structure Usable (p : Pointer) (size : Nat) (memory : Memory) (q : Pointer) (sh : Shape) :
    Prop where
  block : block q.address = block p.address
  inside : offset q.address + sh.size ≤ size
  /-- As long as the block lives, it has its size. -/
  size : ∀ later b, memory.Continues later → later.blocks.get? (Address.block q.address) = some b →
    b.size = size
  /-- Every field of the pointee can be gone to. -/
  field : ∀ (st : State σ τ) i name ty ip next, st.calls.base ≤ st.operands.height →
    m.layouts.types.field q.pointee i = .ok (name, ty) → ∃ r : Pointer, r.pointee = ty ∧
      m.step watch ⟨.fieldAddr q.pointee i, ip, next⟩
          { st with operands := st.operands.push (.pointer q) } =
        .ok none { st with operands := st.operands.push (.pointer r) }
  /-- As long as the block lives, the pointee has a value. -/
  load : ∀ (st : State σ τ) ip next, st.calls.base ≤ st.operands.height →
    memory.Continues st.memory → st.memory.Live (Address.block q.address) → ∃ v,
      m.step watch ⟨.load q.pointee, ip, next⟩
          { st with operands := st.operands.push (.pointer q) } =
        .ok none { st with operands := st.operands.push v }
  /-- As long as the block lives, the pointee takes the values of its type. -/
  store : ∀ (st : State σ τ) v w ip next, st.calls.base ≤ st.operands.height →
    memory.Continues st.memory → st.memory.Live (Address.block q.address) →
    sh.coerce v = .ok w → ∃ memory',
      m.step watch ⟨.store q.pointee, ip, next⟩
          { st with operands := (st.operands.push (.pointer q)).push v } =
        .ok none { st with memory := memory' }

variable {m watch} {t' : TypeTable} (hl : Layouts.compute t' = .ok m.layouts) {p q : Pointer}
  {sh : Shape} {size : Nat} {memory : Memory}

section

include hl

theorem usable_of_lies (hblock : block q.address = block p.address)
    (hq : q.Lies m.layouts sh size) (hm : memory.Reserves (block p.address) size) :
    m.Usable watch p size memory q sh where
  block := hblock
  inside := hq.inside
  size later b hlater hb := (hm.continues hlater).size b (hblock ▸ hb)
  field st i name ty ip next hst hfield := by
    rw [(Layouts.describes_compute hl).types] at hfield
    obtain ⟨r, hr, hty⟩ := hq.exists_field hl hfield
    exact ⟨r, hty, by rw [step_fieldAddr i ip next hst, hr]⟩
  load st ip next hst hlater hlive := by
    obtain ⟨b, hb⟩ := Option.isSome_iff_exists.mp hlive
    obtain ⟨v, hv⟩ := hq.exists_load hb ((hm.continues hlater).size b (hblock ▸ hb))
    exact ⟨v, by rw [(m.reachesElements watch q.pointee).load st q ip next hst, hv]⟩
  store st v w ip next hst hlater hlive hw := by
    obtain ⟨b, hb⟩ := Option.isSome_iff_exists.mp hlive
    obtain ⟨memory', hstore⟩ :=
      hq.exists_store hb ((hm.continues hlater).size b (hblock ▸ hb)) hw
    exact ⟨memory', by rw [(m.reachesElements watch q.pointee).store st q v ip next hst, hstore]⟩

/-- By induction on the steps: each keeps the alignment, and FIELD_ADDR keeps to the block. -/
theorem aligned_of_derived {fields : Bool} (hp : p.Aligned m.layouts sh)
    (h : m.Derived watch p fields q) :
    ∃ sh', q.Aligned m.layouts sh' ∧ (fields = true → p.Lies m.layouts sh size →
      block q.address = block p.address ∧ q.Lies m.layouts sh' size) := by
  induction h with
  | origin => exact ⟨sh, hp, fun _ hlies => ⟨rfl, hlies⟩⟩
  | @field _ _ fields ty i _ _ q r _ hq hstep hr ih =>
    obtain ⟨sh', haligned, hinside⟩ := ih
    have hfield := field_of_step hq hstep hr
    obtain ⟨sh'', hr'⟩ := haligned.field hl hfield
    refine ⟨sh'', hr', fun honly hlies => ?_⟩
    obtain ⟨hblock, hq'⟩ := hinside honly hlies
    obtain ⟨hsame, sh₂, hr₂⟩ := hq'.field hl hfield
    cases hr'.shape.symm.trans hr₂.shape
    exact ⟨hsame.trans hblock, hr₂⟩
  | @index _ _ fields _ _ q r _ hq hstep hr ih =>
    obtain ⟨sh', haligned, -⟩ := ih
    obtain ⟨k, hindex⟩ := index_of_step hq hstep hr
    exact ⟨sh', haligned.index hl hindex, nofun⟩

end

theorem lies_of_malloc {ty : TypeId} {count : UInt32} {ip next : UInt32} (hcount : 0 < count)
    (hs : m.layouts.shape ty = .ok sh)
    (h : m.step watch ⟨.malloc ty count, ip, next⟩ s = .ok none t)
    (hp : t.operands.values[0]? = some (.pointer p)) :
    p.Aligned m.layouts sh ∧ (sh.bounded → p.Lies m.layouts sh (sh.size * count.toNat)) ∧
      t.memory.Reserves (block p.address) (sh.size * count.toNat) := by
  rw [step_malloc] at h
  split at h
  · cases h
  · next size hsize =>
    split at h
    · cases h
    · next a memory halloc =>
      cases h
      cases hp
      have hcountsize : size = sh.size * count.toNat := by
        simp only [allocationSize, Layouts.sizeOf, hs] at hsize
        split at hsize
        · cases hsize
          rfl
        · cases hsize
      subst hcountsize
      obtain ⟨rfl, hadds⟩ := Memory.alloc_ok halloc
      obtain ⟨hsmall, hcell⟩ := Memory.alloc_block halloc
      have hbounds := Memory.bounds_of_get? hcell
      have hblock := block_ofBlock hadds.room
      have hoffset := offset_ofBlock hadds.room
      have hle : sh.size ≤ sh.size * count.toNat := Nat.le_mul_of_pos_right _ hcount
      refine ⟨⟨hs, ?_⟩, fun hbounded => ⟨hs, hbounded, ?_, hsmall, ?_⟩, ?_⟩
      · rw [hoffset]
        exact Nat.dvd_zero _
      · rw [hblock]
        exact hbounds.1
      · rw [hoffset]
        omega
      · rw [hblock]
        refine ⟨hbounds.1, hbounds.2, hsmall, fun b hb => ?_⟩
        cases hcell.symm.trans hb
        rfl

theorem lies_of_slot {program : Program} (hm : m.BuiltFor program) {c : Callee}
    (hframe : FrameLayout.ofLocals m.layouts c.routine.locals = .ok c.frame) {slot : Slot} {b : Nat}
    (hslot : slot ∈ c.frame.slots.toList) (hr : memory.Reserves b c.frame.size) (hb : b < half)
    (hty : p.pointee = slot.ty) (ha : advance (ofBlock b) slot.offset = .ok p.address) :
    p.Aligned m.layouts slot.shape ∧
      (c.frame.Bounded → slot.shape.bounded → p.Lies m.layouts slot.shape c.frame.size) ∧
      memory.Reserves (block p.address) c.frame.size := by
  obtain ⟨hblock, hoffset⟩ := Slot.block_of_advance hb ha
  have hshape : m.layouts.shape p.pointee = .ok slot.shape :=
    hty ▸ FrameLayout.shape_of_mem hframe hslot
  have hword := Layouts.align_dvd_word hm.layouts p.pointee slot.shape hshape
  refine ⟨⟨hshape, ?_⟩, fun hfits hbounded => ⟨hshape, hbounded, ?_, hr.small, ?_⟩, ?_⟩
  · rw [hoffset]
    exact Slot.align_dvd_position hword (FrameLayout.align_dvd_of_mem hm.layouts hframe hslot)
  · rw [hblock]
    exact hr.pos
  · have hinside := FrameLayout.fits_of_ofLocals (Layouts.aligned_of_compute hm.layouts) hframe
      hfits slot hslot
    rw [hoffset, Slot.position_of_inside hinside hr.small]
    exact hinside
  · rw [hblock]
    exact hr

theorem lies_of_origin {program : Program} (hm : m.BuiltFor program) (hnat : m.NativesEvolve)
    (h : m.Origin watch p size memory) :
    ∃ sh, p.Aligned m.layouts sh ∧
      (m.FramesBounded → sh.bounded → p.Lies m.layouts sh size) ∧
      memory.Reserves (block p.address) size := by
  cases h with
  | malloc hcount hs h hp =>
    obtain ⟨haligned, hlies, hreserves⟩ := lies_of_malloc hcount hs h hp
    exact ⟨_, haligned, fun _ => hlies, hreserves⟩
  | @localAddr s t i l f c _ hreached hf hc hl hi h hp =>
    obtain ⟨_, ip, next⟩ := l
    cases hi
    rw [cycle_of_decoded hl] at h
    obtain ⟨hmemory, f', c', slot, hf', hc', hslot, ha, hty⟩ := slot_of_step h hp
    cases hf.symm.trans hf'
    cases hc.symm.trans hc'
    obtain ⟨hstarts, c', hc', hreserved⟩ :=
      m.owns_of_reached watch hnat hreached f (List.mem_of_head? hf)
    cases hc.symm.trans hc'
    obtain ⟨haligned, hlies, hreserves⟩ := lies_of_slot hm (hm.callee hc).2
      (FrameLayout.Houses.mem_of_getElem? hslot) (hmemory ▸ hreserved) f.block_lt hty (hstarts ▸ ha)
    exact ⟨slot.shape, haligned, fun hbounded => hlies (hbounded.callee hc), hreserves⟩

end Machine

/-- Whatever pointers are made of a local or an allocation by going to fields and to other
elements, they are aligned. If only fields are gone to, and neither frames nor the type that has
been started from take 2⁶⁴ bytes or more, the pointee lies in the block, all its fields can be gone
to, and it can be loaded and stored as long as the block lives: no later instruction and no later
run changes the size of the block. -/
theorem derived_pointers {σ τ : Type} {m : Machine σ} {watch : Observer τ} {program : Program}
    (hm : m.BuiltFor program) (hnat : m.NativesEvolve) :
    (∀ p size memory, m.Origin watch p size memory → ∀ fields q, m.Derived watch p fields q →
      ∃ sh, m.layouts.shape q.pointee = .ok sh ∧ sh.align ∣ offset q.address ∧
        (fields = true → m.FramesBounded →
          (∀ root, m.layouts.shape p.pointee = .ok root → root.bounded) →
            m.Usable watch p size memory q sh)) ∧
    (∀ s : State σ τ, s.memory.Continues (Action.finalState (m.cycle watch s)).memory) ∧
    ∀ id args (s : State σ τ),
      s.memory.Continues (Action.finalState (m.execute watch id args s)).memory := by
  refine ⟨fun p size memory horigin fields q hderived => ?_, m.continues_cycle watch hnat,
    m.continues_execute watch hnat⟩
  obtain ⟨sh, haligned, hlies, hreserves⟩ := Machine.lies_of_origin hm hnat horigin
  obtain ⟨sh', hq, hinside⟩ := Machine.aligned_of_derived hm.layouts haligned hderived
  refine ⟨sh', hq.shape, hq.align, fun hfields hframes hroot => ?_⟩
  obtain ⟨hblock, hq'⟩ := hinside hfields (hlies hframes (hroot sh haligned.shape))
  exact Machine.usable_of_lies hm.layouts hblock hq' hreserves

/-- A routine whose local is a struct that has a union in it. -/
def Program.nesting : Program where
  code := ([.localAddr 0, .fieldAddr ⟨0⟩ 1, .load ⟨1⟩, .pop, .ret].flatMap Instr.encode).toArray
  sources := .empty
  types := .nested
  routines := #[⟨"main", 0, 0, [⟨0⟩], none⟩]
  constants := []
  natives := #[]
  entry := none

/-- The union lies in the block of the frame. -/
theorem derived_pointers_nested : ∃ (m : Machine Unit) (p q : Pointer) (memory : Memory),
    m.BuiltFor .nesting ∧ m.NativesEvolve ∧ m.FramesBounded ∧ m.layouts.Bounded ∧
      m.Origin .recorder p 24 memory ∧ m.Derived .recorder p true q ∧
      ∃ sh, m.layouts.shape q.pointee = .ok sh ∧ sh.align ∣ offset q.address ∧
        m.Usable .recorder p 24 memory q sh := by
  obtain ⟨m, hm, hframes, htypes⟩ : ∃ m : Machine Unit,
      Machine.build .nesting (fun _ => none) .standard = .ok m ∧ m.FramesBounded ∧
      m.layouts.Bounded := ⟨_, rfl, by decide, by decide⟩
  have hbuilt : m.BuiltFor .nesting := ⟨_, _, hm⟩
  have hnat : m.NativesEvolve := fun id name native hn _ _ _ => by
    cases hm
    cases hn
  obtain ⟨s, t, u, f, c, p, q, hstart, hf, hc, hl, h, hp, hstep, hq, hsize⟩ :
      ∃ s t u f c p q, m.start .recorder ⟨0⟩ [] .blank = .ok () s ∧ s.calls.current? = some f ∧
        m.callee? f.routine = some c ∧ decodeAt m.program.code s.ip = .ok ⟨.localAddr 0, 0, 3⟩ ∧
        m.cycle .recorder s = .ok none t ∧ t.operands.values[0]? = some (.pointer p) ∧
        m.step .recorder ⟨.fieldAddr ⟨0⟩ 1, 3, 8⟩ t = .ok none u ∧
        u.operands.values[0]? = some (.pointer q) ∧ c.frame.size = 24 := by
    cases hm
    exact ⟨_, _, _, _, _, _, _, rfl, rfl, rfl, rfl, rfl, rfl, rfl, rfl, rfl⟩
  have horigin : m.Origin .recorder p 24 t.memory :=
    hsize ▸ Machine.Origin.localAddr ⟨⟨0⟩, [], .blank, s, 0, rfl, hstart, rfl⟩ hf hc hl rfl h hp
  have hderived : m.Derived .recorder p true q := .field .origin hp hstep hq
  obtain ⟨sh, hshape, halign, husable⟩ :=
    (derived_pointers hbuilt hnat).1 p 24 t.memory horigin true q hderived
  exact ⟨m, p, q, t.memory, hbuilt, hnat, hframes, htypes, horigin, hderived, sh, hshape, halign,
    husable rfl hframes fun _ => htypes.shape⟩

/-- A program with nothing but the table. -/
def Program.doubling : Program where
  code := #[]
  sources := .empty
  types := .doubled
  routines := #[]
  constants := []
  natives := #[]
  entry := none

/-- Allocates a value of the last type, and goes to its second field. -/
def doublingField : Option (TypeId × Except TypeError (String × TypeId) × Option RuntimeError) :=
  match Machine.build .doubling (fun _ => (none : Option (Native Unit))) .standard with
  | .error _ => none
  | .ok m =>
    match m.step .recorder ⟨.malloc ⟨64⟩ 1, 0, 7⟩ .blank with
    | .ok none t =>
      match t.operands.values[0]? with
      | some (Value.pointer p) => some (p.pointee, m.layouts.types.field p.pointee 1,
          errorOf? (p.field m.layouts 1))
      | _ => none
    | _ => none

/-- The size of the type has wrapped around to zero, so its fields do not lie in the block. -/
theorem unusable_of_doubling : ∃ (m : Machine Unit) (p : Pointer) (memory : Memory) (sh : Shape),
    m.BuiltFor .doubling ∧ m.NativesEvolve ∧ m.layouts.shape p.pointee = .ok sh ∧
      m.Origin .recorder p (sh.size * 1) memory ∧ m.Derived .recorder p true p ∧
      ¬ m.Usable .recorder p (sh.size * 1) memory p sh := by
  have hresult : doublingField = some (⟨64⟩, .ok ("right", ⟨63⟩),
      some (.memory (.invalidAddress 0x100000000))) := by decide +kernel
  unfold doublingField at hresult
  split at hresult
  case h_1 => cases hresult
  next m hm =>
  split at hresult
  case h_2 => cases hresult
  next t hstep =>
  split at hresult
  case h_2 => cases hresult
  next p hp =>
  obtain ⟨hty, hrest⟩ := Prod.mk.inj (Option.some.inj hresult)
  obtain ⟨hfield, herror⟩ := Prod.mk.inj hrest
  have hnat : m.NativesEvolve := fun id name native hn => nomatch m.native_of_build hm hn
  have hbuilt : m.BuiltFor .doubling := ⟨_, _, hm⟩
  have hpresent : TypeId.position ⟨64⟩ < TypeTable.doubled.size := by decide +kernel
  obtain ⟨sh, hsh⟩ := (Layouts.describes_compute hbuilt.layouts).exists_shape hpresent
  refine ⟨m, p, t.memory, sh, hbuilt, hnat, hty ▸ hsh,
    .malloc (by decide) hsh hstep hp, .origin, fun husable => ?_⟩
  obtain ⟨r, -, hr⟩ := husable.field .blank 1 _ _ 0 7 (by decide) hfield
  rw [Machine.step_fieldAddr 1 0 7 (by decide), errorOf?_eq_some_iff.mp herror] at hr
  cases hr

end ForeignVM
