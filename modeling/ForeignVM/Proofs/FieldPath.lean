import ForeignVM.Proofs.CLayout
import ForeignVM.Proofs.Record
import ForeignVM.Value.Aggregate

/-!
# ForeignVM.Proofs.FieldPath

Two ways to a field deep inside an aggregate in memory. A pointer to the aggregate is moved from
field to field, and what it points to in the end is loaded or stored. Or the aggregate is loaded,
fields are copied out of one another, and changed copies are written back outwards. Both ways come
to the same end: the same values, the same errors, the same memory.

* `Pointer.follow`, `Aggregate.follow` — the ways to the last field of a path.
* `Aggregate.assign`     — a new value for that field, and the aggregates around it changed.
* `TypeTable.Leads`      — the paths through aggregates.
* `Pointer.Sees`         — an aggregate as it lies in memory; `Pointer.Locates`: one of its fields.
* `Pointer.Reaches`      — one step of both ways; `store_follow` for any number of them.
* `WaysAgree`            — both ways come to the same end; `ways_agree` for every path.
* `ways_part_in_doubled` — they do not where the size of the aggregate wraps around.
-/

namespace ForeignVM

/-- The pointer to the last field of a path. -/
def Pointer.follow (l : Layouts) : Pointer → List UInt16 → UInt16 → Except RuntimeError Pointer
  | p, [], last => p.field l last
  | p, i :: front, last => p.field l i >>= fun q => q.follow l front last

namespace Aggregate

/-- A field that is an aggregate itself. -/
def inner (a : Aggregate) (i : UInt16) : Except RuntimeError Aggregate :=
  match a.get i with
  | .error e => .error e
  | .ok (.aggregate b) => .ok b
  | .ok v => .error (v.mismatch "struct or union")

/-- The value of the last field of a path. -/
def follow : Aggregate → List UInt16 → UInt16 → Except RuntimeError Value
  | a, [], last => a.get last
  | a, i :: front, last => a.inner i >>= fun b => b.follow front last

/-- The aggregate with a new value in the last field of a path. -/
def assign : Aggregate → List UInt16 → UInt16 → Value → Except RuntimeError Aggregate
  | a, [], last, v => a.set last v
  | a, i :: front, last, v => do
    let b ← a.inner i
    let b ← b.assign front last v
    a.set i (.aggregate b)

end Aggregate

/-- From a type on, all fields of the path are aggregates, and the last of them is of type
`inner`. -/
def TypeTable.Leads (t : TypeTable) : TypeId → List UInt16 → TypeId → Prop
  | ty, [], inner => inner = ty
  | ty, i :: front, inner => ∃ name g d, t.field ty i = .ok (name, g) ∧ t.get? g = some d ∧
      d.isAggregate ∧ t.Leads g front inner

/-! ## One field -/

open Address

theorem Memory.store_of_fits {m : Memory} {c : UInt64} {s : Shape} {v : Value} {bytes : Bytes}
    {b : Block} (hb : m.blocks.get? (block c) = some b) (hfits : offset c + s.size ≤ b.size)
    (h : s.encode v = .ok bytes) :
    m.store c s v = .ok (m.setBlock (block c) (some (b.put (offset c) bytes))) := by
  have hlength := Shape.length_of_encode h
  have hat := Memory.blockAt_ok_iff.mpr ⟨hb, hfits⟩
  simp only [store, write, hlength, hat, h]
  rfl

namespace Shape

theorem decode_eq_aggregate {s : Shape} {bytes : Bytes} {a : Aggregate}
    (h : s.decode bytes = .aggregate a) :
    s = .aggregate a.layout ∧ a.bytes = fit a.layout.size bytes := by
  cases s with
  | aggregate layout =>
    cases h
    exact ⟨rfl, rfl⟩
  | scalar kind => cases kind <;> cases h
  | pointer pointee => cases h
  | proc closure => cases closure <;> cases h

end Shape

/-- The pointer points to a block in which the aggregate lies. -/
structure Pointer.Sees (p : Pointer) (l : Layouts) (m : Memory) (a : Aggregate) (b : Block) :
    Prop where
  shape : l.shape p.pointee = .ok (.aggregate a.layout)
  block : m.blocks.get? (block p.address) = some b
  fits : offset p.address + a.layout.size ≤ b.size
  bytes : a.bytes = b.bytes.read (offset p.address) a.layout.size

/-- The pointer `q` points to the field `f` of the aggregate to which `p` points. -/
structure Pointer.Locates (p : Pointer) (l : Layouts) (a : Aggregate) (f : FieldLayout)
    (q : Pointer) : Prop where
  shape : l.shape q.pointee = .ok f.shape
  block : Address.block q.address = Address.block p.address
  offset : Address.offset q.address = Address.offset p.address + f.offset
  inside : f.offset + f.shape.size ≤ a.layout.size

variable {t : TypeTable} {l : Layouts} {m : Memory} {p q : Pointer} {a b : Aggregate}
  {f : FieldLayout} {i : UInt16}

theorem Pointer.exists_sees (h : p.load m l = .ok (.aggregate a)) : ∃ b, p.Sees l m a b := by
  unfold load at h
  split at h
  · cases h
  · next s hs =>
    unfold Memory.load at h
    split at h
    · cases h
    · next bytes hread =>
      obtain ⟨rfl, hbytes⟩ := Shape.decode_eq_aggregate (Except.ok.inj h)
      obtain ⟨b, hat, rfl⟩ := Memory.read_ok_iff.mp hread
      obtain ⟨hb, hfits⟩ := Memory.blockAt_ok_iff.mp hat
      refine ⟨b, hs, hb, hfits, ?_⟩
      rw [hbytes]
      exact fit_eq_self (ByteStore.length_read _ _ _)

theorem Aggregated.getElem?_of_field {layout : AggregateLayout} (h : layout.field i = .ok f) :
    layout.fields[i.toNat]? = some f := by
  unfold field at h
  split at h
  · next hget =>
    cases h
    exact hget
  · cases h

theorem Aggregated.mem_of_field {layout : AggregateLayout} (h : layout.field i = .ok f) :
    f ∈ layout.fields :=
  List.mem_of_getElem? (getElem?_of_field h)

namespace Pointer.Sees

variable {block : Block}

theorem field_eq (h : p.Sees l m a block) (hl : Layouts.compute t = .ok l) (i : UInt16) :
    t.field p.pointee i = (a.layout.field i).map fun f => (f.name, f.ty) := by
  obtain ⟨_, _, _, hd, hconforms⟩ := Layouts.exists_conforms hl h.shape
  exact hconforms.field_eq hd i

/-- A field that is not there is missed by pointers and by values. -/
theorem field_error (h : p.Sees l m a block) (hl : Layouts.compute t = .ok l) {e : TypeError}
    (he : a.layout.field i = .error e) :
    e = .unknownField p.pointee i ∧ p.field l i = .error (.type e) := by
  obtain ⟨_, _, _, _, hconforms⟩ := Layouts.exists_conforms hl h.shape
  constructor
  · unfold Aggregated.field at he
    split at he
    · cases he
    · cases he
      rw [hconforms.id]
  · simp only [field, h.shape, he]

/-- A field that is there has an address. -/
theorem exists_locates (h : p.Sees l m a block) (hl : Layouts.compute t = .ok l)
    (hbounded : a.layout.bounded) (hm : m.Kept) (hf : a.layout.field i = .ok f) :
    ∃ q, p.field l i = .ok q ∧ q.pointee = f.ty ∧ p.Locates l a f q := by
  obtain ⟨_, _, _, _, hconforms⟩ := Layouts.exists_conforms hl h.shape
  have hmem := Aggregated.mem_of_field hf
  have hinside := (hconforms.arranged hbounded).inside f hmem
  have hfits := h.fits
  have hsize := (hm _ _ h.block).1
  obtain ⟨address, hadvance, hblock, hoffset⟩ := Memory.exists_advance (a := p.address)
    (n := f.offset) (Memory.bounds_of_get? h.block).1 (by omega)
  refine ⟨⟨address, f.ty⟩, ?_, rfl, hconforms.shape f hmem, hblock, hoffset, hinside⟩
  simp only [field, h.shape, hf, hadvance]

variable (h : p.Sees l m a block) (hq : p.Locates l a f q)
include h hq

/-- The field lies in the same block. -/
theorem field_fits : m.blocks.get? (Address.block q.address) = some block ∧
    Address.offset q.address + f.shape.size ≤ block.size := by
  have hfits := h.fits
  have hinside := hq.inside
  rw [hq.block, hq.offset]
  exact ⟨h.block, by omega⟩

theorem load_field : q.load m l = .ok (a.read f) := by
  obtain ⟨hblock, hfits⟩ := h.field_fits hq
  have hslice : slice f.offset f.shape.size a.bytes =
      block.bytes.read (Address.offset q.address) f.shape.size := by
    rw [h.bytes, ByteStore.slice_read _ hq.inside, hq.offset]
  simp only [load, hq.shape, Memory.load, Memory.read_of_live hblock, if_pos hfits, Aggregate.read,
    hslice]

/-- To store a field is to change a copy of the aggregate and to store the copy. -/
theorem store_field (hm : m.Kept) (v : Value) :
    q.store m l v = a.write f v >>= fun a' => p.store m l (.aggregate a') := by
  obtain ⟨hblock, hfits⟩ := h.field_fits hq
  rw [Aggregate.write_of_covers (Aggregate.covers_of_inside hq.inside)]
  cases hencode : f.shape.encode v with
  | error e =>
    have hat := Memory.blockAt_ok_iff.mpr ⟨hblock, hfits⟩
    simp only [store, hq.shape, Memory.store, hat, hencode]
    rfl
  | ok new =>
    let a' : Aggregate := ⟨a.layout, overlay f.offset new a.bytes,
      (length_overlay f.offset new a.bytes).trans a.length_bytes⟩
    have hnew : f.offset + new.length ≤ a.layout.size := by
      rw [Shape.length_of_encode hencode]
      exact hq.inside
    have hwrite : block.bytes.write (Address.offset p.address) a'.bytes =
        block.bytes.write (Address.offset q.address) new := by
      have hoverlay := (hm _ _ h.block).2.write_overlay (Address.offset p.address) hnew
      rwa [← h.bytes, ← hq.offset] at hoverlay
    have houter : m.store p.address (.aggregate a.layout) (.aggregate a') = _ :=
      Memory.store_of_fits h.block h.fits (Shape.encode_layout rfl)
    have hfield := Memory.store_of_fits hblock hfits hencode
    change _ = p.store m l (.aggregate a')
    simp only [store, h.shape, hq.shape, houter, hfield, Block.put, hwrite, hq.block]

end Pointer.Sees

/-- The field `i` of the aggregate to which `p` points is where `q` points: to load and to store
there is to read and to change the field of a copy. -/
structure Pointer.Reaches (p : Pointer) (l : Layouts) (m : Memory) (a : Aggregate) (i : UInt16)
    (q : Pointer) : Prop where
  field : p.field l i = .ok q
  load : ∃ v, a.get i = .ok v ∧ q.load m l = .ok v
  store : ∀ v, q.store m l v = a.set i v >>= fun a' => p.store m l (.aggregate a')

theorem Pointer.Sees.reaches {block : Block} (h : p.Sees l m a block)
    (hl : Layouts.compute t = .ok l) (hbounded : a.layout.bounded) (hm : m.Kept)
    (hf : a.layout.field i = .ok f) :
    ∃ q, q.pointee = f.ty ∧ l.shape f.ty = .ok f.shape ∧ p.Reaches l m a i q := by
  obtain ⟨q, hfield, hpointee, hq⟩ := h.exists_locates hl hbounded hm hf
  refine ⟨q, hpointee, hpointee ▸ hq.shape, hfield, ?_, fun v => ?_⟩
  · have hcovers : a.Covers f := Aggregate.covers_of_inside hq.inside
    exact ⟨a.read f, Aggregate.get_of_covers hf hcovers, h.load_field hq⟩
  · rw [Aggregate.set, hf, h.store_field hq hm]

/-- A copy can be stored in place of what it has been copied from. -/
theorem Pointer.Sees.exists_store {block : Block} (h : p.Sees l m a block) {a' : Aggregate}
    (hlayout : a'.layout = a.layout) : ∃ m', p.store m l (.aggregate a') = .ok m' := by
  have hstore : m.store p.address (.aggregate a.layout) (.aggregate a') = _ :=
    Memory.store_of_fits h.block h.fits (Shape.encode_layout hlayout)
  simp [store, h.shape, hstore]

/-- A field that is an aggregate is reached by a pointer that sees it. -/
theorem Pointer.exists_inner (h : p.load m l = .ok (.aggregate a))
    (hl : Layouts.compute t = .ok l) (hbounded : a.layout.bounded) (hm : m.Kept) {name : String}
    {g : TypeId} {d : TypeDef} (hfield : t.field p.pointee i = .ok (name, g))
    (hd : t.get? g = some d) (haggregate : d.isAggregate) :
    ∃ q b, q.pointee = g ∧ p.Reaches l m a i q ∧ a.inner i = .ok b ∧ b.layout.bounded ∧
      q.load m l = .ok (.aggregate b) := by
  obtain ⟨block, hsees⟩ := exists_sees h
  have heq := hsees.field_eq hl i
  rw [hfield] at heq
  cases hf : a.layout.field i with
  | error e =>
    rw [hf] at heq
    cases heq
  | ok f =>
    rw [hf] at heq
    cases heq
    obtain ⟨q, hpointee, hshape, hreaches⟩ := hsees.reaches hl hbounded hm hf
    obtain ⟨kind, name, fields, rfl⟩ := TypeDef.exists_ofKind haggregate
    obtain ⟨layout, hlayout, _⟩ := Layouts.conforms_of_compute hl hd
    have hsame : f.shape = .aggregate layout := Except.ok.inj (hshape.symm.trans hlayout)
    let b : Aggregate := .ofBytes layout (slice f.offset layout.size a.bytes)
    have hread : a.read f = .aggregate b := by
      rw [Aggregate.read, hsame]
      rfl
    obtain ⟨v, hget, hload⟩ := hreaches.load
    obtain ⟨f', hf', _, rfl⟩ := Aggregate.get_eq_ok hget
    cases hf.symm.trans hf'
    rw [hread] at hget hload
    have hb := Aggregated.bounded_of_mem hbounded (Aggregated.mem_of_field hf)
    rw [hsame, Shape.bounded] at hb
    exact ⟨q, b, hpointee, hreaches, by rw [Aggregate.inner, hget], hb, hload⟩

/-! ## Paths -/

theorem Aggregate.layout_set {a' : Aggregate} {v : Value} (h : a.set i v = .ok a') :
    a'.layout = a.layout := by
  unfold set at h
  split at h
  · cases h
  · exact (write_eq_ok h).2.1

theorem Aggregate.layout_assign {front : List UInt16} {last : UInt16} {a' : Aggregate} {v : Value}
    (h : a.assign front last v = .ok a') : a'.layout = a.layout := by
  cases front with
  | nil => exact layout_set h
  | cons i front =>
    simp only [assign, bind, Except.bind] at h
    split at h
    · cases h
    · split at h
      · cases h
      · exact layout_set h

/-- Storing changes only the bytes of the pointee. -/
theorem Pointer.frame_of_store {m' : Memory} {v : Value} (h : q.store m l v = .ok m') :
    m.Rewrites m' ∧ ∃ n, l.sizeOf q.pointee = .ok n ∧
      ∀ c k, Apart q.address n c k → m'.read c k = m.read c k := by
  unfold store at h
  split at h
  · cases h
  · next s hs =>
    obtain ⟨bytes, hbytes, hwrite⟩ := Memory.store_cases h
    refine ⟨Memory.store_ok h, s.size, by rw [Layouts.sizeOf, hs], ?_⟩
    rw [← Shape.length_of_encode hbytes]
    exact (Memory.read_of_write hwrite).2

/-- The two ways to the last field of a path, which is one of the type `inner`, come to the same
end. -/
structure WaysAgree (l : Layouts) (m : Memory) (p : Pointer) (a : Aggregate) (front : List UInt16)
    (last : UInt16) (inner : TypeId) : Prop where
  refused : ∀ e, p.follow l front last = .error e ↔ a.follow front last = .error e
  /-- The only error on the way is that there is no such field. -/
  outOfRange : ∀ e, a.follow front last = .error e → e = .type (.unknownField inner last)
  load : (p.follow l front last >>= fun q => q.load m l) = a.follow front last
  storeRefused : ∀ v e, (p.follow l front last >>= fun q => q.store m l v) = .error e ↔
    a.assign front last v = .error e
  /-- What storing the field leaves is what storing the changed aggregate would leave. -/
  store : ∀ v, (p.follow l front last >>= fun q => q.store m l v) =
    a.assign front last v >>= fun a' => p.store m l (.aggregate a')
  /-- Nothing else is touched. -/
  frame : ∀ q v m', p.follow l front last = .ok q → q.store m l v = .ok m' →
    m.Rewrites m' ∧ ∃ n, l.sizeOf q.pointee = .ok n ∧
      ∀ c k, Apart q.address n c k → m'.read c k = m.read c k

theorem follow_agrees (hl : Layouts.compute t = .ok l) (hbounded : a.layout.bounded) (hm : m.Kept)
    (hload : p.load m l = .ok (.aggregate a)) {front : List UInt16} {inner : TypeId}
    (hleads : t.Leads p.pointee front inner) (last : UInt16) :
    (∃ q v, p.follow l front last = .ok q ∧ a.follow front last = .ok v ∧ q.load m l = .ok v) ∨
      p.follow l front last = .error (.type (.unknownField inner last)) ∧
      a.follow front last = .error (.type (.unknownField inner last)) := by
  induction front generalizing p a with
  | nil =>
    cases hleads
    obtain ⟨block, hsees⟩ := Pointer.exists_sees hload
    cases hf : a.layout.field last with
    | error e =>
      obtain ⟨rfl, hfield⟩ := hsees.field_error hl hf
      exact .inr ⟨hfield, by rw [Aggregate.follow, Aggregate.get, hf]⟩
    | ok f =>
      obtain ⟨q, _, _, hreaches⟩ := hsees.reaches hl hbounded hm hf
      obtain ⟨v, hget, hv⟩ := hreaches.load
      exact .inl ⟨q, v, hreaches.field, hget, hv⟩
  | cons i front ih =>
    obtain ⟨name, g, d, hfield, hd, haggregate, hrest⟩ := hleads
    obtain ⟨q, b, rfl, hreaches, hinner, hb, hq⟩ :=
      Pointer.exists_inner hload hl hbounded hm hfield hd haggregate
    rw [Pointer.follow, Aggregate.follow, hreaches.field, hinner]
    exact ih hb hq hrest

theorem store_follow (hl : Layouts.compute t = .ok l) (hbounded : a.layout.bounded) (hm : m.Kept)
    (hload : p.load m l = .ok (.aggregate a)) {front : List UInt16} {inner : TypeId}
    (hleads : t.Leads p.pointee front inner) (last : UInt16) (v : Value) :
    (p.follow l front last >>= fun q => q.store m l v) =
      a.assign front last v >>= fun a' => p.store m l (.aggregate a') := by
  induction front generalizing p a with
  | nil =>
    obtain ⟨block, hsees⟩ := Pointer.exists_sees hload
    rw [Pointer.follow, Aggregate.assign]
    cases hf : a.layout.field last with
    | error e =>
      obtain ⟨_, hfield⟩ := hsees.field_error hl hf
      rw [hfield, Aggregate.set, hf]
      rfl
    | ok f =>
      obtain ⟨q, _, _, hreaches⟩ := hsees.reaches hl hbounded hm hf
      rw [hreaches.field]
      exact hreaches.store v
  | cons i front ih =>
    obtain ⟨name, g, d, hfield, hd, haggregate, hrest⟩ := hleads
    -- `b` is what `q` points to, so the rest of the path starts where this one did
    obtain ⟨q, b, rfl, hreaches, hinner, hb, hq⟩ :=
      Pointer.exists_inner hload hl hbounded hm hfield hd haggregate
    calc (p.follow l (i :: front) last >>= fun q => q.store m l v)
        = q.follow l front last >>= fun q => q.store m l v := by
          rw [Pointer.follow, hreaches.field]
          rfl
      _ = b.assign front last v >>= fun b' => q.store m l (.aggregate b') := ih hb hq hrest
      _ = b.assign front last v >>= fun b' =>
            a.set i (.aggregate b') >>= fun a' => p.store m l (.aggregate a') := by
          simp only [hreaches.store]
      _ = a.assign (i :: front) last v >>= fun a' => p.store m l (.aggregate a') := by
          rw [Aggregate.assign, hinner]
          simp only [bind_assoc]
          rfl

/-- Whatever an aggregate in memory is made of, its fields are reached alike by pointers and in
copies. -/
theorem ways_agree (hl : Layouts.compute t = .ok l) (hbounded : a.layout.bounded)
    (hm : Memory.empty.Evolves m) (hload : p.load m l = .ok (.aggregate a)) {front : List UInt16}
    {inner : TypeId} (hleads : t.Leads p.pointee front inner) (last : UInt16) :
    WaysAgree l m p a front last inner := by
  have hkept := hm.kept Memory.kept_empty
  have hstore := store_follow hl hbounded hkept hload hleads last
  have hback {v : Value} {a' : Aggregate} (h : a.assign front last v = .ok a') :
      ∃ m', p.store m l (.aggregate a') = .ok m' := by
    obtain ⟨block, hsees⟩ := Pointer.exists_sees hload
    exact hsees.exists_store (Aggregate.layout_assign h)
  have hrefused (v : Value) (e : RuntimeError) :
      (p.follow l front last >>= fun q => q.store m l v) = .error e ↔
        a.assign front last v = .error e := by
    rw [hstore v]
    cases h : a.assign front last v with
    | error e' => simp [bind, Except.bind]
    | ok a' =>
      obtain ⟨m', hm'⟩ := hback h
      simp [bind, Except.bind, hm']
  rcases follow_agrees hl hbounded hkept hload hleads last with ⟨q, v, hp, ha, hv⟩ | ⟨hp, ha⟩
  · exact ⟨by simp [hp, ha], by simp [ha], by rw [hp, ha]; exact hv, hrefused, hstore,
      fun _ _ _ _ => Pointer.frame_of_store⟩
  · exact ⟨by simp [hp, ha], by simp [ha, eq_comm], by rw [hp, ha]; rfl, hrefused, hstore,
      fun _ _ _ _ => Pointer.frame_of_store⟩

/-- The way into the union that a fresh struct holds. -/
theorem ways_agree_in_nested : ∃ l m p a, Layouts.compute .nested = .ok l ∧
    Memory.empty.Evolves m ∧ p.load m l = .ok (.aggregate a) ∧ a.layout.bounded ∧
    TypeTable.nested.Leads p.pointee [1] (.ofPosition 1) ∧
    WaysAgree l m p a [1] 1 (.ofPosition 1) := by
  have halloc : Memory.empty.alloc 24 =
      .ok (Address.ofBlock 1, Memory.empty.addBlock ⟨24, .empty⟩) := rfl
  have hm : Memory.empty.Evolves (Memory.empty.addBlock ⟨24, .empty⟩) := .single (.alloc halloc)
  have hleads : TypeTable.nested.Leads (.ofPosition 0) [1] (.ofPosition 1) :=
    ⟨_, _, _, rfl, rfl, rfl, rfl⟩
  exact ⟨_, _, ⟨Address.ofBlock 1, .ofPosition 0⟩, _, rfl, hm, rfl, by decide, hleads,
    ways_agree rfl (by decide) hm rfl hleads 1⟩

def errorOf? {ε α : Type} : Except ε α → Option ε
  | .ok _ => none
  | .error e => some e

theorem errorOf?_eq_some_iff {ε α : Type} {x : Except ε α} {e : ε} :
    errorOf? x = some e ↔ x = .error e := by
  cases x <;> simp [errorOf?]

/-- What becomes of an integer that is stored in the first field of a value of the last type of the
table, in the memory and in a copy. -/
def doubledRefusals : Option (Option RuntimeError × Option RuntimeError) :=
  match Layouts.compute .doubled with
  | .error _ => none
  | .ok l =>
    let m := Memory.empty.addBlock ⟨0, .empty⟩
    let p : Pointer := ⟨Address.ofBlock 1, .ofPosition 64⟩
    match p.load m l with
    | .ok (.aggregate a) => some (errorOf? (p.follow l [] 0 >>= fun q => q.store m l (.int 1)),
        errorOf? (a.assign [] 0 (.int 1)))
    | _ => none

/-- The size of the type has wrapped around to zero, so its fields lie behind the block. -/
theorem ways_part_in_doubled : ∃ l m p a, Layouts.compute .doubled = .ok l ∧
    Memory.empty.Evolves m ∧ p.load m l = .ok (.aggregate a) ∧
    TypeTable.doubled.Leads p.pointee [] (.ofPosition 64) ∧
    ¬ WaysAgree l m p a [] 0 (.ofPosition 64) := by
  have hrefusals : doubledRefusals = some (some (.memory (.invalidAddress 0x100000000)),
      some (.typeMismatch "`Pair`" "int")) := by decide +kernel
  unfold doubledRefusals at hrefusals
  split at hrefusals
  case h_1 => cases hrefusals
  next l hl =>
  dsimp only at hrefusals
  split at hrefusals
  case h_2 => cases hrefusals
  next a hload =>
  obtain ⟨hstore, hassign⟩ := Prod.mk.inj (Option.some.inj hrefusals)
  have halloc : Memory.empty.alloc 0 =
      .ok (Address.ofBlock 1, Memory.empty.addBlock ⟨0, .empty⟩) := rfl
  refine ⟨l, _, _, a, hl, .single (.alloc halloc), hload, rfl, fun h => ?_⟩
  have hsame := (h.storeRefused (.int 1) _).mp (errorOf?_eq_some_iff.mp hstore)
  cases hsame.symm.trans (errorOf?_eq_some_iff.mp hassign)

end ForeignVM
