import ForeignVM.Proofs.InPlace
import ForeignVM.Proofs.LowBits

/-!
# ForeignVM.Proofs.FieldAccess

The fields of structs and unions held by value. A field takes what its shape takes, and only its own
bytes change, so that in a struct no other field is touched. In a union an integer shows the low
bits of the one that has been set, and a wider one keeps its high bytes.

* `Field.writeInPlace`           — a field that is set in place.
* `Aggregate.Puts`               — other bytes in the place of a field.
* `coerce_decode_of_size_le`     — a narrower integer in the place of a wider one.
* `Aggregate.FieldLaws`          — what setting a field does, and what the fields show afterwards.
* `TypeTable.field_laws_of_valid` — the laws hold for all fields of a valid table.
* `Aggregate.fields_interfere`    — in a union, numbers with a fraction are clamped before their low
  bits are taken; fields of a struct that is too large share bytes.
-/

namespace ForeignVM

/-! ## Parts of bytes that are written over -/

section

variable {offset offset' length : Nat} {new bytes : Bytes}

theorem drop_overlay (h : offset + new.length ≤ bytes.length) :
    (overlay offset new bytes).drop offset = new ++ (bytes.drop offset).drop new.length := by
  rw [overlay_eq h, List.drop_left' (List.length_take_of_le (by omega))]

/-- A part that is not longer shows the first of the new bytes. -/
theorem slice_overlay_front (h : offset + new.length ≤ bytes.length) (hle : length ≤ new.length) :
    slice offset length (overlay offset new bytes) = new.take length := by
  rw [slice, drop_overlay h, List.take_append_of_le_length hle]

/-- A longer part shows all of them before old ones. -/
theorem slice_overlay_long (h : offset + new.length ≤ bytes.length) (hle : new.length ≤ length) :
    slice offset length (overlay offset new bytes) =
      new ++ (slice offset length bytes).drop new.length := by
  rw [slice, drop_overlay h, List.take_append, List.take_of_length_le hle, slice, List.drop_take]

theorem slice_overlay_apart (h : offset' + length ≤ offset ∨ offset + new.length ≤ offset') :
    slice offset' length (overlay offset new bytes) = slice offset' length bytes := by
  refine List.ext_getElem? fun i => ?_
  simp only [slice, List.getElem?_take, List.getElem?_drop, getElem?_overlay]
  split
  · exact if_neg (by omega)
  · rfl

end

/-! ## One field -/

/-- Puts a value in the place of the field. -/
def Field.writeInPlace (f : FieldLayout) (v : Value) : Writing Unit :=
  Writing.behind f.offset (f.shape.writeInPlace v)

namespace Aggregate

/-- The aggregate `b` is `a` with other bytes in the place of the field. -/
structure Puts (a : Aggregate) (f : FieldLayout) (new : Bytes) (b : Aggregate) : Prop where
  layout : b.layout = a.layout
  bytes : b.bytes = overlay f.offset new a.bytes

variable {l : Layouts} {a b : Aggregate} {i j : UInt16} {f g : FieldLayout} {v w : Value}
  {new : Bytes}

theorem set_of_field (hf : a.layout.field i = .ok f) : a.set i v = a.write f v := by
  rw [set, hf]

theorem write_error (hcovers : a.Covers f) {e : RuntimeError} (he : f.shape.encode v = .error e) :
    a.write f v = .error e := by
  rw [write_of_covers hcovers, he]

theorem exists_write (hcovers : a.Covers f) (hnew : f.shape.encode v = .ok new) :
    ∃ b, a.write f v = .ok b ∧ a.Puts f new b := by
  rw [write_of_covers hcovers, hnew]
  exact ⟨_, rfl, rfl, rfl⟩

/-- An aggregate that has been set has the bytes of the value in the place of the field. -/
theorem puts_of_set (hf : a.layout.field i = .ok f) (h : a.set i v = .ok b) :
    ∃ new, f.shape.encode v = .ok new ∧ a.Puts f new b := by
  rw [set_of_field hf] at h
  obtain ⟨_, hlayout, new, hnew, hbytes⟩ := write_eq_ok h
  exact ⟨new, hnew, hlayout, hbytes⟩

namespace Puts

variable (h : a.Puts f new b)

include h

theorem covers (hg : a.Covers g) : b.Covers g := by
  unfold Covers
  rw [h.bytes, length_overlay]
  exact hg

theorem get (hg : a.layout.field j = .ok g) (hcovers : a.Covers g) :
    b.get j =
      .ok (g.shape.decode (slice g.offset g.shape.size (overlay f.offset new a.bytes))) := by
  rw [get_of_covers (h.layout ▸ hg) (h.covers hcovers), read, h.bytes]

/-- The field itself shows what has been written. -/
theorem get_same (hf : a.layout.field i = .ok f) (hnew : new.length = f.shape.size)
    (hcovers : a.Covers f) : b.get i = .ok (f.shape.decode new) := by
  rw [h.get hf hcovers, slice_overlay_front (hnew ▸ hcovers) (Nat.le_of_eq hnew.symm),
    List.take_of_length_le (Nat.le_of_eq hnew)]

theorem get_apart (hg : a.layout.field j = .ok g) (hcovers : a.Covers g)
    (hapart : g.offset + g.shape.size ≤ f.offset ∨ f.offset + new.length ≤ g.offset) :
    b.get j = a.get j := by
  rw [h.get hg hcovers, slice_overlay_apart hapart, get_of_covers hg hcovers, read]

theorem outside {n : Nat} (hn : n < f.offset ∨ f.offset + new.length ≤ n) :
    b.bytes[n]? = a.bytes[n]? := by
  rw [h.bytes, getElem?_overlay]
  exact if_neg (by omega)

end Puts

end Aggregate

/-! ## The fields of a layout -/

namespace Layouts.Conforms

variable {l : Layouts} {id : TypeId} {name : String} {kind : AggregateKind}
  {fields : OrderedMap TypeId} {layout : AggregateLayout} {i j : UInt16} {f g : FieldLayout}

/-- No two fields have one name. -/
theorem fieldNamed (h : l.Conforms id name kind fields layout) (hf : f ∈ layout.fields) :
    layout.fieldNamed? f.name = some f := by
  have hnames : layout.fields.map (·.name) = fields.entries.map Prod.fst := by
    rw [← h.fields, List.map_map]
    rfl
  exact find?_of_nodup (hnames ▸ fields.distinct) hf

/-- Two fields of a struct lie one behind the other. -/
theorem apart (h : l.Conforms id name kind fields layout) (hbounded : layout.bounded)
    (hkind : layout.kind = .struct) (hf : layout.field i = .ok f)
    (hg : layout.field j = .ok g) (hne : j ≠ i) :
    g.offset + g.shape.size ≤ f.offset ∨ f.offset + f.shape.size ≤ g.offset := by
  have hpairwise := List.pairwise_iff_getElem.mp ((h.arranged hbounded).pairwise hkind)
  obtain ⟨hi, rfl⟩ := List.getElem?_eq_some_iff.mp (Aggregated.getElem?_of_field hf)
  obtain ⟨hj, rfl⟩ := List.getElem?_eq_some_iff.mp (Aggregated.getElem?_of_field hg)
  have hpositions : j.toNat ≠ i.toNat := fun heq => hne (UInt16.toNat_inj.mp heq)
  rcases Nat.lt_or_gt_of_ne hpositions with hlt | hlt
  · exact .inl (hpairwise _ _ hj hi hlt)
  · exact .inr (hpairwise _ _ hi hj hlt)

/-- All fields of a union lie at its start. -/
theorem offset_eq_zero (h : l.Conforms id name kind fields layout) (hbounded : layout.bounded)
    (hkind : layout.kind = .union) (hf : f ∈ layout.fields) : f.offset = 0 := by
  have harranged := h.arranged hbounded
  unfold Aggregated.Arranged at harranged
  rw [hkind] at harranged
  exact harranged.1 f hf

end Layouts.Conforms

/-! ## Integers in one place -/

/-- What is read from bytes is the number of the bytes, up to multiples of the modulus. -/
theorem ScalarKind.holds_decode {k : ScalarKind} (hk : k.IsInteger) (bytes : Bytes) :
    (k.decode bytes).Holds k k.modulus (LittleEndian.decode bytes) ∧
      k.InRange (k.decode bytes).integer := by
  have hlow : LittleEndian.decode (bytes.take k.size) = LittleEndian.decode bytes % k.modulus :=
    LittleEndian.decode_take _ _
  obtain ⟨hholds, hrange⟩ :=
    holds_ofPattern hk (Nat.mod_lt (LittleEndian.decode bytes) k.modulus_pos)
  rw [← hlow] at hholds hrange
  refine ⟨⟨hholds.kind, hholds.modEq.trans ?_⟩, hrange⟩
  rw [hlow, Int.natCast_mod]
  exact Int.mod_modEq _ _

/-- A narrower integer in the same place is what the wider one is narrowed to. -/
theorem Shape.coerce_decode_of_size_le {k₁ k₂ : ScalarKind} (h₁ : k₁.IsInteger)
    (h₂ : k₂.IsInteger) (hsize : k₁.size ≤ k₂.size) (bytes : Bytes) :
    (scalar k₁).coerce (k₂.decode bytes) = .ok (k₁.decode bytes) := by
  have hdvd : (k₁.modulus : Int) ∣ k₂.modulus :=
    Int.natCast_dvd_natCast.mpr (ScalarKind.modulus_dvd_of_size_le hsize)
  obtain ⟨hwide, _⟩ := ScalarKind.holds_decode h₂ bytes
  obtain ⟨hnarrow, hrange⟩ := ScalarKind.holds_decode h₁ bytes
  obtain ⟨w, hw, hholds, hrange'⟩ :=
    coerce_integer h₁ (Value.number?_of_isOfKind h₂ hwide.kind)
  have hsame : w.Holds k₁ k₁.modulus (LittleEndian.decode bytes) :=
    ⟨hholds.kind, hholds.modEq.trans (hwide.modEq.of_dvd hdvd)⟩
  rw [hw, hsame.unique h₁ hnarrow hrange' hrange]

/-- An integer kind reads different patterns as different numbers. -/
theorem ScalarKind.eq_of_ofPattern_eq {k : ScalarKind} (hk : k.IsInteger) {p q : Nat}
    (hp : p < k.modulus) (hq : q < k.modulus) (h : k.ofPattern p = k.ofPattern q) : p = q := by
  have hpq : (p : Int) ≡ q [ZMOD k.modulus] :=
    (holds_ofPattern hk hp).1.modEq.symm.trans (h ▸ (holds_ofPattern hk hq).1.modEq)
  unfold Int.ModEq at hpq
  rw [Int.emod_eq_of_lt (by omega) (by omega), Int.emod_eq_of_lt (by omega) (by omega)] at hpq
  exact Int.ofNat_inj.mp hpq

theorem ScalarKind.decode_of_length (k : ScalarKind) {bytes : Bytes} (h : bytes.length = k.size) :
    k.decode bytes = k.ofPattern (LittleEndian.decode bytes) := by
  rw [decode, List.take_of_length_le (Nat.le_of_eq h)]

/-- Stored before the high bytes of an old number, a number takes the place of its low part. -/
theorem ScalarKind.decode_encode_append (k : ScalarKind) (n : Number) (old : Bytes) :
    LittleEndian.decode (k.encode n ++ old.drop k.size) =
      LittleEndian.decode old / k.modulus * k.modulus + k.pattern n := by
  rw [LittleEndian.decode_append, k.length_encode, LittleEndian.decode_drop, k.number_encode,
    ← modulus, Nat.mul_comm, Nat.add_comm]

/-! ## The laws -/

namespace Aggregate

/-- The aggregate `b` is `a` with `w` in the field `f` at position `i`. -/
structure Updated (a : Aggregate) (i : UInt16) (f : FieldLayout) (w : Value) (b : Aggregate) :
    Prop where
  layout : b.layout = a.layout
  get : b.get i = .ok w
  outside : ∀ n, n < f.offset ∨ f.offset + f.shape.size ≤ n → b.bytes[n]? = a.bytes[n]?
  apart : a.layout.kind = .struct → ∀ j, j ≠ i → b.get j = a.get j

/-- What a field `k₂` of a union shows when a field `k₁` has been set, if both are integers. -/
structure Overlays (a : Aggregate) (i j : UInt16) (k₁ k₂ : ScalarKind) : Prop where
  /-- A field that is not wider shows the low bits of what has been stored. -/
  narrow : k₂.size ≤ k₁.size → ∀ v b, a.set i v = .ok b →
    b.get j = ((Shape.scalar k₁).coerce v).bind (Shape.scalar k₂).coerce
  /-- Of an integer or a boolean these are its own low bits. -/
  integer : k₂.size ≤ k₁.size → ∀ v z b, v.number? = some (.integer z) → a.set i v = .ok b →
    b.get j = (Shape.scalar k₂).coerce v
  /-- A wider field keeps its high bytes. -/
  wide : k₁.size < k₂.size → ∀ v n b, v.number? = some n → a.set i v = .ok b →
    a.get j = .ok (k₂.decode (slice 0 k₂.size a.bytes)) ∧
      b.get j = .ok (k₂.decode (k₁.encode n ++ (slice 0 k₂.size a.bytes).drop k₁.size))
  /-- The same in numbers: the pattern of the wider field has new low bits. -/
  bits : k₁.size < k₂.size → ∀ v n b p, v.number? = some n → a.set i v = .ok b →
    p < k₂.modulus → a.get j = .ok (k₂.ofPattern p) →
      b.get j = .ok (k₂.ofPattern (p / k₁.modulus * k₁.modulus + k₁.pattern n))

/-- What setting and getting the field `f` at position `i` do. -/
structure FieldLaws (a : Aggregate) (i : UInt16) (f : FieldLayout) : Prop where
  /-- What cannot be converted to the shape of the field is not stored, and leaves all bytes. -/
  refused : ∀ v e, f.shape.coerce v = .error e →
    a.set i v = .error e ∧ (f.writeInPlace v).run a.bytes = .error (.of e) a.bytes
  accepted : ∀ v w, f.shape.coerce v = .ok w → ∃ b, a.set i v = .ok b ∧ a.Updated i f w b ∧
    (f.writeInPlace v).run a.bytes = .ok () b.bytes
  named : a.getNamed f.name = a.get i ∧ ∀ v, a.setNamed f.name v = a.set i v
  union : a.layout.kind = .union → ∀ j g, a.layout.field j = .ok g → ∀ k₁ k₂, k₁.IsInteger →
    k₂.IsInteger → f.shape = .scalar k₁ → g.shape = .scalar k₂ → a.Overlays i j k₁ k₂

variable {t : TypeTable} {l : Layouts} {a b : Aggregate} {i j : UInt16} {f g : FieldLayout}
  {v w : Value} {new : Bytes} {k₁ k₂ : ScalarKind}

section

variable {id : TypeId} {name : String} {kind : AggregateKind} {fields : OrderedMap TypeId}
  (ha : l.Conforms id name kind fields a.layout) (hbounded : a.layout.bounded)

include ha hbounded

theorem covers_of_mem (hf : f ∈ a.layout.fields) : a.Covers f :=
  covers_of_inside ((ha.arranged hbounded).inside f hf)

theorem Puts.updated (h : a.Puts f new b) (hf : a.layout.field i = .ok f)
    (hnew : new.length = f.shape.size) : a.Updated i f (f.shape.decode new) b where
  layout := h.layout
  get := h.get_same hf hnew (covers_of_mem ha hbounded (Aggregated.mem_of_field hf))
  outside n hn := h.outside (hnew.symm ▸ hn)
  apart hkind j hne := by
    cases hg : a.layout.field j with
    | ok g =>
      have hcovers := covers_of_mem ha hbounded (Aggregated.mem_of_field hg)
      exact h.get_apart hg hcovers (hnew.symm ▸ ha.apart hbounded hkind hf hg hne)
    | error e => simp only [Aggregate.get, h.layout, hg]

theorem room_of_mem (hf : f ∈ a.layout.fields) : f.shape.size ≤ a.bytes.length := by
  have hcovers : f.offset + f.shape.size ≤ a.bytes.length := covers_of_mem ha hbounded hf
  omega

/-! ### Two integers of a union -/

variable (hkind : a.layout.kind = .union) (hf : a.layout.field i = .ok f)
  (hg : a.layout.field j = .ok g)

include hkind hf hg

/-- Both lie at the start of the bytes. -/
theorem Puts.get_union (h : a.Puts f new b) (hk₂ : g.shape = .scalar k₂) :
    a.get j = .ok (k₂.decode (slice 0 k₂.size a.bytes)) ∧
      b.get j = .ok (k₂.decode (slice 0 k₂.size (overlay 0 new a.bytes))) := by
  have hoffset := ha.offset_eq_zero hbounded hkind (Aggregated.mem_of_field hf)
  have hoffset' := ha.offset_eq_zero hbounded hkind (Aggregated.mem_of_field hg)
  have hcovers := covers_of_mem ha hbounded (Aggregated.mem_of_field hg)
  rw [h.get hg hcovers, get_of_covers hg hcovers, read, hk₂, hoffset, hoffset']
  exact ⟨rfl, rfl⟩

theorem get_narrow (h₁ : k₁.IsInteger) (h₂ : k₂.IsInteger) (hk₁ : f.shape = .scalar k₁)
    (hk₂ : g.shape = .scalar k₂) (hsize : k₂.size ≤ k₁.size) (hset : a.set i v = .ok b) :
    b.get j = ((Shape.scalar k₁).coerce v).bind (Shape.scalar k₂).coerce := by
  obtain ⟨new, hnew, hputs⟩ := puts_of_set hf hset
  rw [hk₁] at hnew
  have hlength : new.length = k₁.size := Shape.length_of_encode hnew
  have hroom : 0 + new.length ≤ a.bytes.length := by
    rw [hlength, Nat.zero_add, ← Shape.size, ← hk₁]
    exact room_of_mem ha hbounded (Aggregated.mem_of_field hf)
  have hstored : (Shape.scalar k₁).coerce v = .ok (k₁.decode new) := by
    rw [Shape.coerce, hnew]
    rfl
  have hlow : k₂.decode (new.take k₂.size) = k₂.decode new := Shape.decode_take (.scalar k₂) new
  rw [(hputs.get_union ha hbounded hkind hf hg hk₂).2, slice_overlay_front hroom (hlength ▸ hsize),
    hlow, hstored]
  exact (Shape.coerce_decode_of_size_le h₂ h₁ hsize new).symm

theorem get_wide (hk₁ : f.shape = .scalar k₁) (hk₂ : g.shape = .scalar k₂)
    (hsize : k₁.size < k₂.size) {n : Number} (hn : v.number? = some n)
    (hset : a.set i v = .ok b) :
    a.get j = .ok (k₂.decode (slice 0 k₂.size a.bytes)) ∧
      b.get j = .ok (k₂.decode (k₁.encode n ++ (slice 0 k₂.size a.bytes).drop k₁.size)) := by
  obtain ⟨new, hnew, hputs⟩ := puts_of_set hf hset
  obtain rfl : k₁.encode n = new := by
    rw [hk₁, Shape.encode, hn] at hnew
    exact Except.ok.inj hnew
  have hlength : (k₁.encode n).length = k₁.size := k₁.length_encode n
  have hroom : 0 + (k₁.encode n).length ≤ a.bytes.length := by
    rw [hlength, Nat.zero_add, ← Shape.size, ← hk₁]
    exact room_of_mem ha hbounded (Aggregated.mem_of_field hf)
  obtain ⟨hold, hget⟩ := hputs.get_union ha hbounded hkind hf hg hk₂
  refine ⟨hold, ?_⟩
  rw [hget, slice_overlay_long hroom (hlength ▸ Nat.le_of_lt hsize), hlength]

theorem get_bits (h₂ : k₂.IsInteger) (hk₁ : f.shape = .scalar k₁) (hk₂ : g.shape = .scalar k₂)
    (hsize : k₁.size < k₂.size) {n : Number} (hn : v.number? = some n)
    (hset : a.set i v = .ok b) {p : Nat} (hp : p < k₂.modulus)
    (hget : a.get j = .ok (k₂.ofPattern p)) :
    b.get j = .ok (k₂.ofPattern (p / k₁.modulus * k₁.modulus + k₁.pattern n)) := by
  obtain ⟨hold, hnew⟩ := get_wide ha hbounded hkind hf hg hk₁ hk₂ hsize hn hset
  let old := slice 0 k₂.size a.bytes
  have hlength : old.length = k₂.size := by
    have hroom := room_of_mem ha hbounded (Aggregated.mem_of_field hg)
    rw [hk₂] at hroom
    exact List.length_take_of_le hroom
  have hpattern : p = LittleEndian.decode old := by
    rw [hold, k₂.decode_of_length hlength] at hget
    have hlt : LittleEndian.decode old < k₂.modulus := by
      rw [ScalarKind.modulus, ← hlength]
      exact LittleEndian.decode_lt old
    exact (ScalarKind.eq_of_ofPattern_eq h₂ hlt hp (Except.ok.inj hget)).symm
  have hwhole : (k₁.encode n ++ old.drop k₁.size).length = k₂.size := by
    rw [List.length_append, k₁.length_encode, List.length_drop]
    omega
  rw [hnew, k₂.decode_of_length hwhole, k₁.decode_encode_append, hpattern]

/-- One statement for each comparison of the widths. -/
theorem overlays (h₁ : k₁.IsInteger) (h₂ : k₂.IsInteger) (hk₁ : f.shape = .scalar k₁)
    (hk₂ : g.shape = .scalar k₂) : a.Overlays i j k₁ k₂ where
  narrow hsize _ _ := get_narrow ha hbounded hkind hf hg h₁ h₂ hk₁ hk₂ hsize
  integer hsize _ _ _ hz hset :=
    (get_narrow ha hbounded hkind hf hg h₁ h₂ hk₁ hk₂ hsize hset).trans
      (Shape.coerce_through h₂ h₁ hsize hz)
  wide hsize _ _ _ := get_wide ha hbounded hkind hf hg hk₁ hk₂ hsize
  bits hsize _ _ _ _ hn hset hp hget :=
    get_bits ha hbounded hkind hf hg h₂ hk₁ hk₂ hsize hn hset hp hget

end

/-- In place a field is written as in a copy, or not at all. -/
theorem writeInPlace_run (hcovers : a.Covers f) (v : Value) :
    (f.writeInPlace v).run a.bytes =
      match a.write f v with
      | .ok b => .ok () b.bytes
      | .error e => .error (.of e) a.bytes := by
  have hinside : f.offset + f.shape.size ≤ a.bytes.length := hcovers
  have hroom : f.shape.size ≤ (a.bytes.drop f.offset).length := by
    rw [List.length_drop]
    omega
  rw [Field.writeInPlace, Writing.behind_run (by omega) (Shape.writeInPlace_eq hroom),
    Shape.writeStrict_encode _ _ hroom]
  cases hnew : f.shape.encode v with
  | error e =>
    rw [write_error hcovers hnew]
    rfl
  | ok new =>
    obtain ⟨b, hb, hputs⟩ := exists_write hcovers hnew
    have hlength := Shape.length_of_encode hnew
    have hbytes : b.bytes = a.bytes.take f.offset ++
        (new ++ (a.bytes.drop f.offset).drop f.shape.size) := by
      rw [hputs.bytes, overlay_eq (hlength ▸ hinside), hlength]
    rw [hb]
    exact congrArg (EStateM.Result.ok ()) hbytes.symm

theorem fieldLaws (hl : Layouts.compute t = .ok l) (ha : (Value.aggregate a).Own l)
    (hbounded : a.layout.bounded) (hf : a.layout.field i = .ok f) : a.FieldLaws i f := by
  obtain ⟨_, _, _, _, hconforms⟩ := Layouts.exists_conforms hl ha
  have hmem := Aggregated.mem_of_field hf
  have hcovers := covers_of_mem hconforms hbounded hmem
  have hnamed := hconforms.fieldNamed hmem
  refine ⟨fun v e he => ?_, fun v w hw => ?_, ⟨?_, fun v => ?_⟩,
    fun hkind j g hg k₁ k₂ => overlays hconforms hbounded hkind hf hg⟩
  · have he : f.shape.encode v = .error e := Shape.encode_error_of_coerce he
    rw [set_of_field hf, writeInPlace_run hcovers, write_error hcovers he]
    exact ⟨rfl, rfl⟩
  · obtain ⟨new, hnew, rfl⟩ := Shape.exists_encode_of_coerce hw
    obtain ⟨b, hb, hputs⟩ := exists_write hcovers hnew
    refine ⟨b, (set_of_field hf).trans hb,
      hputs.updated hconforms hbounded hf (Shape.length_of_encode hnew), ?_⟩
    rw [writeInPlace_run hcovers, hb]
  · rw [getNamed, hnamed, get, hf]
  · rw [setNamed, hnamed, set_of_field hf]

end Aggregate

/-- Every aggregate of a valid table obeys the laws of its fields, if its size is below 2⁶⁴. -/
theorem TypeTable.field_laws_of_valid (t : TypeTable) (h : t.validate = .ok ()) :
    ∃ l, Layouts.compute t = .ok l ∧ ∀ a, (Value.aggregate a).Own l → a.layout.bounded →
      ∀ i f, a.layout.field i = .ok f → a.FieldLaws i f := by
  obtain ⟨l, hl, _⟩ := Layouts.exists_compute h
  exact ⟨l, hl, fun a ha hbounded i f hf => a.fieldLaws hl ha hbounded hf⟩

/-- An integer and its lowest byte in one place. -/
def TypeTable.overlaid : TypeTable :=
  let fields : List (String × TypeId) := [("whole", .ofPosition 0), ("part", .ofPosition 1)]
  ⟨#[.scalar .i32, .scalar .u8, .union "Overlaid" ⟨fields, by decide⟩]⟩

/-- The union of the table. -/
def Aggregated.overlaid : AggregateLayout :=
  ⟨.ofPosition 2, "Overlaid", .union, [⟨"whole", 0, .ofPosition 0, .scalar .i32⟩,
    ⟨"part", 0, .ofPosition 1, .scalar .u8⟩], 4, 4⟩

theorem Layouts.compute_overlaid : compute .overlaid =
    .ok ⟨.overlaid, #[.scalar .i32, .scalar .u8, .aggregate .overlaid]⟩ := rfl

theorem TypeTable.field_laws_of_overlaid : overlaid.validate = .ok () ∧
    ∃ l, Layouts.compute .overlaid = .ok l ∧ (Value.aggregate (.zero .overlaid)).Own l ∧
      Aggregated.overlaid.bounded ∧
      ∃ f g, Aggregated.overlaid.field 0 = .ok f ∧ Aggregated.overlaid.field 1 = .ok g ∧
        (Aggregate.zero .overlaid).FieldLaws 0 f ∧
        (Aggregate.zero .overlaid).FieldLaws 1 g := by
  refine ⟨by decide, ?_⟩
  obtain ⟨l, hl, hlaws⟩ := overlaid.field_laws_of_valid (by decide)
  cases Layouts.compute_overlaid.symm.trans hl
  have hbounded : Aggregated.overlaid.bounded := by decide
  have hlaws := hlaws (.zero .overlaid) rfl hbounded
  exact ⟨_, hl, rfl, hbounded, _, _, rfl, rfl, hlaws 0 _ rfl, hlaws 1 _ rfl⟩

namespace Aggregate

/-- The number 300 as a double. -/
def threeHundred : Double := ⟨0x4072c00000000000⟩

/-- A number with a fraction is clamped to the field that is set, and only then cut to the lower
byte. -/
theorem part_of_clamped : ∃ b, (zero .overlaid).set 0 (.float threeHundred) = .ok b ∧
    b.get 1 = .ok (.uint 44) := by
  have hwide : ScalarKind.i32.pattern (.real threeHundred) = 300 := by decide +kernel
  have hencode : (Shape.scalar .i32).encode (.float threeHundred) = .ok [44, 1, 0, 0] := by
    change Except.ok (LittleEndian.encode 4 (ScalarKind.i32.pattern (.real threeHundred))) = _
    rw [hwide]
    rfl
  let f : FieldLayout := ⟨"whole", 0, .ofPosition 0, .scalar .i32⟩
  have hcovers : (zero .overlaid).Covers f := by decide
  obtain ⟨b, hb, hputs⟩ := exists_write hcovers hencode
  exact ⟨b, hb, hputs.get (j := 1) rfl (by decide)⟩

theorem coerce_clamped : (Shape.scalar .u8).coerce (.float threeHundred) = .ok (.uint 255) := by
  have hnarrow : ScalarKind.u8.pattern (.real threeHundred) = 255 := by decide +kernel
  rw [Shape.coerce_scalar .u8 (n := .real threeHundred) rfl, hnarrow]
  rfl

end Aggregate

/-- A byte, types that take twice as much as the one before and a byte, so that type `k` takes
`2 ^ (k + 1) - 1` bytes, and at last a struct with such a type of 2⁶⁴ - 1 bytes between two bytes.
The offset of its last field wraps around to zero. -/
def TypeTable.crammed : TypeTable :=
  let odd (k : Nat) : TypeDef := .struct "Odd"
    (.ofList [("left", .ofPosition k), ("right", .ofPosition k), ("rest", .ofPosition 0)])
  let last : TypeDef := .struct "Crammed"
    (.ofList [("first", .ofPosition 0), ("middle", .ofPosition 63), ("last", .ofPosition 0)])
  ⟨(.scalar .u8 :: (List.range 63).map odd ++ [last]).toArray⟩

/-- What the last field of the struct shows before and after the first has been set to 7. -/
def crammedReadings : Option (UInt64 × UInt64) :=
  match Layouts.compute .crammed with
  | .error _ => none
  | .ok l =>
    match l.shape (.ofPosition 64) with
    | .ok (.aggregate ⟨id, name, .struct, fields, size, align⟩) =>
      let a := Aggregate.zero ⟨id, name, .struct, fields, size, align⟩
      match a.set 0 (.uint 7) with
      | .error _ => none
      | .ok b =>
        match a.get 2, b.get 2 with
        | .ok (.uint before), .ok (.uint after) => some (before, after)
        | _, _ => none
    | _ => none

theorem Aggregate.shared_in_crammed : ∃ l, Layouts.compute .crammed = .ok l ∧
    ∃ a b, (Value.aggregate a).Own l ∧ a.layout.kind = .struct ∧ a.set 0 (.uint 7) = .ok b ∧
      a.get 2 = .ok (.uint 0) ∧ b.get 2 = .ok (.uint 7) := by
  have hreadings : crammedReadings = some (0, 7) := by decide +kernel
  unfold crammedReadings at hreadings
  split at hreadings
  case h_1 => cases hreadings
  next l hl =>
  split at hreadings
  case h_2 => cases hreadings
  next id name fields size align hshape =>
  dsimp only at hreadings
  split at hreadings
  case h_1 => cases hreadings
  next b hset =>
  split at hreadings
  case h_2 => cases hreadings
  next before after hbefore hafter =>
  cases hreadings
  have hown : (Value.aggregate (.zero ⟨id, name, .struct, fields, size, align⟩)).Own l :=
    Layouts.own_of_compute hl hshape
  exact ⟨l, hl, _, b, hown, rfl, hset, hbefore, hafter⟩

/-- What is not true of all fields: in a union, a number with a fraction may show in another field
as something else than what it is converted to there; in a struct whose size wraps around, two
fields may share a byte. -/
theorem Aggregate.fields_interfere :
    (TypeTable.overlaid.validate = .ok () ∧
      ∃ l b, Layouts.compute .overlaid = .ok l ∧ (Value.aggregate (.zero .overlaid)).Own l ∧
        (Aggregate.zero .overlaid).set 0 (.float threeHundred) = .ok b ∧
        b.get 1 = .ok (.uint 44) ∧
        (Shape.scalar .u8).coerce (.float threeHundred) = .ok (.uint 255) ∧
        b.get 1 ≠ (Shape.scalar .u8).coerce (.float threeHundred)) ∧
    TypeTable.crammed.validate = .ok () ∧
      ∃ l, Layouts.compute .crammed = .ok l ∧
        ∃ a b, (Value.aggregate a).Own l ∧ a.layout.kind = .struct ∧ a.set 0 (.uint 7) = .ok b ∧
          a.get 2 = .ok (.uint 0) ∧ b.get 2 = .ok (.uint 7) := by
  obtain ⟨b, hset, hpart⟩ := part_of_clamped
  obtain ⟨l, hl, hshared⟩ := shared_in_crammed
  refine ⟨⟨by decide, _, b, Layouts.compute_overlaid, rfl, hset, hpart, coerce_clamped, ?_⟩,
    Layouts.validate_of_compute hl, l, hl, hshared⟩
  rw [hpart, coerce_clamped]
  intro h
  injection h with h
  injection h with h
  exact absurd h (by decide)

end ForeignVM
