import ForeignVM.Proofs.DelayedNarrowing

/-!
# ForeignVM.Proofs.LowBits

Narrowing is modular arithmetic. Whatever class an integer or a boolean is of, an integer kind
makes of it the one number of its range that has the same low bits. So a kind sees nothing of a
wider one through which the number has gone before, and a cast is a coercion.

* `ScalarClass`         — the class of a value, and that of the values of a kind.
* `ScalarKind.bits`, `ScalarKind.Fits` — the width of a kind, and its range.
* `Value.Represents`    — an integer as a value of an integer kind; `Shape.coerce_represents`.
* `Shape.coerce_through` — narrowing by way of a wider kind.
* `Machine.Casts`       — what the instruction does; `Machine.casts` for every machine.
* `narrowing_modular`   — all of it, for every value that is an integer or a boolean.
-/

namespace ForeignVM

/-! ## Classes -/

/-- Values tell four classes of scalars apart. Kinds of one class differ only in storage. -/
inductive ScalarClass where
  | bool
  | signed
  | unsigned
  | float
  deriving DecidableEq, Repr

namespace ScalarClass

def ofKind : ScalarKind → ScalarClass
  | .bool => bool
  | .i8 | .i16 | .i32 | .i64 => signed
  | .u8 | .u16 | .u32 | .u64 => unsigned
  | .f32 | .f64 => float

def ofValue? : Value → Option ScalarClass
  | .bool _ => some bool
  | .int _ => some signed
  | .uint _ => some unsigned
  | .float _ => some float
  | _ => none

end ScalarClass

/-- What a cast may convert from a kind are the values of its class. -/
theorem Value.isOfKind_iff {v : Value} {k : ScalarKind} :
    v.isOfKind k = true ↔ ScalarClass.ofValue? v = some (.ofKind k) := by
  cases v <;> cases k <;>
    simp [isOfKind, ScalarKind.isSigned, ScalarKind.isFloat, ScalarClass.ofValue?,
      ScalarClass.ofKind]

theorem Value.exists_number {v : Value} {c : ScalarClass} (h : ScalarClass.ofValue? v = some c) :
    ∃ n, v.number? = some n := by
  cases v with
  | bool b => exact ⟨_, rfl⟩
  | int i => exact ⟨_, rfl⟩
  | uint u => exact ⟨_, rfl⟩
  | float x => exact ⟨_, rfl⟩
  | void | pointer _ | proc _ | aggregate _ => cases h

/-! ## Widths -/

namespace ScalarKind

def bits (k : ScalarKind) : Nat := 8 * k.size

theorem modulus_eq (k : ScalarKind) : k.modulus = 2 ^ k.bits := by cases k <;> rfl

/-- The integers of so many bits, in two's complement if the kind has a sign. -/
def Fits (k : ScalarKind) (z : Int) : Prop :=
  if k.isSigned then -2 ^ (k.bits - 1) ≤ z ∧ z < 2 ^ (k.bits - 1) else 0 ≤ z ∧ z < 2 ^ k.bits

theorem low_eq (k : ScalarKind) : k.low = if k.isSigned then -2 ^ (k.bits - 1) else 0 := by
  cases k <;> rfl

theorem high_eq (k : ScalarKind) :
    k.high + 1 = if k.isSigned then 2 ^ (k.bits - 1) else 2 ^ k.bits := by
  cases k <;> rfl

theorem fits_iff {k : ScalarKind} {z : Int} : k.Fits z ↔ k.InRange z := by
  rw [InRange, ← Int.lt_add_one_iff (b := k.high), low_eq, high_eq, Fits]
  split <;> rfl

theorem modulus_dvd_of_size_le {k₁ k₂ : ScalarKind} (h : k₁.size ≤ k₂.size) :
    k₁.modulus ∣ k₂.modulus :=
  Nat.pow_dvd_pow 256 h

end ScalarKind

/-! ## Integers as values -/

/-- The value is the integer `y`, as the kind has its integers: with or without a sign. -/
inductive Value.Represents (k : ScalarKind) : Value → Int → Prop where
  | signed {i : Int64} (h : k.isSigned = true) : Represents k (.int i) i.toInt
  | unsigned {u : UInt64} (h : k.isSigned = false) : Represents k (.uint u) u.toNat

namespace Value

variable {k : ScalarKind} {v w : Value} {y z : Int}

theorem represents_integer (hk : k.IsInteger) (h : v.isOfKind k = true) :
    v.Represents k v.integer := by
  obtain ⟨i, rfl, hsigned⟩ | ⟨u, rfl, hunsigned⟩ := eq_int_or_uint hk h
  · exact .signed hsigned
  · exact .unsigned hunsigned

theorem Represents.number? (h : v.Represents k y) : v.number? = some (.integer y) := by
  cases h <;> rfl

/-- A kind has one value for each integer. -/
theorem Represents.unique (h : v.Represents k y) (h' : w.Represents k y) : v = w := by
  generalize hy : y = x at h'
  cases h with
  | signed hs =>
    cases h' with
    | signed _ => exact congrArg _ (Int64.toInt_inj.mp hy)
    | unsigned hu => exact absurd (hs.symm.trans hu) (by decide)
  | unsigned hu =>
    cases h' with
    | signed hs => exact absurd (hs.symm.trans hu) (by decide)
    | unsigned _ => exact congrArg _ (UInt64.toNat_inj.mp (Int.ofNat_inj.mp hy))

theorem represents_of_class (hk : k.IsInteger) (h : v.number? = some (.integer z))
    (hclass : ScalarClass.ofValue? v = some (.ofKind k)) : v.Represents k z := by
  have hrepresents := represents_integer hk (isOfKind_iff.mpr hclass)
  cases hrepresents.number?.symm.trans h
  exact hrepresents

end Value

namespace Shape

variable {k k₁ k₂ : ScalarKind} {v : Value} {z : Int}

/-- Integers and booleans are narrowed to the number in range that has their low bits. -/
theorem coerce_represents (hk : k.IsInteger) (h : v.number? = some (.integer z)) :
    ∃ w y, (scalar k).coerce v = .ok w ∧ w.Represents k y ∧ k.InRange y ∧
      y ≡ z [ZMOD k.modulus] := by
  obtain ⟨w, hw, hholds, hrange⟩ := coerce_integer hk h
  exact ⟨w, w.integer, hw, Value.represents_integer hk hholds.kind, hrange, hholds.modEq⟩

theorem coerce_eq (hk : k.IsInteger) (h : v.number? = some (.integer z)) {w : Value} {y : Int}
    (hw : w.Represents k y) (hrange : k.InRange y) (hmod : y ≡ z [ZMOD k.modulus]) :
    (scalar k).coerce v = .ok w := by
  obtain ⟨w', y', hcoerce, hw', hrange', hmod'⟩ := coerce_represents hk h
  obtain rfl := hrange'.eq_of_modEq hrange (hmod'.trans hmod.symm)
  rw [hcoerce, hw.unique hw']

/-- A kind sees only bits that a wider one has kept. -/
theorem coerce_through (h₁ : k₁.IsInteger) (h₂ : k₂.IsInteger) (hsize : k₁.size ≤ k₂.size)
    (h : v.number? = some (.integer z)) :
    ((scalar k₂).coerce v).bind (scalar k₁).coerce = (scalar k₁).coerce v := by
  have hdvd : (k₁.modulus : Int) ∣ k₂.modulus :=
    Int.natCast_dvd_natCast.mpr (ScalarKind.modulus_dvd_of_size_le hsize)
  obtain ⟨wide, x, hwide, hx, -, hxz⟩ := coerce_represents h₂ h
  obtain ⟨w, y, hw, hy, hrange, hyz⟩ := coerce_represents h₁ h
  rw [hwide, hw]
  exact coerce_eq h₁ hx.number? hy hrange (hyz.trans (hxz.of_dvd hdvd).symm)

theorem coerce_bool (h : v.number? = some (.integer z)) :
    (scalar .bool).coerce v = .ok (.bool (z ≠ 0)) := by
  rw [coerce_scalar _ h, ScalarKind.pattern, ScalarKind.ofPattern]
  by_cases hz : z = 0 <;> simp [Number.isZero, hz]

end Shape

/-- What narrowing makes of a value that is the integer `z`, or a boolean for which `z` stands. -/
structure Value.NarrowsModularly (v : Value) (z : Int) : Prop where
  /-- The number in range that has the same low bits; there is only one. -/
  integer : ∀ k : ScalarKind, k.IsInteger → ∃ w y, (Shape.scalar k).coerce v = .ok w ∧
    w.Represents k y ∧ k.Fits y ∧ y ≡ z [ZMOD 2 ^ k.bits] ∧
    ∀ y', k.Fits y' → y' ≡ z [ZMOD 2 ^ k.bits] → y' = y
  bool : (Shape.scalar .bool).coerce v = .ok (.bool (z ≠ 0))
  /-- A number in range stays the same number. -/
  kept : ∀ k : ScalarKind, k.IsInteger → k.Fits z →
    ∃ w, (Shape.scalar k).coerce v = .ok w ∧ w.Represents k z
  /-- If the class is that of the kind, even the value stays. -/
  same : ∀ k : ScalarKind, k = .bool ∨ k.IsInteger ∧ k.Fits z →
    ScalarClass.ofValue? v = some (.ofKind k) → (Shape.scalar k).coerce v = .ok v
  /-- By way of a kind that is not narrower. -/
  through : ∀ k₁ k₂ : ScalarKind, k₁.IsInteger → k₂.IsInteger → k₁.size ≤ k₂.size →
    ((Shape.scalar k₂).coerce v).bind (Shape.scalar k₁).coerce = (Shape.scalar k₁).coerce v

open ScalarKind in
theorem Value.narrowsModularly {v : Value} {z : Int} (h : v.number? = some (.integer z)) :
    v.NarrowsModularly z where
  integer k hk := by
    obtain ⟨w, y, hw, hy, hrange, hmod⟩ := Shape.coerce_represents hk h
    have hpow : (k.modulus : Int) = 2 ^ k.bits := by rw [k.modulus_eq]; exact Int.natCast_pow 2 _
    rw [hpow] at hmod
    refine ⟨w, y, hw, hy, fits_iff.mpr hrange, hmod, fun y' hfits hmod' => ?_⟩
    exact (fits_iff.mp hfits).eq_of_modEq hrange (hpow ▸ hmod'.trans hmod.symm)
  bool := Shape.coerce_bool h
  kept k hk hfits := by
    obtain ⟨w, y, hw, hy, hrange, hmod⟩ := Shape.coerce_represents hk h
    obtain rfl := hrange.eq_of_modEq (fits_iff.mp hfits) hmod
    exact ⟨w, hw, hy⟩
  same k hk hclass := by
    rcases hk with rfl | ⟨hk, hfits⟩
    · rw [Shape.coerce_bool h]
      cases v with
      | bool b => cases h; cases b <;> rfl
      | int _ | uint _ | float _ => cases hclass
      | void | pointer _ | proc _ | aggregate _ => cases hclass
    · have hrepresents := represents_of_class hk h hclass
      exact Shape.coerce_eq hk h hrepresents (fits_iff.mp hfits) (.refl _)
  through _ _ h₁ h₂ hsize := Shape.coerce_through h₁ h₂ hsize h

/-! ## Casts -/

namespace Machine

open ForeignVM.Action

/-- What a cast does, whose operand holds the code of a kind in each half. -/
structure Casts {σ τ : Type} (m : Machine σ) (watch : Observer τ) : Prop where
  /-- A value of the class of the first kind gives way to what the second one makes of it. -/
  known : ∀ (s : State σ τ) (v : Value) (kinds : UInt8) (source target : ScalarKind)
    (ip next : UInt32), ScalarKind.ofCode? (kinds.toNat / 16) = some source →
    ScalarKind.ofCode? (kinds.toNat % 16) = some target → s.calls.base ≤ s.operands.height →
    ScalarClass.ofValue? v = some (.ofKind source) →
    ∃ w, (Shape.scalar target).coerce v = .ok w ∧
      m.step watch ⟨.cast kinds, ip, next⟩ { s with operands := s.operands.push v } =
        .ok none { s with operands := s.operands.push w }
  /-- Any other value is refused. -/
  other : ∀ (s : State σ τ) (v : Value) (kinds : UInt8) (source target : ScalarKind)
    (ip next : UInt32), ScalarKind.ofCode? (kinds.toNat / 16) = some source →
    ScalarKind.ofCode? (kinds.toNat % 16) = some target → s.calls.base ≤ s.operands.height →
    ScalarClass.ofValue? v ≠ some (.ofKind source) →
    m.step watch ⟨.cast kinds, ip, next⟩ { s with operands := s.operands.push v } =
      .error (.typeMismatch source.name v.kindName) s
  /-- Unknown codes are refused, whatever the operands are. -/
  unknown : ∀ (s : State σ τ) (kinds : UInt8) (ip next : UInt32),
    ScalarKind.ofCode? (kinds.toNat / 16) = none ∨ ScalarKind.ofCode? (kinds.toNat % 16) = none →
    m.step watch ⟨.cast kinds, ip, next⟩ s = .error (.invalidCast kinds) s

variable {σ τ : Type} (m : Machine σ) (watch : Observer τ) {s : State σ τ} {v w : Value}
  {kinds : UInt8} {source target : ScalarKind}

theorem step_cast (hkinds : Cast.unpack? kinds = some (source, target))
    (hs : s.calls.base ≤ s.operands.height) (ip next : UInt32) :
    m.step watch ⟨.cast kinds, ip, next⟩ { s with operands := s.operands.push v } =
      match v.castTo source target with
      | .ok w => .ok none { s with operands := s.operands.push w }
      | .error e => .error e s := by
  have hcast : (cast ip kinds : Action σ τ Unit) { s with operands := s.operands.push v } =
      match v.castTo source target with
      | .ok w => .ok () { s with operands := s.operands.push w }
      | .error e => .error e s := by
    rw [cast, hkinds]
    change (pop ip >>= _) _ = _
    rw [bind_ok (pop_push ip hs)]
    cases v.castTo source target <;> rfl
  change (cast ip kinds >>= fun _ => pure none) _ = _
  rw [bind_run, hcast]
  cases v.castTo source target <;> rfl

theorem casts : m.Casts watch where
  known s v kinds source target ip next hsource htarget hs hclass := by
    have hkinds : Cast.unpack? kinds = some (source, target) := by
      rw [Cast.unpack?, hsource, htarget]
    obtain ⟨n, hn⟩ := Value.exists_number hclass
    refine ⟨_, Shape.coerce_scalar target hn, ?_⟩
    rw [m.step_cast watch hkinds hs, Value.castTo, if_pos (Value.isOfKind_iff.mpr hclass),
      Shape.coerce_scalar target hn]
  other s v kinds source target ip next hsource htarget hs hclass := by
    have hkinds : Cast.unpack? kinds = some (source, target) := by
      rw [Cast.unpack?, hsource, htarget]
    rw [m.step_cast watch hkinds hs, Value.castTo, if_neg (mt Value.isOfKind_iff.mp hclass)]
    rfl
  unknown s kinds ip next h := by
    have hkinds : Cast.unpack? kinds = none := by
      unfold Cast.unpack?
      rcases h with h | h
      · rw [h]
      · rw [h]
        cases ScalarKind.ofCode? (kinds.toNat / 16) <;> rfl
    change (cast ip kinds >>= fun _ => pure none) s = _
    rw [cast, hkinds]
    rfl

end Machine

/-- Narrowing to integers and booleans is modular arithmetic for every integer and boolean, and
casts do nothing else. -/
theorem narrowing_modular :
    (∀ (v : Value) (z : Int), v.number? = some (.integer z) → v.NarrowsModularly z) ∧
      ∀ {σ τ : Type} (m : Machine σ) (watch : Observer τ), m.Casts watch :=
  ⟨fun _ _ => Value.narrowsModularly, fun m watch => m.casts watch⟩

/-- `-200` as a signed byte is `56`, also by way of an unsigned kind, and a cast to an unsigned byte
gives the same number. -/
theorem narrowing_modular_negative :
    (Value.int (-200)).number? = some (.integer (-200)) ∧
      (Shape.scalar .i8).coerce (.int (-200)) = .ok (.int 56) ∧
      ((Shape.scalar .u16).coerce (.int (-200))).bind (Shape.scalar .i8).coerce = .ok (.int 56) ∧
      ∃ (m : Machine Unit) (s : State Unit Unit), s.calls.base ≤ s.operands.height ∧
        m.step .silent ⟨.cast (Cast.pack .i16 .u8), 0, 2⟩
            { s with operands := s.operands.push (.int (-200)) } =
          .ok none { s with operands := s.operands.push (.uint 56) } := by
  have hnumber : (Value.int (-200)).number? = some (.integer (-200)) := rfl
  have hnarrows := narrowing_modular.1 _ _ hnumber
  have hbyte : (Shape.scalar .i8).coerce (.int (-200)) = .ok (.int 56) :=
    Shape.coerce_eq (by decide) hnumber (.signed rfl) (by decide) (by decide)
  refine ⟨hnumber, hbyte, ?_, ?_⟩
  · rw [hnarrows.through .i8 .u16 (by decide) (by decide) (by decide), hbyte]
  · let m : Machine Unit :=
      ⟨⟨#[], .empty, .empty, #[], [], #[], none⟩, ⟨.empty, #[]⟩, #[], #[], .standard⟩
    let s : State Unit Unit := .idle .empty .empty () ()
    obtain ⟨w, hw, hstep⟩ := (narrowing_modular.2 m .silent).known s (.int (-200))
      (Cast.pack .i16 .u8) .i16 .u8 0 2 rfl rfl (Nat.le_refl 0) rfl
    cases hw
    exact ⟨m, s, Nat.le_refl 0, hstep⟩

end ForeignVM
