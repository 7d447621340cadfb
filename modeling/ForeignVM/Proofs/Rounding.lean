import ForeignVM.Float.Double

/-!
# ForeignVM.Proofs.Rounding

Rounding leaves a number that the format has as it is. So a number in single precision goes to
double precision and back unchanged; a NaN does so if it is quiet.

* `Format.Canonical`         — a significand of full width, or one of the least exponent.
* `nearest_units`            — rounding the units of a magnitude gives the magnitude.
* `units_nearest`            — a number of few digits is not changed by rounding.
* `Single.toSingle_toDouble` — to double precision and back.
* `Single.toDouble_toSingle` — what has come from single precision goes there and back.
* `Single.Quiet`             — what rounding to single precision gives.
-/

namespace ForeignVM

namespace Format

variable {f : Format} {shift q k : Nat}

/-- The significand `q` has its leading bit in place, unless the exponent is the least one. -/
structure Canonical (f : Format) (shift q : Nat) : Prop where
  lt : q < 2 ^ (f.fraction + 1)
  normal : shift = 0 ∨ 2 ^ f.fraction ≤ q

/-- A magnitude is an exponent with a significand behind it, whose leading bit counts as one more
step of the exponent. -/
theorem exists_canonical (f : Format) (m : Nat) :
    ∃ shift q, Canonical f shift q ∧ m = shift * 2 ^ f.fraction + q := by
  have hsplit := Nat.div_add_mod m (2 ^ f.fraction)
  have hlt := Nat.mod_lt m (Nat.two_pow_pos f.fraction)
  rw [Nat.mul_comm] at hsplit
  cases he : m / 2 ^ f.fraction with
  | zero =>
    rw [he, Nat.zero_mul, Nat.zero_add] at hsplit
    refine ⟨0, m, ⟨?_, .inl rfl⟩, by rw [Nat.zero_mul, Nat.zero_add]⟩
    rw [Nat.pow_succ]
    omega
  | succ e =>
    rw [he, Nat.succ_mul] at hsplit
    refine ⟨e, 2 ^ f.fraction + m % 2 ^ f.fraction, ⟨?_, .inr (Nat.le_add_right _ _)⟩, by omega⟩
    rw [Nat.pow_succ]
    omega

namespace Canonical

theorem units_eq (h : Canonical f shift q) :
    f.units (shift * 2 ^ f.fraction + q) = q * 2 ^ shift := by
  have hpos := Nat.two_pow_pos f.fraction
  have hlt := h.lt
  rw [Nat.pow_succ] at hlt
  unfold units
  by_cases hq : q < 2 ^ f.fraction
  · obtain rfl : shift = 0 := h.normal.resolve_right (Nat.not_le_of_lt hq)
    rw [Nat.zero_mul, Nat.zero_add, Nat.div_eq_of_lt hq, Nat.mod_eq_of_lt hq]
    simp
  · obtain ⟨r, rfl⟩ := Nat.exists_eq_add_of_le (Nat.le_of_not_lt hq)
    have hr : r < 2 ^ f.fraction := by omega
    have hm : shift * 2 ^ f.fraction + (2 ^ f.fraction + r) =
        r + 2 ^ f.fraction * (shift + 1) := by
      rw [Nat.mul_succ, Nat.mul_comm]
      omega
    rw [hm, Nat.add_mul_div_left _ _ hpos, Nat.add_mul_mod_self_left, Nat.div_eq_of_lt hr,
      Nat.mod_eq_of_lt hr]
    simp

/-- The exponent is read off the number of digits. -/
theorem log2_sub (h : Canonical f shift q) : Nat.log2 (q * 2 ^ shift) - f.fraction = shift := by
  have hlt := h.lt
  rcases h.normal with rfl | hq
  · rw [Nat.pow_zero, Nat.mul_one]
    by_cases hzero : q = 0
    · simp [hzero]
    · have hlog := (Nat.log2_lt hzero).mpr hlt
      omega
  · have hpow := Nat.two_pow_pos shift
    have hne : q * 2 ^ shift ≠ 0 :=
      Nat.ne_of_gt (Nat.mul_pos (Nat.lt_of_lt_of_le (Nat.two_pow_pos _) hq) hpow)
    have hlog : Nat.log2 (q * 2 ^ shift) = f.fraction + shift := by
      rw [Nat.log2_eq_iff hne, Nat.pow_add, Nat.add_right_comm, Nat.pow_add]
      exact ⟨Nat.mul_le_mul_right _ hq, Nat.mul_lt_mul_of_pos_right hlt hpow⟩
    omega

/-- The same significand with more digits behind it. -/
theorem double (h : Canonical f shift q) :
    ∃ shift' q', Canonical f shift' q' ∧ q' * 2 ^ shift' = q * 2 ^ shift * 2 ∧
      shift' ≤ shift + 1 := by
  have hlt := h.lt
  by_cases hq : 2 ^ f.fraction ≤ q
  · exact ⟨shift + 1, q, ⟨hlt, .inr hq⟩, by rw [Nat.pow_succ, Nat.mul_assoc], Nat.le_refl _⟩
  · obtain rfl : shift = 0 := h.normal.resolve_right hq
    refine ⟨0, q * 2, ⟨?_, .inl rfl⟩, by simp, Nat.zero_le _⟩
    rw [Nat.pow_succ]
    omega

end Canonical

theorem exists_canonical_mul {a : Nat} (ha : a < 2 ^ (f.fraction + 1)) (b : Nat) :
    ∃ shift q, Canonical f shift q ∧ q * 2 ^ shift = a * 2 ^ b ∧ shift ≤ b := by
  induction b with
  | zero => exact ⟨0, a, ⟨ha, .inl rfl⟩, rfl, Nat.le_refl _⟩
  | succ b ih =>
    obtain ⟨shift, q, hcanonical, heq, hle⟩ := ih
    obtain ⟨shift', q', hcanonical', heq', hle'⟩ := hcanonical.double
    refine ⟨shift', q', hcanonical', ?_, by omega⟩
    rw [heq', heq, Nat.pow_succ, Nat.mul_assoc]

theorem roundHalfEven_mul (q : Nat) (hk : 0 < k) : roundHalfEven (q * k) k = q := by
  simp [roundHalfEven, Nat.mul_div_cancel q hk, hk]

theorem nearest_mul (h : Canonical f shift q) (hk : 0 < k) :
    f.nearest (q * 2 ^ shift * k) k = min (shift * 2 ^ f.fraction + q) f.infinity := by
  simp only [nearest, Nat.mul_div_cancel _ hk, h.log2_sub]
  rw [Nat.mul_assoc, Nat.mul_comm (2 ^ shift) k,
    roundHalfEven_mul q (Nat.mul_pos hk (Nat.two_pow_pos shift))]

theorem nearest_units {m : Nat} (hm : m ≤ f.infinity) (hk : 0 < k) :
    f.nearest (f.units m * k) k = m := by
  obtain ⟨shift, q, h, rfl⟩ := f.exists_canonical m
  rw [h.units_eq, nearest_mul h hk, Nat.min_eq_left hm]

/-- A number whose digits fit the format is below infinity, and rounding does not change it. -/
theorem units_nearest {a b : Nat} (ha : a < 2 ^ (f.fraction + 1))
    (hb : b + 2 < 2 ^ f.exponent) :
    f.nearest (a * 2 ^ b) 1 < f.infinity ∧ f.units (f.nearest (a * 2 ^ b) 1) = a * 2 ^ b := by
  obtain ⟨shift, q, h, heq, hle⟩ := exists_canonical_mul ha b
  have hq := h.lt
  have hfinite : shift * 2 ^ f.fraction + q < f.infinity := by
    have hshift : (shift + 2) * 2 ^ f.fraction ≤ f.infinity :=
      Nat.mul_le_mul_right _ (by omega)
    rw [Nat.add_mul] at hshift
    rw [Nat.pow_succ] at hq
    omega
  have hnearest := nearest_mul h Nat.one_pos
  rw [Nat.mul_one, heq, Nat.min_eq_left (Nat.le_of_lt hfinite)] at hnearest
  rw [hnearest, h.units_eq, heq]
  exact ⟨hfinite, rfl⟩

theorem nearest_le_infinity (f : Format) (num den : Nat) : f.nearest num den ≤ f.infinity :=
  Nat.min_le_right _ _

end Format

/-! ## Sign and magnitude -/

namespace Double

variable {m : Nat}

theorem magnitude_ofMagnitude (negative : Bool) (h : m < 2 ^ 63) :
    (ofMagnitude negative m).magnitude = m := by
  simp only [magnitude, ofMagnitude, UInt64.toNat_ofNat']
  split <;> omega

theorem negative_ofMagnitude (negative : Bool) (h : m < 2 ^ 63) :
    (ofMagnitude negative m).negative = negative := by
  simp only [Double.negative, ofMagnitude, UInt64.toNat_ofNat']
  cases negative <;> simp <;> omega

/-- A NaN with its quiet bit set stays as it is. -/
theorem quiet_ofMagnitude (negative : Bool) (h : m < 2 ^ 63) (hbit : m.testBit 51) :
    (ofMagnitude negative m).quiet = ofMagnitude negative m := by
  have hword : m + (if negative then 2 ^ 63 else 0) < 2 ^ 64 := by split <;> omega
  have htest : (m + if negative then 2 ^ 63 else 0).testBit 51 := by
    cases negative with
    | false => exact hbit
    | true =>
      rw [if_pos rfl, Nat.add_comm, Nat.testBit_two_pow_add_gt (by decide)]
      exact hbit
  simp only [quiet, ofMagnitude, Double.mk.injEq]
  apply UInt64.toNat_inj.mp
  rw [UInt64.toNat_or, UInt64.toNat_ofNat_of_lt' hword]
  refine Nat.eq_of_testBit_eq fun i => ?_
  have hquiet : (0x0008000000000000 : UInt64).toNat = 2 ^ 51 := rfl
  rw [Nat.testBit_or, hquiet, Nat.testBit_two_pow]
  by_cases hi : 51 = i
  · rw [← hi, htest, Bool.true_or]
  · simp [hi]

/-- The quiet bit of a NaN that lacks it is added to the magnitude. -/
theorem quiet_ofMagnitude_add (negative : Bool) (h : m < 2 ^ 63) (hbit : m / 2 ^ 51 % 2 = 0) :
    (ofMagnitude negative m).quiet = ofMagnitude negative (m + 2 ^ 51) := by
  -- the bits above and below the quiet bit
  obtain ⟨high, low, hlow, hword⟩ : ∃ high low, low < 2 ^ 51 ∧
      m + (if negative then 2 ^ 63 else 0) = high <<< 52 + low := by
    refine ⟨(m + if negative then 2 ^ 63 else 0) / 2 ^ 52, m % 2 ^ 51,
      Nat.mod_lt _ (by decide), ?_⟩
    rw [Nat.shiftLeft_eq]
    split <;> omega
  have hor {a : Nat} (ha : a < 2 ^ 52) : high <<< 52 ||| a = high <<< 52 + a :=
    (Nat.shiftLeft_add_eq_or_of_lt ha high).symm
  have hquiet : low ||| 2 ^ 51 = 2 ^ 51 + low :=
    (Nat.or_comm _ _).trans (Nat.two_pow_add_eq_or_of_lt hlow 1).symm
  have hsum : (high <<< 52 + low) ||| 2 ^ 51 = high <<< 52 + low + 2 ^ 51 :=
    calc (high <<< 52 + low) ||| 2 ^ 51
      _ = high <<< 52 ||| (low ||| 2 ^ 51) := by rw [← hor (by omega), Nat.or_assoc]
      _ = high <<< 52 + (2 ^ 51 + low) := by rw [hquiet, hor (by omega)]
      _ = high <<< 52 + low + 2 ^ 51 := by omega
  have hlt : m + (if negative then 2 ^ 63 else 0) < 2 ^ 64 := by split <;> omega
  have hlt' : m + 2 ^ 51 + (if negative then 2 ^ 63 else 0) < 2 ^ 64 := by split <;> omega
  simp only [quiet, ofMagnitude, Double.mk.injEq]
  apply UInt64.toNat_inj.mp
  rw [UInt64.toNat_or, UInt64.toNat_ofNat_of_lt' hlt, UInt64.toNat_ofNat_of_lt' hlt', hword]
  exact hsum.trans (by omega)

end Double

namespace Single

variable {m : Nat}

theorem magnitude_ofMagnitude (negative : Bool) (h : m < 2 ^ 31) :
    (ofMagnitude negative m).magnitude = m := by
  simp only [magnitude, ofMagnitude, UInt32.toNat_ofNat']
  split <;> omega

theorem negative_ofMagnitude (negative : Bool) (h : m < 2 ^ 31) :
    (ofMagnitude negative m).negative = negative := by
  simp only [Single.negative, ofMagnitude, UInt32.toNat_ofNat']
  cases negative <;> simp <;> omega

theorem magnitude_lt (x : Single) : x.magnitude < 2 ^ 31 := Nat.mod_lt _ (by decide)

theorem ofMagnitude_magnitude (x : Single) : ofMagnitude x.negative x.magnitude = x := by
  obtain ⟨bits⟩ := x
  have hlt := bits.toNat_lt
  simp only [ofMagnitude, Single.negative, magnitude, Single.mk.injEq, decide_eq_true_eq]
  apply UInt32.toNat_inj.mp
  rw [UInt32.toNat_ofNat']
  split <;> omega

/-! ## To double precision and back -/

/-- If it is a NaN, its quiet bit is set. -/
def Quiet (x : Single) : Prop :=
  x.isNaN → Format.single.infinity + Format.single.quietBit ≤ x.magnitude

theorem quiet_of_le {m : Nat} (negative : Bool) (h : m ≤ Format.single.infinity) :
    (ofMagnitude negative m).Quiet := by
  intro hnan
  have hlt : m < 2 ^ 31 := Nat.lt_of_le_of_lt h (by decide)
  simp only [isNaN, magnitude_ofMagnitude negative hlt, decide_eq_true_eq] at hnan
  omega

theorem quiet_ofInt (z : Int) : (ofInt z).Quiet :=
  quiet_of_le _ (Format.nearest_le_infinity _ _ _)

theorem quiet_toSingle (x : Double) : x.toSingle.Quiet := by
  unfold Double.toSingle
  split
  · intro _
    dsimp only
    have hmod : ∀ p, p % Format.single.quietBit < Format.single.quietBit :=
      fun p => Nat.mod_lt p (by decide)
    rw [magnitude_ofMagnitude]
    · omega
    · have hlt := hmod ((x.magnitude - Format.double.infinity) / 2 ^ 29)
      have hquiet : Format.single.quietBit = 2 ^ 22 := rfl
      have hinf : Format.single.infinity = 255 * 2 ^ 23 := rfl
      omega
  · split
    · exact quiet_of_le _ (Nat.le_refl _)
    · exact quiet_of_le _ (Format.nearest_le_infinity _ _ _)

/-- A finite number is finite in double precision, and no digit is lost. -/
theorem units_toDouble {x : Single} (h : x.magnitude < Format.single.infinity) :
    ∃ m, m < Format.double.infinity ∧ x.toDouble = Double.ofMagnitude x.negative m ∧
      Format.double.units m =
        Format.single.units x.magnitude *
          2 ^ (Format.double.unitBits - Format.single.unitBits) := by
  obtain ⟨shift, q, hcanonical, hm⟩ := Format.single.exists_canonical x.magnitude
  have hq : q < 2 ^ (Format.double.fraction + 1) :=
    Nat.lt_trans hcanonical.lt (by decide)
  have hshift : shift < 255 := by
    have hpos : 0 < 2 ^ 23 := by decide
    refine Nat.lt_of_mul_lt_mul_right (a := 2 ^ 23) (Nat.lt_of_le_of_lt ?_ h)
    rw [hm]
    exact Nat.le_add_right _ _
  obtain ⟨hfinite, hunits⟩ := Format.units_nearest hq
    (b := shift + (Format.double.unitBits - Format.single.unitBits))
    (by
      have hbits : Format.double.unitBits - Format.single.unitBits = 925 := rfl
      have hexp : 2 ^ Format.double.exponent = 2048 := rfl
      omega)
  have hwide : Format.single.units x.magnitude *
      2 ^ (Format.double.unitBits - Format.single.unitBits) =
        q * 2 ^ (shift + (Format.double.unitBits - Format.single.unitBits)) := by
    rw [hm, hcanonical.units_eq, Nat.pow_add, Nat.mul_assoc]
  refine ⟨_, hfinite, ?_, hunits.trans hwide.symm⟩
  have hnan : x.isNaN = false := decide_eq_false (by omega)
  rw [toDouble, hnan, if_neg (by decide), if_neg (Nat.ne_of_lt h), Double.nearest, hwide]

/-- The payload of a quiet NaN is moved up and down again. -/
theorem toSingle_toDouble_of_isNaN {x : Single} (hquiet : x.Quiet) (hnan : x.isNaN) :
    x.toDouble.toSingle = x := by
  obtain ⟨p, hp⟩ := Nat.exists_eq_add_of_le (hquiet hnan)
  have hsingle : Format.single.infinity = 255 * 2 ^ 23 := rfl
  have hquietBit : Format.single.quietBit = 2 ^ 22 := rfl
  have hdouble : Format.double.infinity = 2047 * 2 ^ 52 := rfl
  have hlt := x.magnitude_lt
  have hpayload : p < 2 ^ 22 := by omega
  let m := Format.double.infinity + (x.magnitude - Format.single.infinity) * 2 ^ 29
  have hm : m < 2 ^ 63 := by omega
  have hbit : m.testBit 51 := by
    rw [Nat.testBit_eq_decide_div_mod_eq, decide_eq_true_eq]
    omega
  have hwide : x.toDouble = Double.ofMagnitude x.negative m := by
    rw [toDouble, if_pos hnan, Double.quiet_ofMagnitude x.negative hm hbit]
  have hnan' : (Double.ofMagnitude x.negative m).isNaN := by
    rw [Double.isNaN, Double.magnitude_ofMagnitude _ hm, decide_eq_true_eq]
    omega
  have hback : Format.single.infinity +
      ((m - Format.double.infinity) / 2 ^ 29 % Format.single.quietBit +
        Format.single.quietBit) = x.magnitude := by
    rw [Nat.add_sub_cancel_left, Nat.mul_div_cancel _ (by decide), hquietBit]
    omega
  rw [hwide, Double.toSingle, if_pos hnan', Double.magnitude_ofMagnitude _ hm,
    Double.negative_ofMagnitude _ hm]
  dsimp only
  rw [hback, ofMagnitude_magnitude]

theorem toSingle_toDouble {x : Single} (hquiet : x.Quiet) : x.toDouble.toSingle = x := by
  have hbound : Format.double.infinity < 2 ^ 63 := by decide
  by_cases hnan : x.isNaN
  · exact toSingle_toDouble_of_isNaN hquiet hnan
  have hle : x.magnitude ≤ Format.single.infinity := by
    simpa [isNaN] using hnan
  -- infinity goes to infinity, a finite number to the one with as many units
  obtain ⟨m, hm, hwide, hnarrow⟩ : ∃ m, m ≤ Format.double.infinity ∧
      x.toDouble = Double.ofMagnitude x.negative m ∧
      (if m = Format.double.infinity then Format.single.infinity
        else Format.single.nearest (Format.double.units m)
          (2 ^ (Format.double.unitBits - Format.single.unitBits))) = x.magnitude := by
    rcases Nat.eq_or_lt_of_le hle with heq | hlt
    · refine ⟨_, Nat.le_refl _, ?_, by rw [if_pos rfl, heq]⟩
      rw [toDouble, if_neg hnan, if_pos heq, Double.infinite]
    · obtain ⟨m, hm, hwide, hunits⟩ := units_toDouble hlt
      refine ⟨m, Nat.le_of_lt hm, hwide, ?_⟩
      rw [if_neg (Nat.ne_of_lt hm), hunits, Format.nearest_units hle (Nat.two_pow_pos _)]
  have hm63 := Nat.lt_of_le_of_lt hm hbound
  have hnan' : (Double.ofMagnitude x.negative m).isNaN = false := by
    rw [Double.isNaN, Double.magnitude_ofMagnitude _ hm63]
    exact decide_eq_false (Nat.not_lt_of_le hm)
  rw [hwide, Double.toSingle, hnan', if_neg (by decide), Double.isInfinite,
    Double.magnitude_ofMagnitude _ hm63, Double.negative_ofMagnitude _ hm63]
  simp only [decide_eq_true_eq]
  rw [← apply_ite (Single.ofMagnitude x.negative), hnarrow, ofMagnitude_magnitude]

/-- A NaN gets its quiet bit on the way to double precision, if it did not have it. -/
theorem exists_quiet (x : Single) : ∃ y : Single, y.Quiet ∧ y.toDouble = x.toDouble := by
  by_cases hquiet : x.Quiet
  · exact ⟨x, hquiet, rfl⟩
  obtain ⟨hnan, hlow⟩ := Classical.not_imp.mp hquiet
  have hinf : Format.single.infinity < x.magnitude := of_decide_eq_true hnan
  have hsingle : Format.single.infinity = 255 * 2 ^ 23 := rfl
  have hquietBit : Format.single.quietBit = 2 ^ 22 := rfl
  have hdouble : Format.double.infinity = 2047 * 2 ^ 52 := rfl
  have hm : x.magnitude + 2 ^ 22 < 2 ^ 31 := by omega
  have hmagnitude := magnitude_ofMagnitude x.negative hm
  have hnan' : (ofMagnitude x.negative (x.magnitude + 2 ^ 22)).isNaN := by
    rw [isNaN, hmagnitude, decide_eq_true_eq]
    omega
  let m := Format.double.infinity + (x.magnitude + 2 ^ 22 - Format.single.infinity) * 2 ^ 29
  have hbit : m.testBit 51 := by
    rw [Nat.testBit_eq_decide_div_mod_eq, decide_eq_true_eq]
    omega
  have hwide : Format.double.infinity + (x.magnitude - Format.single.infinity) * 2 ^ 29 + 2 ^ 51 =
      m := by omega
  refine ⟨ofMagnitude x.negative (x.magnitude + 2 ^ 22), fun _ => ?_, ?_⟩
  · rw [hmagnitude]
    omega
  · rw [toDouble, if_pos hnan', hmagnitude, negative_ofMagnitude _ hm,
      Double.quiet_ofMagnitude _ (by omega) hbit, toDouble, if_pos hnan,
      Double.quiet_ofMagnitude_add _ (by omega) (by omega), hwide]

theorem toDouble_toSingle (x : Single) : x.toDouble.toSingle.toDouble = x.toDouble := by
  obtain ⟨y, hy, hsame⟩ := x.exists_quiet
  rw [← hsame, toSingle_toDouble hy]

end Single
end ForeignVM
