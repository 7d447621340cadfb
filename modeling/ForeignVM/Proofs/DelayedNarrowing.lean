import ForeignVM.Machine.Step
import ForeignVM.Proofs.Indirect
import ForeignVM.Proofs.Narrowing
import Mathlib.Data.Int.ModEq

/-!
# ForeignVM.Proofs.DelayedNarrowing

Operands are wide, and a number is narrowed to its kind only where it is stored. For sums,
differences and products of integers this loses nothing: wherever else they are narrowed on the
way, the narrow result is the exact one reduced into the range of the kind.

* `Value.Holds`              — an integer kind, a value of its signedness, and its integer.
* `Value.Holds.apply`        — an operator is exact up to multiples of `2 ^ 64`.
* `Value.Holds.coerce`       — narrowing is exact up to multiples of the modulus, and in range.
* `Term`                     — expressions; `value` with wide results, `valueAt` with narrow ones.
* `Machine.performAll_code`  — the instructions of an expression push its value.
* `Term.narrow_result_exact` — where results are narrowed before the last does not matter.
-/

namespace ForeignVM

/-- The integer an arithmetic operator means. -/
def Arithmetic.exact : Arithmetic → Int → Int → Int
  | .add, a, b => a + b
  | .sub, a, b => a - b
  | .mul, a, b => a * b

theorem Arithmetic.exact_modEq (op : Arithmetic) {n a a' b b' : Int} (ha : a ≡ a' [ZMOD n])
    (hb : b ≡ b' [ZMOD n]) : op.exact a b ≡ op.exact a' b' [ZMOD n] := by
  cases op with
  | add => exact ha.add hb
  | sub => exact ha.sub hb
  | mul => exact ha.mul hb

namespace ScalarKind

/-- The kinds of integers. -/
def IsInteger (k : ScalarKind) : Prop := k ≠ .bool ∧ k.isFloat = false

instance (k : ScalarKind) : Decidable k.IsInteger := inferInstanceAs (Decidable (_ ∧ _))

/-- An integer that a kind can hold. -/
def InRange (k : ScalarKind) (z : Int) : Prop := k.low ≤ z ∧ z ≤ k.high

instance (k : ScalarKind) (z : Int) : Decidable (k.InRange z) := inferInstanceAs (Decidable (_ ∧ _))

theorem modulus_dvd (k : ScalarKind) : k.modulus ∣ 2 ^ 64 := by cases k <;> decide

theorem modulus_pos (k : ScalarKind) : 0 < k.modulus := by cases k <;> decide

theorem two_dvd_modulus (k : ScalarKind) : 2 ∣ k.modulus := by cases k <;> decide

/-- Integers in range are told apart by their low bits. -/
theorem InRange.eq_of_modEq {k : ScalarKind} {a b : Int} (ha : k.InRange a) (hb : k.InRange b)
    (h : a ≡ b [ZMOD k.modulus]) : a = b := by
  obtain ⟨halow, hahigh⟩ := ha
  obtain ⟨hblow, hbhigh⟩ := hb
  unfold high at hahigh hbhigh
  have hshift : a - k.low ≡ b - k.low [ZMOD k.modulus] := h.sub_right _
  unfold Int.ModEq at hshift
  rw [Int.emod_eq_of_lt (by omega) (by omega), Int.emod_eq_of_lt (by omega) (by omega)] at hshift
  omega

end ScalarKind

namespace Value

/-- The integer of a value that is one. -/
def integer : Value → Int
  | .int v => v.toInt
  | .uint v => v.toNat
  | _ => 0

/-- The value is an integer of the signedness of `k`, and equals `z` up to multiples of `n`. -/
structure Holds (k : ScalarKind) (n : Nat) (z : Int) (v : Value) : Prop where
  kind : v.isOfKind k = true
  modEq : v.integer ≡ z [ZMOD n]

theorem eq_int_or_uint {k : ScalarKind} (hk : k.IsInteger) {v : Value}
    (hv : v.isOfKind k = true) :
    (∃ i, v = .int i ∧ k.isSigned = true) ∨ (∃ u, v = .uint u ∧ k.isSigned = false) := by
  obtain ⟨hbool, hfloat⟩ := hk
  cases v with
  | int i => exact .inl ⟨i, rfl, by simpa [isOfKind, hfloat] using hv⟩
  | uint u => exact .inr ⟨u, rfl, by simpa [isOfKind, hbool] using hv⟩
  | bool b => exact absurd (of_decide_eq_true hv) hbool
  | float x => exact absurd (hfloat.symm.trans hv) (by decide)
  | void | pointer _ | proc _ | aggregate _ => cases hv

theorem number?_of_isOfKind {k : ScalarKind} (hk : k.IsInteger) {v : Value}
    (hv : v.isOfKind k = true) : v.number? = some (.integer v.integer) := by
  obtain ⟨i, rfl, _⟩ | ⟨u, rfl, _⟩ := eq_int_or_uint hk hv <;> rfl

/-- A value of an integer kind is known by its integer. -/
theorem eq_of_integer_eq {k : ScalarKind} (hk : k.IsInteger) {v w : Value}
    (hv : v.isOfKind k = true) (hw : w.isOfKind k = true) (h : v.integer = w.integer) : v = w := by
  obtain ⟨i, rfl, hi⟩ | ⟨u, rfl, hu⟩ := eq_int_or_uint hk hv
  · obtain ⟨j, rfl, _⟩ | ⟨_, _, hj⟩ := eq_int_or_uint hk hw
    · exact congrArg _ (Int64.toInt_inj.mp h)
    · exact absurd (hi.symm.trans hj) (by decide)
  · obtain ⟨_, _, hj⟩ | ⟨u', rfl, _⟩ := eq_int_or_uint hk hw
    · exact absurd (hj.symm.trans hu) (by decide)
    · exact congrArg _ (UInt64.toNat_inj.mp (Int.ofNat_inj.mp h))

end Value

namespace Arithmetic

theorem apply_int (op : Arithmetic) (a b : Int64) :
    ∃ c : Int64, op.apply (.int a) (.int b) = .ok (.int c) ∧
      c.toInt ≡ op.exact a.toInt b.toInt [ZMOD (2 ^ 64 : Nat)] := by
  cases op with
  | add => exact ⟨a + b, rfl, by rw [Int64.toInt_add]; exact Int.bmod_emod⟩
  | sub => exact ⟨a - b, rfl, by rw [Int64.toInt_sub]; exact Int.bmod_emod⟩
  | mul => exact ⟨a * b, rfl, by rw [Int64.toInt_mul]; exact Int.bmod_emod⟩

/-- A difference wraps upwards, so that no natural number is subtracted from a smaller one. -/
theorem sub_modEq (a b : UInt64) :
    ((a - b).toNat : Int) ≡ (a.toNat : Int) - b.toNat [ZMOD (2 ^ 64 : Nat)] := by
  have hb := b.toNat_lt
  rw [UInt64.toNat_sub, Int.natCast_mod]
  refine (Int.mod_modEq _ _).trans ?_
  rw [Int.natCast_add, Int.natCast_sub (by omega)]
  exact Int.modEq_iff_dvd.mpr ⟨-1, by omega⟩

theorem apply_uint (op : Arithmetic) (a b : UInt64) :
    ∃ c : UInt64, op.apply (.uint a) (.uint b) = .ok (.uint c) ∧
      (c.toNat : Int) ≡ op.exact a.toNat b.toNat [ZMOD (2 ^ 64 : Nat)] := by
  cases op with
  | add =>
    refine ⟨a + b, rfl, ?_⟩
    rw [UInt64.toNat_add, Int.natCast_mod, Int.natCast_add]
    exact Int.mod_modEq _ _
  | sub => exact ⟨a - b, rfl, sub_modEq a b⟩
  | mul =>
    refine ⟨a * b, rfl, ?_⟩
    rw [UInt64.toNat_mul, Int.natCast_mod, Int.natCast_mul]
    exact Int.mod_modEq _ _

end Arithmetic

namespace Value.Holds

variable {k : ScalarKind} {v w : Value} {x y : Int}

/-- Wide arithmetic agrees with the integers on the bits that the kind keeps. -/
theorem apply (hk : k.IsInteger) (op : Arithmetic) (hv : v.Holds k k.modulus x)
    (hw : w.Holds k k.modulus y) :
    ∃ r, op.apply v w = .ok r ∧ r.Holds k k.modulus (op.exact x y) := by
  have hdvd : (k.modulus : Int) ∣ (2 ^ 64 : Nat) := Int.natCast_dvd_natCast.mpr k.modulus_dvd
  have hexact := op.exact_modEq hv.modEq hw.modEq
  obtain ⟨a, rfl, ha⟩ | ⟨a, rfl, ha⟩ := eq_int_or_uint hk hv.kind
  · obtain ⟨b, rfl, _⟩ | ⟨_, _, hb⟩ := eq_int_or_uint hk hw.kind
    · obtain ⟨c, hc, hmod⟩ := op.apply_int a b
      exact ⟨_, hc, hv.kind, (hmod.of_dvd hdvd).trans hexact⟩
    · exact absurd (ha.symm.trans hb) (by decide)
  · obtain ⟨_, _, hb⟩ | ⟨b, rfl, _⟩ := eq_int_or_uint hk hw.kind
    · exact absurd (hb.symm.trans ha) (by decide)
    · obtain ⟨c, hc, hmod⟩ := op.apply_uint a b
      exact ⟨_, hc, hv.kind, (hmod.of_dvd hdvd).trans hexact⟩

end Value.Holds

/-! ## Narrowing -/

theorem Shape.coerce_scalar (k : ScalarKind) {v : Value} {n : Number} (h : v.number? = some n) :
    (Shape.scalar k).coerce v = .ok (k.ofPattern (k.pattern n)) := by
  simp only [coerce, encode, h, decode, ScalarKind.decode_encode]

namespace ScalarKind

theorem pattern_integer {k : ScalarKind} (hk : k.IsInteger) (z : Int) :
    k.pattern (.integer z) = (z % k.modulus).toNat := by
  obtain ⟨hbool, hfloat⟩ := hk
  cases k with
  | bool => exact absurd rfl hbool
  | f32 | f64 => cases hfloat
  | _ => rfl

theorem ofPattern_of_signed {k : ScalarKind} (hk : k.IsInteger) (h : k.isSigned = true)
    (p : Nat) : k.ofPattern p = .int (Int64.ofInt (Int.bmod p k.modulus)) := by
  obtain ⟨_, hfloat⟩ := hk
  cases k with
  | f32 | f64 => cases hfloat
  | bool | u8 | u16 | u32 | u64 => cases h
  | _ => rfl

theorem ofPattern_of_unsigned {k : ScalarKind} (hk : k.IsInteger) (h : k.isSigned = false)
    (p : Nat) : k.ofPattern p = .uint (UInt64.ofNat p) := by
  obtain ⟨hbool, _⟩ := hk
  cases k with
  | bool => exact absurd rfl hbool
  | i8 | i16 | i32 | i64 | f32 | f64 => cases h
  | _ => rfl

/-- What is read from a pattern is the number in range that has its low bits. -/
theorem holds_ofPattern {k : ScalarKind} (hk : k.IsInteger) {p : Nat} (hp : p < k.modulus) :
    (k.ofPattern p).Holds k k.modulus p ∧ k.InRange (k.ofPattern p).integer := by
  have hle : k.modulus ≤ 2 ^ 64 := Nat.le_of_dvd (by decide) k.modulus_dvd
  have heven := k.two_dvd_modulus
  cases hsigned : k.isSigned with
  | true =>
    have hlow := Int.le_bmod (x := (p : Int)) k.modulus_pos
    have hhigh := Int.bmod_lt (x := (p : Int)) k.modulus_pos
    rw [ofPattern_of_signed hk hsigned]
    have hinteger : (Value.int (Int64.ofInt (Int.bmod p k.modulus))).integer =
        Int.bmod p k.modulus :=
      Int64.toInt_ofInt_of_le (by omega) (by omega)
    refine ⟨⟨by simp [Value.isOfKind, hsigned, hk.2], ?_⟩, ?_⟩
    · rw [hinteger]
      exact Int.bmod_emod
    · rw [hinteger]
      unfold InRange high low
      rw [if_pos hsigned]
      omega
  | false =>
    rw [ofPattern_of_unsigned hk hsigned]
    have hinteger : (Value.uint (UInt64.ofNat p)).integer = p :=
      congrArg Int.ofNat (UInt64.toNat_ofNat_of_lt' (Nat.lt_of_lt_of_le hp hle))
    refine ⟨⟨by simp [Value.isOfKind, hsigned, hk.1], ?_⟩, ?_⟩
    · rw [hinteger]
    · rw [hinteger]
      unfold InRange high low
      rw [if_neg (by simp [hsigned])]
      omega

end ScalarKind

/-- An integer is narrowed to the one in range that has its low bits, whatever kind it is of. -/
theorem Shape.coerce_integer {k : ScalarKind} (hk : k.IsInteger) {v : Value} {z : Int}
    (h : v.number? = some (.integer z)) :
    ∃ w, (Shape.scalar k).coerce v = .ok w ∧ w.Holds k k.modulus z ∧ k.InRange w.integer := by
  have hpos : (k.modulus : Int) ≠ 0 := Int.natCast_ne_zero.mpr (Nat.ne_of_gt k.modulus_pos)
  have hpattern := ScalarKind.pattern_integer hk z
  obtain ⟨hholds, hrange⟩ := ScalarKind.holds_ofPattern hk (k.pattern_lt (.integer z))
  refine ⟨_, coerce_scalar k h, ⟨hholds.kind, hholds.modEq.trans ?_⟩, hrange⟩
  rw [hpattern, Int.toNat_of_nonneg (Int.emod_nonneg _ hpos)]
  exact Int.mod_modEq _ _

namespace Value.Holds

variable {k : ScalarKind} {v w : Value} {z : Int}

theorem coerce (hk : k.IsInteger) (hv : v.Holds k k.modulus z) :
    ∃ w, (Shape.scalar k).coerce v = .ok w ∧ w.Holds k k.modulus z ∧ k.InRange w.integer := by
  obtain ⟨w, hw, hholds, hrange⟩ := Shape.coerce_integer hk (number?_of_isOfKind hk hv.kind)
  exact ⟨w, hw, ⟨hholds.kind, hholds.modEq.trans hv.modEq⟩, hrange⟩

/-- In range there is one value for each residue. -/
theorem unique (hk : k.IsInteger) (hv : v.Holds k k.modulus z) (hw : w.Holds k k.modulus z)
    (hvr : k.InRange v.integer) (hwr : k.InRange w.integer) : v = w :=
  eq_of_integer_eq hk hv.kind hw.kind (hvr.eq_of_modEq hwr (hv.modEq.trans hw.modEq.symm))

end Value.Holds

/-! ## Expressions -/

/-- An expression over values on the operands. -/
inductive Term where
  | leaf (v : Value)
  | node (op : Arithmetic) (left right : Term)

inductive Side where
  | left
  | right

/-- A choice among the parts of an expression. A part is named by the way down to it, and the
empty way is that to the whole. -/
abbrev Choice := List Side → Bool

/-- The choice among the parts of an operand. -/
def Choice.below (c : Choice) (side : Side) : Choice := fun way => c (side :: way)

namespace Term

/-- All leaves are integers of the signedness of the kind. -/
def Over (k : ScalarKind) : Term → Prop
  | leaf v => v.isOfKind k = true
  | node _ left right => left.Over k ∧ right.Over k

/-- The integer that the expression means. -/
def exact : Term → Int
  | leaf v => v.integer
  | node op left right => op.exact left.exact right.exact

/-- The value of the expression on the operands, where nothing is narrowed. -/
def value : Term → Except RuntimeError Value
  | leaf v => .ok v
  | node op left right => do op.apply (← left.value) (← right.value)

def narrowIf (k : ScalarKind) (chosen : Bool) (v : Value) : Except RuntimeError Value :=
  if chosen then (Shape.scalar k).coerce v else .ok v

/-- The value of the expression if the chosen leaves and results are narrowed. -/
def valueAt (k : ScalarKind) : Term → Choice → Except RuntimeError Value
  | leaf v, chosen => narrowIf k (chosen []) v
  | node op left right, chosen => do
    let a ← left.valueAt k (chosen.below .left)
    let b ← right.valueAt k (chosen.below .right)
    narrowIf k (chosen []) (← op.apply a b)

/-- Without a choice nothing is narrowed. -/
theorem valueAt_none (k : ScalarKind) (e : Term) : e.valueAt k (fun _ => false) = e.value := by
  induction e with
  | leaf v => rfl
  | node op left right ihl ihr =>
    change (do
      let a ← left.valueAt k fun _ => false
      let b ← right.valueAt k fun _ => false
      narrowIf k false (← op.apply a b)) = _
    rw [ihl, ihr]
    exact bind_congr fun a => bind_congr fun b => bind_pure (op.apply a b)

variable {k : ScalarKind} {e : Term} {v : Value} {z : Int}

theorem narrowIf_holds (hk : k.IsInteger) (chosen : Bool) (hv : v.Holds k k.modulus z) :
    ∃ w, narrowIf k chosen v = .ok w ∧ w.Holds k k.modulus z ∧
      (chosen = true → k.InRange w.integer) := by
  cases chosen with
  | false => exact ⟨v, rfl, hv, fun h => by cases h⟩
  | true =>
    obtain ⟨w, hcoerce, hholds, hrange⟩ := hv.coerce hk
    exact ⟨w, hcoerce, hholds, fun _ => hrange⟩

/-- The expression has a value, exact up to multiples of the modulus; if the result is narrowed
it is in range. By induction on the expression, for all choices at once. -/
theorem valueAt_holds (hk : k.IsInteger) (he : e.Over k) (chosen : Choice) :
    ∃ v, e.valueAt k chosen = .ok v ∧ v.Holds k k.modulus e.exact ∧
      (chosen [] = true → k.InRange v.integer) := by
  induction e generalizing chosen with
  | leaf v => exact narrowIf_holds hk (chosen []) ⟨he, .refl _⟩
  | node op left right ihl ihr =>
    obtain ⟨a, hleft, ha, -⟩ := ihl he.1 (chosen.below .left)
    obtain ⟨b, hright, hb, -⟩ := ihr he.2 (chosen.below .right)
    obtain ⟨r, happly, hr⟩ := ha.apply hk op hb
    obtain ⟨w, hnarrow, hw⟩ := narrowIf_holds hk (chosen []) hr
    refine ⟨w, ?_, hw⟩
    rw [valueAt, hleft, hright]
    change ((op.apply a b).bind _) = _
    rw [happly]
    exact hnarrow

/-! ## Expressions as instructions -/

def pushOf : Value → Instr
  | .int v => .pushI64 v
  | .uint v => .pushU64 v
  | _ => .nop

def instrOf : Arithmetic → Instr
  | .add => .add
  | .sub => .sub
  | .mul => .mul

/-- A cast between equal kinds narrows. -/
def castIf (k : ScalarKind) (chosen : Bool) : List Instr :=
  if chosen then [.cast (Cast.pack k k)] else []

/-- The operands come before the operator, and each result is narrowed where it arises. -/
def code (k : ScalarKind) : Term → Choice → List Instr
  | leaf v, chosen => pushOf v :: castIf k (chosen [])
  | node op left right, chosen =>
    left.code k (chosen.below .left) ++
      (right.code k (chosen.below .right) ++ instrOf op :: castIf k (chosen []))

end Term

namespace Machine

open Term ForeignVM.Action

variable {σ τ : Type} (m : Machine σ) (watch : Observer τ)

/-- Instructions one after the other. -/
def performAll (ls : List Located) : Action σ τ Unit :=
  ls.forM fun l => m.perform watch l.ip l.instr

theorem performAll_cons (l : Located) (ls : List Located) :
    m.performAll watch (l :: ls) =
      m.perform watch l.ip l.instr >>= fun _ => m.performAll watch ls := rfl

theorem performAll_append (ls ls' : List Located) :
    m.performAll watch (ls ++ ls') = m.performAll watch ls >>= fun _ => m.performAll watch ls' :=
  List.forM_append

variable {s : State σ τ} {k : ScalarKind} {v w : Value}

theorem perform_pushOf (hk : k.IsInteger) (hv : v.isOfKind k = true) (ip : UInt32) :
    m.perform watch ip (pushOf v) s = .ok () { s with operands := s.operands.push v } := by
  obtain ⟨i, rfl, _⟩ | ⟨u, rfl, _⟩ := Value.eq_int_or_uint hk hv <;> rfl

theorem perform_instrOf (hs : s.calls.base ≤ s.operands.height) {a b r : Value}
    {op : Arithmetic} (h : op.apply a b = .ok r) (ip : UInt32) :
    m.perform watch ip (instrOf op) { s with operands := (s.operands.push a).push b } =
      .ok () { s with operands := s.operands.push r } := by
  have hbinary : m.perform watch ip (instrOf op) = binary ip op.apply := by cases op <;> rfl
  have hb : pop ip { s with operands := (s.operands.push a).push b } =
      .ok b { s with operands := s.operands.push a } :=
    pop_push ip (s := { s with operands := s.operands.push a }) (Nat.le_succ_of_le hs)
  rw [hbinary, binary, bind_ok hb, bind_ok (pop_push ip hs), h]
  rfl

theorem performAll_castIf (hs : s.calls.base ≤ s.operands.height) {chosen : Bool}
    (hv : v.isOfKind k = true) (h : narrowIf k chosen v = .ok w) {ls : List Located}
    (hls : ls.map (·.instr) = castIf k chosen) :
    m.performAll watch ls { s with operands := s.operands.push v } =
      .ok () { s with operands := s.operands.push w } := by
  cases chosen with
  | false =>
    cases List.map_eq_nil_iff.mp hls
    cases h
    rfl
  | true =>
    obtain ⟨l, rest, rfl, hl, hrest⟩ := List.map_eq_cons_iff.mp hls
    cases List.map_eq_nil_iff.mp hrest
    have hcast : v.castTo k k = .ok w := by rw [Value.castTo, if_pos hv]; exact h
    have hperform : m.perform watch l.ip (.cast (Cast.pack k k))
        { s with operands := s.operands.push v } =
          .ok () { s with operands := s.operands.push w } := by
      rw [perform, cast, Cast.unpack?_pack]
      change (pop l.ip >>= _) _ = _
      rw [bind_ok (pop_push l.ip hs), hcast]
      rfl
    rw [performAll_cons, hl, bind_ok hperform]
    rfl

/-- Running the instructions of an expression puts its value on top of the operands. By induction
on the expression: the value of the left operand lies below what the right one needs. -/
theorem performAll_code (hk : k.IsInteger) {e : Term} (he : e.Over k) {chosen : Choice}
    (hs : s.calls.base ≤ s.operands.height) (h : e.valueAt k chosen = .ok v)
    {ls : List Located} (hls : ls.map (·.instr) = e.code k chosen) :
    m.performAll watch ls s = .ok () { s with operands := s.operands.push v } := by
  induction e generalizing chosen s v ls with
  | leaf x =>
    obtain ⟨l, rest, rfl, hl, hrest⟩ := List.map_eq_cons_iff.mp hls
    rw [performAll_cons, hl, bind_ok (m.perform_pushOf watch hk he l.ip)]
    exact m.performAll_castIf watch hs he h hrest
  | node op left right ihl ihr =>
    obtain ⟨a, hleft, ha, -⟩ := valueAt_holds hk he.1 (chosen.below .left)
    obtain ⟨b, hright, hb, -⟩ := valueAt_holds hk he.2 (chosen.below .right)
    obtain ⟨r, happly, hr⟩ := ha.apply hk op hb
    obtain ⟨lsl, rest, rfl, hlsl, hrest⟩ := List.map_eq_append_iff.mp hls
    obtain ⟨lsr, rest, rfl, hlsr, hrest⟩ := List.map_eq_append_iff.mp hrest
    obtain ⟨l, rest, rfl, hl, hrest⟩ := List.map_eq_cons_iff.mp hrest
    have hnarrow : narrowIf k (chosen []) r = .ok v := by
      rw [valueAt, hleft, hright] at h
      change ((op.apply a b).bind _) = _ at h
      rw [happly] at h
      exact h
    have hls : m.performAll watch lsl s = .ok () { s with operands := s.operands.push a } :=
      ihl he.1 hs hleft hlsl
    have hrs : m.performAll watch lsr { s with operands := s.operands.push a } =
        .ok () { s with operands := (s.operands.push a).push b } :=
      ihr he.2 (Nat.le_succ_of_le hs) hright hlsr
    rw [performAll_append, bind_ok hls, performAll_append, bind_ok hrs, performAll_cons, hl,
      bind_ok (m.perform_instrOf watch hs happly l.ip)]
    exact m.performAll_castIf watch hs hr.kind hnarrow hrest

end Machine

/-! ## Narrowing late -/

namespace Term

/-- `v` is what the expression comes to as a number of the kind. -/
structure NarrowsTo (k : ScalarKind) (e : Term) (v : Value) : Prop where
  /-- Narrowing the last result alone gives it. -/
  late : e.value.bind (Shape.scalar k).coerce = .ok v
  /-- So it is if any parts are narrowed on the way. -/
  early : ∀ chosen, (e.valueAt k chosen).bind (Shape.scalar k).coerce = .ok v
  /-- A last result that is among them is not narrowed again. -/
  once : ∀ chosen : Choice, chosen [] = true → e.valueAt k chosen = .ok v
  /-- The instructions of the expression leave it on the operands, but for narrowing at last. -/
  run : ∀ {σ τ : Type} (m : Machine σ) (watch : Observer τ) (s : State σ τ) (ls : List Located)
    chosen, ls.map (·.instr) = e.code k chosen → s.calls.base ≤ s.operands.height →
      ∃ w, m.performAll watch ls s = .ok () { s with operands := s.operands.push w } ∧
        (Shape.scalar k).coerce w = .ok v
  kind : v.isOfKind k = true
  range : k.InRange v.integer
  /-- It is the exact integer, reduced. -/
  exact : v.integer ≡ e.exact [ZMOD k.modulus]

/-- Narrowing the last result alone gives what any narrowing on the way gives: the one value of
the kind that the exact integer is reduced to. -/
theorem narrow_result_exact {k : ScalarKind} (hk : k.IsInteger) {e : Term} (he : e.Over k) :
    ∃ v, e.NarrowsTo k v := by
  obtain ⟨wide, hvalue, hwide, -⟩ := valueAt_holds hk he fun _ => false
  obtain ⟨v, hcoerce, hv, hrange⟩ := hwide.coerce hk
  have hall (chosen : Choice) : ∃ w, e.valueAt k chosen = .ok w ∧
      (Shape.scalar k).coerce w = .ok v ∧ (chosen [] = true → w = v) := by
    obtain ⟨w, hw, hwholds, hwrange⟩ := valueAt_holds hk he chosen
    obtain ⟨v', hcoerce', hv', hrange'⟩ := hwholds.coerce hk
    obtain rfl := hv.unique hk hv' hrange hrange'
    exact ⟨w, hw, hcoerce', fun hchosen => hwholds.unique hk hv (hwrange hchosen) hrange⟩
  refine ⟨v, ?_, fun chosen => ?_, fun chosen hchosen => ?_, ?_, hv.kind, hrange, hv.modEq⟩
  · rw [← valueAt_none k, hvalue]
    exact hcoerce
  · obtain ⟨w, hw, hnarrow, _⟩ := hall chosen
    rw [hw]
    exact hnarrow
  · obtain ⟨w, hw, _, hsame⟩ := hall chosen
    rw [hw, hsame hchosen]
  · intro σ τ m watch s ls chosen hls hs
    obtain ⟨w, hw, hnarrow, _⟩ := hall chosen
    exact ⟨w, m.performAll_code watch hk he hs hw hls, hnarrow⟩

/-- `(100 + 100) * -3 - 7`, which leaves the range of a signed byte at each step. -/
def overflowing : Term :=
  .node .sub (.node .mul (.node .add (.leaf (.int 100)) (.leaf (.int 100))) (.leaf (.int (-3))))
    (.leaf (.int 7))

theorem narrow_result_exact_i8 :
    ScalarKind.i8.IsInteger ∧ overflowing.Over .i8 ∧ overflowing.value = .ok (.int (-607)) ∧
      ∀ chosen, (overflowing.valueAt .i8 chosen).bind (Shape.scalar .i8).coerce =
        .ok (.int (-95)) := by
  have hover : overflowing.Over .i8 := ⟨⟨⟨rfl, rfl⟩, rfl⟩, rfl⟩
  obtain ⟨v, hv⟩ := narrow_result_exact (by decide) hover
  have hin : ScalarKind.i8.InRange (-95) := by decide
  have hres : v.integer ≡ -95 [ZMOD ScalarKind.i8.modulus] := hv.exact.trans (by decide)
  have hsame : v.integer = -95 := hv.range.eq_of_modEq hin hres
  cases Value.eq_of_integer_eq (w := .int (-95)) (by decide) hv.kind rfl hsame
  exact ⟨by decide, hover, rfl, hv.early⟩

end Term
end ForeignVM
