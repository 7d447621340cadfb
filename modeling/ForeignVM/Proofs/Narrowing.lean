import ForeignVM.Proofs.Rounding
import ForeignVM.Value.Storage

/-!
# ForeignVM.Proofs.Narrowing

A value that has been read from a place fits the place again, with the same bytes. So converting
a value to a shape twice is the same as converting it once.

* `ScalarKind.pattern_ofPattern` — the number of a stored pattern has this very pattern.
* `ProcRef.targetOf_codeWord`    — a code word tells its target.
* `Shape.encode_decode`          — what has been stored is stored again as it is.
* `Shape.coerce_decode`          — what has been read from any bytes is read again as it is.
* `Shape.coerce_coerce`          — conversions are idempotent.
-/

namespace ForeignVM

/-! ## Scalars -/

namespace ScalarKind

theorem pattern_lt (k : ScalarKind) (n : Number) : k.pattern n < k.modulus := by
  have hmod (p : Int) (m : Nat) (hm : 0 < m) : (p % m).toNat < m := by
    have hnonneg := Int.emod_nonneg p (Int.natCast_ne_zero.mpr (Nat.ne_of_gt hm))
    have hlt := Int.emod_lt_of_pos p (Int.natCast_pos.mpr hm)
    omega
  cases k with
  | bool =>
    unfold pattern
    dsimp only
    split <;> decide
  | f32 => exact n.toSingle.bits.toNat_lt
  | f64 => exact n.toDouble.bits.toNat_lt
  | _ => exact hmod _ _ (by decide)

theorem quiet_toSingle (n : Number) : n.toSingle.Quiet := by
  cases n with
  | integer z => exact Single.quiet_ofInt z
  | real x => exact Single.quiet_toSingle x

theorem emod_of_lt {p m : Nat} (h : p < m) : ((p : Int) % m).toNat = p := by
  rw [Int.emod_eq_of_lt (Int.natCast_nonneg p) (Int.ofNat_lt.mpr h), Int.toNat_natCast]

/-- A pattern is read as an unsigned integer, and its low bits are stored. -/
theorem emod_uint64 {p m : Nat} (h : p < m) (hm : m ≤ 2 ^ 64) :
    (((UInt64.ofNat p).toNat : Int) % m).toNat = p := by
  rw [UInt64.toNat_ofNat_of_lt' (Nat.lt_of_lt_of_le h hm), emod_of_lt h]

/-- A pattern is extended with its sign, and its low bits are stored. -/
theorem emod_int64 {p m : Nat} (h : p < m) (hm : m ∣ 2 ^ 64) :
    ((Int64.ofInt (Int.bmod p m)).toInt % m).toNat = p := by
  have hdvd : (m : Int) ∣ Int64.size := Int.natCast_dvd_natCast.mpr hm
  rw [Int64.toInt_ofInt, ← Int.emod_emod_of_dvd _ hdvd, Int.bmod_emod,
    Int.emod_emod_of_dvd _ hdvd, Int.bmod_emod, emod_of_lt h]

/-- Reading a pattern that has been stored gives a number that is stored as this pattern. -/
theorem pattern_ofPattern (k : ScalarKind) (n : Number) :
    ∃ n', (k.ofPattern (k.pattern n)).number? = some n' ∧ k.pattern n' = k.pattern n := by
  have hlt := k.pattern_lt n
  cases k with
  | bool =>
    refine ⟨_, rfl, ?_⟩
    simp only [pattern]
    by_cases h : n.isZero = true
    · simp only [if_pos h]
      rfl
    · simp only [if_neg h]
      rfl
  | f32 =>
    refine ⟨.real n.toSingle.toDouble, by simp [pattern, ofPattern, Value.number?], ?_⟩
    change n.toSingle.toDouble.toSingle.bits.toNat = n.toSingle.bits.toNat
    rw [Single.toSingle_toDouble (quiet_toSingle n)]
  | f64 => exact ⟨.real n.toDouble, by simp [pattern, ofPattern, Value.number?], rfl⟩
  | u8 | u16 | u32 | u64 =>
    generalize pattern _ n = p at hlt
    exact ⟨_, rfl, emod_uint64 hlt (by decide)⟩
  | i8 | i16 | i32 | i64 =>
    generalize pattern _ n = p at hlt
    have hsame := emod_int64 hlt (by decide)
    exact ⟨.integer _, rfl, hsame⟩

/-- Any pattern is read as a number whose own pattern is read as the same value. -/
theorem ofPattern_pattern (k : ScalarKind) {p : Nat} (h : p < k.modulus) :
    ∃ n, (k.ofPattern p).number? = some n ∧ k.ofPattern (k.pattern n) = k.ofPattern p := by
  cases k with
  | bool =>
    refine ⟨_, rfl, ?_⟩
    by_cases hp : p = 0
    · subst hp
      rfl
    · have hbool : (p != 0) = true := bne_iff_ne.mpr hp
      simp [pattern, ofPattern, Number.isZero, hbool]
  | f32 =>
    refine ⟨.real (Single.toDouble ⟨UInt32.ofNat p⟩), rfl, ?_⟩
    simp only [pattern, ofPattern, Number.toSingle, UInt32.ofNat_toNat]
    exact congrArg Value.float (Single.toDouble_toSingle _)
  | f64 =>
    refine ⟨.real ⟨UInt64.ofNat p⟩, rfl, ?_⟩
    simp only [pattern, ofPattern, Number.toDouble, UInt64.ofNat_toNat]
  | u8 | u16 | u32 | u64 => exact ⟨_, rfl, congrArg _ (emod_uint64 h (by decide))⟩
  | i8 | i16 | i32 | i64 =>
    have hsame := emod_int64 h (by decide)
    exact ⟨.integer _, rfl, congrArg _ hsame⟩

/-- The bytes of a number denote its pattern. -/
theorem number_encode (k : ScalarKind) (n : Number) :
    LittleEndian.decode (k.encode n) = k.pattern n := by
  rw [encode, LittleEndian.decode_encode, ← modulus, Nat.mod_eq_of_lt (k.pattern_lt n)]

theorem decode_encode (k : ScalarKind) (n : Number) :
    k.decode (k.encode n) = k.ofPattern (k.pattern n) := by
  rw [decode, List.take_of_length_le (Nat.le_of_eq (k.length_encode n)), number_encode]

theorem encode_decode (k : ScalarKind) (n : Number) :
    ∃ n', (k.decode (k.encode n)).number? = some n' ∧ k.encode n' = k.encode n := by
  obtain ⟨n', hn', hpattern⟩ := k.pattern_ofPattern n
  exact ⟨n', k.decode_encode n ▸ hn', congrArg (LittleEndian.encode k.size) hpattern⟩

/-- Whatever the bytes are, storing what they are read as gives the same value again. -/
theorem decode_again (k : ScalarKind) (bytes : Bytes) :
    ∃ n, (k.decode bytes).number? = some n ∧ k.decode (k.encode n) = k.decode bytes := by
  have hlt : LittleEndian.decode (bytes.take k.size) < k.modulus :=
    Nat.lt_of_lt_of_le (LittleEndian.decode_lt _)
      (Nat.pow_le_pow_right (by decide) (List.length_take_le _ _))
  obtain ⟨n, hn, hsame⟩ := k.ofPattern_pattern hlt
  exact ⟨n, hn, (k.decode_encode n).trans hsame⟩

end ScalarKind

/-! ## Words -/

theorem decodeWord_encodeWord {word : Nat} (h : word < 2 ^ 64) (rest : Bytes) :
    decodeWord (encodeWord word ++ rest) = word := by
  have hlength : (encodeWord word).length = wordSize := LittleEndian.length_encode _ _
  rw [decodeWord, List.take_left' hlength, encodeWord, LittleEndian.decode_encode]
  exact Nat.mod_eq_of_lt h

theorem decodeWord_encode {word : Nat} (h : word < 2 ^ 64) :
    decodeWord (encodeWord word) = word := by
  have hword := decodeWord_encodeWord h []
  rwa [List.append_nil] at hword

namespace ProcRef

theorem codeWord_lt (p : ProcRef) : p.codeWord < 2 ^ 64 := by
  unfold codeWord
  split
  · decide
  · next id _ =>
    have hlt : id.position < 2 ^ 16 := id.index.toNat_lt
    unfold routineBit
    omega
  · next id _ =>
    have hlt : id.position < 2 ^ 16 := id.index.toNat_lt
    unfold nativeBit
    omega

/-- A mark above an index: both can be read off. -/
theorem read_marked (mark : Nat) (hmark : 16 ≤ mark) (index : UInt16) :
    UInt16.ofNat (2 ^ mark + index.toNat) = index ∧
      (2 ^ mark + index.toNat).testBit mark = true := by
  have hlt : index.toNat < 2 ^ mark :=
    Nat.lt_of_lt_of_le index.toNat_lt (Nat.pow_le_pow_right (by decide) hmark)
  have hdvd : 2 ^ 16 ∣ 2 ^ mark := Nat.pow_dvd_pow 2 hmark
  refine ⟨UInt16.toNat_inj.mp ?_, ?_⟩
  · rw [UInt16.toNat_ofNat', Nat.add_mod, Nat.mod_eq_zero_of_dvd hdvd]
    simp
  · rw [Nat.testBit_two_pow_add_eq, Nat.testBit_lt_two_pow hlt, Bool.not_false]

theorem targetOf_codeWord (p : ProcRef) : targetOf p.codeWord = p.target := by
  unfold codeWord
  cases p.target with
  | none => decide
  | some target =>
    cases target with
    | routine id =>
      obtain ⟨hindex, hbit⟩ := read_marked routineBit (by decide) id.index
      have hnative : (2 ^ routineBit + id.position).testBit nativeBit = false := by
        have hlt : id.position < 2 ^ 16 := id.index.toNat_lt
        exact Nat.testBit_lt_two_pow (by unfold routineBit nativeBit; omega)
      simp only [targetOf, hnative]
      rw [if_neg (by decide), RoutineId.position, hbit, if_pos rfl, hindex]
    | native id =>
      obtain ⟨hindex, hbit⟩ := read_marked nativeBit (by decide) id.index
      simp only [targetOf]
      rw [NativeId.position, hbit, if_pos rfl, hindex]

end ProcRef

/-! ## Shapes -/

namespace Shape

/-- One case per kind of shape. -/
theorem encode_decode {s : Shape} {v : Value} {bytes : Bytes} (h : s.encode v = .ok bytes) :
    s.encode (s.decode bytes) = .ok bytes := by
  unfold encode at h
  split at h
  · next kind =>
    split at h
    · next n _ =>
      cases h
      obtain ⟨n', hn', hsame⟩ := kind.encode_decode n
      simp only [decode, encode, hn', hsame]
    · cases h
  · next p =>
    cases h
    simp only [decode, encode, decodeWord_encode p.address.toNat_lt, UInt64.ofNat_toNat]
  · next p =>
    split at h
    · cases h
      simp only [decode, encode, decodeWord_encode p.codeWord_lt, p.targetOf_codeWord]
      rfl
    · cases h
  · next p =>
    cases h
    have hlength : (encodeWord p.codeWord).length = wordSize := LittleEndian.length_encode _ _
    simp only [decode, encode, decodeWord_encodeWord p.codeWord_lt, List.drop_left' hlength,
      decodeWord_encode p.context.toNat_lt, p.targetOf_codeWord, UInt64.ofNat_toNat]
  · next layout a =>
    split at h
    · cases h
    · split at h
      · next hlength =>
        cases h
        have hencode : (aggregate layout).encode (.aggregate (.ofBytes layout a.bytes)) = .ok _ :=
          encode_layout rfl
        exact hencode.trans (congrArg Except.ok (fit_eq_self hlength))
      · cases h
  · cases h

/-- A pointer takes the pointee of its place. -/
theorem coerce_pointer (pointee : TypeId) (p : Pointer) :
    (pointer pointee).coerce (.pointer p) = .ok (.pointer ⟨p.address, pointee⟩) := by
  simp only [coerce, encode, decode, decodeWord_encode p.address.toNat_lt, UInt64.ofNat_toNat]

/-- A place without closure keeps a proc that has no context, any other place keeps every proc. -/
theorem coerce_proc {closure : Bool} {p : ProcRef} (h : closure = true ∨ p.context = 0) :
    (proc closure).coerce (.proc p) = .ok (.proc p) := by
  cases closure with
  | false =>
    have hcontext : p.context = 0 := h.resolve_left (by decide)
    simp only [coerce, encode, decode, if_pos hcontext, decodeWord_encode p.codeWord_lt,
      p.targetOf_codeWord]
    rw [← hcontext]
  | true =>
    have hlength : (encodeWord p.codeWord).length = wordSize := LittleEndian.length_encode _ _
    simp only [coerce, encode, decode, decodeWord_encodeWord p.codeWord_lt,
      List.drop_left' hlength, decodeWord_encode p.context.toNat_lt, p.targetOf_codeWord,
      UInt64.ofNat_toNat]

/-- What is read from any bytes can be stored, and is read again as it is. -/
theorem coerce_decode (s : Shape) (bytes : Bytes) :
    s.coerce (s.decode bytes) = .ok (s.decode bytes) := by
  cases s with
  | scalar kind =>
    obtain ⟨n, hn, hsame⟩ := kind.decode_again bytes
    simp only [coerce, decode, encode, hn, hsame]
  | pointer pointee => exact coerce_pointer pointee _
  | proc closure =>
    cases closure with
    | false => exact coerce_proc (.inr rfl)
    | true => exact coerce_proc (.inl rfl)
  | aggregate layout =>
    have hfit := fit_eq_self (length_fit layout.size bytes)
    have hencode : (aggregate layout).encode (.aggregate (.ofBytes layout bytes)) = .ok _ :=
      encode_layout rfl
    rw [coerce, decode, hencode]
    simp only [decode, Aggregate.ofBytes, hfit]

/-- A value is converted by way of its bytes. -/
theorem exists_encode_of_coerce {s : Shape} {v w : Value} (h : s.coerce v = .ok w) :
    ∃ bytes, s.encode v = .ok bytes ∧ s.decode bytes = w := by
  unfold coerce at h
  split at h
  · next bytes hbytes => exact ⟨bytes, hbytes, Except.ok.inj h⟩
  · cases h

theorem encode_error_of_coerce {s : Shape} {v : Value} {e : RuntimeError}
    (h : s.coerce v = .error e) : s.encode v = .error e := by
  unfold coerce at h
  split at h
  · cases h
  · next he =>
    cases h
    exact he

theorem coerce_coerce {s : Shape} {v w : Value} (h : s.coerce v = .ok w) : s.coerce w = .ok w := by
  obtain ⟨bytes, _, rfl⟩ := exists_encode_of_coerce h
  exact coerce_decode s bytes

end Shape
end ForeignVM
