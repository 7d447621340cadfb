import ForeignVM.Proofs.Readback

/-!
# ForeignVM.Proofs.Corruption

A container that was damaged on its way is refused.

* `Crc32.shift_xor`, `Crc32.shift_eq_zero` — the register is linear in exclusive or, and no bit of
  it is lost.
* `Crc32.foldl_absorb`    — up to four bytes enter the register as one number.
* `Crc32.checksum_burst`  — hence strings that differ in at most four neighbouring bytes have
  different checksums.
* `openContainer_of_size` — the checks, behind any header.
* `Program.damage_refused` — what each kind of damage is reported as.
-/

namespace ForeignVM

/-- Strings of one length that are equal outside the positions from `first` to below `last`. -/
def DifferWithin (first last : Nat) (a b : Bytes) : Prop :=
  a.length = b.length ∧ ∀ i, i < first ∨ last ≤ i → a[i]? = b[i]?

namespace DifferWithin

variable {first last : Nat} {a b : Bytes}

theorem take_eq (h : DifferWithin first last a b) : a.take first = b.take first := by
  refine List.ext_getElem? fun i => ?_
  rw [List.getElem?_take, List.getElem?_take]
  split
  · next hi => exact h.2 i (.inl hi)
  · rfl

theorem drop_eq (h : DifferWithin first last a b) : a.drop last = b.drop last := by
  refine List.ext_getElem? fun i => ?_
  rw [List.getElem?_drop, List.getElem?_drop]
  exact h.2 (last + i) (.inr (Nat.le_add_right last i))

theorem drop {n : Nat} (h : DifferWithin first last a b) (hn : n ≤ first) (hlast : n ≤ last) :
    DifferWithin (first - n) (last - n) (a.drop n) (b.drop n) := by
  refine ⟨by rw [List.length_drop, List.length_drop, h.1], fun i hi => ?_⟩
  rw [List.getElem?_drop, List.getElem?_drop]
  exact h.2 (n + i) (by omega)

theorem set {i : Nat} (hfirst : first ≤ i) (hlast : i < last) (a : Bytes) (x : UInt8) :
    DifferWithin first last a (a.set i x) := by
  refine ⟨List.length_set.symm, fun j hj => ?_⟩
  rw [List.getElem?_set_ne (by omega)]

end DifferWithin

namespace Crc32

theorem lowBit_iff (r : UInt32) : r &&& 1 = 1 ↔ r.toNat % 2 = 1 := by
  rw [← UInt32.toNat_inj, UInt32.toNat_and]
  rw [show (1 : UInt32).toNat = 1 from rfl, Nat.and_one_is_mod]

/-- The register is linear in exclusive or. -/
theorem shift_xor (r s : UInt32) : shift (r ^^^ s) = shift r ^^^ shift s := by
  have hbit : (r ^^^ s) &&& 1 = 1 ↔ ¬(r &&& 1 = 1 ↔ s &&& 1 = 1) := by
    rw [lowBit_iff, lowBit_iff, lowBit_iff, UInt32.toNat_xor]
    exact Nat.xor_mod_two_eq_one
  have hpoly (a b : UInt32) : a ^^^ b = (a ^^^ polynomial) ^^^ (b ^^^ polynomial) := by
    rw [UInt32.xor_comm b, UInt32.xor_assoc, ← UInt32.xor_assoc polynomial, UInt32.xor_self,
      UInt32.zero_xor]
  unfold shift
  simp only [hbit]
  by_cases hr : r &&& 1 = 1 <;> by_cases hs : s &&& 1 = 1 <;>
    simp only [hr, hs, iff_true, true_iff, not_true_eq_false, not_false_eq_true, if_true, if_false,
      UInt32.shiftRight_xor]
  · exact hpoly _ _
  · ac_rfl
  · ac_rfl

theorem shift_eq_zero {r : UInt32} (h : shift r = 0) : r = 0 := by
  have hhalf : (r >>> 1).toNat = r.toNat / 2 := by
    rw [UInt32.toNat_shiftRight]
    exact Nat.shiftRight_eq_div_pow r.toNat 1
  have hlt : r.toNat < 2 ^ 32 := r.toNat_lt
  unfold shift at h
  split at h
  · have hpoly := congrArg UInt32.toNat (UInt32.xor_eq_zero_iff.mp h)
    rw [hhalf] at hpoly
    have hp : polynomial.toNat = 3988292384 := rfl
    omega
  · next hbit =>
    have hzero := congrArg UInt32.toNat h
    rw [hhalf] at hzero
    rw [lowBit_iff] at hbit
    rw [← UInt32.toNat_inj]
    have hz : (0 : UInt32).toNat = 0 := rfl
    omega

theorem shifts_xor (n : Nat) (r s : UInt32) : shifts n (r ^^^ s) = shifts n r ^^^ shifts n s := by
  induction n generalizing r s with
  | zero => rfl
  | succ n ih => rw [shifts, shift_xor, ih]; rfl

theorem shifts_eq_zero {n : Nat} {r : UInt32} (h : shifts n r = 0) : r = 0 := by
  induction n generalizing r with
  | zero => exact h
  | succ n ih => exact shift_eq_zero (ih h)

theorem shifts_injective {n : Nat} {r s : UInt32} (h : shifts n r = shifts n s) : r = s := by
  rw [← UInt32.xor_eq_zero_iff] at h ⊢
  rw [← shifts_xor] at h
  exact shifts_eq_zero h

theorem shifts_add (m n : Nat) (r : UInt32) : shifts (m + n) r = shifts n (shifts m r) := by
  induction m generalizing r with
  | zero => rw [Nat.zero_add]; rfl
  | succ m ih => rw [Nat.succ_add]; exact ih (shift r)

/-- Bits that are clear are shifted out without a trace. -/
theorem shifts_two_pow_mul {k n : Nat} (h : 2 ^ k * n < 2 ^ 32) :
    shifts k (UInt32.ofNat (2 ^ k * n)) = UInt32.ofNat n := by
  induction k with
  | zero => rw [Nat.pow_zero, Nat.one_mul]; rfl
  | succ k ih =>
    have hdouble : 2 ^ (k + 1) * n = 2 * (2 ^ k * n) := by
      rw [Nat.pow_succ, Nat.mul_comm (2 ^ k), Nat.mul_assoc]
    rw [hdouble] at h ⊢
    have hto : (UInt32.ofNat (2 * (2 ^ k * n))).toNat = 2 * (2 ^ k * n) :=
      UInt32.toNat_ofNat_of_lt' h
    have hshift : shift (UInt32.ofNat (2 * (2 ^ k * n))) = UInt32.ofNat (2 ^ k * n) := by
      rw [shift, if_neg (by rw [lowBit_iff, hto]; omega), ← UInt32.toNat_inj,
        UInt32.toNat_shiftRight, hto, UInt32.toNat_ofNat_of_lt' (by unfold UInt32.size; omega)]
      exact (Nat.shiftRight_eq_div_pow _ 1).trans (by omega)
    rw [shifts, hshift]
    exact ih (by omega)

theorem ofNat_add_mul (b : UInt8) {n : Nat} (h : 2 ^ 8 * n < 2 ^ 32) :
    UInt32.ofNat (b.toNat + 256 * n) = b.toUInt32 ^^^ UInt32.ofNat (2 ^ 8 * n) := by
  have hb : b.toNat < 2 ^ 8 := b.toNat_lt
  have hbits : 2 ^ 8 * n + b.toNat = b.toNat ^^^ 2 ^ 8 * n := by
    refine Nat.eq_of_testBit_eq fun i => ?_
    rw [Nat.testBit_two_pow_mul_add n hb, Nat.testBit_xor, Nat.testBit_two_pow_mul]
    split
    · next hi => simp [Nat.not_le.mpr hi]
    · next hi => simp [Nat.not_lt.mp hi, Nat.testBit_lt_two_pow (Nat.lt_of_lt_of_le hb
        (Nat.pow_le_pow_right (by decide) (Nat.not_lt.mp hi)))]
  rw [← UInt32.toNat_inj, UInt32.toNat_xor, UInt32.toNat_ofNat_of_lt' h,
    UInt32.toNat_ofNat_of_lt' (by unfold UInt32.size; omega), UInt8.toNat_toUInt32, ← hbits]
  omega

/-- A string of up to four bytes enters the register as one number. -/
theorem foldl_absorb {bytes : Bytes} (h : bytes.length ≤ 4) (r : UInt32) :
    bytes.foldl absorb r =
      shifts (8 * bytes.length) (r ^^^ UInt32.ofNat (LittleEndian.decode bytes)) := by
  induction bytes generalizing r with
  | nil => exact (UInt32.xor_zero).symm
  | cons b rest ih =>
    have hrest : rest.length ≤ 3 := Nat.le_of_succ_le_succ h
    have hdecode : 2 ^ 8 * LittleEndian.decode rest < 2 ^ 32 := by
      have hlt := LittleEndian.decode_lt rest
      have hle : 256 ^ rest.length ≤ 256 ^ 3 := Nat.pow_le_pow_right (by decide) hrest
      omega
    have habsorb : absorb r b ^^^ UInt32.ofNat (LittleEndian.decode rest) =
        shifts 8 (r ^^^ UInt32.ofNat (LittleEndian.decode (b :: rest))) := by
      rw [LittleEndian.decode, ofNat_add_mul b hdecode, ← UInt32.xor_assoc, shifts_xor,
        shifts_two_pow_mul hdecode]
      rfl
    rw [List.foldl_cons, ih (by omega), habsorb, ← shifts_add, List.length_cons]
    congr 1
    omega

theorem foldl_absorb_injective {bytes : Bytes} {r s : UInt32}
    (h : bytes.foldl absorb r = bytes.foldl absorb s) : r = s := by
  induction bytes generalizing r s with
  | nil => exact h
  | cons b rest ih => exact (UInt32.xor_left_inj b.toUInt32).mp (shifts_injective (ih h))

end Crc32

theorem LittleEndian.decode_injective {a b : Bytes} (hlen : a.length = b.length)
    (h : decode a = decode b) : a = b := by
  rw [← encode_decode a, ← encode_decode b, hlen, h]

namespace Crc32

/-- From one register on, no two strings of one length up to four lead to the same register. -/
theorem eq_of_foldl_absorb {a b : Bytes} {r : UInt32} (hlen : a.length = b.length)
    (hshort : a.length ≤ 4) (h : a.foldl absorb r = b.foldl absorb r) : a = b := by
  rw [foldl_absorb hshort, foldl_absorb (hlen ▸ hshort), hlen] at h
  have hnum := (UInt32.xor_right_inj r).mp (shifts_injective h)
  have hlt (bytes : Bytes) (h : bytes.length ≤ 4) : LittleEndian.decode bytes < 2 ^ 32 :=
    Nat.lt_of_lt_of_le (LittleEndian.decode_lt bytes) (Nat.pow_le_pow_right (by decide : 256 > 0) h)
  have htoNat := congrArg UInt32.toNat hnum
  rw [UInt32.toNat_ofNat_of_lt' (hlt a hshort),
    UInt32.toNat_ofNat_of_lt' (hlt b (hlen ▸ hshort))] at htoNat
  exact LittleEndian.decode_injective hlen htoNat

/-- The checksum tells strings apart that differ in at most four neighbouring bytes. -/
theorem checksum_burst {first : Nat} {a b : Bytes} (hdiff : DifferWithin first (first + 4) a b)
    (h : checksum a = checksum b) : a = b := by
  have hsplit (bytes : Bytes) : bytes =
      bytes.take first ++ ((bytes.drop first).take 4 ++ bytes.drop (first + 4)) := by
    rw [← List.drop_drop, List.take_append_drop, List.take_append_drop]
  have hregister : a.foldl absorb 0xffffffff = b.foldl absorb 0xffffffff := UInt32.not_inj.mp h
  rw [hsplit a, hsplit b, hdiff.take_eq, hdiff.drop_eq] at hregister
  simp only [List.foldl_append] at hregister
  have hburst := eq_of_foldl_absorb (by simp [hdiff.1]) (List.length_take_le 4 _)
    (foldl_absorb_injective hregister)
  rw [hsplit a, hsplit b, hdiff.take_eq, hdiff.drop_eq, hburst]

example : checksum [0x31, 0x32, 0x33, 0x34, 0x35, 0x36, 0x37, 0x38, 0x39] = 0xcbf43926 := by
  decide +kernel

end Crc32

namespace Header

/-- The four bytes from `offset` on. -/
def field (bytes : Bytes) (offset : Nat) : Bytes := (bytes.drop offset).take 4

theorem field_eq_of_word_eq {a b : Bytes} {offset : Nat} (hlen : a.length = b.length)
    (h : word a offset = word b offset) : field a offset = field b offset := by
  have hlt (bytes : Bytes) : LittleEndian.decode (field bytes offset) < 2 ^ 32 :=
    Nat.lt_of_lt_of_le (LittleEndian.decode_lt _)
      (Nat.pow_le_pow_right (by decide : 256 > 0) (List.length_take_le 4 _))
  have hnum : (UInt32.ofNat (LittleEndian.decode (field a offset))).toNat =
      (UInt32.ofNat (LittleEndian.decode (field b offset))).toNat := congrArg UInt32.toNat h
  rw [UInt32.toNat_ofNat_of_lt' (hlt a), UInt32.toNat_ofNat_of_lt' (hlt b)] at hnum
  refine LittleEndian.decode_injective ?_ hnum
  rw [field, field, List.length_take, List.length_take, List.length_drop, List.length_drop, hlen]

theorem word_eq_iff {a b : Bytes} {offset : Nat} (hlen : a.length = b.length) :
    word a offset = word b offset ↔ field a offset = field b offset :=
  ⟨field_eq_of_word_eq hlen, fun h => congrArg (UInt32.ofNat ∘ LittleEndian.decode) h⟩

/-- What is reported of a file whose header is not that of the container `whole`: the first
field that is another one, in the order of the checks. -/
def fault (whole file : Bytes) : ProgramError :=
  if field file 0 ≠ field whole 0 then .invalidMagic
  else if field file 4 ≠ field whole 4 then .unsupportedVersion (word file 4)
  else if field file 12 ≠ field whole 12 then .sizeMismatch (word file 12) (whole.length - size)
  else .checksumMismatch (word file 8) (Crc32.checksum (whole.drop size))

/-- The four fields make up the header. -/
theorem take_size_eq_of_fields {a b : Bytes} (h0 : field a 0 = field b 0)
    (h4 : field a 4 = field b 4) (h8 : field a 8 = field b 8) (h12 : field a 12 = field b 12) :
    a.take size = b.take size := by
  have hfields (bytes : Bytes) : bytes.take size =
      field bytes 0 ++ (field bytes 4 ++ (field bytes 8 ++ field bytes 12)) := by
    rw [show size = 4 + (4 + (4 + 4)) from rfl, List.take_add, List.take_add, List.take_add,
      List.drop_drop, List.drop_drop]
    rfl
  rw [hfields, hfields, h0, h4, h8, h12]

end Header

/-- The checks behind any header. -/
theorem openContainer_of_size {file : Bytes} (h : Header.size ≤ file.length) :
    openContainer file =
      if Header.field file 0 ≠ Header.expectedMagic then .error .invalidMagic
      else if Header.word file 4 ≠ Header.currentVersion then
        .error (.unsupportedVersion (Header.word file 4))
      else if (Header.word file 12).toNat ≠ (file.drop Header.size).length then
        .error (.sizeMismatch (Header.word file 12) (file.drop Header.size).length)
      else if Crc32.checksum (file.drop Header.size) ≠ Header.word file 8 then
        .error (.checksumMismatch (Header.word file 8) (Crc32.checksum (file.drop Header.size)))
      else .ok (file.drop Header.size) := by
  simp [openContainer, Header.decode?, Nat.not_lt.mpr h, Header.magicOk, Header.versionOk,
    Header.field]

namespace Program

section Damage

variable {p : Program} {file : Bytes}

theorem ofContainer_of_refused {e : ProgramError} (h : openContainer file = .error e) :
    ofContainer file = .error e := by
  rw [ofContainer, h]

theorem length_toContainer (p : Program) :
    p.toContainer.length = Header.size + (WireWriter.program p).length := by
  rw [toContainer, sealPayload, List.length_append, Header.length_encode_forPayload]

theorem take_toContainer (p : Program) :
    p.toContainer.take Header.size = (Header.forPayload (WireWriter.program p)).encode :=
  List.take_left' (Header.length_encode_forPayload _)

theorem drop_toContainer (p : Program) :
    p.toContainer.drop Header.size = WireWriter.program p :=
  List.drop_left' (Header.length_encode_forPayload _)

theorem fields_toContainer (p : Program) :
    Header.field p.toContainer 0 = Header.expectedMagic ∧
      Header.word p.toContainer 4 = Header.currentVersion ∧
      Header.word p.toContainer 8 = Crc32.checksum (WireWriter.program p) ∧
      Header.word p.toContainer 12 = UInt32.ofNat (WireWriter.program p).length := by
  have hheader : Header.decode? p.toContainer = some (.forPayload (WireWriter.program p)) :=
    Header.decode?_encode rfl _
  have hlong : ¬p.toContainer.length < Header.size := by
    rw [length_toContainer]
    exact Nat.not_lt.mpr (Nat.le_add_right _ _)
  rw [Header.decode?, if_neg hlong, Option.some_inj, Header.forPayload, Header.mk.injEq] at hheader
  exact hheader

/-- A file that starts as the container does has its header. -/
theorem eq_header_append (h : p.toContainer.take Header.size = file.take Header.size) :
    file = (Header.forPayload (WireWriter.program p)).encode ++ file.drop Header.size := by
  rw [← take_toContainer, h, List.take_append_drop]

/-- Damage of at most four neighbouring bytes behind the header. -/
theorem payload_refused (h : (WireWriter.program p).length < 2 ^ 32) {first : Nat}
    (hfirst : Header.size ≤ first) (hdiff : DifferWithin first (first + 4) p.toContainer file)
    (hne : file ≠ p.toContainer) :
    ofContainer file = .error (.checksumMismatch (Crc32.checksum (WireWriter.program p))
      (Crc32.checksum (file.drop Header.size))) := by
  have htake : p.toContainer.take Header.size = file.take Header.size := by
    have hfront := congrArg (List.take Header.size) hdiff.take_eq
    rwa [List.take_take, List.take_take, Nat.min_eq_left hfirst] at hfront
  have hrest := hdiff.drop hfirst (Nat.le_add_right_of_le hfirst)
  rw [drop_toContainer, Nat.sub_add_comm hfirst] at hrest
  have hchecksum : Crc32.checksum (file.drop Header.size) ≠
      Crc32.checksum (WireWriter.program p) := by
    intro heq
    refine hne ?_
    rw [eq_header_append htake, ← Crc32.checksum_burst hrest heq.symm]
    rfl
  have hopen := openContainer_forPayload h (file.drop Header.size)
  rw [← eq_header_append htake, if_pos hrest.1, if_neg hchecksum] at hopen
  exact ofContainer_of_refused hopen

/-- Damage within the header. -/
theorem header_refused (h : (WireWriter.program p).length < 2 ^ 32)
    (hdiff : DifferWithin 0 Header.size p.toContainer file) (hne : file ≠ p.toContainer) :
    ofContainer file = .error (Header.fault p.toContainer file) := by
  obtain ⟨hmagic, hversion, hchecksum, hsize⟩ := fields_toContainer p
  have hlen : file.length = p.toContainer.length := hdiff.1.symm
  have hdrop : file.drop Header.size = WireWriter.program p := by
    rw [← hdiff.drop_eq, drop_toContainer]
  have hlong : Header.size ≤ file.length := by
    rw [hlen, length_toContainer]
    exact Nat.le_add_right _ _
  have hcount : (Header.word file 12).toNat = (WireWriter.program p).length ↔
      Header.field file 12 = Header.field p.toContainer 12 := by
    rw [← Header.word_eq_iff hlen, hsize, ← UInt32.toNat_inj, UInt32.toNat_ofNat_of_lt' h]
  apply ofContainer_of_refused
  rw [openContainer_of_size hlong, Header.fault, hdrop, drop_toContainer, length_toContainer,
    Nat.add_sub_cancel_left, ← hmagic, ← hversion]
  simp only [ne_eq, Header.word_eq_iff hlen, hcount]
  split
  · rfl
  split
  · rfl
  split
  · rfl
  · next h0 h4 h12 =>
    -- Only the checksum is left to be the changed field.
    refine if_pos fun hsum => hne ?_
    rw [← hchecksum, eq_comm, Header.word_eq_iff hlen] at hsum
    have htake := Header.take_size_eq_of_fields (Decidable.of_not_not h0)
      (Decidable.of_not_not h4) hsum (Decidable.of_not_not h12)
    rw [eq_header_append htake.symm, hdrop]
    rfl

/-- A file that stops early, or goes on, behind the header. -/
theorem resized_refused (h : (WireWriter.program p).length < 2 ^ 32)
    (htake : p.toContainer.take Header.size = file.take Header.size)
    (hlen : file.length ≠ p.toContainer.length) (hlong : Header.size ≤ file.length) :
    ofContainer file = .error (.sizeMismatch (UInt32.ofNat (WireWriter.program p).length)
      (file.length - Header.size)) := by
  have hrest : (WireWriter.program p).length ≠ (file.drop Header.size).length := by
    rw [length_toContainer] at hlen
    rw [List.length_drop]
    omega
  have hopen := openContainer_forPayload h (file.drop Header.size)
  rw [← eq_header_append htake, if_neg hrest, List.length_drop] at hopen
  exact ofContainer_of_refused hopen

end Damage

/-- A damaged container is refused. Up to four neighbouring bytes of the payload changed: by the
checksum. Bytes of the header changed: by the first field that is another one. Cut off: by the
size of the file or of the payload. Something added: by the size of the payload. -/
theorem damage_refused {p : Program} (h : (WireWriter.program p).length < 2 ^ 32) :
    (∀ file first, Header.size ≤ first → DifferWithin first (first + 4) p.toContainer file →
      file ≠ p.toContainer →
      ofContainer file = .error (.checksumMismatch (Crc32.checksum (WireWriter.program p))
        (Crc32.checksum (file.drop Header.size)))) ∧
    (∀ file, DifferWithin 0 Header.size p.toContainer file → file ≠ p.toContainer →
      ofContainer file = .error (Header.fault p.toContainer file)) ∧
    (∀ file, file <+: p.toContainer → file ≠ p.toContainer →
      ofContainer file = .error (if file.length < Header.size then .fileTooSmall file.length
        else .sizeMismatch (UInt32.ofNat (WireWriter.program p).length)
          (file.length - Header.size))) ∧
    (∀ added, added ≠ [] →
      ofContainer (p.toContainer ++ added) =
        .error (.sizeMismatch (UInt32.ofNat (WireWriter.program p).length)
          ((WireWriter.program p).length + added.length))) := by
  refine ⟨fun file first hfirst hdiff hne => payload_refused h hfirst hdiff hne,
    fun file hdiff hne => header_refused h hdiff hne, fun file hfront hne => ?_,
    fun added hadded => ?_⟩
  · split
    · next hshort =>
      refine ofContainer_of_refused ?_
      rw [openContainer, Header.decode?, if_pos hshort]
    · next hlong =>
      obtain ⟨missing, hwhole⟩ := hfront
      refine resized_refused h ?_ (fun hlen => hne ?_) (Nat.not_lt.mp hlong)
      · rw [← hwhole, List.take_append_of_le_length (Nat.not_lt.mp hlong)]
      · exact List.IsPrefix.eq_of_length ⟨missing, hwhole⟩ hlen
  · have hlen : (p.toContainer ++ added).length =
        Header.size + ((WireWriter.program p).length + added.length) := by
      rw [List.length_append, length_toContainer, Nat.add_assoc]
    have hpos : 0 < added.length := List.length_pos_iff.mpr hadded
    have htake : p.toContainer.take Header.size = (p.toContainer ++ added).take Header.size := by
      rw [List.take_append_of_le_length (by rw [length_toContainer]; exact Nat.le_add_right _ _)]
    have hrefused := resized_refused h htake (by rw [hlen, length_toContainer]; omega) (by omega)
    rwa [hlen, Nat.add_sub_cancel_left] at hrefused

/-- A byte of the code, the version, the end of the header and one more byte. -/
theorem damage_refused_motley :
    (WireWriter.program motley).length < 2 ^ 32 ∧
    ofContainer (motley.toContainer.set 17 0) =
      .error (.checksumMismatch (Crc32.checksum (WireWriter.program motley))
        (Crc32.checksum ((WireWriter.program motley).set 1 0))) ∧
    ofContainer (motley.toContainer.set 4 2) = .error (.unsupportedVersion 2) ∧
    ofContainer (motley.toContainer.take 15) = .error (.fileTooSmall 15) ∧
    ofContainer (motley.toContainer ++ [0]) = .error (.sizeMismatch 104 105) := by
  have h : (WireWriter.program motley).length < 2 ^ 32 := by decide +kernel
  obtain ⟨hpayload, hheader, hcut, hadded⟩ := damage_refused h
  have hcode : motley.toContainer[17]? ≠ some 0 := by decide +kernel
  have hversion : motley.toContainer[4]? ≠ some 2 := by decide +kernel
  have hlen : motley.toContainer.length = 120 := by decide +kernel
  have hset {i : Nat} {x : UInt8} (hi : i < 120) (hx : motley.toContainer[i]? ≠ some x) :
      motley.toContainer.set i x ≠ motley.toContainer := by
    intro heq
    rw [← heq, List.getElem?_set_self (by omega)] at hx
    exact hx rfl
  refine ⟨h, ?_, ?_, ?_, ?_⟩
  · refine (hpayload _ 16 (by decide) (.set (by decide) (by decide) _ 0)
      (hset (by decide) hcode)).trans (congrArg Except.error ?_)
    rw [List.drop_set, if_neg (by decide), drop_toContainer]
    rfl
  · refine (hheader _ (.set (by decide) (by decide) _ 2)
      (hset (by decide) hversion)).trans (congrArg Except.error ?_)
    have hword : Header.word (motley.toContainer.set 4 2) 4 = 2 := by decide +kernel
    rw [Header.fault, if_neg (by decide +kernel), if_pos (by decide +kernel), hword]
  · have hshort : (motley.toContainer.take 15).length = 15 := by
      rw [List.length_take, hlen]
      rfl
    refine (hcut _ (List.take_prefix 15 _) fun heq => ?_).trans (congrArg Except.error ?_)
    · rw [heq, hlen] at hshort
      exact absurd hshort (by decide)
    · rw [hshort]
      rfl
  · refine (hadded [0] (by decide)).trans (congrArg Except.error ?_)
    decide +kernel

end Program
end ForeignVM
