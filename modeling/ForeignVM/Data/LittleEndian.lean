import ForeignVM.Data.Power

/-!
# ForeignVM.Data.LittleEndian

Numbers as little-endian byte strings:

* `encode width n` — the low `8 * width` bits of `n`, lowest byte first.
* `decode bytes`   — the number that a byte string denotes.

`decode (encode width n)` is `n` reduced modulo `256 ^ width`.
-/

namespace ForeignVM

/-- A string of bytes. -/
abbrev Bytes := List UInt8

namespace LittleEndian

def encode : Nat → Nat → Bytes
  | 0, _ => []
  | width + 1, n => UInt8.ofNat n :: encode width (n / 256)

def decode : Bytes → Nat
  | [] => 0
  | b :: rest => b.toNat + 256 * decode rest

@[simp] theorem length_encode (width n : Nat) : (encode width n).length = width := by
  induction width generalizing n with
  | zero => rfl
  | succ w ih => simp [encode, ih]

theorem decode_lt (bytes : Bytes) : decode bytes < 256 ^ bytes.length := by
  induction bytes with
  | nil => simp [decode]
  | cons b rest ih =>
    have hb : b.toNat < 256 := b.toNat_lt
    simp only [decode, List.length_cons, Nat.pow_succ]
    omega

theorem decode_encode (width n : Nat) : decode (encode width n) = n % 256 ^ width := by
  induction width generalizing n with
  | zero => simp [encode, decode, Nat.mod_one]
  | succ w ih =>
    have hb : (UInt8.ofNat n).toNat = n % 256 := UInt8.toNat_ofNat'
    rw [encode, decode, ih, hb, Nat.pow_succ, Nat.mul_comm (256 ^ w) 256, Nat.mod_mul]

theorem encode_decode (bytes : Bytes) : encode bytes.length (decode bytes) = bytes := by
  induction bytes with
  | nil => rfl
  | cons b rest ih =>
    have hb : b.toNat < 256 := b.toNat_lt
    have hd : (b.toNat + 256 * decode rest) / 256 = decode rest := by omega
    have hm : UInt8.ofNat (b.toNat + 256 * decode rest) = b := by
      apply UInt8.toNat_inj.mp
      rw [UInt8.toNat_ofNat']
      omega
    simp only [List.length_cons, decode, encode, hd, ih, hm]

theorem decode_append (front back : Bytes) :
    decode (front ++ back) = decode front + 256 ^ front.length * decode back := by
  induction front with
  | nil => simp [decode]
  | cons b rest ih =>
    simp only [List.cons_append, decode, ih, List.length_cons, Nat.pow_succ']
    rw [Nat.mul_add, Nat.mul_assoc, Nat.add_assoc]

/-- The first bytes are the low part of the number. -/
theorem decode_take (n : Nat) (bytes : Bytes) : decode (bytes.take n) = decode bytes % 256 ^ n := by
  induction n generalizing bytes with
  | zero => simp [decode, Nat.mod_one]
  | succ n ih =>
    cases bytes with
    | nil => simp [decode]
    | cons b rest =>
      have hb : b.toNat < 256 := b.toNat_lt
      have hlow : (b.toNat + 256 * decode rest) % 256 = b.toNat := by omega
      have hhigh : (b.toNat + 256 * decode rest) / 256 = decode rest := by omega
      rw [List.take_succ_cons, decode, decode, ih, Nat.pow_succ', Nat.mod_mul, hlow, hhigh]

/-- The other bytes are the high part. -/
theorem decode_drop (n : Nat) (bytes : Bytes) : decode (bytes.drop n) = decode bytes / 256 ^ n := by
  induction n generalizing bytes with
  | zero => simp
  | succ n ih =>
    cases bytes with
    | nil => simp [decode]
    | cons b rest =>
      have hb : b.toNat < 256 := b.toNat_lt
      have hhigh : (b.toNat + 256 * decode rest) / 256 = decode rest := by omega
      rw [List.drop_succ_cons, decode, ih, Nat.pow_succ', ← Nat.div_div_eq_div_mul, hhigh]

end LittleEndian
end ForeignVM
