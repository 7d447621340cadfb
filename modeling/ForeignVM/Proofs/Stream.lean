import ForeignVM.Code.Instr
import ForeignVM.Proofs.Traverse

/-!
# ForeignVM.Proofs.Stream

Streams of instructions and the bytes that encode them.

* `Operand.ofBytes_encode`, `Operand.encode_ofBytes` — operands and their bytes.
* `Opcode.Takes`       — operands that fit the table; `ofOperands_ok_iff`, `exists_ofOperands`.
* `decodeAt_ok_iff`    — an instruction is decoded where its encoding stands.
* `Undecodable`        — why no instruction is decoded where there is none.
* `Yields`             — what a sequential decoder yields from an address on; `yields_decodeAll`.
* `codec_bijective`    — encoding and decoding undo one another, up to the first error.
-/

namespace ForeignVM

/-! ## Operands -/

namespace Operand

theorem bits_lt (o : Operand) : o.bits.toNat < 256 ^ o.type.width := by
  cases o with
  | u8 v => exact v.toNat_lt
  | u16 v => exact v.toNat_lt
  | u32 v => exact v.toNat_lt
  | i64 v => exact v.toUInt64.toNat_lt
  | u64 v => exact v.toNat_lt

theorem ofNat_bits (o : Operand) : ofNat o.type o.bits.toNat = o := by
  cases o <;> simp [ofNat, type, bits]

theorem type_ofNat (t : OperandType) (n : Nat) : (ofNat t n).type = t := by cases t <;> rfl

theorem bits_ofNat {t : OperandType} {n : Nat} (h : n < 256 ^ t.width) :
    (ofNat t n).bits.toNat = n := by
  cases t <;> simp [ofNat, bits, OperandType.width] at h ⊢ <;> omega

/-- Reading takes back what has been written. -/
theorem ofBytes_encode (o : Operand) : ofBytes o.type o.encode = o := by
  rw [ofBytes, encode, LittleEndian.decode_encode, Nat.mod_eq_of_lt o.bits_lt, ofNat_bits]

theorem type_ofBytes (t : OperandType) (bytes : Bytes) : (ofBytes t bytes).type = t :=
  type_ofNat t _

/-- Writing gives the bytes that have been read. -/
theorem encode_ofBytes {t : OperandType} {bytes : Bytes} (h : bytes.length = t.width) :
    (ofBytes t bytes).encode = bytes := by
  have hlt := LittleEndian.decode_lt bytes
  rw [h] at hlt
  rw [encode, type_ofBytes, ofBytes, bits_ofNat hlt, ← h, LittleEndian.encode_decode]

@[simp] theorem length_encode (o : Operand) : o.encode.length = o.type.width :=
  LittleEndian.length_encode _ _

end Operand

/-! ## Opcodes and their operands -/

namespace Opcode

/-- Operands that fit the entry of the table. -/
def Takes (op : Opcode) (operands : List Operand) : Prop :=
  operands.map Operand.type = op.slots.map OperandSlot.type

instance (op : Opcode) (operands : List Operand) : Decidable (op.Takes operands) :=
  inferInstanceAs (Decidable (_ = _))

/-- The bytes of the operands. -/
def width (slots : List OperandSlot) : Nat :=
  slots.foldr (fun slot n => slot.type.width + n) 0

theorem length_eq (op : Opcode) : op.length = 1 + width op.slots := rfl

theorem tag_of_ofTag? {tag : UInt8} {op : Opcode} (h : ofTag? tag = some op) : op.tag = tag := by
  have hall : ∀ i : Fin all.length, (all[i]).tag.toNat = i := by decide
  unfold ofTag? table at h
  rw [List.getElem?_toArray] at h
  obtain ⟨hlt, rfl⟩ := List.getElem?_eq_some_iff.mp h
  exact UInt8.toNat_inj.mp (hall ⟨tag.toNat, hlt⟩)

end Opcode

theorem length_flatMap_encode {slots : List OperandSlot} {operands : List Operand}
    (h : operands.map Operand.type = slots.map OperandSlot.type) :
    (operands.flatMap Operand.encode).length = Opcode.width slots := by
  induction slots generalizing operands with
  | nil =>
    rw [List.map_nil, List.map_eq_nil_iff] at h
    subst h
    rfl
  | cons slot slots ih =>
    obtain ⟨o, rest, rfl, ho, hrest⟩ := List.map_eq_cons_iff.mp h
    rw [List.flatMap_cons, List.length_append, Operand.length_encode, ho, ih hrest]
    rfl

namespace Instr

theorem takes_operands (i : Instr) : i.opcode.Takes i.operands := by cases i <;> rfl

theorem length_pos (i : Instr) : 0 < i.length := Nat.lt_add_right _ Nat.one_pos

@[simp] theorem length_encode (i : Instr) : i.encode.length = i.length := by
  rw [encode, List.length_cons, length_flatMap_encode i.takes_operands, length, Opcode.length_eq,
    Nat.add_comm]

/-- Operands that fit the table make an instruction. -/
theorem exists_ofOperands {op : Opcode} {operands : List Operand} (h : op.Takes operands) :
    ∃ i, ofOperands op operands = .ok i := by
  unfold Opcode.Takes at h
  -- the slots of an opcode settle how many operands there are, and their types
  cases op <;>
    simp only [Opcode.slots, List.map_cons, List.map_nil, List.map_eq_nil_iff,
      List.map_eq_cons_iff] at h
  case nop | pop | dup | swap | add | sub | mul | lt | eq | not | ret | procContext =>
    subst h
    exact ⟨_, rfl⟩
  case pushI64 | pushU64 | pushF64 | pushBool | pushZero | localGet | localSet | localAddr | cast
      | jump | jumpIfFalse | call | constGet | load | store | ptrIndex | callProc =>
    obtain ⟨a, _, rfl, ha, rfl⟩ := h
    cases a <;> first | exact ⟨_, rfl⟩ | cases ha
  case fieldGet | fieldSet | fieldAddr | malloc | procRef | nativeRef =>
    obtain ⟨a, _, rfl, ha, b, _, rfl, hb, rfl⟩ := h
    cases a <;> try cases ha
    cases b <;> first | exact ⟨_, rfl⟩ | cases hb

theorem ofOperands_ok_iff {op : Opcode} {operands : List Operand} {i : Instr} :
    ofOperands op operands = .ok i ↔ i.opcode = op ∧ i.operands = operands := by
  constructor
  · intro h
    -- likewise; operands that do not fit are refused
    cases op
    case nop | pop | dup | swap | add | sub | mul | lt | eq | not | ret | procContext =>
      cases operands <;> cases h
      exact ⟨rfl, rfl⟩
    case pushI64 | pushU64 | pushF64 | pushBool | pushZero | localGet | localSet | localAddr | cast
        | jump | jumpIfFalse | call | constGet | load | store | ptrIndex | callProc =>
      obtain _ | ⟨a, _ | ⟨b, rest⟩⟩ := operands
      · cases h
      · cases a <;> cases h
        exact ⟨rfl, rfl⟩
      · cases a <;> cases h
    case fieldGet | fieldSet | fieldAddr | malloc | procRef | nativeRef =>
      obtain _ | ⟨a, _ | ⟨b, _ | ⟨c, rest⟩⟩⟩ := operands
      · cases h
      · cases a <;> cases h
      · cases a <;> try cases h
        cases b <;> cases h
        exact ⟨rfl, rfl⟩
      · cases a <;> try cases h
        cases b <;> cases h
  · rintro ⟨rfl, rfl⟩
    exact ofOperands_operands i

end Instr

/-! ## One instruction -/

theorem toList_extract_eq (code : Array UInt8) (start stop : Nat) :
    (code.extract start stop).toList = (code.toList.drop start).take (stop - start) := by
  rw [Array.toList_extract, List.extract_eq_take_drop]

/-- Operands are read where their bytes stand. -/
theorem readOperands_of_stands {code : Array UInt8} {slots : List OperandSlot}
    {operands : List Operand} {offset : Nat}
    (htypes : operands.map Operand.type = slots.map OperandSlot.type)
    (h : operands.flatMap Operand.encode <+: code.toList.drop offset) :
    readOperands code slots offset = operands := by
  induction slots generalizing operands offset with
  | nil =>
    rw [List.map_nil, List.map_eq_nil_iff] at htypes
    rw [htypes]
    rfl
  | cons slot slots ih =>
    obtain ⟨o, rest, rfl, ho, hrest⟩ := List.map_eq_cons_iff.mp htypes
    rw [List.flatMap_cons] at h
    have hlen : o.encode.length = slot.type.width := by rw [Operand.length_encode, ho]
    have hfirst : (code.toList.drop offset).take slot.type.width = o.encode := by
      rw [← hlen]
      exact (List.prefix_iff_eq_take.mp ((List.prefix_append _ _).trans h)).symm
    have hnext : rest.flatMap Operand.encode <+: code.toList.drop (offset + slot.type.width) := by
      obtain ⟨after, hafter⟩ := h
      refine ⟨after, ?_⟩
      rw [← List.drop_drop, ← hafter, ← hlen, List.append_assoc, List.drop_left]
    rw [readOperands, toList_extract_eq, Nat.add_sub_cancel_left, hfirst, ih hrest hnext, ← ho,
      Operand.ofBytes_encode]

theorem type_readOperands (code : Array UInt8) (slots : List OperandSlot) (offset : Nat) :
    (readOperands code slots offset).map Operand.type = slots.map OperandSlot.type := by
  induction slots generalizing offset with
  | nil => rfl
  | cons slot slots ih => rw [readOperands, List.map_cons, ih, Operand.type_ofBytes, List.map_cons]

/-- Operands that have been read are encoded by the bytes that they have been read from. -/
theorem encode_readOperands {code : Array UInt8} {slots : List OperandSlot} {offset : Nat}
    (h : offset + Opcode.width slots ≤ code.size) :
    (readOperands code slots offset).flatMap Operand.encode =
      (code.toList.drop offset).take (Opcode.width slots) := by
  induction slots generalizing offset with
  | nil => rfl
  | cons slot slots ih =>
    have hwidth : Opcode.width (slot :: slots) = slot.type.width + Opcode.width slots := rfl
    rw [hwidth] at h ⊢
    have hlen : ((code.toList.drop offset).take slot.type.width).length = slot.type.width := by
      rw [List.length_take, List.length_drop, Array.length_toList]
      omega
    rw [readOperands, List.flatMap_cons, toList_extract_eq, Nat.add_sub_cancel_left,
      Operand.encode_ofBytes hlen, ih (by omega), List.take_add, List.drop_drop]

/-- What stands at an address at which no instruction can be decoded, and what the decoder says
of it: a byte that is no tag, or an instruction that the code cuts off. -/
inductive Undecodable (code : Array UInt8) (ip : UInt32) : CodecError → Prop where
  | unknown {tag : UInt8} (htag : code[ip.toNat]? = some tag) (hop : Opcode.ofTag? tag = none) :
      Undecodable code ip (.unknownOpcode ip tag)
  | truncated {tag : UInt8} {op : Opcode} (htag : code[ip.toNat]? = some tag)
      (hop : Opcode.ofTag? tag = some op) (hshort : code.size - ip.toNat < op.length) :
      Undecodable code ip (.truncated ip op.length (code.size - ip.toNat))

/-- Behind the code there is nothing to decode. -/
theorem decodeAt_of_le {code : Array UInt8} {ip : UInt32} (h : code.size ≤ ip.toNat) :
    decodeAt code ip = .error (.truncated ip 1 0) := by
  have hnone : code[ip.toNat]? = none := Array.getElem?_eq_none_iff.mpr h
  simp only [decodeAt, hnone, Nat.sub_eq_zero_of_le h]

/-- Inside the code there is an instruction, or something that cannot be decoded. -/
theorem decodeAt_cases {code : Array UInt8} {ip : UInt32} (hlt : ip.toNat < code.size) :
    (∃ e, decodeAt code ip = .error e ∧ Undecodable code ip e) ∨
      ∃ i, decodeAt code ip = .ok ⟨i, ip, UInt32.ofNat (ip.toNat + i.length)⟩ ∧
        i.encode <+: code.toList.drop ip.toNat := by
  have htag : code[ip.toNat]? = some code[ip.toNat] := Array.getElem?_eq_getElem hlt
  cases hop : Opcode.ofTag? code[ip.toNat] with
  | none => exact .inl ⟨_, by simp only [decodeAt, htag, hop], .unknown htag hop⟩
  | some op =>
    by_cases hshort : code.size - ip.toNat < op.length
    · exact .inl ⟨_, by simp only [decodeAt, htag, hop, if_pos hshort], .truncated htag hop hshort⟩
    · obtain ⟨i, hi⟩ :=
        Instr.exists_ofOperands (type_readOperands code op.slots (ip.toNat + 1))
      obtain ⟨hopcode, hoperands⟩ := Instr.ofOperands_ok_iff.mp hi
      refine .inr ⟨i, ?_, ?_⟩
      · simp only [decodeAt, htag, hop, if_neg hshort, hi, Instr.length, hopcode]
      · have hdrop : code.toList.drop ip.toNat =
            code[ip.toNat] :: code.toList.drop (ip.toNat + 1) := by
          rw [List.drop_eq_getElem_cons (by rwa [Array.length_toList]), Array.getElem_toList]
        have hwidth := Opcode.length_eq op
        rw [hdrop, Instr.encode, hopcode, hoperands, Opcode.tag_of_ofTag? hop,
          List.prefix_cons_inj, encode_readOperands (by omega)]
        exact List.take_prefix _ _

theorem le_size_of_stands {code : Array UInt8} {ip : Nat} {i : Instr}
    (h : i.encode <+: code.toList.drop ip) : ip + i.length ≤ code.size := by
  have hlength := h.length_le
  have hpos := i.length_pos
  rw [Instr.length_encode, List.length_drop, Array.length_toList] at hlength
  omega

/-- An instruction is decoded where its encoding stands. -/
theorem decodeAt_of_stands {code : Array UInt8} {ip : UInt32} {i : Instr}
    (h : i.encode <+: code.toList.drop ip.toNat) :
    decodeAt code ip = .ok ⟨i, ip, UInt32.ofNat (ip.toNat + i.length)⟩ := by
  have hinside := le_size_of_stands h
  obtain ⟨rest, hrest⟩ := h
  have htag : code[ip.toNat]? = some i.opcode.tag := by
    rw [← Array.getElem?_toList, ← List.head?_drop, ← hrest]
    rfl
  have hoperands : i.operands.flatMap Operand.encode <+: code.toList.drop (ip.toNat + 1) := by
    refine ⟨rest, ?_⟩
    rw [← List.drop_drop, ← hrest]
    rfl
  have hlong : ¬ code.size - ip.toNat < i.opcode.length := by
    rw [Instr.length] at hinside
    omega
  simp only [decodeAt, htag, Opcode.ofTag?_tag, if_neg hlong,
    readOperands_of_stands i.takes_operands hoperands, Instr.ofOperands_operands, Instr.length]

theorem decodeAt_ok_iff {code : Array UInt8} {ip : UInt32} {l : Located} :
    decodeAt code ip = .ok l ↔
      l.ip = ip ∧ l.next = UInt32.ofNat (ip.toNat + l.instr.length) ∧
        l.instr.encode <+: code.toList.drop ip.toNat := by
  constructor
  · intro h
    by_cases hlt : ip.toNat < code.size
    · obtain ⟨e, he, _⟩ | ⟨i, hi, hstands⟩ := decodeAt_cases hlt
      · cases h.symm.trans he
      · cases h.symm.trans hi
        exact ⟨rfl, rfl, hstands⟩
    · cases h.symm.trans (decodeAt_of_le (Nat.le_of_not_lt hlt))
  · rintro ⟨hip, hnext, hstands⟩
    rw [decodeAt_of_stands hstands, ← hnext, ← hip]

/-! ## Sequential decoding -/

/-- What a decoder yields from an address on that decodes one instruction after the other: the
instructions, and the error that it stops at. -/
inductive Yields (code : Array UInt8) : UInt32 → List Located → Option CodecError → Prop where
  | stop {ip : UInt32} (h : code.size ≤ ip.toNat) : Yields code ip [] none
  | fail {ip : UInt32} {e : CodecError} (hlt : ip.toNat < code.size)
      (h : decodeAt code ip = .error e) : Yields code ip [] (some e)
  | next {ip : UInt32} {l : Located} {ls : List Located} {e? : Option CodecError}
      (hlt : ip.toNat < code.size) (h : decodeAt code ip = .ok l)
      (hrest : Yields code l.next ls e?) : Yields code ip (l :: ls) e?

/-- In code of less than `2 ^ 32` bytes, the address after an instruction does not wrap. -/
theorem next_of_decodeAt {code : Array UInt8} (hsize : code.size < 2 ^ 32) {ip : UInt32}
    {l : Located} (h : decodeAt code ip = .ok l) :
    l.next.toNat = ip.toNat + l.instr.length ∧ l.next.toNat ≤ code.size := by
  obtain ⟨_, hnext, hstands⟩ := decodeAt_ok_iff.mp h
  have hinside := le_size_of_stands hstands
  have hwrap : l.next.toNat = ip.toNat + l.instr.length := by
    rw [hnext, UInt32.toNat_ofNat']
    exact Nat.mod_eq_of_lt (by omega)
  exact ⟨hwrap, hwrap ▸ hinside⟩

/-- The fuel is enough to come to the end. -/
theorem yields_decodeFrom {code : Array UInt8} (hsize : code.size < 2 ^ 32) (fuel : Nat)
    (ip : UInt32) (hfuel : code.size - ip.toNat < fuel) (before : List Located) :
    ∃ ls e?, decodeFrom code fuel ip before = (before.reverse ++ ls, e?) ∧
      Yields code ip ls e? := by
  induction fuel generalizing ip before with
  | zero => omega
  | succ fuel ih =>
    unfold decodeFrom
    by_cases hle : code.size ≤ ip.toNat
    · exact ⟨[], none, by rw [if_pos hle, List.append_nil], .stop hle⟩
    · have hlt := Nat.lt_of_not_le hle
      rw [if_neg hle]
      cases hl : decodeAt code ip with
      | error e => exact ⟨[], some e, by rw [List.append_nil], .fail hlt hl⟩
      | ok l =>
        obtain ⟨hnext, _⟩ := next_of_decodeAt hsize hl
        have hpos := l.instr.length_pos
        obtain ⟨ls, e?, hfrom, hrest⟩ := ih l.next (by omega) (l :: before)
        refine ⟨l :: ls, e?, ?_, .next hlt hl hrest⟩
        dsimp only
        rw [hfrom, List.reverse_cons, List.append_assoc]
        rfl

theorem yields_decodeAll {code : Array UInt8} (hsize : code.size < 2 ^ 32) :
    Yields code 0 (decodeAll code).1 (decodeAll code).2 := by
  obtain ⟨ls, e?, hfrom, hyields⟩ :=
    yields_decodeFrom hsize (code.size + 1) 0 (Nat.lt_succ_of_le (Nat.sub_le _ _)) []
  rw [decodeAll, hfrom]
  exact hyields

namespace Yields

variable {code : Array UInt8} {ip : UInt32} {ls ls' : List Located} {e? e?' : Option CodecError}

/-- A decoder yields one thing. -/
theorem unique (h : Yields code ip ls e?) (h' : Yields code ip ls' e?') : ls = ls' ∧ e? = e?' := by
  induction h generalizing ls' e?' with
  | stop hle =>
    cases h' with
    | stop _ => exact ⟨rfl, rfl⟩
    | fail hlt _ => omega
    | next hlt _ _ => omega
  | fail hlt he =>
    cases h' with
    | stop hle => omega
    | fail _ he' =>
      cases he.symm.trans he'
      exact ⟨rfl, rfl⟩
    | next _ hl _ => cases he.symm.trans hl
  | next hlt hl _ ih =>
    cases h' with
    | stop hle => omega
    | fail _ he => cases hl.symm.trans he
    | next _ hl' hrest =>
      cases hl.symm.trans hl'
      obtain ⟨rfl, rfl⟩ := ih hrest
      exact ⟨rfl, rfl⟩

theorem decodeAll_eq (hsize : code.size < 2 ^ 32) (h : Yields code 0 ls e?) :
    decodeAll code = (ls, e?) := by
  obtain ⟨rfl, rfl⟩ := (yields_decodeAll hsize).unique h
  rfl

end Yields

/-! ## Streams -/

/-- The bytes of decoded instructions. -/
def encoding (ls : List Located) : Bytes := ls.flatMap (·.instr.encode)

theorem encoding_cons (l : Located) (ls : List Located) :
    encoding (l :: ls) = l.instr.encode ++ encoding ls := List.flatMap_cons

theorem length_encoding_cons (l : Located) (ls : List Located) :
    (encoding (l :: ls)).length = l.instr.length + (encoding ls).length := by
  rw [encoding_cons, List.length_append, Instr.length_encode]

/-- The encodings of instructions are decoded to these instructions. -/
theorem yields_of_encode {code : Array UInt8} (hsize : code.size < 2 ^ 32) (is : List Instr)
    (ip : UInt32) (h : code.toList.drop ip.toNat = is.flatMap Instr.encode) :
    ∃ ls, ls.map (·.instr) = is ∧ Yields code ip ls none := by
  induction is generalizing ip with
  | nil =>
    refine ⟨[], rfl, .stop ?_⟩
    rwa [List.flatMap_nil, List.drop_eq_nil_iff, Array.length_toList] at h
  | cons i is ih =>
    rw [List.flatMap_cons] at h
    have hstands : i.encode <+: code.toList.drop ip.toNat := ⟨_, h.symm⟩
    have hl := decodeAt_of_stands hstands
    obtain ⟨hnext, _⟩ := next_of_decodeAt hsize hl
    have hinside := le_size_of_stands hstands
    have hpos := i.length_pos
    obtain ⟨ls, hls, hrest⟩ := ih (UInt32.ofNat (ip.toNat + i.length)) (by
      rw [hnext, ← List.drop_drop, h, ← Instr.length_encode, List.drop_left])
    refine ⟨⟨i, ip, UInt32.ofNat (ip.toNat + i.length)⟩ :: ls, ?_, .next (by omega) hl hrest⟩
    rw [List.map_cons, hls]

namespace Yields

variable {code : Array UInt8} {ip : UInt32} {ls : List Located} {e? : Option CodecError}

/-- Encoding the instructions again gives the bytes that they have been decoded from. -/
theorem encoding_stands (hsize : code.size < 2 ^ 32) (h : Yields code ip ls e?) :
    encoding ls <+: code.toList.drop ip.toNat := by
  induction h with
  | stop _ => exact List.nil_prefix
  | fail _ _ => exact List.nil_prefix
  | @next ip l ls e? _ hl _ ih =>
    obtain ⟨hnext, _⟩ := next_of_decodeAt hsize hl
    obtain ⟨_, _, rest, hrest⟩ := decodeAt_ok_iff.mp hl
    rw [hnext, ← List.drop_drop, ← hrest, ← Instr.length_encode, List.drop_left] at ih
    rw [encoding_cons, ← hrest]
    exact List.prefix_append_right_inj _ |>.mpr ih

/-- The instructions follow one another. -/
theorem ip_eq (hsize : code.size < 2 ^ 32) (h : Yields code ip ls e?) {k : Nat} {l : Located}
    (hl : ls[k]? = some l) :
    l.ip.toNat = ip.toNat + (encoding (ls.take k)).length ∧
      l.next.toNat = ip.toNat + (encoding (ls.take (k + 1))).length := by
  induction h generalizing k with
  | stop _ => cases hl
  | fail _ _ => cases hl
  | @next ip first ls e? _ hfirst _ ih =>
    obtain ⟨hnext, _⟩ := next_of_decodeAt hsize hfirst
    have hip := (decodeAt_ok_iff.mp hfirst).1
    cases k with
    | zero =>
      cases hl
      rw [List.take_zero, hip, hnext, List.take_succ_cons, length_encoding_cons, List.take_zero]
      exact ⟨rfl, rfl⟩
    | succ k =>
      obtain ⟨hl', hnext'⟩ := ih hl
      simp only [List.take_succ_cons, length_encoding_cons]
      omega

/-- The decoder stops at the end of the code, or at what cannot be decoded. -/
theorem stops (hsize : code.size < 2 ^ 32) (h : Yields code ip ls e?) (hip : ip.toNat ≤ code.size) :
    match e? with
    | none => ip.toNat + (encoding ls).length = code.size
    | some e =>
      ∃ stop : UInt32, stop.toNat = ip.toNat + (encoding ls).length ∧ Undecodable code stop e := by
  induction h with
  | stop hle => exact Nat.le_antisymm hip hle
  | @fail ip e hlt he =>
    obtain ⟨e', he', hstands⟩ | ⟨i, hi, _⟩ := decodeAt_cases hlt
    · cases he.symm.trans he'
      exact ⟨ip, rfl, hstands⟩
    · cases he.symm.trans hi
  | @next ip l ls e? _ hl _ ih =>
    obtain ⟨hnext, hle⟩ := next_of_decodeAt hsize hl
    have hrest := ih hle
    rw [length_encoding_cons]
    cases e? with
    | none =>
      dsimp only at hrest ⊢
      omega
    | some e =>
      obtain ⟨stop, hstop, he⟩ := hrest
      exact ⟨stop, by omega, he⟩

end Yields

/-! ## The codec -/

/-- The encoding of an opcode with operands, which have to fit the table. -/
def Opcode.encodeWith (op : Opcode) (operands : List Operand) : Except CodecError Bytes :=
  (Instr.ofOperands op operands).map Instr.encode

/-- Operands that fit the table are encoded. -/
theorem exists_encodeWith {ps : List (Opcode × List Operand)} (h : ∀ p ∈ ps, p.1.Takes p.2) :
    ∃ is : List Instr, is.map (fun i => (i.opcode, i.operands)) = ps ∧
      ps.mapM (fun p => p.1.encodeWith p.2) = .ok (is.map Instr.encode) := by
  induction ps with
  | nil => exact ⟨[], rfl, rfl⟩
  | cons p ps ih =>
    obtain ⟨i, hi⟩ := Instr.exists_ofOperands (h p List.mem_cons_self)
    obtain ⟨hop, hoperands⟩ := Instr.ofOperands_ok_iff.mp hi
    obtain ⟨is, his, hparts⟩ := ih fun q hq => h q (.tail _ hq)
    refine ⟨i :: is, ?_, ?_⟩
    · rw [List.map_cons, his, hop, hoperands]
    · have hfirst : p.1.encodeWith p.2 = .ok i.encode := by rw [Opcode.encodeWith, hi]; rfl
      rw [mapM_eq_ok_iff] at hparts ⊢
      exact .cons hfirst hparts

/-- Instructions that fit the table are encoded, and decoding gives them back, each at the sum of
the lengths of those before it. Conversely, encoding what is decoded from any bytes gives these
bytes back up to the first error, and the error says what stands there. -/
theorem codec_bijective :
    (∀ ps : List (Opcode × List Operand), (∀ p ∈ ps, p.1.Takes p.2) →
      ∃ parts, ps.mapM (fun p => p.1.encodeWith p.2) = .ok parts ∧
        (parts.flatten.length < 2 ^ 32 →
          ∃ ls, decodeAll parts.flatten.toArray = (ls, none) ∧
            ls.map (fun l => (l.instr.opcode, l.instr.operands)) = ps ∧
            ∀ k l, ls[k]? = some l →
              l.ip.toNat = (parts.take k).flatten.length ∧
                l.next.toNat = (parts.take (k + 1)).flatten.length)) ∧
    ∀ code : Array UInt8, code.size < 2 ^ 32 → ∀ ls e?, decodeAll code = (ls, e?) →
      Yields code 0 ls e? ∧ (∀ l ∈ ls, l.instr.opcode.Takes l.instr.operands) ∧
        encoding ls <+: code.toList ∧
        match e? with
        | none => encoding ls = code.toList
        | some e =>
          ∃ stop : UInt32, stop.toNat = (encoding ls).length ∧ Undecodable code stop e := by
  constructor
  · intro ps hps
    obtain ⟨is, his, hparts⟩ := exists_encodeWith hps
    refine ⟨_, hparts, ?_⟩
    rw [← List.flatMap_def]
    intro hsize
    have hsize' : (is.flatMap Instr.encode).toArray.size < 2 ^ 32 := hsize
    obtain ⟨ls, hls, hyields⟩ := yields_of_encode hsize' is 0 rfl
    refine ⟨ls, hyields.decodeAll_eq hsize, ?_, ?_⟩
    · rw [← his, ← hls, List.map_map]
      rfl
    · intro k l hl
      have htake (n : Nat) : ((is.map Instr.encode).take n).flatten = encoding (ls.take n) := by
        rw [← hls, ← List.map_take, ← List.map_take, List.map_map, encoding, List.flatMap_def]
        rfl
      have hip := hyields.ip_eq hsize hl
      rw [htake, htake]
      simpa using hip
  · intro code hsize ls e? h
    have hyields := yields_decodeAll hsize
    rw [h] at hyields
    have hstands := hyields.encoding_stands hsize
    have hstops := hyields.stops hsize (Nat.zero_le _)
    rw [UInt32.toNat_zero, List.drop_zero] at hstands
    refine ⟨hyields, fun l _ => l.instr.takes_operands, hstands, ?_⟩
    cases e? with
    | none =>
      have hlength : (encoding ls).length = code.size := by simpa using hstops
      exact hstands.eq_of_length (hlength.trans Array.length_toList.symm)
    | some e =>
      obtain ⟨stop, hstop, he⟩ := hstops
      refine ⟨stop, ?_, he⟩
      rw [hstop, UInt32.toNat_zero, Nat.zero_add]

/-- Two instructions and the places where they are found again; an instruction that is cut off
behind another one. -/
theorem codec_bijective_cutOff :
    (∃ parts ls,
      [(Opcode.pushI64, [Operand.i64 (-2)]), (.ret, [])].mapM (fun p => p.1.encodeWith p.2) =
          .ok parts ∧
        decodeAll parts.flatten.toArray = (ls, none) ∧
        ls.map (fun l => (l.instr.opcode, l.instr.operands)) =
          [(.pushI64, [.i64 (-2)]), (.ret, [])]) ∧
    decodeAll #[4, 1, 21, 7] = ([⟨.pushBool 1, 0, 2⟩], some (.truncated 2 3 2)) ∧
      ∃ stop : UInt32, stop.toNat = 2 ∧ Undecodable #[4, 1, 21, 7] stop (.truncated 2 3 2) := by
  obtain ⟨hencoded, hdecoded⟩ := codec_bijective
  refine ⟨?_, by decide, ?_⟩
  · obtain ⟨parts, hparts, hfound⟩ :=
      hencoded [(.pushI64, [.i64 (-2)]), (.ret, [])] (by decide)
    have hlength : parts.flatten.length < 2 ^ 32 := by
      cases hparts
      decide
    obtain ⟨ls, hall, hls, _⟩ := hfound hlength
    exact ⟨parts, ls, hparts, hall, hls⟩
  · exact (hdecoded #[4, 1, 21, 7] (by decide) [⟨.pushBool 1, 0, 2⟩] (some (.truncated 2 3 2))
      (by decide)).2.2.2

end ForeignVM
