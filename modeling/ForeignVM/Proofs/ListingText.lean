import ForeignVM.Code.Listing
import ForeignVM.Proofs.Stream
import Mathlib.Data.List.Nodup

/-!
# ForeignVM.Proofs.ListingText

A listing without colours tells the code and the sources that it was made from. A line is read
from the left, up to the source: a word ends at the first blank or newline, the opcode tells how
many operands follow, and the note says nothing that these do not say. A source is read from the
right, since its text may hold anything but a newline.

* `word_inj`             — words are told apart by where they end.
* `Operand.text_inj`     — an operand of a known type is told by its text.
* `SourceNode.display_inj` — a source is told by what is displayed of it.
* `lineChars_inj`        — the first line of a text, if its address is known.
* `disassemble_injective` — the whole listing.
-/

namespace ForeignVM

/-! ## Words -/

/-- A text that goes on with a character at which a word stops. -/
def Stops (stop : Char → Bool) (cs : List Char) : Prop :=
  ∃ c rest, cs = c :: rest ∧ stop c = true

/-- A text without a character at which a word stops. -/
def Bare (stop : Char → Bool) (cs : List Char) : Prop := ∀ c ∈ cs, stop c = false

theorem Bare.append {stop : Char → Bool} {cs cs' : List Char} (h : Bare stop cs)
    (h' : Bare stop cs') : Bare stop (cs ++ cs') := fun c hc =>
  (List.mem_append.mp hc).elim (h c) (h' c)

theorem takeWhile_word {stop : Char → Bool} {word rest : List Char} (hword : Bare stop word)
    (hrest : Stops stop rest) : (word ++ rest).takeWhile (fun c => !stop c) = word := by
  obtain ⟨c, rest, rfl, hc⟩ := hrest
  rw [List.takeWhile_append_of_pos fun a ha => by rw [hword a ha]; rfl,
    List.takeWhile_cons_of_neg (by rw [hc]; decide), List.append_nil]

theorem word_inj {stop : Char → Bool} {word word' rest rest' : List Char}
    (hword : Bare stop word) (hword' : Bare stop word') (hrest : Stops stop rest)
    (hrest' : Stops stop rest') (h : word ++ rest = word' ++ rest') :
    word = word' ∧ rest = rest' := by
  have hsame : word = word' := by
    rw [← takeWhile_word hword hrest, h, takeWhile_word hword' hrest']
  rw [hsame] at h
  exact ⟨hsame, List.append_cancel_left h⟩

/-- The last word of a text, with the character before it. -/
theorem lastWord_inj {stop : Char → Bool} {front front' word word' : List Char} {c : Char}
    (hc : stop c = true) (hword : Bare stop word) (hword' : Bare stop word')
    (h : front ++ c :: word = front' ++ c :: word') : front = front' ∧ word = word' := by
  have hstops (cs : List Char) : Stops stop (c :: cs) := ⟨c, cs, rfl, hc⟩
  have hreverse (cs : List Char) (hcs : Bare stop cs) : Bare stop cs.reverse :=
    fun a ha => hcs a (List.mem_reverse.mp ha)
  have hback : word.reverse ++ c :: front.reverse = word'.reverse ++ c :: front'.reverse := by
    simpa using congrArg List.reverse h
  obtain ⟨hw, hf⟩ :=
    word_inj (hreverse _ hword) (hreverse _ hword') (hstops _) (hstops _) hback
  exact ⟨List.reverse_inj.mp (List.cons.inj hf).2, List.reverse_inj.mp hw⟩

/-! ## Numerals -/

theorem toDigits_inj {m n : Nat} (h : Nat.toDigits 10 m = Nat.toDigits 10 n) : m = n := by
  rw [← Nat.ofDigitChars_ten_toDigits (n := m), h, Nat.ofDigitChars_ten_toDigits]

theorem toList_toString (n : Nat) : (toString n).toList = Nat.toDigits 10 n := Nat.toList_repr

theorem isDigit_of_mem_toString {n : Nat} {c : Char} (h : c ∈ (toString n).toList) :
    c.isDigit = true := by
  rw [toList_toString] at h
  exact Nat.isDigit_of_mem_toDigits (by decide) (by decide) h

theorem toString_inj {m n : Nat} (h : toString m = toString n) : m = n :=
  toDigits_inj (by rw [← toList_toString, h, toList_toString])

theorem toString_int_inj {a b : Int} (h : toString a = toString b) : a = b := by
  -- no numeral of a natural number starts with a minus sign
  have hsign (m n : Nat) (h : toString m = "-" ++ toString n) : False := by
    have hmem : '-' ∈ (toString m).toList := by
      rw [h, String.toList_append]
      exact List.mem_append_left _ List.mem_cons_self
    exact absurd (isDigit_of_mem_toString hmem) (by decide)
  cases a with
  | ofNat m =>
    cases b with
    | ofNat n => exact congrArg Int.ofNat (toString_inj h)
    | negSucc n => exact (hsign m (n + 1) h).elim
  | negSucc m =>
    cases b with
    | ofNat n => exact (hsign n (m + 1) h.symm).elim
    | negSucc n =>
      have htail : toString (m + 1) = toString (n + 1) := by
        have hlist := congrArg String.toList h
        change ("-" ++ toString (m + 1)).toList = ("-" ++ toString (n + 1)).toList at hlist
        rw [String.toList_append, String.toList_append] at hlist
        exact String.toList_inj.mp (List.append_cancel_left hlist)
      exact congrArg Int.negSucc (Nat.succ_inj.mp (toString_inj htail))

theorem mem_toString_int {z : Int} {c : Char} (h : c ∈ (toString z).toList) :
    c.isDigit = true ∨ c = '-' := by
  cases z with
  | ofNat n => exact .inl (isDigit_of_mem_toString h)
  | negSucc n =>
    change c ∈ ("-" ++ toString (n + 1)).toList at h
    rw [String.toList_append, List.mem_append] at h
    rcases h with h | h
    · exact .inr (List.mem_singleton.mp h)
    · exact .inl (isDigit_of_mem_toString h)

/-- Where a word of a line stops. -/
def isGap (c : Char) : Bool := c == ' ' || c == '\n'

theorem bare_toString {stop : Char → Bool} (h : ∀ c, c.isDigit = true → stop c = false)
    (n : Nat) : Bare stop (toString n).toList :=
  fun _ hc => h _ (isDigit_of_mem_toString hc)

theorem not_isGap_of_isDigit (c : Char) (h : c.isDigit = true) : isGap c = false := by
  by_contra hgap
  rw [Bool.not_eq_false] at hgap
  simp only [isGap, Bool.or_eq_true, beq_iff_eq] at hgap
  rcases hgap with rfl | rfl <;> exact absurd h (by decide)

/-! ## Opcodes and operands -/

namespace Opcode

theorem mem_all (op : Opcode) : op ∈ all := by cases op <;> decide

theorem name_inj {op op' : Opcode} (h : op.name = op'.name) : op = op' :=
  List.inj_on_of_nodup_map (show (all.map name).Nodup by decide) op.mem_all op'.mem_all h

theorem bare_name (op : Opcode) : Bare isGap op.name.toList := by
  have hall : ∀ op ∈ all, (op.name.toList.all fun c => !isGap c) = true := by decide
  intro c hc
  simpa using List.all_eq_true.mp (hall op op.mem_all) c hc

end Opcode

namespace Operand

theorem bare_text (o : Operand) : Bare isGap o.text.toList := by
  cases o with
  | i64 v =>
    intro c hc
    rcases mem_toString_int hc with hdigit | rfl
    · exact not_isGap_of_isDigit c hdigit
    · rfl
  | u8 v | u16 v | u32 v | u64 v => exact bare_toString not_isGap_of_isDigit _

theorem text_inj {o o' : Operand} (htype : o.type = o'.type) (h : o.text = o'.text) : o = o' := by
  cases o <;> cases o' <;> try cases htype
  case u8 => exact congrArg _ (UInt8.toNat_inj.mp (toString_inj h))
  case u16 => exact congrArg _ (UInt16.toNat_inj.mp (toString_inj h))
  case u32 => exact congrArg _ (UInt32.toNat_inj.mp (toString_inj h))
  case i64 => exact congrArg _ (Int64.toInt_inj.mp (toString_int_inj h))
  case u64 => exact congrArg _ (UInt64.toNat_inj.mp (toString_inj h))

end Operand

theorem stops_blank (cs : List Char) : Stops isGap (' ' :: cs) := ⟨' ', cs, rfl, rfl⟩

theorem stops_newline (cs : List Char) : Stops isGap ('\n' :: cs) := ⟨'\n', cs, rfl, rfl⟩

/-- Operands on a line, each behind a blank. -/
def operandChars (os : List Operand) : List Char := os.flatMap fun o => ' ' :: o.text.toList

theorem stops_operandChars (os : List Operand) {rest : List Char} (h : Stops isGap rest) :
    Stops isGap (operandChars os ++ rest) := by
  cases os with
  | nil => exact h
  | cons o os => exact stops_blank _

/-- Operands of known types are told by their texts, one after the other. -/
theorem operandChars_inj {os os' : List Operand} {rest rest' : List Char}
    (htypes : os.map Operand.type = os'.map Operand.type) (hrest : Stops isGap rest)
    (hrest' : Stops isGap rest') (h : operandChars os ++ rest = operandChars os' ++ rest') :
    os = os' ∧ rest = rest' := by
  induction os generalizing os' with
  | nil =>
    cases List.map_eq_nil_iff.mp htypes.symm
    exact ⟨rfl, h⟩
  | cons o os ih =>
    obtain ⟨o', os', rfl, htype, htypes'⟩ := List.map_eq_cons_iff.mp htypes.symm
    simp only [operandChars, List.flatMap_cons, List.cons_append, List.append_assoc,
      List.cons.injEq, true_and] at h
    obtain ⟨htext, htail⟩ := word_inj o.bare_text o'.bare_text (stops_operandChars os hrest)
      (stops_operandChars os' hrest') h
    obtain ⟨rfl, hsame⟩ := ih htypes'.symm htail
    exact ⟨congrArg (· :: os) (Operand.text_inj htype.symm (String.toList_inj.mp htext)), hsame⟩

/-! ## Sources -/

/-- Where a displayed source ends. -/
def isNewline (c : Char) : Bool := c == '\n'

namespace SourceNode

/-- A source text on one line. -/
def OneLine (n : SourceNode) : Prop := '\n' ∉ n.text.toList

instance (n : SourceNode) : Decidable n.OneLine := inferInstanceAs (Decidable (¬ _))

theorem toList_display (n : SourceNode) :
    n.display.toList =
      (n.text.toList ++ [' ', '@'] ++ ' ' :: (toString n.line.toNat).toList) ++
        ':' :: (toString n.column.toNat).toList := by
  simp [display, String.toList_append]

theorem bare_display {n : SourceNode} (h : n.OneLine) : Bare isNewline n.display.toList := by
  have hdigit (c : Char) (hc : c.isDigit = true) : isNewline c = false := by
    by_contra hnl
    rw [Bool.not_eq_false, isNewline, beq_iff_eq] at hnl
    subst hnl
    exact absurd hc (by decide)
  have htext : Bare isNewline n.text.toList := fun c hc => by
    rw [isNewline, beq_eq_false_iff_ne]
    rintro rfl
    exact h hc
  have hcons {c : Char} {cs : List Char} (hc : isNewline c = false) (hcs : Bare isNewline cs) :
      Bare isNewline (c :: cs) := List.forall_mem_cons.mpr ⟨hc, hcs⟩
  rw [toList_display]
  refine ((htext.append ?_).append ?_).append ?_
  · exact hcons rfl (hcons rfl fun _ hc => by cases hc)
  · exact hcons rfl (bare_toString hdigit _)
  · exact hcons rfl (bare_toString hdigit _)

/-- The column stands behind the last colon and the line behind the last blank before it. -/
theorem display_inj {n n' : SourceNode} (h : n.display = n'.display) : n = n' := by
  have hbare (stop : Char) (hstop : stop.isDigit = false) (n : Nat) :
      Bare (· == stop) (toString n).toList := by
    refine bare_toString (fun c hc => ?_) n
    rw [beq_eq_false_iff_ne]
    rintro rfl
    exact absurd hc (by rw [hstop]; nofun)
  have hcolon := hbare ':' (by decide)
  have hblank := hbare ' ' (by decide)
  have hchars := congrArg String.toList h
  rw [toList_display, toList_display] at hchars
  obtain ⟨hfront, hcolumn⟩ := lastWord_inj rfl (hcolon _) (hcolon _) hchars
  obtain ⟨hmark, hline⟩ := lastWord_inj rfl (hblank _) (hblank _) hfront
  have htext := List.append_cancel_right hmark
  cases n
  cases n'
  rw [SourceNode.mk.injEq]
  have hword {a b : UInt32} (h : (toString a.toNat).toList = (toString b.toNat).toList) : a = b :=
    UInt32.toNat_inj.mp (toString_inj (String.toList_inj.mp h))
  exact ⟨String.toList_inj.mp htext, hword hline, hword hcolumn⟩

end SourceNode

/-- What a line says of its source, up to its end. -/
def sourceChars : Option SourceNode → List Char
  | none => ['\n']
  | some node => "  ; ".toList ++ node.display.toList ++ ['\n']

theorem stops_sourceChars (node? : Option SourceNode) (rest : List Char) :
    Stops isGap (sourceChars node? ++ rest) := by
  cases node? with
  | none => exact stops_newline _
  | some node => exact stops_blank _

theorem sourceChars_inj {node? node?' : Option SourceNode} {rest rest' : List Char}
    (h : ∀ node ∈ node?, node.OneLine) (h' : ∀ node ∈ node?', node.OneLine)
    (heq : sourceChars node? ++ rest = sourceChars node?' ++ rest') :
    node? = node?' ∧ rest = rest' := by
  have hdiffer (node : SourceNode) (rest rest' : List Char) :
      sourceChars none ++ rest ≠ sourceChars (some node) ++ rest' := fun heq =>
    absurd (List.cons.inj heq).1 (by decide)
  cases node? with
  | none =>
    cases node?' with
    | none => exact ⟨rfl, List.append_cancel_left heq⟩
    | some node' => exact absurd heq (hdiffer _ _ _)
  | some node =>
    cases node?' with
    | none => exact absurd heq.symm (hdiffer _ _ _)
    | some node' =>
      simp only [sourceChars, List.append_assoc] at heq
      have hstops (cs : List Char) : Stops isNewline (['\n'] ++ cs) := ⟨'\n', cs, rfl, rfl⟩
      obtain ⟨hdisplay, hrest⟩ := word_inj (SourceNode.bare_display (h node rfl))
        (SourceNode.bare_display (h' node' rfl)) (hstops rest) (hstops rest')
        (List.append_cancel_left heq)
      exact ⟨congrArg some (SourceNode.display_inj (String.toList_inj.mp hdisplay)),
        List.append_cancel_left hrest⟩

/-! ## Lines -/

/-- What a line says of operands that have a note. -/
def noteChars (l : Located) : List Char :=
  match l.instr.note? l.next with
  | some text => " (".toList ++ text.toList ++ [')']
  | none => []

/-- A line of a listing without colours, with its end. -/
def lineChars (node? : Option SourceNode) (l : Located) : List Char :=
  (Numeral.padded 4 l.ip.toNat).toList ++
    ' ' :: (l.instr.opcode.name.toList ++
      (operandChars l.instr.operands ++ (noteChars l ++ sourceChars node?)))

theorem toList_listingLine (node? : Option SourceNode) (l : Located) :
    (listingLine .plain node? l ++ "\n").toList = lineChars node? l := by
  have hoperands : (String.join (l.instr.operands.map fun o => " " ++ o.text)).toList =
      operandChars l.instr.operands := by
    simp [String.toList_join, operandChars, List.flatMap_map, String.toList_append]
  simp only [listingLine, lineChars, noteChars, Palette.inDim, Palette.inBlue, Palette.inGreen,
    Palette.plain, String.empty_append, String.append_empty, String.toList_append, hoperands]
  cases l.instr.note? l.next <;> cases node? <;> simp [sourceChars, String.toList_append]

theorem stops_noteChars (l : Located) {rest : List Char} (h : Stops isGap rest) :
    Stops isGap (noteChars l ++ rest) := by
  unfold noteChars
  split
  · exact stops_blank _
  · exact h

/-- The first line of a text tells its instruction and its source. The note is settled by the
instruction and by the address after it. -/
theorem lineChars_inj {l l' : Located} {node? node?' : Option SourceNode} {rest rest' : List Char}
    (hip : l.ip = l'.ip) (hnext : l.next = UInt32.ofNat (l.ip.toNat + l.instr.length))
    (hnext' : l'.next = UInt32.ofNat (l'.ip.toNat + l'.instr.length))
    (hnode : ∀ node ∈ node?, node.OneLine) (hnode' : ∀ node ∈ node?', node.OneLine)
    (h : lineChars node? l ++ rest = lineChars node?' l' ++ rest') :
    l = l' ∧ node? = node?' ∧ rest = rest' := by
  simp only [lineChars, List.append_assoc, List.cons_append, hip] at h
  have hwords := (List.cons.inj (List.append_cancel_left h)).2
  have hstops (l : Located) (node? : Option SourceNode) (rest : List Char) :
      Stops isGap (noteChars l ++ (sourceChars node? ++ rest)) :=
    stops_noteChars l (stops_sourceChars node? rest)
  obtain ⟨hname, hoperands⟩ := word_inj l.instr.opcode.bare_name l'.instr.opcode.bare_name
    (stops_operandChars _ (hstops ..)) (stops_operandChars _ (hstops ..)) hwords
  have hop : l.instr.opcode = l'.instr.opcode := Opcode.name_inj (String.toList_inj.mp hname)
  have htypes : l.instr.operands.map Operand.type = l'.instr.operands.map Operand.type := by
    rw [l.instr.takes_operands, l'.instr.takes_operands, hop]
  obtain ⟨hos, hnote⟩ := operandChars_inj htypes (hstops ..) (hstops ..) hoperands
  have hinstr : l.instr = l'.instr := by
    have hsame := l.instr.ofOperands_operands
    rw [hop, hos, l'.instr.ofOperands_operands] at hsame
    exact (Except.ok.inj hsame).symm
  have hl : l = l' := by
    rw [hip, hinstr, ← hnext'] at hnext
    cases l
    cases l'
    rw [Located.mk.injEq]
    exact ⟨hinstr, hip, hnext⟩
  subst hl
  obtain ⟨hsource, hrest⟩ := sourceChars_inj hnode hnode' (List.append_cancel_left hnote)
  exact ⟨rfl, hsource, hrest⟩

theorem lineChars_ne_nil (node? : Option SourceNode) (l : Located) : lineChars node? l ≠ [] :=
  fun h => List.cons_ne_nil _ _ (List.append_eq_nil_iff.mp h).2

/-! ## Listings -/

/-- The lines of instructions, with their sources. -/
def listingChars (sources : SourceMap) (ls : List Located) : List Char :=
  ls.flatMap fun l => lineChars (sources.find? l.ip) l

/-- Every source of the map stands on one line. -/
def SourceMap.OneLine (sources : SourceMap) : Prop := ∀ e ∈ sources.entries, e.2.OneLine

instance (sources : SourceMap) : Decidable sources.OneLine :=
  inferInstanceAs (Decidable (∀ e ∈ sources.entries, e.2.OneLine))

theorem SourceMap.OneLine.find? {sources : SourceMap} (h : sources.OneLine) (ip : UInt32) :
    ∀ node ∈ sources.find? ip, node.OneLine := by
  intro node hnode
  obtain ⟨before, after, hentries, -⟩ := List.lookup_eq_some_iff.mp hnode
  refine h (ip, node) ?_
  rw [hentries]
  exact List.mem_append_right _ List.mem_cons_self

/-- Code that is decoded to its end is the encoding of its instructions. -/
theorem encoding_decodeAll {code : Array UInt8} (hsize : code.size < 2 ^ 32)
    (h : (decodeAll code).2 = none) : encoding (decodeAll code).1 = code.toList := by
  have hyields := yields_decodeAll hsize
  rw [h] at hyields
  have hstands := hyields.encoding_stands hsize
  have hlength := hyields.stops hsize (Nat.zero_le _)
  rw [UInt32.toNat_zero, List.drop_zero] at hstands
  exact hstands.eq_of_length (by simpa using hlength)

theorem toList_of_disassemble {code : Array UInt8} {sources : SourceMap} {text : String}
    (h : disassemble code sources .plain = .ok text) :
    (decodeAll code).2 = none ∧ text.toList = listingChars sources (decodeAll code).1 := by
  unfold disassemble at h
  split at h
  · cases h
  · next ls hls =>
    cases h
    rw [hls]
    refine ⟨rfl, ?_⟩
    simp only [String.toList_join, List.flatMap_map, toList_listingLine]
    rfl

/-- Two codes that are decoded from one address on are listed line by line. By induction on the
instructions of one of them. -/
theorem listingChars_inj {code code' : Array UInt8} {sources sources' : SourceMap}
    (hsources : sources.OneLine) (hsources' : sources'.OneLine) {ip : UInt32}
    {ls ls' : List Located} {e? e?' : Option CodecError} (hls : Yields code ip ls e?)
    (hls' : Yields code' ip ls' e?') (h : listingChars sources ls = listingChars sources' ls') :
    ls = ls' ∧ ∀ l ∈ ls, sources.find? l.ip = sources'.find? l.ip := by
  have hmore (sources : SourceMap) (l : Located) (ls : List Located) :
      listingChars sources (l :: ls) ≠ [] := fun h =>
    lineChars_ne_nil _ _ (List.append_eq_nil_iff.mp h).1
  have hend {ls' : List Located} (h : [] = listingChars sources' ls') : ls' = [] := by
    cases ls' with
    | nil => rfl
    | cons l' ls' => exact absurd h.symm (hmore _ _ _)
  induction hls generalizing ls' with
  | stop _ | fail _ _ =>
    cases hend h
    exact ⟨rfl, fun l hl => by cases hl⟩
  | @next ip l ls e? _ hl _ ih =>
    cases hls' with
    | stop _ | fail _ _ => exact absurd h (hmore _ _ _)
    | @next _ l' ls' _ _ hl' hrest' =>
      obtain ⟨hip, hnext, -⟩ := decodeAt_ok_iff.mp hl
      obtain ⟨hip', hnext', -⟩ := decodeAt_ok_iff.mp hl'
      obtain ⟨rfl, hsource, htail⟩ := lineChars_inj (hip.trans hip'.symm) (hip.symm ▸ hnext)
        (hip'.symm ▸ hnext') (hsources.find? _) (hsources'.find? _) h
      obtain ⟨rfl, hall⟩ := ih hrest' htail
      exact ⟨rfl, List.forall_mem_cons.mpr ⟨hsource, hall⟩⟩

/-- Equal listings are listings of equal code with equal sources at every instruction. -/
theorem disassemble_injective {code code' : Array UInt8} {sources sources' : SourceMap}
    (hsize : code.size < 2 ^ 32) (hsize' : code'.size < 2 ^ 32) (hsources : sources.OneLine)
    (hsources' : sources'.OneLine) {text : String}
    (h : disassemble code sources .plain = .ok text)
    (h' : disassemble code' sources' .plain = .ok text) :
    code = code' ∧ ∀ l ∈ (decodeAll code).1, sources.find? l.ip = sources'.find? l.ip := by
  obtain ⟨hnone, hchars⟩ := toList_of_disassemble h
  obtain ⟨hnone', hchars'⟩ := toList_of_disassemble h'
  obtain ⟨hsame, hall⟩ := listingChars_inj hsources hsources' (yields_decodeAll hsize)
    (yields_decodeAll hsize') (hchars.symm.trans hchars')
  refine ⟨Array.toList_inj.mp ?_, hall⟩
  rw [← encoding_decodeAll hsize hnone, hsame, encoding_decodeAll hsize' hnone']

/-- A source whose text looks like operands, a note and a source. -/
def lookalike : SourceNode := ⟨"1 (true)  ; x @ 3:4", 3, 4⟩

/-- The maps differ only at an address inside of an instruction. -/
theorem disassemble_injective_inside :
    let code : Array UInt8 := #[4, 1, 22]
    let sources := SourceMap.ofList [(0, lookalike), (1, lookalike)]
    let sources' := SourceMap.ofList [(0, lookalike)]
    ∃ text, disassemble code sources .plain = .ok text ∧
      disassemble code sources' .plain = .ok text ∧ sources.find? 1 ≠ sources'.find? 1 ∧
      ∀ l ∈ (decodeAll code).1, sources.find? l.ip = sources'.find? l.ip := by
  intro code sources sources'
  have hdecode : decodeAll code = ([⟨.pushBool 1, 0, 2⟩, ⟨.ret, 2, 3⟩], none) := by decide
  have hfirst : sources'.find? 0 = sources.find? 0 := by decide
  have hlast : sources'.find? 2 = sources.find? 2 := by decide
  obtain ⟨text, h⟩ : ∃ text, disassemble code sources .plain = .ok text :=
    ⟨_, by simp only [disassemble, hdecode]; rfl⟩
  have h' : disassemble code sources' .plain = .ok text := by
    rw [← h]
    simp only [disassemble, hdecode, List.map_cons, List.map_nil, hfirst, hlast]
  exact ⟨text, h, h', by decide,
    (disassemble_injective (by decide) (by decide) (by decide) (by decide) h h').2⟩

end ForeignVM
