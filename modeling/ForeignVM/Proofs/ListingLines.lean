import ForeignVM.Proofs.Checks
import ForeignVM.Proofs.Flow
import ForeignVM.Proofs.ListingText
import Mathlib.Algebra.GroupWithZero.Nat

/-!
# ForeignVM.Proofs.ListingLines

How many lines a listing has. Nothing that is written for an instruction itself contains a
newline; what is displayed of its source contains those of the source text, so the listing has one
line per instruction exactly if the source texts of the instructions stand on one line each.

* `Instr.bare_note`             — notes contain no newline.
* `count_lineChars`             — the newlines of what is written for one instruction.
* `Tabulates`                   — one line per instruction, with its address and opcode in front.
* `disassemble_tabulates_iff`   — when the listing of a valid program is such a text.
-/

namespace ForeignVM

/-! ## Texts without a newline -/

theorem bare_isNewline_iff {cs : List Char} : Bare isNewline cs ↔ '\n' ∉ cs := by
  constructor
  · intro h hmem
    exact absurd (h _ hmem) (by decide)
  · intro h c hc
    rw [isNewline, beq_eq_false_iff_ne]
    rintro rfl
    exact h hc

/-- A word holds no newline, as it ends at the first one. -/
theorem Bare.of_isGap {cs : List Char} (h : Bare isGap cs) : Bare isNewline cs := fun c hc =>
  (Bool.or_eq_false_iff.mp (h c hc)).2

theorem Bare.cons {stop : Char → Bool} {c : Char} {cs : List Char} (hc : stop c = false)
    (hcs : Bare stop cs) : Bare stop (c :: cs) := List.forall_mem_cons.mpr ⟨hc, hcs⟩

theorem Bare.nil {stop : Char → Bool} : Bare stop [] := fun _ h => by cases h

theorem Bare.replicate {stop : Char → Bool} {c : Char} (hc : stop c = false) (n : Nat) :
    Bare stop (List.replicate n c) := fun _ h => List.eq_of_mem_replicate h ▸ hc

theorem bare_toDigits (n : Nat) : Bare isNewline (Nat.toDigits 10 n) := by
  rw [← toList_toString]
  exact (bare_toString not_isGap_of_isDigit n).of_isGap

theorem bare_padded (width n : Nat) : Bare isNewline (Numeral.padded width n).toList := by
  rw [Numeral.padded, Numeral.fill, String.toList_ofList]
  exact (Bare.replicate rfl _).append (bare_toDigits n)

theorem bare_toString_int (z : Int) : Bare isNewline (toString z).toList := by
  intro c hc
  rcases mem_toString_int hc with hdigit | rfl
  · exact (Bool.or_eq_false_iff.mp (not_isGap_of_isDigit c hdigit)).2
  · rfl

theorem bare_signed (z : Int) : Bare isNewline (Numeral.signed z).toList := by
  unfold Numeral.signed
  split
  · rw [String.toList_append]
    exact (Bare.cons rfl .nil).append (bare_toString_int z)
  · exact bare_toString_int z

namespace Style

theorem bare_positional {digits : List Char} (h : Bare isNewline digits) (whole : Int) :
    Bare isNewline (positional digits whole) := by
  unfold positional
  split
  · exact Bare.cons rfl (Bare.cons rfl ((Bare.replicate rfl _).append h))
  · dsimp only
    split
    · exact Bare.append (fun c hc => h c (List.mem_of_mem_take hc))
        (Bare.cons rfl fun c hc => h c (List.mem_of_mem_drop hc))
    · exact (h.append (.replicate rfl _)).append (.cons rfl (.cons rfl .nil))

theorem bare_exponential (style : Style) {digits : List Char} (h : Bare isNewline digits)
    (exponent : Int) : Bare isNewline (style.exponential digits exponent) := by
  have hsign : Bare isNewline (if style.plus && 0 ≤ exponent then "+" else "").toList := by
    split
    · exact .cons rfl .nil
    · exact .nil
  have hexponent := hsign.append (bare_toString_int exponent)
  rw [← String.toList_append] at hexponent
  unfold exponential
  dsimp only
  split
  · obtain ⟨hfirst, hrest⟩ := List.forall_mem_cons.mp h
    exact (Bare.cons hfirst (.cons rfl hrest)).append (.cons rfl hexponent)
  · exact h.append (.cons rfl hexponent)

theorem bare_decimalText (style : Style) (d : Decimal) :
    Bare isNewline (style.decimalText d) := by
  unfold decimalText
  dsimp only
  split
  · exact bare_positional (bare_toDigits _) _
  · exact style.bare_exponential (bare_toDigits _) _

theorem bare_finiteText (style : Style) (x : Double) :
    Bare isNewline (style.finiteText x).toList := by
  have hbody : Bare isNewline (if x.isZero then "0.0".toList
      else style.decimalText (Decimal.shortest style.tie x.magnitude)) := by
    split
    · exact bare_isNewline_iff.mpr (by decide)
    · exact style.bare_decimalText _
  rw [finiteText, String.toList_ofList]
  split
  · exact .cons rfl hbody
  · exact hbody

end Style

theorem Double.bare_text (x : Double) : Bare isNewline x.text.toList := by
  unfold Double.text
  split
  · exact bare_isNewline_iff.mpr (by decide)
  · split
    · split <;> exact bare_isNewline_iff.mpr (by decide)
    · exact Style.debug.bare_finiteText x

theorem ScalarKind.bare_name (k : ScalarKind) : Bare isNewline k.name.toList := by
  cases k <;> exact bare_isNewline_iff.mpr (by decide)

/-- By the opcodes that have a note. -/
theorem Instr.bare_note {i : Instr} {next : UInt32} {text : String} (h : i.note? next = some text) :
    Bare isNewline text.toList := by
  cases i <;> try cases h
  case pushF64 value => exact value.bare_text
  case pushBool value => split <;> exact bare_isNewline_iff.mpr (by decide)
  case jump target | jumpIfFalse target => exact bare_signed _
  case cast kinds =>
    simp only [note?] at h
    split at h
    · cases h
      simp only [String.toList_append]
      exact ((ScalarKind.bare_name _).append (bare_isNewline_iff.mpr (by decide))).append
        (ScalarKind.bare_name _)
    · cases h
      exact bare_isNewline_iff.mpr (by decide)
  case constGet offset =>
    have hnat (n : Nat) : Bare isNewline (toString n).toList :=
      (bare_toString not_isGap_of_isDigit n).of_isGap
    simp only [String.toList_append]
    exact (((bare_isNewline_iff.mpr (by decide)).append (hnat _)).append
      (bare_isNewline_iff.mpr (by decide))).append (hnat _)

/-! ## Lines -/

/-- What the line of an instruction starts with. -/
def Located.heading (l : Located) : String :=
  Numeral.padded 4 l.ip.toNat ++ " " ++ l.instr.opcode.name

/-- The newlines in the source text of an address, if it has one. -/
def SourceMap.breaks (sources : SourceMap) (ip : UInt32) : Nat :=
  (sources.find? ip).elim 0 fun node => node.text.toList.count '\n'

/-- Lines with their ends. -/
def ofLines (lines : List String) : String := String.join (lines.map (· ++ "\n"))

/-- The text has one line per instruction, each with the heading of its instruction. -/
def Tabulates (text : String) (ls : List Located) : Prop :=
  ∃ lines, text = ofLines lines ∧ (∀ line ∈ lines, '\n' ∉ line.toList) ∧
    List.Forall₂ (fun line l => l.heading.toList <+: line.toList) lines ls

theorem Bare.count_eq_zero {cs : List Char} (h : Bare isNewline cs) : cs.count '\n' = 0 :=
  List.count_eq_zero.mpr (bare_isNewline_iff.mp h)

theorem count_display (node : SourceNode) :
    node.display.toList.count '\n' = node.text.toList.count '\n' := by
  have hnat (n : Nat) : (toString n).toList.count '\n' = 0 :=
    (bare_toString not_isGap_of_isDigit n).of_isGap.count_eq_zero
  simp [-Nat.toList_repr, -Nat.toString_eq_repr, node.toList_display, hnat]

theorem count_operandChars (os : List Operand) : (operandChars os).count '\n' = 0 := by
  refine Bare.count_eq_zero fun c hc => ?_
  obtain ⟨o, -, hc⟩ := List.mem_flatMap.mp hc
  exact Bare.cons rfl o.bare_text.of_isGap c hc

theorem count_noteChars (l : Located) : (noteChars l).count '\n' = 0 := by
  unfold noteChars
  split
  · next text h => simp [(Instr.bare_note h).count_eq_zero]
  · rfl

theorem count_sourceChars (node? : Option SourceNode) :
    (sourceChars node?).count '\n' = node?.elim 0 (fun n => n.text.toList.count '\n') + 1 := by
  cases node? with
  | none => rfl
  | some node => simp [sourceChars, count_display]

/-- The line itself ends with a newline; the others stand in its source. -/
theorem count_lineChars (sources : SourceMap) (l : Located) :
    (lineChars (sources.find? l.ip) l).count '\n' = sources.breaks l.ip + 1 := by
  rw [lineChars, List.count_append, List.count_cons, List.count_append, List.count_append,
    List.count_append, (bare_padded 4 _).count_eq_zero,
    l.instr.opcode.bare_name.of_isGap.count_eq_zero, count_operandChars, count_noteChars,
    count_sourceChars]
  simp [SourceMap.breaks]

/-- What a listing has for an instruction. -/
def SourceMap.piece (sources : SourceMap) (l : Located) : String :=
  listingLine .plain (sources.find? l.ip) l

theorem count_piece (sources : SourceMap) (l : Located) :
    (sources.piece l).toList.count '\n' = sources.breaks l.ip := by
  have h := count_lineChars sources l
  rw [← toList_listingLine, String.toList_append, List.count_append] at h
  exact Nat.succ.inj h

/-- Operands, note and source stand behind the heading. -/
theorem starts_with_heading (sources : SourceMap) (l : Located) :
    l.heading.toList <+: (sources.piece l).toList := by
  simp only [SourceMap.piece, listingLine, Located.heading, Palette.inDim, Palette.inBlue,
    Palette.plain, String.empty_append, String.append_empty, String.toList_append]
  exact ((List.prefix_append _ _).trans (List.prefix_append _ _)).trans (List.prefix_append _ _)

theorem count_ofLines (lines : List String) :
    (ofLines lines).toList.count '\n' =
      (lines.map fun line => line.toList.count '\n').sum + lines.length := by
  induction lines with
  | nil => rfl
  | cons line lines ih =>
    have hline : (line ++ "\n").toList.count '\n' = line.toList.count '\n' + 1 := by simp
    have hjoin : ofLines (line :: lines) = (line ++ "\n") ++ ofLines lines := by
      simp [ofLines, String.join_cons]
    rw [hjoin, String.toList_append, List.count_append, hline, ih, List.map_cons, List.sum_cons,
      List.length_cons]
    omega

/-- A table has as many newlines as there are instructions. -/
theorem Tabulates.count {text : String} {ls : List Located} (h : Tabulates text ls) :
    text.toList.count '\n' = ls.length := by
  obtain ⟨lines, rfl, hbare, hlines⟩ := h
  have hzero : (lines.map fun line => line.toList.count '\n').sum = 0 :=
    List.sum_eq_zero_iff_forall_eq_nat.mpr (List.forall_mem_map.mpr fun line hline =>
      List.count_eq_zero.mpr (hbare line hline))
  rw [count_ofLines, hzero, Nat.zero_add, hlines.length_eq]

theorem breaks_eq_zero_iff {sources : SourceMap} {ip : UInt32} :
    sources.breaks ip = 0 ↔ ∀ node ∈ sources.find? ip, node.OneLine := by
  unfold SourceMap.breaks
  cases sources.find? ip with
  | none => simp
  | some node => simp [List.count_eq_zero, SourceNode.OneLine]

/-- Of every valid program there is a listing, in which each instruction has a piece with its
heading in front, and the piece has the newlines of its source text. The listing is a text of one
line per instruction exactly if no instruction has a source text with a newline. -/
theorem disassemble_tabulates_iff {p : Program} (hvalid : p.validate = .ok ()) :
    ∃ pieces, disassemble p.code p.sources .plain = .ok (ofLines pieces) ∧
      List.Forall₂ (fun piece l => l.heading.toList <+: piece.toList ∧
        piece.toList.count '\n' = p.sources.breaks l.ip) pieces (decodeAll p.code).1 ∧
      (ofLines pieces).toList.count '\n' =
        ((decodeAll p.code).1.map fun l => p.sources.breaks l.ip).sum +
          (decodeAll p.code).1.length ∧
      (Tabulates (ofLines pieces) (decodeAll p.code).1 ↔
        ∀ l ∈ (decodeAll p.code).1, ∀ node ∈ p.sources.find? l.ip, node.OneLine) := by
  have hdisassemble := Machine.disassemble_of_whole
    (Program.validate_ok_iff.mp hvalid).whole p.sources .plain
  generalize (decodeAll p.code).1 = ls at hdisassemble ⊢
  have hpieces : List.Forall₂ (fun piece l => l.heading.toList <+: piece.toList ∧
      piece.toList.count '\n' = p.sources.breaks l.ip) (ls.map p.sources.piece) ls := by
    rw [List.forall₂_map_left_iff, List.forall₂_same]
    exact fun l _ => ⟨starts_with_heading p.sources l, count_piece p.sources l⟩
  have hcount : (ofLines (ls.map p.sources.piece)).toList.count '\n' =
      (ls.map fun l => p.sources.breaks l.ip).sum + ls.length := by
    simp only [count_ofLines, List.map_map, List.length_map, Function.comp_def, count_piece]
  refine ⟨ls.map p.sources.piece, ?_, hpieces, hcount, fun h l hl => ?_, fun h => ?_⟩
  · rw [hdisassemble, ofLines, List.map_map]
    rfl
  · -- one newline for each instruction is taken by the end of its line
    have hzero : (ls.map fun l => p.sources.breaks l.ip).sum = 0 :=
      Nat.add_right_cancel (hcount.symm.trans (h.count.trans (Nat.zero_add _).symm))
    exact breaks_eq_zero_iff.mp
      (List.sum_eq_zero_iff_forall_eq_nat.mp hzero _ (List.mem_map_of_mem hl))
  · refine ⟨_, rfl, List.forall_mem_map.mpr fun l hl => ?_, hpieces.imp fun _ _ h => h.1⟩
    rw [← List.count_eq_zero, count_piece]
    exact breaks_eq_zero_iff.mpr (h l hl)

/-- A literal with a source of one line. The source inside of the instruction is not displayed. -/
def literal : Program where
  code := #[4, 1, 22]
  sources := .ofList [(0, ⟨"true", 1, 1⟩), (1, ⟨"f(1,\n  2)", 1, 2⟩)]
  types := default
  routines := #[]
  constants := []
  natives := #[]
  entry := none

theorem literal_tabulated : literal.validate = .ok () ∧
    ∃ text, disassemble literal.code literal.sources .plain = .ok text ∧
      Tabulates text (decodeAll literal.code).1 := by
  have hdecode : decodeAll literal.code = ([⟨.pushBool 1, 0, 2⟩, ⟨.ret, 2, 3⟩], none) := by decide
  have hvalid : literal.validate = .ok () := by decide
  obtain ⟨pieces, htext, -, -, htable⟩ := disassemble_tabulates_iff hvalid
  refine ⟨hvalid, _, htext, htable.mpr ?_⟩
  rw [hdecode]
  decide

/-- A call that its source wraps after the first argument. -/
def wrapped : Program :=
  { literal with code := #[0], sources := .ofList [(0, ⟨"f(1,\n  2)", 1, 1⟩)] }

/-- A listing of one instruction with two lines, the second of which belongs to none. -/
theorem wrapped_not_tabulated :
    wrapped.code.size < 2 ^ 32 ∧ wrapped.validate = .ok () ∧
      disassemble wrapped.code wrapped.sources .plain = .ok "0000 NOP  ; f(1,\n  2) @ 1:1\n" ∧
      ¬ Tabulates "0000 NOP  ; f(1,\n  2) @ 1:1\n" (decodeAll wrapped.code).1 := by
  have hdecode : decodeAll wrapped.code = ([⟨.nop, 0, 1⟩], none) := by decide
  have hdisassemble : disassemble wrapped.code wrapped.sources .plain =
      .ok "0000 NOP  ; f(1,\n  2) @ 1:1\n" := by
    simp only [disassemble, hdecode]
    decide
  exact ⟨by decide, by decide, hdisassemble, fun h => absurd h.count (by decide)⟩

end ForeignVM
