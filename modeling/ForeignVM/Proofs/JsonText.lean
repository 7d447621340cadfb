import ForeignVM.Json.Parser

/-!
# ForeignVM.Proofs.JsonText

JSON is read back from its own text, compact or indented.

* `Numeral.read?_toDigits`, `Text.decode_quote` — numbers and strings.
* `Json.Written` — the values whose numbers and strings have a written form.
* `Json.tokens`  — the tokens of a value. `Lexer.lexes_render`: its text is cut into these;
  `Builder.builds`: these make up the value.
* `Json.parse?_render` — the text of a value is read as that value.
-/

namespace ForeignVM

theorem Numeral.read?_toDigits (n : Nat) : Numeral.read? (Nat.toDigits 10 n) = some n := by
  have hempty : (Nat.toDigits 10 n).isEmpty = false :=
    List.isEmpty_eq_false_iff.mpr Nat.toDigits_ne_nil
  have hdigits : (Nat.toDigits 10 n).all Char.isDigit = true :=
    List.all_eq_true.mpr fun c => Nat.isDigit_of_mem_toDigits (by decide) (by decide)
  rw [read?, hempty, hdigits]
  exact congrArg some Nat.ofDigitChars_ten_toDigits

/-- Only the numeral of zero starts with a zero. -/
theorem Numeral.toDigits_leading {n : Nat} {cs : List Char} (h : Nat.toDigits 10 n = '0' :: cs) :
    cs = [] := by
  induction n using Nat.strongRecOn generalizing cs with
  | ind n ih =>
    by_cases hn : n < 10
    · rw [Nat.toDigits_of_lt_base hn] at h
      exact (List.cons.inj h).2.symm
    · rw [Nat.toDigits_of_base_le (by decide) (Nat.not_lt.mp hn)] at h
      have hne : Nat.toDigits 10 (n / 10) ≠ [] := Nat.toDigits_ne_nil
      obtain ⟨c, rest, hfront⟩ := List.exists_cons_of_ne_nil hne
      rw [hfront, List.cons_append, List.cons.injEq] at h
      obtain ⟨rfl, -⟩ := h
      -- The digits before the last would be those of zero.
      have hrest := ih (n / 10) (by omega) hfront
      have hvalue : Nat.ofDigitChars 10 (Nat.toDigits 10 (n / 10)) 0 = n / 10 :=
        Nat.ofDigitChars_ten_toDigits
      rw [hfront, hrest] at hvalue
      have hzero : Nat.ofDigitChars 10 ['0'] 0 = 0 := rfl
      omega

/-- What may stand between the quotes of a string. -/
inductive Piece.Written : Piece → Prop where
  | char {c : Char} (hquote : c ≠ '"') (hescape : c ≠ '\\') (hcontrol : ¬ c.toNat < 0x20) :
      Written (.char c)
  | escape {letter c : Char} (h : Text.unescape? letter = some c) : Written (.escape letter)
  | unit {value : Nat} (h : value < 16 ^ 4) : Written (.unit value)

namespace Text

def Written (t : Text) : Prop := ∀ p ∈ t, p.Written

theorem written_quoteChar (c : Char) : (quoteChar c).Written := by
  unfold quoteChar
  split
  case h_8 hquote hescape _ _ _ _ _ =>
    split
    · next h => exact .unit (Nat.lt_trans h (by decide))
    · next h => exact .char hquote hescape h
  all_goals exact .escape rfl

theorem written_quote (s : String) : (quote s).Written := by
  intro p hp
  obtain ⟨c, -, rfl⟩ := List.mem_map.mp hp
  exact written_quoteChar c

theorem decodeChars_quoteChar (c : Char) (rest : Text) :
    decodeChars (quoteChar c :: rest) = (decodeChars rest).map (c :: ·) := by
  unfold quoteChar
  split
  case h_8 =>
    split
    · next h =>
      have hhigh : isHigh c.toNat = false := by unfold isHigh; simp; omega
      have hlow : isLow c.toNat = false := by unfold isLow; simp; omega
      cases rest with
      | nil => simp [decodeChars, hhigh, hlow, Char.ofNat_toNat]
      | cons p rest => cases p <;> simp [decodeChars, hhigh, hlow, Char.ofNat_toNat]
    · rfl
  all_goals rfl

theorem decode_quote (s : String) : (quote s).decode = some s := by
  have hchars (cs : List Char) : decodeChars (cs.map quoteChar) = some cs := by
    induction cs with
    | nil => rfl
    | cons c cs ih => rw [List.map_cons, decodeChars_quoteChar, ih]; rfl
  rw [decode, quote, hchars]
  exact congrArg some String.ofList_toList

theorem quoteChar_of_isDigit {c : Char} (h : c.isDigit = true) : quoteChar c = .char c := by
  unfold quoteChar
  split
  case h_8 =>
    refine if_neg fun hcontrol => ?_
    have hzero : '0'.toNat = 0x30 := rfl
    rw [Char.isDigit_iff_toNat] at h
    omega
  all_goals exact absurd h (by decide)

/-- Digits need no escapes. -/
theorem plain?_quote {cs : List Char} (h : ∀ c ∈ cs, c.isDigit = true) :
    plain? (quote (String.ofList cs)) = some cs := by
  rw [quote, String.toList_ofList]
  induction cs with
  | nil => rfl
  | cons c cs ih =>
    rw [List.map_cons, quoteChar_of_isDigit (h c List.mem_cons_self), plain?,
      ih fun d hd => h d (.tail _ hd)]
    rfl

end Text
namespace Lexer

variable {done : List Token} {front back : List Char} {tokens more : List Token}

def run (l : Lexer) (cs : List Char) : Option Lexer := (cs.map some).foldlM step l

theorem run_step {l l' : Lexer} {c : Char} (h : l.step (some c) = some l') (cs : List Char) :
    l.run (c :: cs) = l'.run cs := by
  rw [run, List.map_cons, List.foldlM_cons, h]
  rfl

theorem run_front {l l' : Lexer} (h : l.run front = some l') (back : List Char) :
    l.run (front ++ back) = l'.run back := by
  rw [run] at h
  rw [run, List.map_append, List.foldlM_append, h]
  rfl

/-- Characters that no word or number goes on with. -/
def delimiters : List Char := [' ', '\n', '\t', '\r', '[', ']', '\x7b', '\x7d', ',', ':']

theorem not_isLetter_of_delimiter {c : Char} (hc : c ∈ delimiters) : isLetter c = false :=
  have hall : delimiters.all (fun c => !isLetter c) = true := rfl
  (Bool.not_eq_true' _).mp (List.all_eq_true.mp hall c hc)

theorem not_isDigit_of_delimiter {c : Char} (hc : c ∈ delimiters) : c.isDigit = false :=
  have hall : delimiters.all (fun c => !c.isDigit) = true := rfl
  (Bool.not_eq_true' _).mp (List.all_eq_true.mp hall c hc)

theorem next?_of_delimiter (phase : NumberPhase) {c : Char} (hc : c ∈ delimiters) :
    phase.next? c = none := by
  have hall : delimiters.all (fun c => (phase.next? c).isNone) = true := by cases phase <;> rfl
  exact Option.isNone_iff_eq_none.mp (List.all_eq_true.mp hall c hc)

/-- The lexer has read the tokens `done`, last first: it would give them as they are, and goes on
at a delimiter as if it stood between tokens. -/
structure Behind (l : Lexer) (done : List Token) : Prop where
  step : ∀ c ∈ delimiters, l.step (some c) = start done c
  finish : l.finish? = some done.reverse

theorem behind_between (done : List Token) : Behind ⟨done, .between⟩ done := ⟨fun _ _ => rfl, rfl⟩

theorem behind_word {letters : List Char} {token : Token} (h : word? letters = some token) :
    Behind ⟨done, .word letters⟩ (token :: done) where
  step c hc := by simp [Lexer.step, not_isLetter_of_delimiter hc, h]
  finish := by simp only [finish?, h]

theorem behind_number {phase : NumberPhase} {literal : List Char} (h : phase.isDone = true) :
    Behind ⟨done, .number phase literal⟩ (.number literal.reverse :: done) where
  step c hc := by simp only [Lexer.step, next?_of_delimiter phase hc, h, if_true]
  finish := by simp only [finish?, h, if_true]

/-- Begun between tokens, the characters make up the tokens. -/
def Lexes (cs : List Char) (tokens : List Token) : Prop :=
  ∀ done, ∃ l, run ⟨done, .between⟩ cs = some l ∧ l.Behind (tokens.reverse ++ done)

/-- Right after a token, the characters make up the tokens. -/
def Follows (cs : List Char) (tokens : List Token) : Prop :=
  ∀ l done, Behind l done → ∃ l', l.run cs = some l' ∧ l'.Behind (tokens.reverse ++ done)

/-- Right after a token, the characters make up the tokens and lead between tokens again. -/
def Breaks (cs : List Char) (tokens : List Token) : Prop :=
  ∀ l done, Behind l done → l.run cs = some ⟨tokens.reverse ++ done, .between⟩

theorem Follows.nil : Follows [] [] := fun l _ h => ⟨l, rfl, h⟩

theorem Follows.lexes (h : Follows front tokens) : Lexes front tokens :=
  fun done => h _ done (behind_between done)

theorem Breaks.follows (h : Breaks front tokens) : Follows front tokens :=
  fun l done hl => ⟨_, h l done hl, behind_between _⟩

theorem Lexes.append (h : Lexes front tokens) (hback : Follows back more) :
    Lexes (front ++ back) (tokens ++ more) := by
  intro done
  obtain ⟨l, hrun, hl⟩ := h done
  obtain ⟨l', hrun', hl'⟩ := hback l _ hl
  rw [List.reverse_append, List.append_assoc]
  exact ⟨l', (run_front hrun back).trans hrun', hl'⟩

theorem Follows.append (h : Follows front tokens) (hback : Follows back more) :
    Follows (front ++ back) (tokens ++ more) := by
  intro l done hl
  obtain ⟨l', hrun, hl'⟩ := h l done hl
  obtain ⟨l'', hrun', hl''⟩ := hback l' _ hl'
  rw [List.reverse_append, List.append_assoc]
  exact ⟨l'', (run_front hrun back).trans hrun', hl''⟩

theorem Breaks.append (h : Breaks front tokens) (hback : Lexes back more) :
    Follows (front ++ back) (tokens ++ more) := by
  intro l done hl
  obtain ⟨l', hrun, hl'⟩ := hback (tokens.reverse ++ done)
  rw [List.reverse_append, List.append_assoc]
  exact ⟨l', (run_front (h l done hl) back).trans hrun, hl'⟩

theorem Breaks.punctuation {c : Char} {token : Token} (hc : c ∈ delimiters)
    (hblank : isBlank c = false) (h : punctuation? c = some token) : Breaks [c] [token] := by
  intro l done hl
  refine run_step ((hl.step c hc).trans ?_) []
  rw [start, hblank, h]
  rfl

theorem Breaks.blanks {n : Nat} (h : Breaks front tokens) :
    Breaks (front ++ List.replicate n ' ') tokens := by
  intro l done hl
  induction n with
  | zero => rw [List.replicate_zero, List.append_nil, h l done hl]
  | succ n ih =>
    rw [List.replicate_succ', ← List.append_assoc, run_front ih]
    rfl

theorem Breaks.blank {c : Char} (hc : c ∈ delimiters) (h : isBlank c = true) : Breaks [c] [] := by
  intro l done hl
  refine run_step ((hl.step c hc).trans ?_) []
  rw [start, h]
  rfl

theorem Breaks.append_breaks (h : Breaks front tokens) (hback : Breaks back more) :
    Breaks (front ++ back) (tokens ++ more) := by
  intro l done hl
  rw [run_front (h l done hl), List.reverse_append, List.append_assoc]
  exact hback _ _ (behind_between _)

theorem breaks_newline (level : Nat) : Breaks (Json.lineBreak true level) [] :=
  (Breaks.blank (by decide) rfl : Breaks ['\n'] []).blanks

theorem Breaks.lineBreak (h : Breaks front tokens) (pretty : Bool) (level : Nat) :
    Breaks (front ++ Json.lineBreak pretty level) tokens := by
  cases pretty with
  | false => rwa [Json.lineBreak, if_neg Bool.false_ne_true, List.append_nil]
  | true =>
    have hbreak := h.append_breaks (breaks_newline level)
    rwa [List.append_nil] at hbreak

theorem Breaks.afterLineBreak (h : Breaks back more) (pretty : Bool) (level : Nat) :
    Breaks (Json.lineBreak pretty level ++ back) more := by
  cases pretty with
  | false => exact h
  | true => exact (breaks_newline level).append_breaks h

/-- The phase after the first character of a number. -/
def firstPhase? (c : Char) : Option NumberPhase :=
  if c = '-' then some .minus
  else if c = '0' then some .zero
  else if c.isDigit then some .whole
  else none

/-- The written form of a number: read by phases, it ends in one that a number may end in. -/
def IsNumber : List Char → Prop
  | [] => False
  | c :: cs => ∃ first last, firstPhase? c = some first ∧
      cs.foldlM NumberPhase.next? first = some last ∧ last.isDone = true

theorem punctuation?_of_not_delimiter {c : Char} (h : c ∉ delimiters) : punctuation? c = none := by
  unfold punctuation?
  split
  case h_7 => rfl
  all_goals exact absurd (by decide) h

theorem isBlank_of_not_delimiter {c : Char} (h : c ∉ delimiters) : isBlank c = false := by
  simp only [delimiters, List.mem_cons, not_or] at h
  simp [isBlank, h]

theorem start_of_firstPhase {c : Char} {phase : NumberPhase} (h : firstPhase? c = some phase)
    (done : List Token) : start done c = some ⟨done, .number phase [c]⟩ := by
  unfold firstPhase? at h
  split at h
  · next hminus =>
    cases h
    rw [hminus]
    rfl
  split at h
  · next hzero =>
    cases h
    rw [hzero]
    rfl
  split at h
  · next hminus hzero hdigit =>
    cases h
    have hdelimiter : c ∉ delimiters := fun hmem =>
      Bool.false_ne_true ((not_isDigit_of_delimiter hmem).symm.trans hdigit)
    have hquote : c ≠ '"' := by
      rintro rfl
      exact absurd hdigit (by decide)
    rw [start, isBlank_of_not_delimiter hdelimiter, punctuation?_of_not_delimiter hdelimiter]
    simp only [Bool.false_eq_true, if_false, hquote, hminus, hzero, hdigit, if_true]
  · cases h

theorem run_number {phase last : NumberPhase} {cs : List Char}
    (h : cs.foldlM NumberPhase.next? phase = some last) (literal : List Char) :
    run ⟨done, .number phase literal⟩ cs = some ⟨done, .number last (cs.reverse ++ literal)⟩ := by
  induction cs generalizing phase literal with
  | nil =>
    cases h
    rfl
  | cons c cs ih =>
    rw [List.foldlM_cons] at h
    obtain ⟨next, hnext, hrest⟩ := Option.bind_eq_some_iff.mp h
    have hstep : step ⟨done, .number phase literal⟩ (some c) =
        some ⟨done, .number next (c :: literal)⟩ := by
      simp only [step, hnext]
    rw [run_step hstep, List.reverse_cons, List.append_assoc]
    exact ih hrest (c :: literal)

theorem lexes_number {literal : List Char} (h : IsNumber literal) :
    Lexes literal [.number literal] := by
  intro done
  cases literal with
  | nil => exact h.elim
  | cons c cs =>
    obtain ⟨first, last, hfirst, hlast, hdone⟩ := h
    refine ⟨⟨done, .number last (cs.reverse ++ [c])⟩, ?_, ?_⟩
    · have hstart : step ⟨done, .between⟩ (some c) = some ⟨done, .number first [c]⟩ :=
        start_of_firstPhase hfirst done
      exact (run_step hstart cs).trans (run_number hlast [c])
    · have hbehind : Behind ⟨done, .number last (cs.reverse ++ [c])⟩ _ := behind_number hdone
      rwa [List.reverse_append, List.reverse_reverse] at hbehind

theorem lexes_null : Lexes "null".toList [.null] :=
  fun done => ⟨⟨done, .word "llun".toList⟩, rfl, behind_word rfl⟩

theorem lexes_true : Lexes "true".toList [.bool true] :=
  fun done => ⟨⟨done, .word "eurt".toList⟩, rfl, behind_word rfl⟩

theorem lexes_false : Lexes "false".toList [.bool false] :=
  fun done => ⟨⟨done, .word "eslaf".toList⟩, rfl, behind_word rfl⟩

theorem hexValue?_digitChar : ∀ d < 16, hexValue? (Nat.digitChar d) = some d := by decide

theorem step_hexDigit (done : List Token) (pieces : Text) (digits value n : Nat) :
    step ⟨done, .unit pieces digits value⟩ (some (Nat.digitChar (n % 16))) =
      if digits = 3 then some ⟨done, .text (.unit (16 * value + n % 16) :: pieces)⟩
      else some ⟨done, .unit pieces (digits + 1) (16 * value + n % 16)⟩ := by
  simp only [step, stepUnit, hexValue?_digitChar _ (Nat.mod_lt n (by decide : 16 > 0))]

/-- The four digits of a unit, highest first. -/
theorem run_hexDigits {value : Nat} (h : value < 16 ^ 4) (pieces : Text) :
    run ⟨done, .unit pieces 0 0⟩ (Text.hexDigits value) =
      some ⟨done, .text (.unit value :: pieces)⟩ := by
  have hvalue : 16 * (16 * (16 * (16 * 0 + value / 16 ^ 3 % 16) + value / 16 ^ 2 % 16) +
      value / 16 ^ 1 % 16) + value / 16 ^ 0 % 16 = value := by omega
  have hlast := step_hexDigit done pieces 3
    (16 * (16 * (16 * 0 + value / 16 ^ 3 % 16) + value / 16 ^ 2 % 16) + value / 16 ^ 1 % 16)
    (value / 16 ^ 0)
  rw [hvalue, if_pos rfl] at hlast
  have hfront (digits value n : Nat) (h : digits ≠ 3) (cs : List Char) :=
    run_step ((step_hexDigit done pieces digits value n).trans (if_neg h)) cs
  rw [Text.hexDigits, List.map_cons, hfront 0 0 _ (by decide), List.map_cons,
    hfront 1 _ _ (by decide), List.map_cons, hfront 2 _ _ (by decide)]
  exact run_step hlast []

theorem run_piece {p : Piece} (h : p.Written) (done : List Token) (pieces : Text) :
    run ⟨done, .text pieces⟩ (Text.renderPiece p) = some ⟨done, .text (p :: pieces)⟩ := by
  have hescape : step ⟨done, .text pieces⟩ (some '\\') = some ⟨done, .escape pieces⟩ := rfl
  cases h with
  | @char c hquote hback hcontrol =>
    refine run_step ?_ []
    simp only [step, stepText, hquote, hback, hcontrol, if_false]
  | @escape letter c hletter =>
    have hu : letter ≠ 'u' := by
      rintro rfl
      cases hletter
    refine (run_step hescape _).trans (run_step ?_ [])
    simp only [step, stepEscape, hu, hletter, if_false, Option.isSome_some, if_true]
  | unit hvalue =>
    exact (run_step hescape _).trans ((run_step rfl _).trans (run_hexDigits hvalue pieces))

theorem run_render {t : Text} (h : t.Written) (done : List Token) (pieces : Text) :
    run ⟨done, .text pieces⟩ t.render = some ⟨done, .text (t.reverse ++ pieces)⟩ := by
  induction t generalizing pieces with
  | nil => rfl
  | cons p t ih =>
    rw [Text.render, List.flatMap_cons, run_front (run_piece (h p List.mem_cons_self) done pieces),
      List.reverse_cons, List.append_assoc]
    exact ih (fun q hq => h q (.tail _ hq)) (p :: pieces)

theorem lexes_quoted {t : Text} (h : t.Written) : Lexes (Json.quoted t) [.text t] := by
  intro done
  refine ⟨⟨.text t :: done, .between⟩, ?_, behind_between _⟩
  have hend : run ⟨done, .text (t.reverse ++ [])⟩ ['"'] =
      some ⟨.text (t.reverse ++ []).reverse :: done, .between⟩ := rfl
  rw [List.append_nil, List.reverse_reverse, ← List.append_nil t.reverse] at hend
  exact (run_step rfl _).trans ((run_front (run_render h done []) _).trans hend)

end Lexer
namespace Json

/-- The values with a written form. -/
inductive Written : Json → Prop where
  | null : Written .null
  | bool (b : Bool) : Written (.bool b)
  | number {literal : List Char} (h : Lexer.IsNumber literal) : Written (.number literal)
  | string {t : Text} (h : t.Written) : Written (.string t)
  | array {items : List Json} (h : ∀ item ∈ items, Written item) : Written (.array items)
  | object {members : List (Text × Json)} (hname : ∀ m ∈ members, m.1.Written)
      (h : ∀ m ∈ members, Written m.2) : Written (.object members)

mutual

def tokens : Json → List Token
  | .null => [.null]
  | .bool b => [.bool b]
  | .number literal => [.number literal]
  | .string t => [.text t]
  | .array [] => [.openArray, .closeArray]
  | .array (first :: rest) =>
    .openArray :: (first.tokens ++ itemTokens rest ++ [.closeArray])
  | .object [] => [.openObject, .closeObject]
  | .object (first :: rest) =>
    .openObject :: (memberTokens first ++ membersTokens rest ++ [.closeObject])

/-- The tokens of the items after the first. -/
def itemTokens : List Json → List Token
  | [] => []
  | item :: rest => .comma :: (item.tokens ++ itemTokens rest)

def memberTokens : Text × Json → List Token
  | (name, value) => .text name :: .colon :: value.tokens

/-- The tokens of the members after the first. -/
def membersTokens : List (Text × Json) → List Token
  | [] => []
  | member :: rest => .comma :: (memberTokens member ++ membersTokens rest)

end

theorem itemTokens_eq (items : List Json) :
    itemTokens items = items.flatMap fun item => .comma :: item.tokens := by
  induction items with
  | nil => rw [itemTokens, List.flatMap_nil]
  | cons item rest ih => rw [itemTokens, ih, List.flatMap_cons, List.cons_append]

theorem membersTokens_eq (members : List (Text × Json)) :
    membersTokens members = members.flatMap fun m => .comma :: memberTokens m := by
  induction members with
  | nil => rw [membersTokens, List.flatMap_nil]
  | cons m rest ih => rw [membersTokens, ih, List.flatMap_cons, List.cons_append]

theorem renderItems_eq (pretty : Bool) (level : Nat) (items : List Json) :
    renderItems pretty level items =
      items.flatMap fun item => ',' :: (lineBreak pretty level ++ item.render pretty level) := by
  induction items with
  | nil => rw [renderItems, List.flatMap_nil]
  | cons item rest ih => rw [renderItems, ih, List.flatMap_cons, List.cons_append]

theorem renderMembers_eq (pretty : Bool) (level : Nat) (members : List (Text × Json)) :
    renderMembers pretty level members =
      members.flatMap fun m => ',' :: (lineBreak pretty level ++ renderMember pretty level m) := by
  induction members with
  | nil => rw [renderMembers, List.flatMap_nil]
  | cons m rest ih => rw [renderMembers, ih, List.flatMap_cons, List.cons_append]

end Json
namespace Lexer

variable {pretty : Bool} {level : Nat}

theorem breaks_colon (pretty : Bool) : Breaks (Json.colon pretty) [.colon] := by
  have hcolon : Breaks [':'] [.colon] := .punctuation (by decide) rfl rfl
  cases pretty with
  | false => exact hcolon
  | true => exact hcolon.append_breaks (.blank (by decide) rfl : Breaks [' '] [])

theorem lexes_member {name : Text} {value : Json} (hname : name.Written)
    (hvalue : Lexes (value.render pretty level) value.tokens) :
    Lexes (Json.renderMember pretty level (name, value)) (Json.memberTokens (name, value)) := by
  rw [Json.renderMember, Json.memberTokens, List.append_assoc]
  exact (lexes_quoted hname).append ((breaks_colon pretty).append hvalue)

/-- The parts after the first, each behind a comma. -/
theorem follows_separated {α : Type} {write : α → List Char} {tokens : α → List Token}
    {parts : List α} (h : ∀ a ∈ parts, Lexes (write a) (tokens a)) :
    Follows (parts.flatMap fun a => ',' :: (Json.lineBreak pretty level ++ write a))
      (parts.flatMap fun a => .comma :: tokens a) := by
  induction parts with
  | nil => exact .nil
  | cons a rest ih =>
    have hcomma : Breaks [','] [.comma] := .punctuation (by decide) rfl rfl
    rw [List.flatMap_cons, List.flatMap_cons]
    exact ((hcomma.lineBreak pretty level).append (h a List.mem_cons_self)).append
      (ih fun b hb => h b (.tail _ hb))

/-- A container with contents: brackets around a first part and the parts after it. -/
theorem lexes_enclosed {opening closing : Char} {first last : Token}
    {head rest : List Char} {tokens more : List Token}
    (hopen : Breaks [opening] [first]) (hclose : Breaks [closing] [last])
    (hhead : Lexes head tokens) (hrest : Follows rest more) (pretty : Bool) (level : Nat) :
    Lexes (opening :: (Json.lineBreak pretty (level + 1) ++ head ++ rest ++
        Json.lineBreak pretty level ++ [closing]))
      (first :: (tokens ++ more ++ [last])) := by
  have hfront := (hopen.lineBreak pretty (level + 1)).append (hhead.append hrest)
  have hall := hfront.append (hclose.afterLineBreak pretty level).follows
  have hlexes := hall.lexes
  simpa only [List.append_assoc, List.nil_append, List.cons_append] using hlexes

/-- The text of a value is cut into the tokens of the value. -/
theorem lexes_render {j : Json} (h : j.Written) (pretty : Bool) (level : Nat) :
    Lexes (j.render pretty level) j.tokens := by
  induction h generalizing level with
  | null => rw [Json.render, Json.tokens]; exact lexes_null
  | bool b =>
    cases b with
    | false => rw [Json.render, Json.tokens]; exact lexes_false
    | true => rw [Json.render, Json.tokens]; exact lexes_true
  | number h => rw [Json.render, Json.tokens]; exact lexes_number h
  | string h => rw [Json.render, Json.tokens]; exact lexes_quoted h
  | @array items h ih =>
    have hopen : Breaks ['['] [.openArray] := .punctuation (by decide) rfl rfl
    have hclose : Breaks [']'] [.closeArray] := .punctuation (by decide) rfl rfl
    cases items with
    | nil =>
      rw [Json.render, Json.tokens]
      exact (hopen.append_breaks hclose).follows.lexes
    | cons first rest =>
      rw [Json.render, Json.tokens]
      rw [Json.renderItems_eq, Json.itemTokens_eq]
      exact lexes_enclosed hopen hclose (ih first List.mem_cons_self _)
        (follows_separated fun i hi => ih i (.tail _ hi) _) pretty level
  | @object members hname h ih =>
    have hopen : Breaks ['\x7b'] [.openObject] := .punctuation (by decide) rfl rfl
    have hclose : Breaks ['\x7d'] [.closeObject] := .punctuation (by decide) rfl rfl
    have hmember : ∀ m ∈ members, Lexes (Json.renderMember pretty (level + 1) m)
        (Json.memberTokens m) := fun m hm => lexes_member (hname m hm) (ih m hm _)
    cases members with
    | nil =>
      rw [Json.render, Json.tokens]
      exact (hopen.append_breaks hclose).follows.lexes
    | cons first rest =>
      rw [Json.render, Json.tokens]
      rw [Json.renderMembers_eq, Json.membersTokens_eq]
      exact lexes_enclosed hopen hclose (hmember first List.mem_cons_self)
        (follows_separated fun m hm => hmember m (.tail _ hm)) pretty level

end Lexer

theorem tokens?_render {j : Json} (h : j.Written) (pretty : Bool) (level : Nat) :
    tokens? ((j.render pretty level).map some) = some j.tokens := by
  obtain ⟨l, hrun, hl⟩ := Lexer.lexes_render h pretty level []
  have hfinish := hl.finish
  rw [List.append_nil, List.reverse_reverse] at hfinish
  rw [Lexer.run] at hrun
  rw [tokens?, hrun]
  exact hfinish

namespace Builder

/-- Reading goes on from a state that a token leads to. -/
theorem step_foldlM {b b' : Builder} {token : Token} (h : b.step token = some b')
    (rest : List Token) : (token :: rest).foldlM step b = rest.foldlM step b' := by
  rw [List.foldlM_cons, h]
  rfl

theorem foldlM_front {b b' : Builder} {front : List Token} (h : front.foldlM step b = some b')
    (rest : List Token) : (front ++ rest).foldlM step b = rest.foldlM step b' := by
  rw [List.foldlM_append, h]
  rfl

theorem step_openArray (stack : List Container) (orClose : Bool) :
    step ⟨stack, .value orClose⟩ .openArray = some ⟨.array [] :: stack, .value true⟩ := by
  cases orClose <;> rfl

theorem step_openObject (stack : List Container) (orClose : Bool) :
    step ⟨stack, .value orClose⟩ .openObject = some ⟨.object [] :: stack, .name true⟩ := by
  cases orClose <;> rfl

mutual

/-- Where a value may come, its tokens put it in its place. -/
theorem builds {stack : List Container} {b : Builder} (orClose : Bool) (j : Json)
    (h : give stack j = some b) : j.tokens.foldlM step ⟨stack, .value orClose⟩ = some b := by
  match j with
  | .null | .bool _ | .number _ | .string _ =>
    rw [Json.tokens]
    refine step_foldlM ?_ []
    cases orClose <;> exact h
  | .array [] =>
    rw [Json.tokens]
    have hclose : step ⟨.array [] :: stack, .value true⟩ .closeArray = some b := h
    exact (step_foldlM (step_openArray stack orClose) _).trans (step_foldlM hclose [])
  | .array (first :: rest) =>
    rw [Json.tokens]
    have hclose : step ⟨.array (rest.reverse ++ [first]) :: stack, .separator⟩ .closeArray =
        some b := by
      rw [← List.reverse_cons]
      exact (congrArg (give stack ∘ Json.array) (List.reverse_reverse _)).trans h
    rw [step_foldlM (step_openArray stack orClose), List.append_assoc,
      foldlM_front (builds true first rfl),
      foldlM_front (builds_items rest [first] stack)]
    exact step_foldlM hclose []
  | .object [] =>
    rw [Json.tokens]
    have hclose : step ⟨.object [] :: stack, .name true⟩ .closeObject = some b := h
    exact (step_foldlM (step_openObject stack orClose) _).trans (step_foldlM hclose [])
  | .object (first :: rest) =>
    rw [Json.tokens]
    have hclose : step ⟨.object (rest.reverse ++ [first]) :: stack, .separator⟩ .closeObject =
        some b := by
      rw [← List.reverse_cons]
      exact (congrArg (give stack ∘ Json.object) (List.reverse_reverse _)).trans h
    rw [step_foldlM (step_openObject stack orClose), List.append_assoc,
      foldlM_front (builds_member true first [] stack),
      foldlM_front (builds_members rest [first] stack)]
    exact step_foldlM hclose []

theorem builds_items (items done : List Json) (stack : List Container) :
    (Json.itemTokens items).foldlM step ⟨.array done :: stack, .separator⟩ =
      some ⟨.array (items.reverse ++ done) :: stack, .separator⟩ := by
  match items with
  | [] => rw [Json.itemTokens]; rfl
  | item :: rest =>
    rw [Json.itemTokens, step_foldlM rfl, foldlM_front (builds false item rfl), builds_items,
      List.reverse_cons, List.append_assoc]
    rfl

theorem builds_member (orClose : Bool) (member : Text × Json) (done : List (Text × Json))
    (stack : List Container) :
    (Json.memberTokens member).foldlM step ⟨.object done :: stack, .name orClose⟩ =
      some ⟨.object (member :: done) :: stack, .separator⟩ := by
  match member with
  | (name, value) =>
    have hname : step ⟨.object done :: stack, .name orClose⟩ (.text name) =
        some ⟨.member done name :: stack, .colon⟩ := by cases orClose <;> rfl
    rw [Json.memberTokens, step_foldlM hname, step_foldlM rfl]
    exact builds false value rfl

theorem builds_members (members done : List (Text × Json)) (stack : List Container) :
    (Json.membersTokens members).foldlM step ⟨.object done :: stack, .separator⟩ =
      some ⟨.object (members.reverse ++ done) :: stack, .separator⟩ := by
  match members with
  | [] => rw [Json.membersTokens]; rfl
  | member :: rest =>
    rw [Json.membersTokens, step_foldlM rfl, foldlM_front (builds_member false member done stack),
      builds_members, List.reverse_cons, List.append_assoc]
    rfl

end

end Builder
namespace Json

theorem ofTokens?_tokens (j : Json) : ofTokens? j.tokens = some j := by
  rw [ofTokens?, Builder.start, Builder.builds false j rfl]
  rfl

/-- The text of a value is read as that value. -/
theorem parse?_render {j : Json} (h : j.Written) (pretty : Bool) (level : Nat) :
    parse? ((j.render pretty level).map some) = some j := by
  rw [parse?, tokens?_render h]
  exact ofTokens?_tokens j

end Json
end ForeignVM
