import ForeignVM.Command.Argument
import Mathlib.Data.List.Forall2
import Mathlib.Data.List.TakeDrop

/-!
# ForeignVM.Proofs.ArgumentGrammar

The texts of the numbers that may be arguments, as a grammar that knows nothing of how they are
read. Each reader of a part of a number takes the texts that the grammar has for the part.

* `IsNatural`, `IsInteger` — integers and their values; `integer?_eq_some_iff`.
* `IsDecimal` — digits, a point and an exponent; `decimal?_isSome_iff`.
* `IsName`    — infinity and NaN, in any case; `isName_iff`.
* `IsReal`    — a decimal number or a name, with an optional sign; `real?_isSome_iff`.
* `IsReal.chars` — the characters of numbers.
-/

namespace ForeignVM
namespace Argument

/-! ## The grammar -/

def Digits (cs : List Char) : Prop := cs ≠ [] ∧ ∀ c ∈ cs, c.isDigit = true

/-- An integer without a minus sign, and its value. -/
inductive IsNatural : List Char → Nat → Prop where
  | plain {ds : List Char} (h : Digits ds) : IsNatural ds (Nat.ofDigitChars 10 ds 0)
  | plus {ds : List Char} (h : Digits ds) : IsNatural ('+' :: ds) (Nat.ofDigitChars 10 ds 0)

/-- An integer with an optional sign, and its value. -/
inductive IsInteger : List Char → Int → Prop where
  | natural {cs : List Char} {n : Nat} (h : IsNatural cs n) : IsInteger cs n
  | minus {ds : List Char} (h : Digits ds) :
    IsInteger ('-' :: ds) (-(Nat.ofDigitChars 10 ds 0 : Nat))

/-- Digits with an optional point. At least one digit stands before or after it. -/
inductive IsMantissa : List Char → Prop where
  | digits {ds : List Char} (h : Digits ds) : IsMantissa ds
  | point {whole fraction : List Char} (h : Digits (whole ++ fraction)) :
    IsMantissa (whole ++ '.' :: fraction)

inductive IsExponent : List Char → Prop where
  | absent : IsExponent []
  | present {mark : Char} {cs : List Char} {z : Int} (hmark : mark = 'e' ∨ mark = 'E')
    (h : IsInteger cs z) : IsExponent (mark :: cs)

def IsDecimal (cs : List Char) : Prop :=
  ∃ mantissa exponent, cs = mantissa ++ exponent ∧ IsMantissa mantissa ∧ IsExponent exponent

/-- The letters of a name, each in any case. -/
def Spells (name : String) (cs : List Char) : Prop :=
  List.Forall₂ (fun letter c => c = letter ∨ c = letter.toUpper) name.toList cs

def IsName (cs : List Char) : Prop := Spells "inf" cs ∨ Spells "infinity" cs ∨ Spells "nan" cs

def signs : List (List Char) := [[], ['+'], ['-']]

def IsReal (cs : List Char) : Prop :=
  ∃ sign ∈ signs, ∃ body, cs = sign ++ body ∧ (IsName body ∨ IsDecimal body)

/-! ## Integers -/

theorem read?_eq_some_iff {cs : List Char} {n : Nat} :
    Numeral.read? cs = some n ↔ Digits cs ∧ Nat.ofDigitChars 10 cs 0 = n := by
  have hdigits : (!cs.isEmpty && cs.all Char.isDigit) = true ↔ Digits cs := by
    simp [Digits]
  rw [Numeral.read?, Option.ite_none_right_eq_some, hdigits, Option.some.injEq]
  exact Iff.rfl

theorem splitSign_minus (rest : List Char) : splitSign ('-' :: rest) = (true, rest) := rfl

theorem splitSign_plus (rest : List Char) : splitSign ('+' :: rest) = (false, rest) := rfl

/-- A text that starts with no sign. -/
def Unsigned (cs : List Char) : Prop := cs.head? ≠ some '-' ∧ cs.head? ≠ some '+'

theorem Unsigned.of_head {P : Char → Prop} {cs : List Char} (h : ∀ c ∈ cs.head?, P c)
    (hminus : ¬ P '-') (hplus : ¬ P '+') : Unsigned cs :=
  ⟨fun hc => hminus (h _ hc), fun hc => hplus (h _ hc)⟩

theorem Digits.unsigned {ds : List Char} (h : Digits ds) : Unsigned ds :=
  .of_head (fun c hc => h.2 c (List.mem_of_mem_head? hc)) (by decide) (by decide)

theorem splitSign_of_unsigned {cs : List Char} (h : Unsigned cs) : splitSign cs = (false, cs) := by
  unfold splitSign
  split
  · exact absurd rfl h.1
  · exact absurd rfl h.2
  · rfl

/-- A sign is taken from what stands in front of an unsigned text. -/
theorem splitSign_append (front : List Char) {cs : List Char} (h : Unsigned cs) :
    splitSign (front ++ cs) = ((splitSign front).1, (splitSign front).2 ++ cs) := by
  cases front with
  | nil => exact splitSign_of_unsigned h
  | cons c front =>
    by_cases hminus : c = '-'
    · subst hminus
      rfl
    by_cases hplus : c = '+'
    · subst hplus
      rfl
    have hunsigned (rest : List Char) : Unsigned (c :: rest) :=
      ⟨by simpa using hminus, by simpa using hplus⟩
    rw [List.cons_append, splitSign_of_unsigned (hunsigned _), splitSign_of_unsigned (hunsigned _)]
    rfl

theorem splitSign_cases (cs : List Char) :
    (∃ rest, cs = '-' :: rest ∧ splitSign cs = (true, rest)) ∨
    (∃ rest, cs = '+' :: rest ∧ splitSign cs = (false, rest)) ∨
    splitSign cs = (false, cs) := by
  unfold splitSign
  split
  case h_1 rest => exact .inl ⟨rest, rfl, rfl⟩
  case h_2 rest => exact .inr (.inl ⟨rest, rfl, rfl⟩)
  case h_3 => exact .inr (.inr rfl)

theorem integer?_of_splitSign {cs ds : List Char} {negative : Bool}
    (h : splitSign cs = (negative, ds)) :
    integer? cs =
      (Numeral.read? ds).map fun (n : Nat) => if negative then -(n : Int) else (n : Int) := by
  simp only [integer?, h]
  cases Numeral.read? ds <;> rfl

theorem integer?_eq_some_iff {cs : List Char} {z : Int} :
    integer? cs = some z ↔ IsInteger cs z := by
  constructor
  · intro h
    rcases splitSign_cases cs with ⟨rest, rfl, hsplit⟩ | ⟨rest, rfl, hsplit⟩ | hsplit
    all_goals
      rw [integer?_of_splitSign hsplit, Option.map_eq_some_iff] at h
      obtain ⟨n, hn, rfl⟩ := h
      obtain ⟨hdigits, rfl⟩ := read?_eq_some_iff.mp hn
    · exact .minus hdigits
    · exact .natural (.plus hdigits)
    · exact .natural (.plain hdigits)
  · intro h
    have hread {ds : List Char} (hds : Digits ds) := read?_eq_some_iff.mpr ⟨hds, rfl⟩
    cases h with
    | natural h =>
      cases h with
      | plain hds =>
        rw [integer?_of_splitSign (splitSign_of_unsigned hds.unsigned), hread hds]
        rfl
      | plus hds =>
        rw [integer?_of_splitSign (splitSign_plus _), hread hds]
        rfl
    | minus hds =>
      rw [integer?_of_splitSign (splitSign_minus _), hread hds]
      rfl

theorem IsInteger.natural_iff {cs : List Char} {n : Nat} (hn : 0 < n) :
    IsNatural cs n ↔ IsInteger cs n := by
  refine ⟨.natural, fun h => ?_⟩
  generalize hz : (n : Int) = z at h
  cases h with
  | natural h =>
    cases Int.ofNat_inj.mp hz
    exact h
  | minus h => omega

/-! ## Decimal numbers -/

/-- A text in front of which digits end. -/
def EndsDigits (cs : List Char) : Prop := ∀ c ∈ cs.head?, c.isDigit = false

theorem span_digits {ds rest : List Char} (hds : ∀ c ∈ ds, c.isDigit = true)
    (hrest : EndsDigits rest) : (ds ++ rest).span Char.isDigit = (ds, rest) := by
  have hnone : rest.takeWhile Char.isDigit = [] ∧ rest.dropWhile Char.isDigit = rest := by
    cases rest with
    | nil => exact ⟨rfl, rfl⟩
    | cons c rest => simp [hrest c rfl]
  rw [List.span_eq_takeWhile_dropWhile, List.takeWhile_append_of_pos hds,
    List.dropWhile_append_of_pos hds, hnone.1, hnone.2, List.append_nil]

theorem exponent?_isSome_iff {cs : List Char} : (exponent? cs).isSome ↔ IsExponent cs := by
  cases cs with
  | nil => exact ⟨fun _ => .absent, fun _ => rfl⟩
  | cons mark cs =>
    rw [exponent?, Option.isSome_iff_exists]
    constructor
    · rintro ⟨z, h⟩
      obtain ⟨hmark, hz⟩ := Option.ite_none_right_eq_some.mp h
      exact .present hmark (integer?_eq_some_iff.mp hz)
    · rintro (_ | ⟨hmark, hz⟩)
      exact ⟨_, Option.ite_none_right_eq_some.mpr ⟨hmark, integer?_eq_some_iff.mpr hz⟩⟩

theorem IsExponent.head {cs : List Char} (h : IsExponent cs) :
    ∀ c ∈ cs.head?, c = 'e' ∨ c = 'E' := by
  cases h with
  | absent => exact fun c hc => nomatch hc
  | present hmark _ =>
    intro c hc
    cases hc
    exact hmark

theorem IsExponent.endsDigits {cs : List Char} (h : IsExponent cs) : EndsDigits cs := by
  intro c hc
  rcases h.head c hc with rfl | rfl <;> rfl

theorem splitFraction_of_no_point {cs : List Char} (h : ∀ c ∈ cs.head?, c ≠ '.') :
    splitFraction cs = ([], cs) := by
  unfold splitFraction
  split
  · exact absurd rfl (h '.' rfl)
  · rfl

theorem IsExponent.splitFraction {cs : List Char} (h : IsExponent cs) :
    splitFraction cs = ([], cs) := by
  refine splitFraction_of_no_point fun c hc => ?_
  rcases h.head c hc with rfl | rfl <;> decide

theorem splitFraction_cases (cs : List Char) :
    (∃ fraction rest, cs = '.' :: (fraction ++ rest) ∧ splitFraction cs = (fraction, rest)) ∨
    splitFraction cs = ([], cs) := by
  unfold splitFraction
  split
  case h_1 rest =>
    refine .inl ⟨_, _, ?_, List.span_eq_takeWhile_dropWhile Char.isDigit rest⟩
    rw [List.takeWhile_append_dropWhile]
  case h_2 => exact .inr rfl

theorem decimal?_isSome_of_parts {negative : Bool} {cs whole fraction rest rest' : List Char}
    (hwhole : cs.span Char.isDigit = (whole, rest))
    (hfraction : splitFraction rest = (fraction, rest')) :
    (decimal? negative cs).isSome ↔ Digits (whole ++ fraction) ∧ IsExponent rest' := by
  rw [← exponent?_isSome_iff]
  simp only [decimal?, hwhole, hfraction]
  constructor
  · intro h
    split at h
    case h_1 n e hn he => exact ⟨(read?_eq_some_iff.mp hn).1, by rw [he]; rfl⟩
    case h_2 => cases h
  · rintro ⟨hdigits, he⟩
    obtain ⟨e, he⟩ := Option.isSome_iff_exists.mp he
    rw [read?_eq_some_iff.mpr ⟨hdigits, rfl⟩, he]
    rfl

theorem decimal?_isSome_iff {negative : Bool} {cs : List Char} :
    (decimal? negative cs).isSome ↔ IsDecimal cs := by
  constructor
  · have hwhole := List.span_eq_takeWhile_dropWhile (p := Char.isDigit) cs
    have hcs := List.takeWhile_append_dropWhile (p := Char.isDigit) (l := cs)
    generalize cs.takeWhile Char.isDigit = whole at hwhole hcs
    generalize cs.dropWhile Char.isDigit = rest at hwhole hcs
    subst hcs
    rcases splitFraction_cases rest with ⟨fraction, rest', rfl, hfraction⟩ | hfraction
    · rw [decimal?_isSome_of_parts hwhole hfraction]
      rintro ⟨hdigits, he⟩
      exact ⟨whole ++ '.' :: fraction, rest', by simp, .point hdigits, he⟩
    · rw [decimal?_isSome_of_parts hwhole hfraction, List.append_nil]
      rintro ⟨hdigits, he⟩
      exact ⟨whole, rest, rfl, .digits hdigits, he⟩
  · rintro ⟨mantissa, exponent, rfl, hm, he⟩
    cases hm with
    | digits h =>
      rw [decimal?_isSome_of_parts (span_digits h.2 he.endsDigits) he.splitFraction,
        List.append_nil]
      exact ⟨h, he⟩
    | @point whole fraction h =>
      have hpoint : EndsDigits ('.' :: (fraction ++ exponent)) := by
        intro c hc
        cases hc
        rfl
      have hwhole : ∀ c ∈ whole, c.isDigit = true := fun c hc =>
        h.2 c (List.mem_append_left _ hc)
      have hfraction : ∀ c ∈ fraction, c.isDigit = true := fun c hc =>
        h.2 c (List.mem_append_right _ hc)
      rw [List.append_assoc, List.cons_append,
        decimal?_isSome_of_parts (span_digits hwhole hpoint)
          (span_digits hfraction he.endsDigits)]
      exact ⟨h, he⟩

/-! ## Names -/

theorem isLower_iff {c : Char} : c.isLower = true ↔ 97 ≤ c.toNat ∧ c.toNat ≤ 122 := by
  change (decide (c.val ≥ 'a'.val) && decide (c.val ≤ 'z'.val)) = true ↔ _
  rw [Bool.and_eq_true, decide_eq_true_eq, decide_eq_true_eq]
  exact Iff.rfl

theorem toNat_toLower (c : Char) :
    c.toLower.toNat = if 65 ≤ c.toNat ∧ c.toNat ≤ 90 then c.toNat + 32 else c.toNat := by
  have hupper : (c.val ≥ 'A'.val ∧ c.val ≤ 'Z'.val) ↔ 65 ≤ c.toNat ∧ c.toNat ≤ 90 := Iff.rfl
  unfold Char.toLower
  split
  case isTrue h =>
    rw [if_pos (hupper.mp h)]
    change (c.toNat + 32) % 2 ^ 32 = c.toNat + 32
    have hlt : c.toNat ≤ 90 := (hupper.mp h).2
    omega
  case isFalse h => rw [if_neg (mt hupper.mpr h)]

theorem toNat_toUpper_of_isLower {c : Char} (h : c.isLower = true) :
    c.toUpper.toNat + 32 = c.toNat := by
  have hlower := isLower_iff.mp h
  have hgap : ('A'.val - 'a'.val).toNat = 2 ^ 32 - 32 := by decide
  unfold Char.toUpper
  rw [dif_pos (show 'a'.val ≤ c.val ∧ c.val ≤ 'z'.val from hlower)]
  calc (c.val + ('A'.val - 'a'.val)).toNat + 32
      = (c.toNat + (2 ^ 32 - 32)) % 2 ^ 32 + 32 := by
        rw [UInt32.toNat_add, hgap]
        rfl
    _ = c.toNat := by omega

theorem toLower_eq_iff {letter c : Char} (h : letter.isLower = true) :
    c.toLower = letter ↔ c = letter ∨ c = letter.toUpper := by
  have hlower := isLower_iff.mp h
  have hupper := toNat_toUpper_of_isLower h
  rw [← Char.toNat_inj, ← Char.toNat_inj, ← Char.toNat_inj, toNat_toLower]
  split <;> omega

theorem spells_iff {name : String} (h : name.toList.all Char.isLower = true) {cs : List Char} :
    Spells name cs ↔ String.ofList (cs.map Char.toLower) = name := by
  rw [List.all_eq_true] at h
  rw [← String.toList_inj, String.toList_ofList]
  unfold Spells
  generalize name.toList = letters at h
  induction letters generalizing cs with
  | nil => simp
  | cons letter letters ih =>
    rw [List.forall_mem_cons] at h
    cases cs with
    | nil => simp
    | cons c cs =>
      rw [List.forall₂_cons, ih h.2, List.map_cons, List.cons.injEq, toLower_eq_iff h.1]

theorem isName_iff {cs : List Char} :
    IsName cs ↔ String.ofList (cs.map Char.toLower) ∈ infinityNames ∨
      String.ofList (cs.map Char.toLower) = "nan" := by
  rw [IsName, spells_iff (by decide), spells_iff (by decide), spells_iff (by decide),
    infinityNames, List.mem_cons, List.mem_singleton, or_assoc]

theorem Spells.all {name : String} {cs : List Char} {p : Char → Bool} (h : Spells name cs)
    (hp : name.toList.all (fun letter => p letter && p letter.toUpper) = true) :
    cs.all p = true := by
  unfold Spells at h
  generalize name.toList = letters at h hp
  induction h with
  | nil => rfl
  | cons hc _ ih =>
    rw [List.all_cons, Bool.and_eq_true, Bool.and_eq_true] at hp
    rw [List.all_cons, Bool.and_eq_true]
    refine ⟨?_, ih hp.2⟩
    rcases hc with rfl | rfl
    · exact hp.1.1
    · exact hp.1.2

def nameLetters : List Char := "aAfFiInNtTyY".toList

theorem IsName.letters {cs : List Char} (h : IsName cs) : ∀ c ∈ cs, c ∈ nameLetters := by
  have hall : cs.all (nameLetters.contains ·) = true := by
    rcases h with h | h | h <;> exact h.all (by decide)
  exact fun c hc => List.contains_iff_mem.mp (List.all_eq_true.mp hall c hc)

/-! ## Numbers -/

theorem IsMantissa.ne_nil {cs : List Char} (h : IsMantissa cs) : cs ≠ [] := by
  cases h with
  | digits h => exact h.1
  | point _ => simp

theorem IsMantissa.chars {cs : List Char} (h : IsMantissa cs) :
    ∀ c ∈ cs, c.isDigit = true ∨ c = '.' := by
  cases h with
  | digits h => exact fun c hc => .inl (h.2 c hc)
  | point h =>
    intro c hc
    rcases List.mem_append.mp hc with hc | hc
    · exact .inl (h.2 c (List.mem_append_left _ hc))
    rcases List.mem_cons.mp hc with rfl | hc
    · exact .inr rfl
    · exact .inl (h.2 c (List.mem_append_right _ hc))

theorem IsDecimal.unsigned {cs : List Char} (h : IsDecimal cs) : Unsigned cs := by
  obtain ⟨mantissa, exponent, rfl, hm, -⟩ := h
  refine .of_head (fun c hc => hm.chars c ?_) (by decide) (by decide)
  rw [List.head?_append_of_ne_nil _ hm.ne_nil] at hc
  exact List.mem_of_mem_head? hc

theorem IsName.unsigned {cs : List Char} (h : IsName cs) : Unsigned cs :=
  .of_head (fun c hc => h.letters c (List.mem_of_mem_head? hc)) (by decide) (by decide)

theorem real?_isSome_of_splitSign {cs body : List Char} {negative : Bool}
    (h : splitSign cs = (negative, body)) : (real? cs).isSome ↔ IsName body ∨ IsDecimal body := by
  rw [isName_iff, ← @decimal?_isSome_iff negative]
  simp only [real?, h]
  split
  case isTrue hname => simp [hname]
  split
  case isTrue hname => simp [hname]
  case isFalse hname hnan => simp [hname, hnan]

/-- No name has a digit. -/
theorem real?_of_digit {cs body : List Char} {negative : Bool}
    (h : splitSign cs = (negative, body)) (hdigit : ∃ c ∈ body, c.isDigit = true) :
    real? cs = decimal? negative body := by
  obtain ⟨c, hc, hdigit⟩ := hdigit
  have hname : ¬ IsName body := fun hname => by
    have hletters : nameLetters.all (!Char.isDigit ·) = true := by decide
    have hletter := List.all_eq_true.mp hletters c (hname.letters c hc)
    rw [hdigit] at hletter
    cases hletter
  rw [isName_iff, not_or] at hname
  simp only [real?, h, hname, if_false]

theorem real?_isSome_iff {cs : List Char} : (real? cs).isSome ↔ IsReal cs := by
  constructor
  · intro h
    rcases splitSign_cases cs with ⟨body, rfl, hsplit⟩ | ⟨body, rfl, hsplit⟩ | hsplit
    all_goals have hbody := (real?_isSome_of_splitSign hsplit).mp h
    · exact ⟨['-'], by decide, body, rfl, hbody⟩
    · exact ⟨['+'], by decide, body, rfl, hbody⟩
    · exact ⟨[], by decide, cs, rfl, hbody⟩
  · rintro ⟨sign, hsign, body, rfl, hbody⟩
    have hunsigned : Unsigned body := hbody.elim IsName.unsigned IsDecimal.unsigned
    have hsplit : splitSign (sign ++ body) = ((splitSign sign).1, body) := by
      rw [splitSign_append sign hunsigned]
      simp only [signs, List.mem_cons, List.not_mem_nil, or_false] at hsign
      rcases hsign with rfl | rfl | rfl <;> rfl
    exact (real?_isSome_of_splitSign hsplit).mpr hbody

theorem IsInteger.isReal {cs : List Char} {z : Int} (h : IsInteger cs z) : IsReal cs := by
  have hdecimal {ds : List Char} (hds : Digits ds) : IsDecimal ds :=
    ⟨ds, [], (List.append_nil ds).symm, .digits hds, .absent⟩
  cases h with
  | natural h =>
    cases h with
    | plain hds => exact ⟨[], by decide, _, rfl, .inr (hdecimal hds)⟩
    | plus hds => exact ⟨['+'], by decide, _, rfl, .inr (hdecimal hds)⟩
  | minus hds => exact ⟨['-'], by decide, _, rfl, .inr (hdecimal hds)⟩

/-- The characters of numbers that are not digits. -/
def marks : List Char := ['+', '-', '.', 'e', 'E'] ++ nameLetters

theorem IsInteger.chars {cs : List Char} {z : Int} (h : IsInteger cs z) :
    ∀ c ∈ cs, c.isDigit = true ∨ c ∈ marks := by
  have hdigits {ds : List Char} (hds : Digits ds) : ∀ c ∈ ds, c.isDigit = true ∨ c ∈ marks :=
    fun c hc => .inl (hds.2 c hc)
  cases h with
  | natural h =>
    cases h with
    | plain hds => exact hdigits hds
    | plus hds => exact List.forall_mem_cons.mpr ⟨.inr (by decide), hdigits hds⟩
  | minus hds => exact List.forall_mem_cons.mpr ⟨.inr (by decide), hdigits hds⟩

theorem IsDecimal.chars {cs : List Char} (h : IsDecimal cs) :
    ∀ c ∈ cs, c.isDigit = true ∨ c ∈ marks := by
  obtain ⟨mantissa, exponent, rfl, hm, he⟩ := h
  rw [List.forall_mem_append]
  constructor
  · intro c hc
    exact (hm.chars c hc).imp_right fun hpoint => by rw [hpoint]; decide
  · cases he with
    | absent => exact fun c hc => nomatch hc
    | present hmark hz =>
      refine List.forall_mem_cons.mpr ⟨.inr ?_, hz.chars⟩
      rcases hmark with rfl | rfl <;> decide

theorem IsReal.chars {cs : List Char} (h : IsReal cs) :
    ∀ c ∈ cs, c.isDigit = true ∨ c ∈ marks := by
  obtain ⟨sign, hsign, body, rfl, hbody⟩ := h
  rw [List.forall_mem_append]
  constructor
  · have hsigns : signs.all (fun sign => sign.all (marks.contains ·)) = true := by decide
    have hall := List.all_eq_true.mp (List.all_eq_true.mp hsigns sign hsign)
    exact fun c hc => .inr (List.contains_iff_mem.mp (hall c hc))
  · rcases hbody with hname | hdecimal
    · exact fun c hc => .inr (List.mem_append_right _ (hname.letters c hc))
    · exact hdecimal.chars

end Argument
end ForeignVM
