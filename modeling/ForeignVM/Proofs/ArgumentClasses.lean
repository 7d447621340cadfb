import ForeignVM.Command.Outcome
import ForeignVM.Proofs.ArgumentGrammar
import ForeignVM.Proofs.JsonText
import ForeignVM.Proofs.ListingText

/-!
# ForeignVM.Proofs.ArgumentClasses

An argument is read as what the grammar makes of its text. The readers are tried one after the
other, so that a numeral which is too large for one falls through to the next; the classes of
texts say which of them has the last word.

* `Classified` — a result is that of the class of its text; `classified_parse`.
* `Opens`, `Leads` — where zeros are leading ones; `toOption_parse_zeros`: they change nothing.
* `parse_toString` — an integer is read back from its decimal text.
* `parse_follows_grammar` — all of this, with the texts that are refused.
-/

namespace ForeignVM
namespace Argument

/-! ## Classes -/

/-- The texts of the values that are told exactly: truth values and integers of 64 bits. -/
def IsExact (t : String) : Prop :=
  (∃ b : Bool, t = toString b) ∨ (∃ n : Int64, IsInteger t.toList n.toInt) ∨
    ∃ n : UInt64, IsNatural t.toList n.toNat ∧ 2 ^ 63 ≤ n.toNat

/-- The result for a text is that of its class. -/
structure Classified (t : String) (r : Except LoadError Value) : Prop where
  bool : ∀ b : Bool, r = .ok (.bool b) ↔ t = toString b
  int : ∀ n : Int64, r = .ok (.int n) ↔ IsInteger t.toList n.toInt
  uint : ∀ n : UInt64, r = .ok (.uint n) ↔ IsNatural t.toList n.toNat ∧ 2 ^ 63 ≤ n.toNat
  float : (∃ x, r = .ok (.float x)) ↔ ¬ IsExact t ∧ IsReal t.toList
  invalid : r = .error (.invalidArg t) ↔ ¬ IsExact t ∧ ¬ IsReal t.toList

theorem IsInteger.unique {cs : List Char} {a b : Int} (ha : IsInteger cs a) (hb : IsInteger cs b) :
    a = b :=
  Option.some.inj ((integer?_eq_some_iff.mpr ha).symm.trans (integer?_eq_some_iff.mpr hb))

theorem not_isReal_toString (b : Bool) : ¬ IsReal (toString b).toList := fun h => by
  cases b with
  | true => exact absurd (h.chars 'r' (by decide)) (by decide)
  | false => exact absurd (h.chars 's' (by decide)) (by decide)

theorem number?_cases (cs : List Char) :
    (∃ n : Int64, IsInteger cs n.toInt ∧ number? cs = some (.int n)) ∨
    (∃ n : UInt64, IsNatural cs n.toNat ∧ 2 ^ 63 ≤ n.toNat ∧ number? cs = some (.uint n)) ∨
    (∀ n : Int64, ¬ IsInteger cs n.toInt) ∧
      (∀ n : UInt64, ¬ (IsNatural cs n.toNat ∧ 2 ^ 63 ≤ n.toNat)) ∧
      number? cs = (real? cs).map .float := by
  unfold number?
  cases h : integer? cs with
  | none =>
    have hnone (z : Int) : ¬ IsInteger cs z := fun hz => by
      rw [integer?_eq_some_iff.mpr hz] at h
      cases h
    exact .inr (.inr ⟨fun n => hnone _, fun n hn => hnone _ (.natural hn.1), rfl⟩)
  | some z =>
    have hz := integer?_eq_some_iff.mp h
    by_cases hint : -2 ^ 63 ≤ z ∧ z < 2 ^ 63
    · refine .inl ⟨Int64.ofInt z, ?_, if_pos hint⟩
      rwa [Int64.toInt_ofInt_of_le hint.1 hint.2]
    by_cases huint : 0 ≤ z ∧ z < 2 ^ 64
    · have hlt : z.toNat < 2 ^ 64 := by omega
      have hn : (UInt64.ofNat z.toNat).toNat = z.toNat := UInt64.toNat_ofNat_of_lt' hlt
      have hnat : ((z.toNat : Nat) : Int) = z := by omega
      refine .inr (.inl ⟨UInt64.ofNat z.toNat, ?_, by omega, ?_⟩)
      · rw [hn]
        exact (IsInteger.natural_iff (by omega)).mpr (hnat.symm ▸ hz)
      · simp only [hint, huint, if_false, if_true, and_self]
    · refine .inr (.inr ⟨fun n hn => ?_, fun n hn => ?_, ?_⟩)
      · have := hn.unique hz
        have := n.le_toInt
        have := n.toInt_lt
        omega
      · have := (IsInteger.natural hn.1).unique hz
        have := n.toNat_lt
        omega
      · simp only [hint, huint, if_false]

theorem parse_eq_elim (t : String) :
    Argument.parse t = (value? t).elim (.error (.invalidArg t)) .ok := by
  unfold Argument.parse
  cases value? t <;> rfl

theorem parse_of_not_bool {t : String} (h : ∀ b : Bool, t ≠ toString b) :
    Argument.parse t = (number? t.toList).elim (.error (.invalidArg t)) .ok := by
  have htrue : ¬ t = "true" := h true
  have hfalse : ¬ t = "false" := h false
  rw [parse_eq_elim, value?, if_neg htrue, if_neg hfalse]

theorem toString_bool_inj {a b : Bool} : toString a = toString b ↔ a = b := by
  revert a b
  decide

theorem classified_bool (b : Bool) : Classified (toString b) (.ok (.bool b)) := by
  have hreal := not_isReal_toString b
  have hint (z : Int) : ¬ IsInteger (toString b).toList z := fun h => hreal h.isReal
  have hexact : IsExact (toString b) := .inl ⟨b, rfl⟩
  exact {
    bool := fun b' => by
      rw [toString_bool_inj, Except.ok.injEq, Value.bool.injEq]
    int := fun n => iff_of_false nofun (hint n.toInt)
    uint := fun n => iff_of_false nofun fun h => hint n.toNat (.natural h.1)
    float := iff_of_false nofun fun h => h.1 hexact
    invalid := iff_of_false nofun fun h => h.1 hexact }

theorem classified_int {t : String} {n : Int64} (h : IsInteger t.toList n.toInt) :
    Classified t (.ok (.int n)) := by
  have hexact : IsExact t := .inr (.inl ⟨n, h⟩)
  refine {
    bool := fun b => iff_of_false nofun ?_
    int := fun m => ?_
    uint := fun m => iff_of_false nofun ?_
    float := iff_of_false nofun fun h => h.1 hexact
    invalid := iff_of_false nofun fun h => h.1 hexact }
  · rintro rfl
    exact not_isReal_toString b h.isReal
  · constructor
    · rintro ⟨⟩
      exact h
    · intro hm
      rw [Int64.toInt_inj.mp (h.unique hm)]
  · rintro ⟨hm, hlarge⟩
    have heq := h.unique (.natural hm)
    have hlt := n.toInt_lt
    omega

theorem classified_uint {t : String} {n : UInt64} (h : IsNatural t.toList n.toNat)
    (hlarge : 2 ^ 63 ≤ n.toNat) : Classified t (.ok (.uint n)) := by
  have hexact : IsExact t := .inr (.inr ⟨n, h, hlarge⟩)
  refine {
    bool := fun b => iff_of_false nofun ?_
    int := fun m => iff_of_false nofun ?_
    uint := fun m => ?_
    float := iff_of_false nofun fun h => h.1 hexact
    invalid := iff_of_false nofun fun h => h.1 hexact }
  · rintro rfl
    exact not_isReal_toString b (IsInteger.natural h).isReal
  · intro hm
    have heq := hm.unique (.natural h)
    have hlt := m.toInt_lt
    omega
  · constructor
    · rintro ⟨⟩
      exact ⟨h, hlarge⟩
    · rintro ⟨hm, -⟩
      rw [UInt64.toNat_inj.mp (Int.ofNat_inj.mp ((IsInteger.natural h).unique (.natural hm)))]

theorem classified_inexact {t : String} (hexact : ¬ IsExact t) :
    Classified t (((real? t.toList).map .float).elim (.error (.invalidArg t)) .ok) := by
  have h := hexact
  rw [IsExact, not_or, not_or] at h
  cases hreal : real? t.toList with
  | some x =>
    have hreal := real?_isSome_iff.mp (Option.isSome_of_eq_some hreal)
    exact {
      bool := fun b => iff_of_false nofun fun hb => h.1 ⟨b, hb⟩
      int := fun n => iff_of_false nofun fun hn => h.2.1 ⟨n, hn⟩
      uint := fun n => iff_of_false nofun fun hn => h.2.2 ⟨n, hn⟩
      float := iff_of_true ⟨x, rfl⟩ ⟨hexact, hreal⟩
      invalid := iff_of_false nofun fun h => h.2 hreal }
  | none =>
    have hreal : ¬ IsReal t.toList := fun h => by
      rw [← real?_isSome_iff, hreal] at h
      cases h
    exact {
      bool := fun b => iff_of_false nofun fun hb => h.1 ⟨b, hb⟩
      int := fun n => iff_of_false nofun fun hn => h.2.1 ⟨n, hn⟩
      uint := fun n => iff_of_false nofun fun hn => h.2.2 ⟨n, hn⟩
      float := iff_of_false nofun fun h => hreal h.2
      invalid := iff_of_true rfl ⟨hexact, hreal⟩ }

theorem classified_parse (t : String) : Classified t (Argument.parse t) := by
  by_cases htruth : ∃ b : Bool, t = toString b
  · obtain ⟨b, rfl⟩ := htruth
    have hparse : Argument.parse (toString b) = .ok (.bool b) := by cases b <;> rfl
    rw [hparse]
    exact classified_bool b
  have hne (b : Bool) : t ≠ toString b := fun h => htruth ⟨b, h⟩
  rw [parse_of_not_bool hne]
  rcases number?_cases t.toList with
    ⟨n, hn, hvalue⟩ | ⟨n, hn, hlarge, hvalue⟩ | ⟨hint, huint, hvalue⟩
  · rw [hvalue]
    exact classified_int hn
  · rw [hvalue]
    exact classified_uint hn hlarge
  · have hexact : ¬ IsExact t := by
      rintro (h | ⟨n, hn⟩ | ⟨n, hn⟩)
      · exact htruth h
      · exact hint n hn
      · exact huint n hn
    rw [hvalue]
    exact classified_inexact hexact

example : Argument.parse "1e" = .error (.invalidArg "1e") := rfl

/-! ## Leading zeros -/

/-- A text that ends in neither a digit nor a point. -/
inductive Closed : List Char → Prop where
  | last {c : Char} (hdigit : c.isDigit = false) (hpoint : c ≠ '.') : Closed [c]
  | cons (c : Char) {cs : List Char} (h : Closed cs) : Closed (c :: cs)

/-- What may stand in front of a number: the zeros after it are leading ones. -/
def Opens (front : List Char) : Prop := front = [] ∨ Closed front

/-- A text that starts with a digit, which may have a point before it. -/
inductive Leads : List Char → Prop where
  | digit {c : Char} (rest : List Char) (h : c.isDigit = true) : Leads (c :: rest)
  | point {c : Char} (rest : List Char) (h : c.isDigit = true) : Leads ('.' :: c :: rest)

section

variable {front body : List Char}

theorem Closed.exists_not_digit (h : Closed front) : ∃ c ∈ front, c.isDigit = false := by
  induction h with
  | @last c hdigit _ => exact ⟨c, List.mem_singleton_self c, hdigit⟩
  | cons c _ ih =>
    obtain ⟨d, hd, hdigit⟩ := ih
    exact ⟨d, List.mem_cons_of_mem c hd, hdigit⟩

/-- The digits at the start of a closed text end within it. -/
theorem Closed.span (h : Closed front) :
    ∃ whole rest, Closed rest ∧ ∀ cs, (front ++ cs).span Char.isDigit = (whole, rest ++ cs) := by
  simp only [List.span_eq_takeWhile_dropWhile, Prod.mk.injEq]
  induction h with
  | @last c hdigit hpoint =>
    exact ⟨[], [c], .last hdigit hpoint, fun cs => by simp [hdigit]⟩
  | @cons c front h ih =>
    cases hc : c.isDigit with
    | true =>
      obtain ⟨whole, rest, hrest, hsplit⟩ := ih
      exact ⟨c :: whole, rest, hrest, fun cs => by simp [hc, hsplit cs]⟩
    | false => exact ⟨[], c :: front, .cons c h, fun cs => by simp [hc]⟩

theorem Closed.splitFraction (h : Closed front) :
    ∃ fraction rest, Closed rest ∧
      ∀ cs, splitFraction (front ++ cs) = (fraction, rest ++ cs) := by
  have hother {c : Char} {rest : List Char} (hc : c ≠ '.') :
      Argument.splitFraction (c :: rest) = ([], c :: rest) :=
    splitFraction_of_no_point fun d hd => by
      cases hd
      exact hc
  cases h with
  | @last c hdigit hpoint => exact ⟨[], [c], .last hdigit hpoint, fun cs => hother hpoint⟩
  | @cons c front h =>
    by_cases hc : c = '.'
    · subst hc
      exact h.span
    · exact ⟨[], c :: front, .cons c h, fun cs => hother hc⟩

theorem Opens.splitSign (h : Opens front) : Opens (splitSign front).2 := by
  rcases splitSign_cases front with ⟨rest, rfl, hsplit⟩ | ⟨rest, rfl, hsplit⟩ | hsplit
  all_goals rw [hsplit]
  case inr.inr => exact h
  all_goals
    rcases h with h | h
    · cases h
    · cases h with
      | last => exact .inl rfl
      | cons _ h => exact .inr h

theorem Leads.zeros (h : Leads body) (k : Nat) : Leads (List.replicate k '0' ++ body) := by
  cases k with
  | zero => exact h
  | succ k => exact .digit _ rfl

theorem Leads.unsigned (h : Leads body) : Unsigned body := by
  have hhead : ∀ c ∈ body.head?, c.isDigit = true ∨ c = '.' := by
    rintro c hc
    cases h with
    | digit _ h =>
      cases hc
      exact .inl h
    | point =>
      cases hc
      exact .inr rfl
  exact .of_head hhead (by decide) (by decide)

theorem Leads.exists_digit (h : Leads body) : ∃ c ∈ body, c.isDigit = true := by
  cases h with
  | digit rest h => exact ⟨_, List.mem_cons_self, h⟩
  | point rest h => exact ⟨_, List.mem_cons_of_mem _ List.mem_cons_self, h⟩

theorem Leads.ne_nil (h : Leads body) : body ≠ [] := by
  obtain ⟨c, hc, -⟩ := h.exists_digit
  exact List.ne_nil_of_mem hc

theorem ofDigitChars_zeros (k : Nat) (ds : List Char) :
    Nat.ofDigitChars 10 (List.replicate k '0' ++ ds) 0 = Nat.ofDigitChars 10 ds 0 := by
  induction k with
  | zero => rfl
  | succ k ih =>
    rw [List.replicate_succ, List.cons_append, Nat.ofDigitChars_cons]
    exact ih

theorem isDigit_zeros (k : Nat) : ∀ c ∈ List.replicate k '0', c.isDigit = true := by
  intro c hc
  rw [List.eq_of_mem_replicate hc]
  rfl

theorem digits_zeros {ds : List Char} (h : ds ≠ []) (k : Nat) :
    Digits (List.replicate k '0' ++ ds) ↔ Digits ds := by
  simp only [Digits, List.forall_mem_append, and_iff_right (isDigit_zeros k), ne_eq,
    List.append_eq_nil_iff, h, and_false, not_false_eq_true]

theorem read?_zeros (hfront : Opens front) (hbody : body ≠ []) (k : Nat) :
    Numeral.read? (front ++ (List.replicate k '0' ++ body)) = Numeral.read? (front ++ body) := by
  refine Option.ext fun n => ?_
  rw [read?_eq_some_iff, read?_eq_some_iff]
  rcases hfront with rfl | hclosed
  · rw [List.nil_append, List.nil_append, digits_zeros hbody, ofDigitChars_zeros]
  · obtain ⟨c, hc, hdigit⟩ := hclosed.exists_not_digit
    have hnot (cs : List Char) : ¬ Digits (front ++ cs) := fun h =>
      absurd (h.2 c (List.mem_append_left cs hc)) (by rw [hdigit]; decide)
    exact iff_of_false (fun h => hnot _ h.1) (fun h => hnot _ h.1)

variable (hfront : Opens front) (hbody : Leads body) (k : Nat)
include hfront hbody

theorem integer?_zeros :
    integer? (front ++ (List.replicate k '0' ++ body)) = integer? (front ++ body) := by
  rw [integer?_of_splitSign (splitSign_append front (hbody.zeros k).unsigned),
    integer?_of_splitSign (splitSign_append front hbody.unsigned),
    read?_zeros hfront.splitSign hbody.ne_nil]

end

theorem Closed.exponent?_zeros {front body : List Char} (h : Closed front) (hbody : Leads body)
    (k : Nat) :
    exponent? (front ++ (List.replicate k '0' ++ body)) = exponent? (front ++ body) := by
  cases h with
  | last =>
    have hsame := integer?_zeros (.inl rfl) hbody k
    simp only [List.nil_append] at hsame
    simp only [List.singleton_append, exponent?, hsame]
  | cons c h => simp only [List.cons_append, exponent?, integer?_zeros (.inr h) hbody k]

theorem decimal?_congr {negative : Bool} {cs cs' whole whole' fraction rest rest' : List Char}
    {tail tail' : List Char} (hwhole : cs.span Char.isDigit = (whole, rest))
    (hwhole' : cs'.span Char.isDigit = (whole', rest'))
    (hfraction : splitFraction rest = (fraction, tail))
    (hfraction' : splitFraction rest' = (fraction, tail'))
    (hdigits : Numeral.read? (whole ++ fraction) = Numeral.read? (whole' ++ fraction))
    (htail : exponent? tail = exponent? tail') : decimal? negative cs = decimal? negative cs' := by
  simp only [decimal?, hwhole, hwhole', hfraction, hfraction', hdigits, htail]

/-- A number that starts with a digit or a point has digits in its parts. -/
theorem Leads.parts {body : List Char} (h : Leads body) :
    ∃ whole rest fraction tail, body.span Char.isDigit = (whole, rest) ∧
      splitFraction rest = (fraction, tail) ∧ whole ++ fraction ≠ [] := by
  cases h with
  | @digit c rest h =>
    refine ⟨_, _, _, _, List.span_eq_takeWhile_dropWhile _ _, rfl, ?_⟩
    simp [h]
  | @point c rest h =>
    refine ⟨[], '.' :: c :: rest, _, _, ?_, List.span_eq_takeWhile_dropWhile _ _, ?_⟩
    · simp [List.span_eq_takeWhile_dropWhile]
    · simp [h]

theorem Leads.real?_append {body : List Char} (h : Leads body) (front : List Char) :
    real? (front ++ body) = decimal? (splitSign front).1 ((splitSign front).2 ++ body) := by
  obtain ⟨c, hc, hdigit⟩ := h.exists_digit
  exact real?_of_digit (splitSign_append front h.unsigned)
    ⟨c, List.mem_append_right _ hc, hdigit⟩

theorem span_zeros (k : Nat) {cs whole rest : List Char}
    (h : cs.span Char.isDigit = (whole, rest)) :
    (List.replicate k '0' ++ cs).span Char.isDigit = (List.replicate k '0' ++ whole, rest) := by
  simp only [List.span_eq_takeWhile_dropWhile, Prod.mk.injEq] at h ⊢
  rw [List.takeWhile_append_of_pos (isDigit_zeros k),
    List.dropWhile_append_of_pos (isDigit_zeros k), h.1, h.2]
  exact ⟨rfl, rfl⟩

section

variable {front body : List Char} (hfront : Opens front) (hbody : Leads body) (k : Nat)
include hfront hbody

theorem decimal?_zeros (negative : Bool) :
    decimal? negative (front ++ (List.replicate k '0' ++ body)) =
      decimal? negative (front ++ body) := by
  rcases hfront with rfl | hclosed
  · obtain ⟨whole, rest, fraction, tail, hwhole, hfraction, hne⟩ := hbody.parts
    refine decimal?_congr (span_zeros k hwhole) hwhole hfraction hfraction ?_ rfl
    rw [List.append_assoc]
    exact read?_zeros (.inl rfl) hne k
  · obtain ⟨whole, rest, hrest, hwhole⟩ := hclosed.span
    obtain ⟨fraction, tail, htail, hfraction⟩ := hrest.splitFraction
    exact decimal?_congr (hwhole _) (hwhole _) (hfraction _) (hfraction _) rfl
      (htail.exponent?_zeros hbody k)

theorem real?_zeros :
    real? (front ++ (List.replicate k '0' ++ body)) = real? (front ++ body) := by
  rw [(hbody.zeros k).real?_append, hbody.real?_append, decimal?_zeros hfront.splitSign hbody]

theorem number?_zeros :
    number? (front ++ (List.replicate k '0' ++ body)) = number? (front ++ body) := by
  simp only [number?, integer?_zeros hfront hbody, real?_zeros hfront hbody]

end

theorem ne_toString_of_leads (front : List Char) {body : List Char} (h : Leads body) (b : Bool) :
    String.ofList (front ++ body) ≠ toString b := by
  intro heq
  have hletters : (toString b).toList.all (!Char.isDigit ·) = true := by cases b <;> decide
  obtain ⟨c, hc, hdigit⟩ := h.exists_digit
  rw [← heq, String.toList_ofList] at hletters
  have hletter := List.all_eq_true.mp hletters c (List.mem_append_right _ hc)
  rw [hdigit] at hletter
  cases hletter

theorem toOption_parse_zeros {front body : List Char} (hfront : Opens front) (hbody : Leads body)
    (k : Nat) :
    (Argument.parse (String.ofList (front ++ (List.replicate k '0' ++ body)))).toOption =
      (Argument.parse (String.ofList (front ++ body))).toOption := by
  rw [parse_of_not_bool (ne_toString_of_leads front (hbody.zeros k)),
    parse_of_not_bool (ne_toString_of_leads front hbody), String.toList_ofList,
    String.toList_ofList, number?_zeros hfront hbody]
  cases number? (front ++ body) <;> rfl

/-! ## Arguments -/

theorem digits_toString (n : Nat) :
    Digits (toString n).toList ∧ Nat.ofDigitChars 10 (toString n).toList 0 = n := by
  rw [toList_toString]
  exact read?_eq_some_iff.mp (Numeral.read?_toDigits n)

theorem isNatural_toString (n : Nat) : IsNatural (toString n).toList n := by
  obtain ⟨hdigits, hvalue⟩ := digits_toString n
  have h := IsNatural.plain hdigits
  rwa [hvalue] at h

theorem isInteger_toString (z : Int) : IsInteger (toString z).toList z := by
  cases z with
  | ofNat n => exact .natural (isNatural_toString n)
  | negSucc n =>
    obtain ⟨hdigits, hvalue⟩ := digits_toString (n + 1)
    have h := IsInteger.minus hdigits
    rw [hvalue] at h
    change IsInteger ("-" ++ toString (n + 1)).toList _
    rw [String.toList_append]
    exact h

theorem parse_toString {z : Int} (hmin : -2 ^ 63 ≤ z) (hmax : z < 2 ^ 64) :
    (∃ n : Int64, n.toInt = z ∧ Argument.parse (toString z) = .ok (.int n)) ∨
    ∃ n : UInt64, (n.toNat : Int) = z ∧ Argument.parse (toString z) = .ok (.uint n) := by
  have hclass := classified_parse (toString z)
  by_cases hint : z < 2 ^ 63
  · have hn : (Int64.ofInt z).toInt = z := Int64.toInt_ofInt_of_le hmin hint
    refine .inl ⟨Int64.ofInt z, hn, (hclass.int _).mpr ?_⟩
    rw [hn]
    exact isInteger_toString z
  · obtain ⟨n, rfl⟩ := Int.eq_ofNat_of_zero_le (a := z) (by omega)
    have hlt : n < 2 ^ 64 := by omega
    have hn : (UInt64.ofNat n).toNat = n := UInt64.toNat_ofNat_of_lt' hlt
    refine .inr ⟨UInt64.ofNat n, congrArg Nat.cast hn, (hclass.uint _).mpr ?_⟩
    rw [hn]
    exact ⟨isNatural_toString n, by omega⟩

theorem not_isExact_of_not_isReal {t : String} (hbool : ∀ b : Bool, t ≠ toString b)
    (h : ¬ IsReal t.toList) : ¬ IsExact t := by
  rintro (⟨b, hb⟩ | ⟨n, hn⟩ | ⟨n, hn, -⟩)
  · exact hbool b hb
  · exact h hn.isReal
  · exact h (IsInteger.natural hn).isReal

/-- Characters that some notations for numbers have and arguments do not. -/
def foreignMarks : List Char := [' ', '_', 'x', 'X']

theorem parse_foreignMark {t : String} {c : Char} (hc : c ∈ t.toList) (hmark : c ∈ foreignMarks) :
    Argument.parse t = .error (.invalidArg t) := by
  have hforeign : c.isDigit = false ∧ c ∉ marks ∧ ∀ b : Bool, c ∉ (toString b).toList := by
    simp only [foreignMarks, List.mem_cons, List.not_mem_nil, or_false] at hmark
    rcases hmark with rfl | rfl | rfl | rfl <;> decide
  obtain ⟨hdigit, hnone, hword⟩ := hforeign
  have hreal : ¬ IsReal t.toList := fun h => by
    rcases h.chars c hc with h | h
    · rw [hdigit] at h
      cases h
    · exact hnone h
  have hbool (b : Bool) : t ≠ toString b := by
    rintro rfl
    exact hword b hc
  exact (classified_parse t).invalid.mpr ⟨not_isExact_of_not_isReal hbool hreal, hreal⟩

/-- Arguments are read by the class of their texts. The shortest texts without digits and all texts
with a foreign mark are refused, zeros in front of a number change nothing, and the decimal text of
an integer that some class has room for gives this integer. -/
theorem parse_follows_grammar :
    (∀ t, Classified t (Argument.parse t)) ∧
    (∀ t ∈ ["", "+", "-", "."], Argument.parse t = .error (.invalidArg t)) ∧
    (∀ t, ∀ c ∈ t.toList, c ∈ foreignMarks → Argument.parse t = .error (.invalidArg t)) ∧
    (∀ front k body, Opens front → Leads body →
      (Argument.parse (String.ofList (front ++ (List.replicate k '0' ++ body)))).toOption =
        (Argument.parse (String.ofList (front ++ body))).toOption) ∧
    (∀ z : Int, -2 ^ 63 ≤ z → z < 2 ^ 64 →
      (∃ n : Int64, n.toInt = z ∧ Argument.parse (toString z) = .ok (.int n)) ∨
      ∃ n : UInt64, (n.toNat : Int) = z ∧ Argument.parse (toString z) = .ok (.uint n)) := by
  refine ⟨classified_parse, ?_, fun t c => parse_foreignMark, ?_, fun z => parse_toString⟩
  · simp only [List.forall_mem_cons]
    exact ⟨rfl, rfl, rfl, rfl, fun t ht => nomatch ht⟩
  · exact fun front k body hfront hbody => toOption_parse_zeros hfront hbody k

/-- A digit after an underscore, zeros after a minus sign, and the least number that has no
sign. -/
theorem parse_follows_grammar_edges :
    Argument.parse "1_000" = .error (.invalidArg "1_000") ∧
    (Argument.parse "-0042").toOption = (Argument.parse "-42").toOption ∧
    ∃ n : UInt64, n.toNat = 2 ^ 63 ∧ Argument.parse (toString (2 ^ 63 : Int)) = .ok (.uint n) := by
  refine ⟨parse_follows_grammar.2.2.1 "1_000" '_' (by decide) (by decide),
    parse_follows_grammar.2.2.2.1 ['-'] 2 ['4', '2'] (.inr (.last rfl (by decide)))
      (.digit _ rfl), ?_⟩
  rcases parse_follows_grammar.2.2.2.2 (2 ^ 63) (by decide) (by decide) with
    ⟨n, hn, -⟩ | ⟨n, hn, hparse⟩
  · have hlt := n.toInt_lt
    omega
  · exact ⟨n, by omega, hparse⟩

end Argument
end ForeignVM
