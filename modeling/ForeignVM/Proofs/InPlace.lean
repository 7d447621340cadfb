import ForeignVM.Proofs.Narrowing
import ForeignVM.Proofs.Strict

/-!
# ForeignVM.Proofs.InPlace

Values written into a part of storage, step by step. A step that fails leaves what the steps before
it have done, so it matters in which order a shape is checked and written. Nothing is ever left half
written: a value that does not fit leaves all bytes as they are, and a value that fits changes only
the bytes of its shape.

* `Writing`               — steps that change bytes, and may stop half-way.
* `Shape.writeInPlace`    — a value written word by word.
* `writeInPlace_eq`       — all or nothing: the bytes of `writeStrict`, or the old ones.
* `Shape.Faithful`        — what is read can be stored and stays the same.
* `storage_faithful`      — every shape is faithful.
-/

namespace ForeignVM

/-- Steps that change some bytes. A failure comes with the bytes as they are by then. -/
abbrev Writing := EStateM Fault Bytes

namespace Writing

/-- Puts bytes in the place of the first `n`. -/
def copy (n : Nat) (source : Bytes) : Writing Unit := fun out =>
  match Panic.copyFront n source out with
  | .ok out => .ok () out
  | .error p => .error (.panic p) out

/-- Puts a word in the first place, if it is a word of the host. -/
def word (w : UInt64) : Writing Unit :=
  if w.toNat < 256 ^ wordSize then copy wordSize (encodeWord w.toNat)
  else throw (.error (.memory (.invalidAddress w)))

/-- Works on what lies behind the first `n` bytes. -/
def behind (n : Nat) (steps : Writing Unit) : Writing Unit := fun out =>
  match Panic.behind n out with
  | .error p => .error (.panic p) out
  | .ok tail =>
    match steps tail with
    | .ok () tail => .ok () (out.take n ++ tail)
    | .error f tail => .error f (out.take n ++ tail)

end Writing

namespace Shape

open Writing

/-- Puts a value in the place of the first bytes. -/
def writeInPlace : Shape → Value → Writing Unit
  | .scalar kind, v =>
    match v.number? with
    | some n => copy kind.size (kind.encode n)
    | none => throw (.error (v.mismatch kind.name))
  | .pointer _, .pointer p => word p.address
  | .proc closure, .proc p => do
    if !closure ∧ p.context ≠ 0 then throw (.error .closureContext)
    word (UInt64.ofNat p.codeWord)
    if closure then behind wordSize (word p.context)
  | .aggregate layout, .aggregate a =>
    if a.ty = layout.id then copy layout.size a.bytes
    else throw (.error ((Value.aggregate a).mismatch (Shape.aggregate layout).describe))
  | s, v => throw (.error (v.mismatch s.describe))

end Shape

namespace Writing

/-- Done as a whole or not at all. -/
def whole (x : Except Fault Bytes) (out : Bytes) : EStateM.Result Fault Bytes Unit :=
  match x with
  | .ok out => .ok () out
  | .error f => .error f out

variable {n : Nat} {out : Bytes} {steps : Writing Unit}

theorem copy_run (n : Nat) (source out : Bytes) :
    (copy n source).run out = whole (liftM (Panic.copyFront n source out)) out := by
  unfold EStateM.run copy
  cases Panic.copyFront n source out <;> rfl

/-- Every word is a word of the host. -/
theorem word_run (w : UInt64) (h : wordSize ≤ out.length) :
    (word w).run out = .ok () (encodeWord w.toNat ++ out.drop wordSize) := by
  have hfits : w.toNat < 256 ^ wordSize := w.toNat_lt
  rw [word, if_pos hfits, copy_run, copyFront_ok (Shape.length_encodeWord _) h]
  rfl

/-- A failure behind the first bytes leaves these as they are, too. -/
theorem behind_run {x : Except Fault Bytes} (h : n ≤ out.length)
    (hsteps : steps.run (out.drop n) = whole x (out.drop n)) :
    (behind n steps).run out = whole (x.map (out.take n ++ ·)) out := by
  have hsteps : steps (out.drop n) = whole x (out.drop n) := hsteps
  simp only [EStateM.run, behind, behind_ok h, hsteps]
  cases x with
  | ok tail => rfl
  | error f => exact congrArg (EStateM.Result.error f) (List.take_append_drop n out)

end Writing

namespace Shape

open Writing

variable {l : Layouts} {s : Shape} {v : Value} {out : Bytes}

theorem codeWord_run (p : ProcRef) (h : wordSize ≤ out.length) :
    (word (UInt64.ofNat p.codeWord)).run out =
      .ok () (encodeWord p.codeWord ++ out.drop wordSize) := by
  rw [word_run _ h, UInt64.toNat_ofNat_of_lt' p.codeWord_lt]

theorem writeInPlace_closure (p : ProcRef) (h : (Shape.proc true).size ≤ out.length) :
    ((Shape.proc true).writeInPlace (.proc p)).run out =
      .ok () (encodeWord p.codeWord ++ encodeWord p.context.toNat ++
        out.drop (Shape.proc true).size) := by
  have hword := wordSize_le_proc h
  let first := encodeWord p.codeWord ++ out.drop wordSize
  have hdrop : first.drop wordSize = out.drop wordSize := List.drop_left' (length_encodeWord _)
  have htake : first.take wordSize = encodeWord p.codeWord := List.take_left' (length_encodeWord _)
  have hlength : first.length = out.length := by
    rw [List.length_append, length_encodeWord, List.length_drop, Nat.add_sub_of_le hword]
  have hroom : wordSize ≤ (out.drop wordSize).length := by
    rw [List.length_drop]
    exact Nat.le_sub_of_add_le h
  have hsecond : (behind wordSize (word p.context)).run first =
      .ok () (encodeWord p.codeWord ++
        (encodeWord p.context.toNat ++ (out.drop wordSize).drop wordSize)) := by
    rw [behind_run (hlength ▸ hword) (hdrop ▸ word_run p.context hroom : _ = whole (.ok _) _),
      htake]
    rfl
  calc ((Shape.proc true).writeInPlace (.proc p)).run out
    _ = (word (UInt64.ofNat p.codeWord) >>= fun _ => behind wordSize (word p.context)).run out :=
      rfl
    _ = (behind wordSize (word p.context)).run first := by
      rw [EStateM.run_bind, codeWord_run p hword]
    _ = _ := by rw [hsecond, List.drop_drop, List.append_assoc]; rfl

/-- All or nothing. Of a closure the second word is looked at when the first has been written, but
no word is refused. -/
theorem writeInPlace_eq (h : s.size ≤ out.length) :
    (s.writeInPlace v).run out = whole (s.writeStrict v out) out := by
  cases s with
  | scalar kind =>
    simp only [writeInPlace, writeStrict]
    cases v.number? with
    | none => rfl
    | some n => exact copy_run _ _ _
  | pointer pointee =>
    cases v with
    | pointer p =>
      rw [writeInPlace, word_run _ h, writeStrict, copyFront_ok (length_encodeWord _) h]
      rfl
    | _ => rfl
  | proc closure =>
    cases v with
    | proc p =>
      cases closure with
      | false =>
        have hword := wordSize_le_proc h
        rw [writeInPlace, writeStrict]
        by_cases hcontext : p.context = 0
        · rw [if_pos hcontext, if_neg fun hguard => hguard.2 hcontext, EStateM.run_bind,
            codeWord_run p hword, copyFront_ok (length_encodeWord _) hword]
          rfl
        · rw [if_neg hcontext, if_pos ⟨rfl, hcontext⟩]
          rfl
      | true =>
        rw [writeInPlace_closure p h, writeStrict_closure p h]
        rfl
    | _ => cases closure <;> rfl
  | aggregate layout =>
    cases v with
    | aggregate a =>
      rw [writeInPlace, writeStrict]
      split
      · exact copy_run _ _ _
      · rfl
    | _ => rfl

/-- What is written lies in the first bytes. -/
theorem exists_front {new : Bytes} (h : s.size ≤ out.length)
    (hnew : s.writeStrict v out = .ok new) :
    ∃ front, front.length = s.size ∧ new = front ++ out.drop s.size := by
  rw [writeStrict_encode s v h] at hnew
  cases hfront : s.encode v with
  | error e =>
    rw [hfront] at hnew
    cases hnew
  | ok front =>
    rw [hfront] at hnew
    exact ⟨front, length_of_encode hfront, (Except.ok.inj hnew).symm⟩

/-- Wherever there is room the value can be written, and is read again. Only the bytes of the shape
change. -/
def Keeps (s : Shape) (v : Value) : Prop :=
  ∀ out, s.size ≤ out.length → ∃ front, front.length = s.size ∧
    (s.writeInPlace v).run out = .ok () (front ++ out.drop s.size) ∧
    s.readStrict (front ++ out.drop s.size) = .ok v

theorem keeps_of_coerce (hv : s.coerce v = .ok v) : s.Keeps v := by
  intro out hroom
  unfold coerce at hv
  split at hv
  · next front hfront =>
    have hlength := length_of_encode hfront
    have hsame : s.decode front = v := Except.ok.inj hv
    refine ⟨front, hlength, ?_, ?_⟩
    · rw [writeInPlace_eq hroom, writeStrict_encode s v hroom, hfront]
      rfl
    · rw [readStrict_eq (by rw [List.length_append]; omega), ← decode_take,
        List.take_left' hlength, hsame]
  · cases hv

/-- Storage of a shape can be relied on. -/
structure Faithful (s : Shape) : Prop where
  /-- Any bytes are a value, and one that can be stored and stays as it is. -/
  read : ∀ bytes, s.size ≤ bytes.length →
    s.readStrict bytes = .ok (s.decode bytes) ∧ s.Keeps (s.decode bytes)
  /-- A value that has been converted is not changed by another conversion. -/
  coerce : ∀ v w, s.coerce v = .ok w → s.coerce w = .ok w
  /-- A place for procs keeps every proc that it takes. -/
  proc : ∀ closure p, s = .proc closure → closure = true ∨ p.context = 0 → s.Keeps (.proc p)
  /-- Other procs are those with a context for a place without closure. -/
  closureContext : ∀ p, s = .proc false → p.context ≠ 0 → ∀ out, s.size ≤ out.length →
    (s.writeInPlace (.proc p)).run out = .error (.error .closureContext) out
  /-- A failure leaves all bytes, a success those behind the first. -/
  inPlace : ∀ v out, s.size ≤ out.length →
    (∃ f, (s.writeInPlace v).run out = .error f out) ∨
      ∃ front, front.length = s.size ∧
        (s.writeInPlace v).run out = .ok () (front ++ out.drop s.size)

theorem faithful (s : Shape) : s.Faithful where
  read bytes h :=
    ⟨readStrict_eq h, keeps_of_coerce (coerce_decode s bytes)⟩
  coerce _ _ := coerce_coerce
  proc closure p hs h := by
    subst hs
    exact keeps_of_coerce (coerce_proc h)
  closureContext p hs h out hroom := by
    subst hs
    rw [writeInPlace_eq hroom, writeStrict, if_neg h]
    rfl
  inPlace v out h := by
    rw [writeInPlace_eq h]
    cases hnew : s.writeStrict v out with
    | error f => exact .inl ⟨f, rfl⟩
    | ok new =>
      obtain ⟨front, hfront, rfl⟩ := exists_front h hnew
      exact .inr ⟨front, hfront, rfl⟩

/-- Values of one table are written as they are encoded, and refused for the same reason. -/
def WritesEncoding (l : Layouts) (s : Shape) : Prop :=
  ∀ v, v.Own l → ∀ out, s.size ≤ out.length →
    (s.writeInPlace v).run out =
      match s.encode v with
      | .ok front => .ok () (front ++ out.drop s.size)
      | .error e => .error (.error e) out

theorem writesEncoding (hs : s.Own l) : s.WritesEncoding l := by
  intro v hv out h
  rw [writeInPlace_eq h, writeStrict_eq hs hv h]
  cases s.encode v <;> rfl

end Shape

/-- Storage of every shape can be relied on. In a table that has been checked nothing but the
errors of encoding can go wrong, and what is read is of the table again. -/
theorem storage_faithful :
    (∀ s : Shape, s.Faithful) ∧
      ∀ t : TypeTable, t.validate = .ok () → ∃ l, Layouts.compute t = .ok l ∧
        ∀ id s, l.shape id = .ok s →
          s.WritesEncoding l ∧ ∀ bytes, (s.decode bytes).Own l := by
  refine ⟨Shape.faithful, fun t h => ?_⟩
  obtain ⟨l, hl, _⟩ := Layouts.exists_compute h
  refine ⟨l, hl, fun id s hs => ?_⟩
  have hown := Layouts.own_of_compute hl hs
  exact ⟨Shape.writesEncoding hown, Shape.decode_own hown⟩

theorem storage_faithful_nested :
    TypeTable.nested.validate = .ok () ∧ ∃ l s, Layouts.compute .nested = .ok l ∧
      l.shape (.ofPosition 0) = .ok s ∧ s.Faithful ∧ s.WritesEncoding l := by
  refine ⟨by decide, ?_⟩
  obtain ⟨l, hl, hstorage⟩ := storage_faithful.2 .nested (by decide)
  have hshape : (Layouts.compute .nested >>= (·.shape (.ofPosition 0))).toOption.isSome := by decide
  rw [hl, ok_bind] at hshape
  cases hs : l.shape (.ofPosition 0) with
  | error e => simp [hs, Except.toOption] at hshape
  | ok s => exact ⟨l, s, hl, hs, storage_faithful.1 s, (hstorage _ s hs).1⟩

end ForeignVM
