import ForeignVM.Proofs.FieldPath

/-!
# ForeignVM.Proofs.Strict

Values in storage, for a host that stops with a panic where an index, a part of a byte string or a
copy is out of range. The strict forms of reading and writing check every such step. Where shapes
and values are those of one table they find nothing, and give what the plain forms give.

* `Panic`, `Fault`         — what the strict forms stop at, besides the errors of the plain ones;
  `Fault.of` is how an error shows, which is a panic if bytes cannot be copied.
* `Shape.readStrict`, `writeStrict`, `coerceStrict`, `zeroStrict` — values of a shape; each with
  its `_eq`.
* `Aggregate.readStrict`, `writeStrict` — fields of structs and unions.
* `Shape.Own`, `Value.Own` — an aggregate has the layout of its own type.
* `Layouts.Regular`        — what is needed of layouts; `regular_of_compute`.
-/

namespace ForeignVM

/-- Why a host that checks its own steps gives up. -/
inductive Panic where
  /-- Element `i` of a sequence that is not so long. -/
  | index (i length : Nat)
  /-- A part of a sequence that reaches beyond it. -/
  | slice (start stop length : Nat)
  /-- A copy between places of different lengths. -/
  | copy (source target : Nat)
  /-- An operand that is read as another type than it has. -/
  | operand (i : Nat) (asked found : OperandType)
  /-- A count that would drop below zero. -/
  | count
  deriving DecidableEq, Repr

/-- A panic, or an error that a run reports. -/
inductive Fault where
  | panic (p : Panic)
  | error (e : RuntimeError)
  deriving DecidableEq, Repr

/-- How a strict form stops where the plain one fails. -/
def Fault.of : RuntimeError → Fault
  | .abort (.lengthMismatch target source) => .panic (.copy source target)
  | e => .error e

instance : MonadLift (Except Panic) (Except Fault) := ⟨Except.mapError .panic⟩

instance : MonadLift (Except RuntimeError) (Except Fault) := ⟨Except.mapError .error⟩

section

variable {α ε : Type}

/-- The errors of a part, as errors of a run. -/
def refuse (cause : ε → RuntimeError) (x : Except ε α) : Except Fault α :=
  x.mapError fun e => .error (cause e)

/-! ## Parts of sequences -/

def Panic.element (as : List α) (i : Nat) : Except Panic α :=
  match as[i]? with
  | some a => .ok a
  | none => .error (.index i as.length)

/-- The first `n` elements. -/
def Panic.front (n : Nat) (as : List α) : Except Panic (List α) :=
  if n ≤ as.length then .ok (as.take n) else .error (.slice 0 n as.length)

/-- What comes after the first `n` elements. -/
def Panic.behind (n : Nat) (as : List α) : Except Panic (List α) :=
  if n ≤ as.length then .ok (as.drop n) else .error (.slice n as.length as.length)

/-- Puts bytes in the place of the first `n`. -/
def Panic.copyFront (n : Nat) (source target : Bytes) : Except Panic Bytes :=
  if n ≤ target.length then
    if source.length = n then .ok (source ++ target.drop n) else .error (.copy source.length n)
  else .error (.slice 0 n target.length)

open Panic

theorem ok_bind {β : Type} (a : α) (f : α → Except ε β) : (.ok a >>= f) = f a := rfl

theorem lift_ok (a : α) : (liftM (.ok a : Except Panic α) : Except Fault α) = .ok a := rfl

theorem front_ok {n : Nat} {as : List α} (h : n ≤ as.length) : front n as = .ok (as.take n) :=
  if_pos h

theorem behind_ok {n : Nat} {as : List α} (h : n ≤ as.length) : behind n as = .ok (as.drop n) :=
  if_pos h

theorem copyFront_ok {n : Nat} {source target : Bytes} (hsource : source.length = n)
    (h : n ≤ target.length) : copyFront n source target = .ok (source ++ target.drop n) := by
  rw [copyFront, if_pos h, if_pos hsource]

end

/-- New bytes over old ones, in one piece. -/
theorem overlay_eq {offset : Nat} {new bytes : Bytes} (h : offset + new.length ≤ bytes.length) :
    overlay offset new bytes =
      bytes.take offset ++ (new ++ (bytes.drop offset).drop new.length) := by
  fun_induction overlay offset new bytes with
  | case1 offset new => simp_all
  | case2 => rfl
  | case3 n new b rest ih => simp_all
  | case4 offset new b rest ih =>
    rw [ih (by simp at h; omega)]
    rfl

open Panic

/-! ## Values of a shape -/

namespace Aggregate

/-- The aggregate of bytes that are as many as its layout asks for. -/
def exactly (layout : AggregateLayout) (bytes : Bytes) : Except Panic Aggregate :=
  if h : bytes.length = layout.size then .ok ⟨layout, bytes, h⟩
  else .error (.copy bytes.length layout.size)

theorem exactly_ok {layout : AggregateLayout} {bytes : Bytes} (h : bytes.length = layout.size) :
    exactly layout bytes = .ok ⟨layout, bytes, h⟩ :=
  dif_pos h

end Aggregate

/-- An aggregate of the type has the layout that its type has everywhere. -/
def Shape.Own (l : Layouts) : Shape → Prop
  | .aggregate layout => l.shape layout.id = .ok (.aggregate layout)
  | _ => True

/-- An aggregate has the layout of its type; of other values nothing is asked. -/
def Value.Own (l : Layouts) : Value → Prop
  | .aggregate a => l.shape a.ty = .ok (.aggregate a.layout)
  | _ => True

namespace Shape

/-- The value at the front of some bytes. -/
def readStrict : Shape → Bytes → Except Panic Value
  | .scalar kind, bytes => do
    let own ← front kind.size bytes
    return kind.decode own
  | .pointer pointee, bytes => do
    let word ← front wordSize bytes
    return .pointer ⟨UInt64.ofNat (decodeWord word), pointee⟩
  | .proc false, bytes => do
    let word ← front wordSize bytes
    return .proc ⟨ProcRef.targetOf (decodeWord word), 0⟩
  | .proc true, bytes => do
    let context ← front wordSize (← behind wordSize bytes)
    let word ← front wordSize bytes
    return .proc ⟨ProcRef.targetOf (decodeWord word), UInt64.ofNat (decodeWord context)⟩
  | .aggregate layout, bytes => do
    let own ← front layout.size bytes
    return .aggregate (← Aggregate.exactly layout own)

/-- The bytes with a value at their front. -/
def writeStrict : Shape → Value → Bytes → Except Fault Bytes
  | .scalar kind, v, out =>
    match v.number? with
    | some n => copyFront kind.size (kind.encode n) out
    | none => .error (.error (v.mismatch kind.name))
  | .pointer _, .pointer p, out => copyFront wordSize (encodeWord p.address.toNat) out
  | .proc false, .proc p, out =>
    if p.context = 0 then copyFront wordSize (encodeWord p.codeWord) out
    else .error (.error .closureContext)
  | .proc true, .proc p, out => do
    let out ← copyFront wordSize (encodeWord p.codeWord) out
    let tail ← copyFront wordSize (encodeWord p.context.toNat) (← behind wordSize out)
    return out.take wordSize ++ tail
  | .aggregate layout, .aggregate a, out =>
    if a.ty = layout.id then copyFront layout.size a.bytes out
    else .error (.error ((Value.aggregate a).mismatch (Shape.aggregate layout).describe))
  | s, v, _ => .error (.error (v.mismatch s.describe))

def coerceStrict (s : Shape) (v : Value) : Except Fault Value := do
  s.readStrict (← s.writeStrict v (List.replicate s.size 0))

def zeroStrict (s : Shape) : Except Panic Value := s.readStrict (List.replicate s.size 0)

variable {l : Layouts} {s : Shape} {v : Value} {bytes : Bytes}

theorem wordSize_le_proc {closure : Bool} (h : (Shape.proc closure).size ≤ bytes.length) :
    wordSize ≤ bytes.length := by
  cases closure
  · exact h
  · exact Nat.le_trans (by decide) h

theorem readStrict_eq (h : s.size ≤ bytes.length) : s.readStrict bytes = .ok (s.decode bytes) := by
  cases s with
  | scalar kind =>
    have h : kind.size ≤ bytes.length := h
    simp only [readStrict, front_ok h, decode, ScalarKind.decode, List.take_take, Nat.min_self,
      ok_bind]
    rfl
  | pointer pointee =>
    have h : wordSize ≤ bytes.length := h
    simp only [readStrict, front_ok h, decode, decodeWord, List.take_take, Nat.min_self, ok_bind]
    rfl
  | proc closure =>
    have hword := wordSize_le_proc h
    cases closure with
    | false =>
      simp only [readStrict, front_ok hword, decode, decodeWord, List.take_take, Nat.min_self,
        ok_bind]
      rfl
    | true =>
      have hcontext : wordSize ≤ (bytes.drop wordSize).length := by
        rw [List.length_drop]
        exact Nat.le_sub_of_add_le h
      simp only [readStrict, behind_ok hword, front_ok hword, front_ok hcontext, decode, decodeWord,
        List.take_take, Nat.min_self, ok_bind]
      rfl
  | aggregate layout =>
    have h : layout.size ≤ bytes.length := h
    have hlength : (bytes.take layout.size).length = layout.size := by
      rw [List.length_take, Nat.min_eq_left h]
    have hfit : fit layout.size bytes = bytes.take layout.size := by
      rw [fit, Nat.sub_eq_zero_of_le h, List.replicate_zero, List.append_nil]
    simp only [readStrict, front_ok h, Aggregate.exactly_ok hlength, decode, Aggregate.ofBytes,
      hfit, ok_bind]
    rfl

theorem zeroStrict_eq (s : Shape) : s.zeroStrict = .ok s.zero :=
  readStrict_eq (Nat.le_of_eq List.length_replicate.symm)

theorem length_encodeWord (word : Nat) : (encodeWord word).length = wordSize :=
  LittleEndian.length_encode _ _

/-- The code word and the context of a closure are written one after the other. -/
theorem writeStrict_closure (p : ProcRef) (h : (Shape.proc true).size ≤ bytes.length) :
    (Shape.proc true).writeStrict (.proc p) bytes =
      .ok (encodeWord p.codeWord ++ encodeWord p.context.toNat ++
        bytes.drop (Shape.proc true).size) := by
  have hword := wordSize_le_proc h
  have hout : (encodeWord p.codeWord ++ bytes.drop wordSize).length = bytes.length := by
    rw [List.length_append, length_encodeWord, List.length_drop, Nat.add_sub_of_le hword]
  have hrest : wordSize ≤ (bytes.drop wordSize).length := by
    rw [List.length_drop]
    exact Nat.le_sub_of_add_le h
  have htail : (encodeWord p.codeWord ++ bytes.drop wordSize).drop wordSize =
      bytes.drop wordSize := List.drop_left' (length_encodeWord _)
  have hhead : (encodeWord p.codeWord ++ bytes.drop wordSize).take wordSize =
      encodeWord p.codeWord := List.take_left' (length_encodeWord _)
  simp only [writeStrict, copyFront_ok (length_encodeWord _) hword, lift_ok, ok_bind,
    behind_ok (hout ▸ hword), htail, copyFront_ok (length_encodeWord _) hrest, hhead,
    List.drop_drop]
  exact congrArg Except.ok (List.append_assoc _ _ _).symm

/-- What is written is the encoding, and the bytes behind it stay. -/
theorem writeStrict_encode (s : Shape) (v : Value) (h : s.size ≤ bytes.length) :
    s.writeStrict v bytes =
      ((s.encode v).mapError Fault.of).map fun new => new ++ bytes.drop s.size := by
  cases s with
  | scalar kind =>
    have h : kind.size ≤ bytes.length := h
    simp only [writeStrict, encode]
    cases v.number? with
    | none => rfl
    | some n =>
      dsimp only
      rw [copyFront_ok (ScalarKind.length_encode kind n) h]
      rfl
  | pointer pointee =>
    have h : wordSize ≤ bytes.length := h
    cases v with
    | pointer p =>
      rw [writeStrict, copyFront_ok (length_encodeWord _) h]
      rfl
    | _ => rfl
  | proc closure =>
    cases v with
    | proc p =>
      cases closure with
      | false =>
        rw [writeStrict, copyFront_ok (length_encodeWord _) (wordSize_le_proc h), encode]
        split <;> rfl
      | true => exact writeStrict_closure p h
    | _ => cases closure <;> rfl
  | aggregate layout =>
    have h : layout.size ≤ bytes.length := h
    cases v with
    | aggregate a =>
      by_cases hty : a.ty = layout.id
      · rw [writeStrict, if_pos hty, copyFront, if_pos h]
        by_cases hlength : a.bytes.length = layout.size
        · rw [if_pos hlength, encode_aggregate hty hlength]
          rfl
        · rw [if_neg hlength, encode_outsized hty hlength]
          rfl
      · rw [writeStrict, if_neg hty, encode, if_pos hty]
        rfl
    | _ => rfl

/-- A type has one layout, so its aggregates are as long as its places. -/
theorem fault_of_own {e : RuntimeError} (hs : s.Own l) (hv : v.Own l)
    (h : s.encode v = .error e) : Fault.of e = .error e := by
  unfold encode at h
  split at h
  · split at h <;> cases h
    rfl
  · cases h
  · split at h <;> cases h
    rfl
  · cases h
  · next layout a =>
    split at h
    · cases h
      rfl
    · next hty =>
      have hty : a.ty = layout.id := Classical.not_not.mp hty
      have hs : l.shape a.ty = .ok (.aggregate layout) := hty ▸ hs
      have hv : l.shape a.ty = .ok (.aggregate a.layout) := hv
      cases hv.symm.trans hs
      rw [if_pos a.length_bytes] at h
      cases h
  · cases h
    rfl

theorem writeStrict_eq (hs : s.Own l) (hv : v.Own l) (h : s.size ≤ bytes.length) :
    s.writeStrict v bytes =
      ((s.encode v).mapError Fault.error).map fun new => new ++ bytes.drop s.size := by
  rw [writeStrict_encode s v h]
  cases he : s.encode v with
  | ok new => rfl
  | error e => exact congrArg Except.error (fault_of_own hs hv he)

/-- In a place of the size of the shape nothing is left of the old bytes. -/
theorem writeStrict_exact (hs : s.Own l) (hv : v.Own l) (h : bytes.length = s.size) :
    s.writeStrict v bytes = (s.encode v).mapError .error := by
  rw [writeStrict_eq hs hv (Nat.le_of_eq h.symm), List.drop_eq_nil_of_le (Nat.le_of_eq h)]
  cases s.encode v with
  | error e => rfl
  | ok new => exact congrArg Except.ok (List.append_nil new)

theorem coerceStrict_eq (hs : s.Own l) (hv : v.Own l) :
    s.coerceStrict v = (s.coerce v).mapError .error := by
  rw [coerceStrict, writeStrict_exact hs hv List.length_replicate, coerce]
  cases he : s.encode v with
  | error e => rfl
  | ok bytes =>
    simp only [Except.mapError, ok_bind]
    rw [readStrict_eq (Nat.le_of_eq (length_of_encode he).symm), lift_ok]

/-- Only the bytes of the shape count. -/
theorem decode_take (s : Shape) (bytes : Bytes) :
    s.decode (bytes.take s.size) = s.decode bytes := by
  cases s with
  | scalar kind => simp [decode, ScalarKind.decode, size, List.take_take]
  | pointer pointee => simp [decode, decodeWord, size, List.take_take]
  | proc closure =>
    cases closure <;> simp [decode, decodeWord, size, wordSize, List.drop_take, List.take_take]
  | aggregate layout =>
    have hlength : layout.size - min layout.size bytes.length = layout.size - bytes.length := by
      omega
    simp [decode, Aggregate.ofBytes, fit, size, hlength, List.take_take]

/-- What is read is of the type, if aggregates of the type have its layout. -/
theorem decode_own (hs : s.Own l) (bytes : Bytes) : (s.decode bytes).Own l := by
  cases s with
  | scalar kind =>
    cases kind <;> trivial
  | pointer pointee => trivial
  | proc closure => cases closure <;> trivial
  | aggregate layout => exact hs

theorem coerce_own (hs : s.Own l) {w : Value} (h : s.coerce v = .ok w) : w.Own l := by
  unfold coerce at h
  split at h
  · cases h
    exact decode_own hs _
  · cases h

end Shape

/-! ## Fields -/

/-- Every aggregate of the table has one layout, which names its type, and its fields have the
layouts of their types and lie inside. -/
structure Layouts.Regular (l : Layouts) : Prop where
  own : ∀ {ty s}, l.shape ty = .ok s → s.Own l
  field : ∀ {layout}, l.shape layout.id = .ok (.aggregate layout) → ∀ f ∈ layout.fields,
    l.shape f.ty = .ok f.shape ∧ f.offset + f.shape.size ≤ layout.size

theorem Layouts.own_of_compute {t : TypeTable} {l : Layouts} (h : compute t = .ok l) {ty : TypeId}
    {s : Shape} (hs : l.shape ty = .ok s) : s.Own l := by
  cases s with
  | aggregate layout =>
    obtain ⟨_, _, _, _, hconforms⟩ := exists_conforms h hs
    exact (congrArg l.shape hconforms.id).trans hs
  | _ => trivial

theorem Layouts.regular_of_compute {t : TypeTable} {l : Layouts} (h : compute t = .ok l)
    (hbounded : l.Bounded) : l.Regular where
  own := own_of_compute h
  field hs f hf := by
    obtain ⟨_, _, _, _, hconforms⟩ := exists_conforms h hs
    exact ⟨hconforms.shape f hf, (hconforms.arranged (hbounded.shape hs)).inside f hf⟩

theorem Layouts.aggregate_of_own {l : Layouts} {a : Aggregate} (h : (Value.aggregate a).Own l) :
    l.aggregate a.ty = .ok a.layout := by
  rw [aggregate, show l.shape a.ty = .ok (.aggregate a.layout) from h]

namespace Aggregate

def readStrict (a : Aggregate) (f : FieldLayout) : Except Panic Value := do
  f.shape.readStrict (← behind f.offset a.bytes)

def writeStrict (a : Aggregate) (f : FieldLayout) (v : Value) : Except Fault Aggregate := do
  let tail ← f.shape.writeStrict v (← behind f.offset a.bytes)
  exactly a.layout (a.bytes.take f.offset ++ tail)

def getStrict (a : Aggregate) (i : UInt16) : Except Fault Value := do
  a.readStrict (← refuse .type (a.layout.field i))

def setStrict (a : Aggregate) (i : UInt16) (v : Value) : Except Fault Aggregate := do
  a.writeStrict (← refuse .type (a.layout.field i)) v

variable {l : Layouts} {a : Aggregate} {f : FieldLayout} {v : Value}

section

variable (hl : l.Regular) (ha : (Value.aggregate a).Own l)

include hl ha

theorem field_own (hf : f ∈ a.layout.fields) :
    f.shape.Own l ∧ f.offset + f.shape.size ≤ a.bytes.length := by
  obtain ⟨hshape, hinside⟩ := hl.field ha f hf
  exact ⟨hl.own hshape, a.length_bytes ▸ hinside⟩

/-- What lies behind the offset of a field has room for it. -/
theorem behind_field (hf : f ∈ a.layout.fields) :
    behind f.offset a.bytes = .ok (a.bytes.drop f.offset) ∧
      f.shape.size ≤ (a.bytes.drop f.offset).length := by
  obtain ⟨_, hinside⟩ := field_own hl ha hf
  refine ⟨behind_ok (by omega), ?_⟩
  rw [List.length_drop]
  omega

theorem readStrict_eq (hf : f ∈ a.layout.fields) : a.readStrict f = .ok (a.read f) := by
  obtain ⟨hbehind, hroom⟩ := behind_field hl ha hf
  rw [readStrict, hbehind, ok_bind, Shape.readStrict_eq hroom, read, slice, Shape.decode_take]

theorem writeStrict_eq (hf : f ∈ a.layout.fields) (hv : v.Own l) :
    a.writeStrict f v = (a.write f v).mapError .error := by
  obtain ⟨hown, hinside⟩ := field_own hl ha hf
  obtain ⟨hbehind, hroom⟩ := behind_field hl ha hf
  rw [writeStrict, hbehind, lift_ok, ok_bind, Shape.writeStrict_eq hown hv hroom,
    write_of_covers hinside]
  cases he : f.shape.encode v with
  | error e => rfl
  | ok new =>
    have hnew := Shape.length_of_encode he
    have hover : overlay f.offset new a.bytes = _ := overlay_eq (by omega)
    rw [hnew] at hover
    simp only [Except.mapError, Except.map, ok_bind, ← hover]
    rw [exactly_ok ((length_overlay _ _ _).trans a.length_bytes)]
    rfl

theorem getStrict_eq (i : UInt16) : a.getStrict i = (a.get i).mapError .error := by
  unfold getStrict get
  cases hi : a.layout.field i with
  | error e => rfl
  | ok f =>
    have hread := readStrict_eq hl ha (Aggregated.mem_of_field hi)
    have hcovers : a.Covers f := (field_own hl ha (Aggregated.mem_of_field hi)).2
    have hget : a.readField f = .ok (a.read f) := if_pos hcovers
    dsimp only
    rw [hget]
    exact congrArg (fun x : Except Panic Value => (liftM x : Except Fault Value)) hread

theorem setStrict_eq (i : UInt16) (hv : v.Own l) :
    a.setStrict i v = (a.set i v).mapError .error := by
  unfold setStrict set
  cases hi : a.layout.field i with
  | error e => rfl
  | ok f => exact writeStrict_eq hl ha (Aggregated.mem_of_field hi) hv

end

theorem set_own {b : Aggregate} {i : UInt16} (ha : (Value.aggregate a).Own l)
    (h : a.set i v = .ok b) : (Value.aggregate b).Own l := by
  unfold set at h
  split at h
  · cases h
  · obtain ⟨_, hlayout, _⟩ := write_eq_ok h
    change l.shape b.layout.id = .ok (.aggregate b.layout)
    rw [hlayout]
    exact ha

end Aggregate

end ForeignVM
