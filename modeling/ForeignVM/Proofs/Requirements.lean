import ForeignVM.Proofs.Boundaries
import ForeignVM.Proofs.ListingText
import ForeignVM.Proofs.WellFounded

/-!
# ForeignVM.Proofs.Requirements

What validation accepts, and what it reports of a program that it refuses. The requirements of a
program stand in a list; validation goes through it and reports the first that is not met.

* `bisects_iff`            — a key is found by bisection just if it is one of ascending keys.
* `Comprises`              — code as a sequence of complete encodings; `comprises_iff`: it is what
  decodes as a whole, and its instructions start where they are decoded.
* `Program.requirements`   — what is asked of a program, in order, and what is said otherwise.
* `Requirement.Checks`     — a result that goes through requirements; `checks_validate`.
* `validate_iff_sound`     — validation accepts the sound programs, and reports the first violation.
-/

namespace ForeignVM

/-! ## Bisection -/

/-- Where the search for a key ends among `size` keys from `base` on. Half of the keys are left
out in each step. -/
def bisectFrom (keys : Array UInt32) (key : UInt32) (base size : Nat) : Nat :=
  if size ≤ 1 then base
  else
    let mid := base + size / 2
    if key < keys.getD mid 0 then bisectFrom keys key base (size - size / 2)
    else bisectFrom keys key mid (size - size / 2)
termination_by size

/-- Whether bisection finds the key. -/
def bisects (keys : Array UInt32) (key : UInt32) : Bool :=
  keys[bisectFrom keys key 0 keys.size]? == some key

/-- A key that is there stays among the keys that are looked at. -/
theorem bisectFrom_eq {keys : Array UInt32} {key : UInt32} {base size i : Nat}
    (hkeys : keys.toList.Pairwise (· < ·)) (hsize : base + size ≤ keys.size)
    (hi : keys[i]? = some key) (hbase : base ≤ i) (hlt : i < base + size) :
    bisectFrom keys key base size = i := by
  have hkey : keys.getD i 0 = key := by rw [Array.getD_eq_getD_getElem?, hi]; rfl
  have hmono {j k : Nat} (hjk : j < k) (hk : k < keys.size) : keys.getD j 0 < keys.getD k 0 := by
    have hj : j < keys.size := by omega
    simpa [Array.getD, hj, hk] using List.pairwise_iff_getElem.mp hkeys j k hj hk hjk
  have hinside := (Array.getElem?_eq_some_iff.mp hi).1
  induction base, size using bisectFrom.induct keys key with
  | case1 base size hone =>
    rw [bisectFrom, if_pos hone]
    omega
  | case2 base size hmany mid hless ih =>
    have hleft : i < mid := by
      by_contra hge
      rcases Nat.lt_or_eq_of_le (Nat.le_of_not_lt hge) with hmi | hmi
      · exact UInt32.lt_asymm hless (hkey ▸ hmono hmi hinside)
      · exact UInt32.lt_irrefl _ (hkey ▸ hmi ▸ hless)
    rw [bisectFrom, if_neg hmany, if_pos hless]
    exact ih (by omega) hbase (by omega)
  | case3 base size hmany mid hnot ih =>
    have hright : mid ≤ i := by
      by_contra hlt
      exact hnot (hkey ▸ hmono (Nat.lt_of_not_le hlt) (by omega))
    rw [bisectFrom, if_neg hmany, if_neg hnot]
    exact ih (by omega) hright (by omega)

/-- Among ascending keys, bisection finds those that are there. -/
theorem bisects_iff {keys : Array UInt32} {key : UInt32} (hkeys : keys.toList.Pairwise (· < ·)) :
    bisects keys key = true ↔ key ∈ keys := by
  rw [bisects, beq_iff_eq]
  refine ⟨fun h => Array.mem_of_getElem? h, fun h => ?_⟩
  obtain ⟨i, hi⟩ := Array.mem_iff_getElem?.mp h
  have hinside := (Array.getElem?_eq_some_iff.mp hi).1
  rw [bisectFrom_eq hkeys (by omega) hi (Nat.zero_le i) (by omega), hi]

/-! ## Encodings -/

/-- The complete encoding of an opcode with operands that fit the table. -/
def IsEncoding (part : Bytes) : Prop :=
  ∃ (op : Opcode) (operands : List Operand),
    op.Takes operands ∧ part = op.tag :: operands.flatMap Operand.encode

theorem isEncoding_encode (i : Instr) : IsEncoding i.encode :=
  ⟨i.opcode, i.operands, i.takes_operands, rfl⟩

theorem exists_instrs {parts : List Bytes} (h : ∀ part ∈ parts, IsEncoding part) :
    ∃ is : List Instr, parts = is.map Instr.encode := by
  induction parts with
  | nil => exact ⟨[], rfl⟩
  | cons part parts ih =>
    obtain ⟨⟨op, operands, htakes, rfl⟩, hrest⟩ := List.forall_mem_cons.mp h
    obtain ⟨i, hi⟩ := Instr.exists_ofOperands htakes
    obtain ⟨rfl, rfl⟩ := Instr.ofOperands_ok_iff.mp hi
    obtain ⟨is, rfl⟩ := ih hrest
    exact ⟨i :: is, rfl⟩

/-- The code is made of these complete encodings, one after the other. -/
structure Comprises (code : Array UInt8) (parts : List Bytes) : Prop where
  encodings : ∀ part ∈ parts, IsEncoding part
  all : parts.flatten = code.toList

/-- One of the parts starts at the address. -/
def Begins (parts : List Bytes) (ip : UInt32) : Prop :=
  ∃ k < parts.length, ip.toNat = (parts.take k).flatten.length

/-- Behind complete encodings the code goes on with something that cannot be decoded. -/
def BreaksOff (code : Array UInt8) (cause : CodecError) : Prop :=
  ∃ (parts : List Bytes) (stop : UInt32), (∀ part ∈ parts, IsEncoding part) ∧
    parts.flatten <+: code.toList ∧ stop.toNat = parts.flatten.length ∧
    Undecodable code stop cause

theorem Undecodable.decodeAt {code : Array UInt8} {ip : UInt32} {cause : CodecError}
    (h : Undecodable code ip cause) :
    ip.toNat < code.size ∧ ForeignVM.decodeAt code ip = .error cause := by
  cases h with
  | unknown htag hop =>
    exact ⟨(Array.getElem?_eq_some_iff.mp htag).1, by simp only [ForeignVM.decodeAt, htag, hop]⟩
  | truncated htag hop hshort =>
    exact ⟨(Array.getElem?_eq_some_iff.mp htag).1,
      by simp only [ForeignVM.decodeAt, htag, hop, if_pos hshort]⟩

section

variable {code : Array UInt8} (hsize : code.size < 2 ^ 32)
include hsize

/-- A decoder goes through the encodings of instructions, whatever it yields behind them. -/
theorem yields_through {stop : UInt32} {rest : List Located} {e? : Option CodecError}
    (hrest : Yields code stop rest e?) (is : List Instr) (ip : UInt32)
    (hstands : is.flatMap Instr.encode <+: code.toList.drop ip.toNat)
    (hstop : stop.toNat = ip.toNat + (is.flatMap Instr.encode).length) :
    ∃ ls, ls.map (·.instr) = is ∧ Yields code ip (ls ++ rest) e? := by
  induction is generalizing ip with
  | nil =>
    have hsame : stop = ip := UInt32.toNat_inj.mp (by simpa using hstop)
    exact ⟨[], rfl, hsame ▸ hrest⟩
  | cons i is ih =>
    rw [List.flatMap_cons] at hstands hstop
    have hfirst : i.encode <+: code.toList.drop ip.toNat := (List.prefix_append _ _).trans hstands
    have hl := decodeAt_of_stands hfirst
    have hnext : (UInt32.ofNat (ip.toNat + i.length)).toNat = ip.toNat + i.length :=
      (next_of_decodeAt hsize hl).1
    have hinside := le_size_of_stands hfirst
    have hpos := i.length_pos
    rw [List.length_append, Instr.length_encode] at hstop
    obtain ⟨ls, rfl, hyields⟩ := ih (UInt32.ofNat (ip.toNat + i.length))
      (by
        obtain ⟨after, hafter⟩ := hstands
        refine ⟨after, ?_⟩
        rw [hnext, ← List.drop_drop, ← hafter, ← Instr.length_encode, List.append_assoc,
          List.drop_left])
      (by rw [hnext]; omega)
    exact ⟨⟨i, ip, UInt32.ofNat (ip.toNat + i.length)⟩ :: ls, rfl,
      .next (by omega) hl hyields⟩

/-- The parts of the code are the encodings of the decoded instructions. -/
theorem comprises_iff {parts : List Bytes} : Comprises code parts ↔
    (decodeAll code).2 = none ∧ parts = (decodeAll code).1.map (·.instr.encode) := by
  constructor
  · rintro ⟨hencodings, hall⟩
    obtain ⟨is, rfl⟩ := exists_instrs hencodings
    rw [← List.flatMap_def] at hall
    obtain ⟨ls, rfl, hyields⟩ := yields_of_encode hsize is 0 hall.symm
    rw [hyields.decodeAll_eq hsize, List.map_map]
    exact ⟨rfl, rfl⟩
  · rintro ⟨hwhole, rfl⟩
    refine ⟨List.forall_mem_map.mpr fun l _ => isEncoding_encode l.instr, ?_⟩
    rw [← List.flatMap_def]
    exact encoding_decodeAll hsize hwhole

theorem Comprises.starts_iff {parts : List Bytes} (h : Comprises code parts) {ip : UInt32} :
    Starts code ip ↔ Begins parts ip := by
  obtain ⟨-, rfl⟩ := (comprises_iff hsize).mp h
  have hyields := yields_decodeAll hsize
  have htake (k : Nat) : (((decodeAll code).1.map (·.instr.encode)).take k).flatten =
      encoding ((decodeAll code).1.take k) := by
    rw [← List.map_take, ← List.flatMap_def]
    rfl
  have hip {k : Nat} {l : Located} (hl : (decodeAll code).1[k]? = some l) :
      l.ip.toNat = (encoding ((decodeAll code).1.take k)).length := by
    rw [(hyields.ip_eq hsize hl).1, UInt32.toNat_zero, Nat.zero_add]
  constructor
  · intro hstarts
    obtain ⟨l, hl, rfl⟩ := List.mem_map.mp hstarts
    obtain ⟨k, hk⟩ := List.mem_iff_getElem?.mp hl
    refine ⟨k, ?_, by rw [htake, hip hk]⟩
    rw [List.length_map]
    exact (List.getElem?_eq_some_iff.mp hk).1
  · rintro ⟨k, hk, hstop⟩
    rw [List.length_map] at hk
    have hl := List.getElem?_eq_getElem hk
    rw [htake, ← hip hl] at hstop
    exact List.mem_map.mpr ⟨_, List.mem_of_getElem? hl, UInt32.toNat_inj.mp hstop.symm⟩

/-- The decoder reports what the code breaks off with. -/
theorem breaksOff_iff {cause : CodecError} :
    BreaksOff code cause ↔ (decodeAll code).2 = some cause := by
  constructor
  · rintro ⟨parts, stop, hencodings, hstands, hstop, hcause⟩
    obtain ⟨is, rfl⟩ := exists_instrs hencodings
    rw [← List.flatMap_def] at hstands hstop
    obtain ⟨hlt, herror⟩ := hcause.decodeAt
    obtain ⟨ls, -, hyields⟩ := yields_through hsize (.fail hlt herror) is 0 hstands
      (by rw [hstop, UInt32.toNat_zero, Nat.zero_add])
    rw [hyields.decodeAll_eq hsize]
  · intro h
    have hyields := yields_decodeAll hsize
    rw [h] at hyields
    obtain ⟨stop, hstop, hcause⟩ := hyields.stops hsize (Nat.zero_le _)
    refine ⟨(decodeAll code).1.map (·.instr.encode), stop,
      List.forall_mem_map.mpr fun l _ => isEncoding_encode l.instr, ?_, ?_, hcause⟩
    · rw [← List.flatMap_def]
      exact hyields.encoding_stands hsize
    · rw [← List.flatMap_def, hstop, UInt32.toNat_zero, Nat.zero_add]
      rfl

/-- Instructions start at ascending addresses. -/
theorem Yields.ascending {ip : UInt32} {ls : List Located} {e? : Option CodecError}
    (h : Yields code ip ls e?) : (ls.map (·.ip)).Pairwise (· < ·) ∧ ∀ l ∈ ls, ip ≤ l.ip := by
  induction h with
  | stop _ | fail _ _ => exact ⟨.nil, fun l hl => by cases hl⟩
  | @next ip l ls e? _ hl _ ih =>
    obtain ⟨hascending, hle⟩ := ih
    obtain ⟨hnext, -⟩ := next_of_decodeAt hsize hl
    have hip := (decodeAt_ok_iff.mp hl).1
    have hpos := l.instr.length_pos
    have hlater : ∀ l' ∈ ls, ip < l'.ip := fun l' hl' => by
      have := hle l' hl'
      rw [UInt32.le_iff_toNat_le] at this
      rw [UInt32.lt_iff_toNat_lt]
      omega
    rw [List.map_cons, List.pairwise_cons, hip]
    refine ⟨⟨List.forall_mem_map.mpr hlater, hascending⟩, List.forall_mem_cons.mpr ⟨?_, ?_⟩⟩
    · exact hip ▸ UInt32.le_refl _
    · exact fun l' hl' => UInt32.le_of_lt (hlater l' hl')

/-- Bisection finds the addresses at which instructions start. -/
theorem bisects_iff_starts {ip : UInt32} :
    bisects ((decodeAll code).1.map (·.ip)).toArray ip = true ↔ Starts code ip := by
  rw [bisects_iff ((yields_decodeAll hsize).ascending hsize).1, List.mem_toArray, Starts]

end

/-! ## Requirements -/

/-- Something that is asked of a program, and what is said if it is not met. -/
structure Requirement where
  met : Prop
  reports : ProgramError → Prop

namespace Requirement

/-- There is at most one thing to say. -/
def Certain (q : Requirement) : Prop := ∀ e e', q.reports e → q.reports e' → e = e'

/-- The first of the requirements that is not met. -/
inductive FirstUnmet : List Requirement → Requirement → Prop where
  | here {q : Requirement} {qs : List Requirement} (h : ¬ q.met) : FirstUnmet (q :: qs) q
  | later {q q' : Requirement} {qs : List Requirement} (h : q.met) (hrest : FirstUnmet qs q') :
      FirstUnmet (q :: qs) q'

namespace FirstUnmet

variable {q q' : Requirement} {qs qs' : List Requirement}

theorem unique (h : FirstUnmet qs q) (h' : FirstUnmet qs q') : q = q' := by
  induction h with
  | here hunmet =>
    cases h' with
    | here _ => rfl
    | later hmet _ => exact absurd hmet hunmet
  | later hmet _ ih =>
    cases h' with
    | here hunmet => exact absurd hmet hunmet
    | later _ hrest => exact ih hrest

theorem mem_and_not_met (h : FirstUnmet qs q) : q ∈ qs ∧ ¬ q.met := by
  induction h with
  | here hunmet => exact ⟨List.mem_cons_self, hunmet⟩
  | later _ _ ih => exact ⟨.tail _ ih.1, ih.2⟩

theorem append (h : FirstUnmet qs q) (qs' : List Requirement) : FirstUnmet (qs ++ qs') q := by
  induction h with
  | here hunmet => exact .here hunmet
  | later hmet _ ih => exact .later hmet ih

theorem after (hmet : ∀ q ∈ qs, q.met) (h : FirstUnmet qs' q) : FirstUnmet (qs ++ qs') q := by
  induction qs with
  | nil => exact h
  | cons first qs ih =>
    obtain ⟨hfirst, hrest⟩ := List.forall_mem_cons.mp hmet
    exact .later hfirst (ih hrest)

end FirstUnmet

/-- The result of going through requirements up to the first that is not met. -/
def Checks (qs : List Requirement) : Except ProgramError Unit → Prop
  | .ok () => ∀ q ∈ qs, q.met
  | .error e => ∃ q, FirstUnmet qs q ∧ q.reports e

variable {qs qs' : List Requirement} {r r' : Except ProgramError Unit}

/-- One list is gone through after the other. -/
theorem Checks.seq (h : Checks qs r) (hfail : ∀ e, r = .error e → r' = .error e)
    (hmore : r = .ok () → Checks qs' r') : Checks (qs ++ qs') r' := by
  cases r with
  | error e =>
    obtain ⟨q, hq, he⟩ := h
    rw [hfail e rfl]
    exact ⟨q, hq.append qs', he⟩
  | ok u =>
    have hrest := hmore rfl
    cases r' with
    | error e =>
      obtain ⟨q, hq, he⟩ := hrest
      exact ⟨q, .after h hq, he⟩
    | ok u => exact List.forall_mem_append.mpr ⟨h, hrest⟩

theorem Checks.ok {q : Requirement} (h : q.met) : Checks [q] (.ok ()) :=
  List.forall_mem_singleton.mpr h

theorem Checks.error {q : Requirement} {e : ProgramError} (h : ¬ q.met) (he : q.reports e) :
    Checks [q] (.error e) := ⟨q, .here h, he⟩

/-- Where there is one thing to say of each requirement, the result is determined by them. -/
theorem Checks.result (h : Checks qs r) (hcertain : ∀ q ∈ qs, q.Certain) :
    (r = .ok () ↔ ∀ q ∈ qs, q.met) ∧
      ∀ e, r = .error e ↔ ∃ q, FirstUnmet qs q ∧ q.reports e := by
  cases r with
  | ok u =>
    refine ⟨⟨fun _ => h, fun _ => rfl⟩, fun e => ⟨nofun, fun ⟨q, hq, _⟩ => ?_⟩⟩
    obtain ⟨hmem, hunmet⟩ := hq.mem_and_not_met
    exact absurd (h q hmem) hunmet
  | error e =>
    obtain ⟨q, hq, he⟩ := h
    obtain ⟨hmem, hunmet⟩ := hq.mem_and_not_met
    refine ⟨⟨nofun, fun hall => absurd (hall q hmem) hunmet⟩, fun e' => ⟨?_, ?_⟩⟩
    · rintro ⟨⟩
      exact ⟨q, hq, he⟩
    · rintro ⟨q', hq', he'⟩
      obtain rfl := hq.unique hq'
      rw [hcertain q hmem e e' he he']

end Requirement

/-! ## Programs -/

/-- What is asked of a type table: its ids are in the table, its aggregates have fields, and none
contains itself. -/
def TypeTable.Sound (t : TypeTable) : Prop :=
  (∀ d ∈ t.defs, t.Defines d) ∧ ∀ id, ¬ Relation.TransGen t.Contains id id

theorem TypeTable.sound_iff {t : TypeTable} : t.Sound ↔ t.validate = .ok () := by
  refine ⟨fun ⟨hdefines, hacyclic⟩ => validate_ok_iff.mpr ⟨hdefines, ?_⟩, fun h =>
    ⟨(validate_ok_iff.mp h).1, acyclic_of_wellFounded (wellFounded_of_valid h)⟩⟩
  cases horder : t.finishOrder with
  | ok order => exact ⟨order, rfl⟩
  | error e =>
    obtain ⟨id, -, -, hcircle, -⟩ := finishOrder_error horder
    exact absurd hcircle (hacyclic id)

/-- An instruction starts at the address, if the code is taken as complete encodings. -/
def StartsAt (code : Array UInt8) (ip : UInt32) : Prop :=
  ∃ parts, Comprises code parts ∧ Begins parts ip

namespace Program

open Requirement

variable (p : Program)

/-- A type id of the program is in its table. -/
def hasType (id : TypeId) : Requirement :=
  ⟨id.position < p.types.size, (· = .types (.unknownType id))⟩

def hasRoutine (id : RoutineId) : Requirement :=
  ⟨id.position < p.routines.size, (· = .unknownRoutine id)⟩

def ofTypes : Requirement :=
  ⟨p.types.Sound, fun e => ∃ cause, p.types.validate = .error cause ∧ e = .types cause⟩

def ofCode : Requirement :=
  ⟨∃ parts, Comprises p.code parts, fun e => ∃ cause, BreaksOff p.code cause ∧ e = .code cause⟩

def ofRoutine (r : Routine) : List Requirement :=
  [⟨StartsAt p.code r.entry, (· = .misalignedEntry r.name r.entry)⟩] ++
    ([⟨r.params.toNat ≤ r.locals.length, (· = .paramsExceedLocals r.name)⟩] ++
      (r.locals ++ r.ret.toList).map p.hasType)

def ofConstant (c : Constant) : List Requirement := [p.hasType c.ty] ++ [p.hasRoutine c.initializer]

/-- All that is asked of a program, in the order in which it is looked at. -/
def requirements : List Requirement :=
  [p.ofTypes] ++ ([p.ofCode] ++ (p.routines.toList.flatMap p.ofRoutine ++
    (p.constants.flatMap p.ofConstant ++ p.entry.toList.map p.hasRoutine)))

/-- A program that is structurally sound. -/
structure Sound : Prop where
  types : p.types.Sound
  code : ∃ parts, Comprises p.code parts ∧ ∀ r ∈ p.routines, Begins parts r.entry
  params : ∀ r ∈ p.routines, r.params.toNat ≤ r.locals.length
  locals : ∀ r ∈ p.routines, ∀ ty ∈ r.locals, ty.position < p.types.size
  results : ∀ r ∈ p.routines, ∀ ty, r.ret = some ty → ty.position < p.types.size
  constants : ∀ c ∈ p.constants,
    c.ty.position < p.types.size ∧ c.initializer.position < p.routines.size
  entry : ∀ id, p.entry = some id → id.position < p.routines.size

variable {p}

theorem checks_requireTypes (ids : List TypeId) :
    Checks (ids.map p.hasType) (p.requireTypes ids) := by
  induction ids with
  | nil => exact fun _ h => by cases h
  | cons id ids ih =>
    rw [List.map_cons, ← List.singleton_append]
    cases hget : p.types.get? id with
    | none =>
      have hfirst : p.requireTypes (id :: ids) = .error (.types (.unknownType id)) := by
        simp [requireTypes, TypeTable.requireAll, TypeTable.get, hget]
      rw [hfirst]
      refine ⟨_, .here ?_, rfl⟩
      simpa [hasType, TypeTable.get?, TypeTable.size] using hget
    | some d =>
      have hrest : p.requireTypes (id :: ids) = p.requireTypes ids := by
        simp [requireTypes, TypeTable.requireAll, TypeTable.get, hget]
      rw [hrest]
      exact (Checks.ok (TypeTable.lt_of_get? hget)).seq (fun _ h => by cases h) fun _ => ih

theorem checks_requireRoutine (id : RoutineId) :
    Checks [p.hasRoutine id] (p.requireRoutine id) := by
  unfold requireRoutine routine?
  cases h : p.routines[id.position]? with
  | none => exact .error (by simpa [hasRoutine] using h) rfl
  | some r => exact .ok (Array.getElem?_eq_some_iff.mp h).1

theorem checks_checkRoutine {boundaries : List UInt32}
    (hboundaries : ∀ ip, ip ∈ boundaries ↔ StartsAt p.code ip) (r : Routine) :
    Checks (p.ofRoutine r) (p.checkRoutine boundaries r) := by
  have hentry : (!boundaries.contains r.entry) = true ↔ ¬ StartsAt p.code r.entry := by
    simp [← hboundaries]
  unfold checkRoutine ofRoutine
  split
  · next hmissing => exact ⟨_, .here (hentry.mp hmissing), rfl⟩
  · next hstarts =>
    have hmet : StartsAt p.code r.entry := not_not.mp (mt hentry.mpr hstarts)
    refine (Checks.ok hmet).seq nofun fun _ => ?_
    split
    · next hexceed => exact ⟨_, .here (Nat.not_le_of_lt hexceed), rfl⟩
    · next hparams =>
      exact (Checks.ok (Nat.le_of_not_lt hparams)).seq nofun fun _ => checks_requireTypes _

theorem checks_checkRoutines {boundaries : List UInt32}
    (hboundaries : ∀ ip, ip ∈ boundaries ↔ StartsAt p.code ip) (rs : List Routine) :
    Checks (rs.flatMap p.ofRoutine) (p.checkRoutines boundaries rs) := by
  induction rs with
  | nil => exact fun _ h => by cases h
  | cons r rs ih =>
    rw [List.flatMap_cons, checkRoutines]
    exact (checks_checkRoutine hboundaries r).seq (fun e he => by rw [he])
      fun hok => by rw [hok]; exact ih

theorem checks_checkConstants (cs : List Constant) :
    Checks (cs.flatMap p.ofConstant) (p.checkConstants cs) := by
  induction cs with
  | nil => exact fun _ h => by cases h
  | cons c cs ih =>
    rw [List.flatMap_cons, checkConstants, ofConstant, List.append_assoc]
    refine (checks_requireTypes [c.ty]).seq (fun e he => by rw [he]) fun hok => ?_
    rw [hok]
    exact (checks_requireRoutine c.initializer).seq (fun e he => by simp only [he])
      fun hok => by simp only [hok]; exact ih

theorem checks_checkEntry : Checks (p.entry.toList.map p.hasRoutine) p.checkEntry := by
  unfold checkEntry
  cases p.entry with
  | none => exact fun _ h => by cases h
  | some id => exact checks_requireRoutine id

section

variable (hsize : p.code.size < 2 ^ 32)
include hsize

theorem starts_iff_startsAt (hwhole : (decodeAll p.code).2 = none) (ip : UInt32) :
    Starts p.code ip ↔ StartsAt p.code ip := by
  have hparts := (comprises_iff hsize).mpr ⟨hwhole, rfl⟩
  refine ⟨fun h => ⟨_, hparts, (hparts.starts_iff hsize).mp h⟩, ?_⟩
  rintro ⟨parts, hparts', hbegins⟩
  exact (hparts'.starts_iff hsize).mpr hbegins

/-- Validation goes through the requirements. -/
theorem checks_validate : Checks p.requirements p.validate := by
  unfold validate requirements
  cases htypes : p.types.validate with
  | error cause =>
    refine ⟨_, .here fun h => ?_, cause, htypes, rfl⟩
    cases htypes.symm.trans (TypeTable.sound_iff.mp h)
  | ok u =>
    refine (Checks.ok (TypeTable.sound_iff.mpr htypes)).seq nofun fun _ => ?_
    rcases hdecode : decodeAll p.code with ⟨instrs, _ | cause⟩
    · have hwhole : (decodeAll p.code).2 = none := congrArg Prod.snd hdecode
      have hboundaries : ∀ ip, ip ∈ instrs.map (·.ip) ↔ StartsAt p.code ip := fun ip => by
        rw [← starts_iff_startsAt hsize hwhole, Starts, hdecode]
      have hcode : p.ofCode.met := ⟨_, (comprises_iff hsize).mpr ⟨hwhole, rfl⟩⟩
      refine (Checks.ok hcode).seq nofun fun _ => ?_
      refine (checks_checkRoutines hboundaries _).seq (fun e he => by simp only [he]) fun hok => ?_
      simp only [hok]
      refine (checks_checkConstants _).seq (fun e he => by simp only [he]) fun hok => ?_
      simp only [hok]
      exact checks_checkEntry
    · have hcause : (decodeAll p.code).2 = some cause := congrArg Prod.snd hdecode
      refine ⟨_, .here ?_, cause, (breaksOff_iff hsize).mpr hcause, rfl⟩
      rintro ⟨parts, hparts⟩
      cases hcause.symm.trans ((comprises_iff hsize).mp hparts).1

theorem certain_requirements : ∀ q ∈ p.requirements, q.Certain := by
  have hone (met : Prop) (e : ProgramError) : Certain ⟨met, (· = e)⟩ := fun _ _ h h' =>
    h.trans h'.symm
  have htypes : Certain p.ofTypes := by
    rintro _ _ ⟨cause, hcause, rfl⟩ ⟨cause', hcause', rfl⟩
    cases hcause.symm.trans hcause'
    rfl
  have hcode : Certain p.ofCode := by
    rintro _ _ ⟨cause, hcause, rfl⟩ ⟨cause', hcause', rfl⟩
    rw [breaksOff_iff hsize] at hcause hcause'
    cases hcause.symm.trans hcause'
    rfl
  simp only [requirements, List.forall_mem_append, List.forall_mem_singleton,
    List.forall_mem_flatMap, List.forall_mem_map, ofRoutine, ofConstant]
  exact ⟨htypes, hcode, fun r _ => ⟨hone _ _, hone _ _, fun _ _ => hone _ _, fun _ _ => hone _ _⟩,
    fun c _ => ⟨hone _ _, hone _ _⟩, fun _ _ => hone _ _⟩

/-- The requirements are met by the sound programs. Their parts are those that are decoded, so an
address at which an instruction starts is one at which it does so in any of them. -/
theorem sound_iff_requirements : p.Sound ↔ ∀ q ∈ p.requirements, q.met := by
  have hroutine (r : Routine) : (∀ q ∈ p.ofRoutine r, q.met) ↔ StartsAt p.code r.entry ∧
      r.params.toNat ≤ r.locals.length ∧ (∀ ty ∈ r.locals, ty.position < p.types.size) ∧
        ∀ ty, r.ret = some ty → ty.position < p.types.size := by
    simp only [ofRoutine, List.forall_mem_append, List.forall_mem_singleton, List.forall_mem_map,
      hasType, Option.mem_toList]
  have hconstant (c : Constant) : (∀ q ∈ p.ofConstant c, q.met) ↔
      c.ty.position < p.types.size ∧ c.initializer.position < p.routines.size := by
    simp only [ofConstant, List.forall_mem_append, List.forall_mem_singleton, hasType, hasRoutine]
  simp only [requirements, List.forall_mem_append, List.forall_mem_singleton,
    List.forall_mem_flatMap, List.forall_mem_map, hroutine, hconstant, Array.mem_toList_iff,
    Option.mem_toList]
  constructor
  · rintro ⟨htypes, ⟨parts, hparts, hentries⟩, hparams, hlocals, hresults, hconstants, hentry⟩
    exact ⟨htypes, ⟨parts, hparts⟩, fun r hr => ⟨⟨parts, hparts, hentries r hr⟩, hparams r hr,
      hlocals r hr, hresults r hr⟩, hconstants, hentry⟩
  · rintro ⟨htypes, ⟨parts, hparts⟩, hroutines, hconstants, hentry⟩
    refine ⟨htypes, ⟨parts, hparts, fun r hr => ?_⟩, fun r hr => (hroutines r hr).2.1,
      fun r hr => (hroutines r hr).2.2.1, fun r hr => (hroutines r hr).2.2.2, hconstants, hentry⟩
    obtain ⟨parts', hparts', hbegins⟩ := (hroutines r hr).1
    obtain ⟨-, rfl⟩ := (comprises_iff hsize).mp hparts
    obtain ⟨-, rfl⟩ := (comprises_iff hsize).mp hparts'
    exact hbegins

end

/-- Validation accepts a program just if it is sound. Otherwise it reports the first requirement
that is not met, and nothing else. The addresses of instructions, among which it looks for the
entries of routines, can be searched by bisection. -/
theorem validate_iff_sound (p : Program) (hsize : p.code.size < 2 ^ 32) :
    (p.validate = .ok () ↔ p.Sound) ∧
      (∀ e, p.validate = .error e ↔ ∃ q, FirstUnmet p.requirements q ∧ q.reports e) ∧
      ∀ ip, bisects ((decodeAll p.code).1.map (·.ip)).toArray ip =
        ((decodeAll p.code).1.map (·.ip)).contains ip := by
  obtain ⟨hok, herror⟩ := (checks_validate hsize).result (certain_requirements hsize)
  refine ⟨hok.trans (sound_iff_requirements hsize).symm, herror, fun ip => ?_⟩
  rw [Bool.eq_iff_iff, bisects_iff_starts hsize, List.contains_iff_mem, Starts]

/-- A routine that starts inside of an instruction, and that has more parameters than locals. Its
result has a type that is not there. -/
def inside : Program where
  code := #[4, 1, 22]
  sources := .empty
  types := default
  routines := #[⟨"main", 1, 1, [], some ⟨7⟩⟩]
  constants := [⟨"one", ⟨7⟩, ⟨7⟩, 0⟩]
  natives := #[]
  entry := some ⟨7⟩

/-- Of all that is wrong with the program, the address of its routine is reported. -/
theorem validate_inside : inside.code.size < 2 ^ 32 ∧ ¬ inside.Sound ∧
    ∃ q, FirstUnmet inside.requirements q ∧ q.reports (.misalignedEntry "main" 1) := by
  have hsize : inside.code.size < 2 ^ 32 := by decide
  have hreport : inside.validate = .error (.misalignedEntry "main" 1) := by decide
  obtain ⟨hok, herror, -⟩ := inside.validate_iff_sound hsize
  refine ⟨hsize, fun hsound => ?_, (herror _).mp hreport⟩
  cases hreport.symm.trans (hok.mpr hsound)

end Program
end ForeignVM
