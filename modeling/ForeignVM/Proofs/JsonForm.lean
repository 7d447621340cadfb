import ForeignVM.Program.File
import ForeignVM.Proofs.JsonText
import ForeignVM.Proofs.Readback

/-!
# ForeignVM.Proofs.JsonForm

A program comes back from its JSON form, and a file is read as what it holds.

* `Json.TakesBack` — a form has a written text, and its reader gives back what was written.
* `TakesBack.list`, `option`, `routine`, … — the forms of the format.
* `Program.ofText_toText`   — a program comes back from its text.
* `Program.loads_both_forms` — files of both forms are told apart and loaded.
-/

namespace ForeignVM
namespace Json

theorem foldlM_digits {cs : List Char} (h : ∀ c ∈ cs, c.isDigit = true) :
    cs.foldlM NumberPhase.next? .whole = some .whole := by
  induction cs with
  | nil => rfl
  | cons c cs ih =>
    have hnext : NumberPhase.next? .whole c = some .whole := if_pos (h c List.mem_cons_self)
    rw [List.foldlM_cons, hnext]
    exact ih fun d hd => h d (.tail _ hd)

theorem written_num (n : Nat) : (num n).Written := by
  have hdigits : ∀ c ∈ Nat.toDigits 10 n, c.isDigit = true :=
    fun c => Nat.isDigit_of_mem_toDigits (by decide) (by decide)
  have hleading (cs : List Char) : Nat.toDigits 10 n = '0' :: cs → cs = [] :=
    Numeral.toDigits_leading
  refine .number ?_
  cases h : Nat.toDigits 10 n with
  | nil => exact absurd h Nat.toDigits_ne_nil
  | cons c cs =>
    rw [h] at hdigits hleading
    by_cases hzero : c = '0'
    · subst hzero
      rw [hleading cs rfl]
      exact ⟨.zero, .zero, rfl, rfl, rfl⟩
    · have hminus : c ≠ '-' := by
        rintro rfl
        exact absurd (hdigits '-' List.mem_cons_self) (by decide)
      have hfirst : Lexer.firstPhase? c = some .whole := by
        rw [Lexer.firstPhase?, if_neg hminus, if_neg hzero, if_pos (hdigits c List.mem_cons_self)]
      exact ⟨.whole, .whole, hfirst, foldlM_digits fun d hd => hdigits d (.tail _ hd), rfl⟩

theorem written_str (s : String) : (str s).Written := .string (Text.written_quote s)

theorem written_record {members : List (String × Json)} (h : ∀ m ∈ members, m.2.Written) :
    (record members).Written := by
  refine .object (fun m hm => ?_) (fun m hm => ?_)
  · obtain ⟨m, -, rfl⟩ := List.mem_map.mp hm
    exact Text.written_quote m.1
  · obtain ⟨m, hmem, rfl⟩ := List.mem_map.mp hm
    exact h m hmem

theorem mapM_map {α β γ : Type} {write : α → β} {read : β → Option γ} {f : α → γ}
    {as : List α} (h : ∀ a ∈ as, read (write a) = some (f a)) :
    (as.map write).mapM read = some (as.map f) := by
  induction as with
  | nil => rfl
  | cons a as ih =>
    rw [List.map_cons, List.mapM_cons, h a List.mem_cons_self, ih fun b hb => h b (.tail _ hb)]
    rfl

theorem filter_key {α : Type} {members : List (String × α)} {m : String × α}
    (h : (members.map Prod.fst).Nodup) (hm : m ∈ members) :
    members.filter (·.1 == m.1) = [m] := by
  induction members with
  | nil => cases hm
  | cons e rest ih =>
    rw [List.map_cons, List.nodup_cons] at h
    cases hm with
    | head =>
      have hrest : rest.filter (·.1 == m.1) = [] :=
        List.filter_eq_nil_iff.mpr fun x hx hkey =>
          h.1 (eq_of_beq hkey ▸ List.mem_map_of_mem hx)
      rw [List.filter_cons, if_pos (beq_self_eq_true m.1), hrest]
    | tail _ hm =>
      have hne : ¬(e.1 == m.1) = true := fun hkey =>
        h.1 (eq_of_beq hkey ▸ List.mem_map_of_mem hm)
      rw [List.filter_cons, if_neg hne, ih h.2 hm]

/-- The fields of a record come back in their order. -/
theorem fields?_record {members : List (String × Json)} (h : (members.map Prod.fst).Nodup) :
    (record members).fields? (members.map Prod.fst) = some (members.map fun m => some m.2) := by
  have hnamed : (members.map fun m => (Text.quote m.1, m.2)).mapM
      (fun m => m.1.decode.map fun name => (name, m.2)) = some (members.map id) :=
    mapM_map fun m _ => by rw [Text.decode_quote]; rfl
  rw [List.map_id] at hnamed
  rw [record, fields?, hnamed]
  refine mapM_map fun m hm => ?_
  rw [filter_key h hm]

/-- A form has a written text, and its reader gives back what was written. -/
structure TakesBack {α : Type} (write : α → Json) (read : Json → Option α) : Prop where
  written : ∀ a, (write a).Written
  reads : ∀ a, read (write a) = some a

namespace TakesBack

variable {α β : Type} {write : α → Json} {read : Json → Option α}

theorem str : TakesBack Json.str string? where
  written := written_str
  reads := Text.decode_quote

theorem bool : TakesBack Json.bool bool? where
  written := .bool
  reads _ := rfl

theorem nat?_num {limit n : Nat} (h : n < limit) : (num n).nat? limit = some n := by
  exact (congrArg (Option.filter (· < limit)) (Numeral.read?_toDigits n)).trans
    (Option.filter_some_pos (decide_eq_true h))

theorem u8 : TakesBack (fun v : UInt8 => num v.toNat) u8? where
  written v := written_num v.toNat
  reads v := by rw [u8?, nat?_num v.toNat_lt, Option.map_some, UInt8.ofNat_toNat]

theorem u16 : TakesBack (fun v : UInt16 => num v.toNat) u16? where
  written v := written_num v.toNat
  reads v := by rw [u16?, nat?_num v.toNat_lt, Option.map_some, UInt16.ofNat_toNat]

theorem u32 : TakesBack (fun v : UInt32 => num v.toNat) u32? where
  written v := written_num v.toNat
  reads v := by rw [u32?, nat?_num v.toNat_lt, Option.map_some, UInt32.ofNat_toNat]

theorem map {f : α → β} {g : β → α} (h : TakesBack write read) (hfg : ∀ b, f (g b) = b) :
    TakesBack (fun b => write (g b)) (fun j => (read j).map f) where
  written b := h.written (g b)
  reads b := by rw [h.reads, Option.map_some, hfg]

theorem typeId : TakesBack Json.typeId typeId? := u16.map fun _ => rfl

theorem routineId : TakesBack Json.routineId routineId? := u16.map fun _ => rfl

theorem list (h : TakesBack write read) :
    TakesBack (fun as => .array (as.map write)) (list? read) where
  written as := .array fun item hitem => by
    obtain ⟨a, -, rfl⟩ := List.mem_map.mp hitem
    exact h.written a
  reads as := (mapM_map fun a _ => h.reads a).trans (congrArg some (List.map_id as))

/-- An optional value, if nothing that is there is written as null. -/
theorem option (h : TakesBack write read) (hnull : ∀ a, write a ≠ .null) :
    TakesBack (Json.option write) (fun j => optional? read (some j)) where
  written o := by
    cases o with
    | none => exact .null
    | some a => exact h.written a
  reads o := by
    cases o with
    | none => rfl
    | some a =>
      have hread : optional? read (some (write a)) = (read (write a)).map some := by
        unfold optional?
        split
        · next heq => cases heq
        · next heq => exact absurd (Option.some.inj heq) (hnull a)
        · next heq => cases heq; rfl
      exact hread.trans (by rw [h.reads]; rfl)

/-- An id is not null. -/
theorem optionalTypeId :
    TakesBack (Json.option Json.typeId) (fun j => optional? typeId? (some j)) :=
  typeId.option nofun

theorem optionalRoutineId :
    TakesBack (Json.option Json.routineId) (fun j => optional? routineId? (some j)) :=
  routineId.option nofun

theorem fieldMap : TakesBack Json.fieldMap fieldMap? where
  written m := written_record fun e he => by
    obtain ⟨e, -, rfl⟩ := List.mem_map.mp he
    exact typeId.written e.2
  reads m := by
    have hentries : (m.entries.map fun e => (Text.quote e.1, Json.typeId e.2)).mapM fieldEntry? =
        some (m.entries.map id) :=
      mapM_map fun e _ => by simp [Text.decode_quote, typeId.reads, fieldEntry?]
    rw [Json.fieldMap, record, fieldMap?, List.map_map]
    refine (congrArg (Option.map OrderedMap.ofList) hentries).trans ?_
    rw [List.map_id, Option.map_some, OrderedMap.ofList_entries]

theorem kindNamed?_kindName (kind : ScalarKind) : kindNamed? (kindName kind) = some kind := by
  cases kind <;> rfl

theorem aggregate (make : String → OrderedMap TypeId → TypeDef) (name : String)
    (fields : OrderedMap TypeId) :
    aggregate? make (Json.aggregate name fields) = some (make name fields) := by
  have hfields : (Json.aggregate name fields).fields? ["name", "fields"] =
      some [some (.str name), some (Json.fieldMap fields)] := fields?_record (by simp)
  simp [aggregate?, hfields, str.reads, fieldMap.reads]

theorem written_aggregate (name : String) (fields : OrderedMap TypeId) :
    (Json.aggregate name fields).Written :=
  written_record (by simp [written_str, fieldMap.written])

theorem variant?_record (name : String) (contents : Json) :
    (record [(name, contents)]).variant? = some (name, contents) := by
  simp [record, variant?, Text.decode_quote]

theorem typeDef : TakesBack Json.typeDef typeDef? where
  written d := by
    cases d with
    | scalar kind => exact written_record (by simp [written_str])
    | struct name fields => exact written_record (by simp [written_aggregate])
    | union name fields => exact written_record (by simp [written_aggregate])
    | pointer pointee =>
      have hcontents : (record [("pointee", Json.typeId pointee)]).Written :=
        written_record (by simp [typeId.written])
      exact written_record (by simpa using hcontents)
    | proc params ret closure =>
      have hcontents : (record [("params", .array (params.map Json.typeId)),
          ("ret", .option Json.typeId ret), ("closure", .bool closure)]).Written :=
        written_record (by simp [typeId.list.written, optionalTypeId.written, bool.written])
      exact written_record (by simpa using hcontents)
  reads d := by
    unfold typeDef?
    cases d with
    | scalar kind =>
      simp [Json.typeDef, variant?_record, scalarKind?, Json.str, Text.decode_quote,
        kindNamed?_kindName]
    | struct name fields => simp [Json.typeDef, variant?_record, aggregate]
    | union name fields => simp [Json.typeDef, variant?_record, aggregate]
    | pointer pointee =>
      have hfields : (record [("pointee", Json.typeId pointee)]).fields? ["pointee"] =
          some [some (Json.typeId pointee)] := fields?_record (by simp)
      simp [Json.typeDef, variant?_record, hfields, typeId.reads]
    | proc params ret closure =>
      have hfields : (record [("params", .array (params.map Json.typeId)),
          ("ret", .option Json.typeId ret), ("closure", .bool closure)]).fields?
            ["params", "ret", "closure"] =
          some [some (.array (params.map Json.typeId)), some (.option Json.typeId ret),
            some (.bool closure)] := fields?_record (by simp)
      simp [Json.typeDef, variant?_record, hfields, typeId.list.reads, optionalTypeId.reads,
        bool.reads]

theorem node : TakesBack Json.node node? where
  written n := written_record (by simp [written_str, written_num])
  reads n := by
    have hfields : (Json.node n).fields? ["text", "line", "column"] =
        some [some (.str n.text), some (.num n.line.toNat), some (.num n.column.toNat)] :=
      fields?_record (by simp)
    simp [node?, hfields, str.reads, u32.reads]

/-- An address as the name of a member. -/
theorem u32Name?_quote (v : UInt32) : u32Name? (.quote (toString v.toNat)) = some v := by
  have hdigits : ∀ c ∈ Nat.toDigits 10 v.toNat, c.isDigit = true :=
    fun c => Nat.isDigit_of_mem_toDigits (by decide) (by decide)
  have hread : (Numeral.read? (Nat.toDigits 10 v.toNat)).filter (· < 2 ^ 32) = some v.toNat :=
    nat?_num v.toNat_lt
  rw [u32Name?, Nat.toString_eq_ofList_toDigits, Text.plain?_quote hdigits]
  split
  · next hleading => exact absurd (Numeral.toDigits_leading (Option.some.inj hleading)) nofun
  · next hplain =>
    cases hplain
    rw [hread, Option.map_some, UInt32.ofNat_toNat]
  · next hnone => cases hnone

theorem sourceMap : TakesBack Json.sourceMap sourceMap? where
  written m := by
    have hentries : (record (m.entries.map fun e => (toString e.1.toNat, Json.node e.2))).Written :=
      written_record fun e he => by
        obtain ⟨e, -, rfl⟩ := List.mem_map.mp he
        exact node.written e.2
    exact written_record (by simpa using hentries)
  reads m := by
    have hfields : (Json.sourceMap m).fields? ["entries"] =
        some [some (record (m.entries.map fun e => (toString e.1.toNat, Json.node e.2)))] :=
      fields?_record (by simp)
    have hentries : (m.entries.map fun e =>
        (Text.quote (toString e.1.toNat), Json.node e.2)).mapM sourceEntry? =
          some (m.entries.map id) :=
      mapM_map fun e _ => by
        unfold sourceEntry?
        rw [u32Name?_quote, node.reads]
        rfl
    rw [sourceMap?, hfields]
    change (List.mapM sourceEntry? (List.map _ (List.map _ m.entries))).map SourceMap.ofList = _
    rw [List.map_map]
    refine (congrArg (Option.map SourceMap.ofList) hentries).trans ?_
    rw [List.map_id, Option.map_some, SourceMap.ofList_entries]

theorem typeTable : TakesBack Json.typeTable typeTable? where
  written t := written_record (by simp [typeDef.list.written])
  reads t := by
    have hfields : (Json.typeTable t).fields? ["defs"] =
        some [some (.array (t.defs.toList.map Json.typeDef))] := fields?_record (by simp)
    simp [typeTable?, hfields, typeDef.list.reads]

theorem routine : TakesBack Json.routine routine? where
  written r := written_record
    (by simp [written_str, written_num, typeId.list.written, optionalTypeId.written])
  reads r := by
    have hfields : (Json.routine r).fields? ["name", "entry", "params", "locals", "ret"] =
        some [some (.str r.name), some (.num r.entry.toNat), some (.num r.params.toNat),
          some (.array (r.locals.map Json.typeId)), some (.option Json.typeId r.ret)] :=
      fields?_record (by simp)
    simp [routine?, hfields, str.reads, u32.reads, u16.reads, typeId.list.reads,
      optionalTypeId.reads]

theorem constant : TakesBack Json.constant constant? where
  written c := written_record
    (by simp [written_str, written_num, typeId.written, routineId.written])
  reads c := by
    have hfields : (Json.constant c).fields? ["name", "ty", "initializer", "offset"] =
        some [some (.str c.name), some (Json.typeId c.ty), some (Json.routineId c.initializer),
          some (.num c.offset.toNat)] := fields?_record (by simp)
    simp [constant?, hfields, str.reads, typeId.reads, routineId.reads, u32.reads]

theorem program : TakesBack Program.toJson Program.ofJson? where
  written p := written_record (by
    simp [u8.list.written, sourceMap.written, typeTable.written, routine.list.written,
      constant.list.written, str.list.written, optionalRoutineId.written])
  reads p := by
    have hfields : p.toJson.fields?
        ["code", "source_map", "types", "routines", "constants", "natives", "entry"] =
          some [some (.array (p.code.toList.map fun b => .num b.toNat)),
            some (Json.sourceMap p.sources), some (Json.typeTable p.types),
            some (.array (p.routines.toList.map Json.routine)),
            some (.array (p.constants.map Json.constant)),
            some (.array (p.natives.toList.map Json.str)),
            some (.option Json.routineId p.entry)] := fields?_record (by simp)
    simp [Program.ofJson?, hfields, u8.list.reads, sourceMap.reads, typeTable.reads,
      routine.list.reads, constant.list.reads, str.list.reads, optionalRoutineId.reads]

end TakesBack
end Json

theorem symbols_toUTF8 (s : String) : symbols s.toUTF8.data.toList = s.toList.map some := by
  have hvalid : String.fromUTF8? ⟨s.toUTF8.data.toList.toArray⟩ = some s := dif_pos s.isValidUTF8
  rw [symbols, hvalid]

namespace Program

theorem ofText?_toText (p : Program) : ofText? p.toText = some p := by
  have hparse : Json.parse? (p.toText.toList.map some) = some p.toJson := by
    rw [toText, Json.pretty, String.toList_ofList]
    exact Json.parse?_render (Json.TakesBack.program.written p) true 0
  rw [ofText?, ofSymbols?, hparse, Option.bind_some]
  exact Json.TakesBack.program.reads p

/-- A text starts with a brace, a container with the magic. -/
theorem not_magic_toText (p : Program) : ¬Header.expectedMagic <+: p.toText.toUTF8.data.toList := by
  intro h
  have htext : ∃ cs, p.toText = String.ofList ('\x7b' :: cs) :=
    ⟨_, congrArg String.ofList (by rw [toJson, Json.record, List.map_cons, Json.render])⟩
  obtain ⟨cs, hcs⟩ := htext
  have hbytes : p.toText.toUTF8.data.toList = 0x7b :: cs.flatMap String.utf8EncodeChar := by
    rw [hcs]
    exact List.toList_data_toByteArray
  rw [hbytes, Header.expectedMagic, List.cons_prefix_cons] at h
  exact absurd h.1 (by decide)

theorem magic_toContainer (p : Program) : Header.expectedMagic <+: p.toContainer := by
  unfold toContainer sealPayload Header.encode
  rw [List.append_assoc, List.append_assoc, List.append_assoc]
  exact List.prefix_append _ _

theorem read_toText (p : Program) : read p.toText.toUTF8.data.toList = .ok p := by
  have hmagic : Header.expectedMagic.isPrefixOf p.toText.toUTF8.data.toList = false :=
    Bool.eq_false_iff.mpr fun h => not_magic_toText p (List.isPrefixOf_iff_prefix.mp h)
  rw [read, hmagic, symbols_toUTF8]
  have htext : ofSymbols? (p.toText.toList.map some) = some p := ofText?_toText p
  rw [htext]
  rfl

theorem read_toContainer {p : Program} (h : (WireWriter.program p).length < 2 ^ 32) :
    read p.toContainer = .ok p := by
  rw [read, if_pos (List.isPrefixOf_iff_prefix.mpr (magic_toContainer p)),
    ofContainer_toContainer h]

/-- What is read is validated. -/
theorem ofFile_of_read {file : Bytes} {p : Program} (h : read file = .ok p) :
    ofFile file = p.validate.map fun _ => p := by
  rw [ofFile, h]
  cases hvalid : p.validate <;> simp only [hvalid] <;> rfl

/-- A program comes back from its text, and a file that holds either form of it is recognised and
loaded: as the program if that is valid, and with the error of the validation otherwise. -/
theorem loads_both_forms (p : Program) :
    ofText p.toText = .ok p ∧
    (¬Header.expectedMagic <+: p.toText.toUTF8.data.toList ∧
      ofFile p.toText.toUTF8.data.toList = p.validate.map fun _ => p) ∧
    ((WireWriter.program p).length < 2 ^ 32 →
      Header.expectedMagic <+: p.toContainer ∧
        ofFile p.toContainer = p.validate.map fun _ => p) := by
  refine ⟨?_, ⟨not_magic_toText p, ofFile_of_read (read_toText p)⟩, fun h => ?_⟩
  · rw [ofText, ofText?_toText]
  · exact ⟨magic_toContainer p, ofFile_of_read (read_toContainer h)⟩

/-- Names outside ASCII and a union without fields. -/
theorem loads_both_forms_motley :
    (WireWriter.program motley).length < 2 ^ 32 ∧
    ofText motley.toText = .ok motley ∧
    ofFile motley.toText.toUTF8.data.toList = .error (.types (.emptyAggregate "U")) ∧
    ofFile motley.toContainer = .error (.types (.emptyAggregate "U")) := by
  have h : (WireWriter.program motley).length < 2 ^ 32 := by decide +kernel
  obtain ⟨htext, ⟨-, hjson⟩, hcontainer⟩ := loads_both_forms motley
  have hinvalid : motley.validate = .error (.types (.emptyAggregate "U")) := rfl
  rw [hinvalid] at hjson hcontainer
  exact ⟨h, htext, hjson, (hcontainer h).2⟩

end Program
end ForeignVM
