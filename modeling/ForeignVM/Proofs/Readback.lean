import ForeignVM.Program.Container

/-!
# ForeignVM.Proofs.Readback

Readers take back what the writers of the same form write, whatever follows it in the input.

* `Reads`    — what a reader takes from the front of every input that starts with a string.
* `Restores` — a reader takes back every value that a writer writes. All lengths in the format are
  numbers of 64 bits, so only what is shorter than that can be read back.
* `Restores.list`, `option`, `pair`, `text`, … — the forms of the format.
* `Restores.program` — whole programs.
* `openContainer_forPayload` — the checks behind the header of a payload.
* `Program.ofContainer_toContainer` — a container gives the program back.
-/

namespace ForeignVM

/-- Of every input that starts with `bytes`, the reader takes these and gives `a`. -/
def Reads {α : Type} (read : WireReader α) (bytes : Bytes) (a : α) : Prop :=
  ∀ rest, read (bytes ++ rest) = .ok (a, rest)

namespace Reads

variable {α β : Type} {read : WireReader α} {bytes front back : Bytes} {a : α} {b : β}

protected theorem pure (a : α) : Reads (pure a) [] a := fun _ => rfl

protected theorem bind {next : α → WireReader β} (hread : Reads read front a)
    (hnext : Reads (next a) back b) : Reads (read >>= next) (front ++ back) b := by
  intro rest
  change (do let (a, rest) ← read (front ++ back ++ rest); next a rest) = _
  rw [List.append_assoc, hread]
  exact hnext rest

protected theorem map (f : α → β) (hread : Reads read bytes a) :
    Reads (f <$> read) bytes (f a) := by
  intro rest
  change (do let (a, rest) ← read (bytes ++ rest); pure (f a, rest)) = _
  rw [hread]
  rfl

/-- The last part of a structure: nothing is read after it. -/
theorem last {next : α → WireReader β} (hread : Reads read bytes a)
    (hnext : Reads (next a) [] b) : Reads (read >>= next) bytes b := by
  have h := hread.bind hnext
  rwa [List.append_nil] at h

theorem byte (b : UInt8) : Reads WireReader.byte [b] b := fun _ => rfl

theorem take (bytes : Bytes) : Reads (WireReader.take bytes.length) bytes bytes := by
  intro rest
  rw [WireReader.take, if_pos (by simp), List.take_left, List.drop_left]

/-- A group below 128 is the last one. -/
theorem lastGroup {lastMax left n : Nat} (hn : n < 128) (hlast : left = 0 → n ≤ lastMax) :
    Reads (WireReader.varintGroups lastMax (left + 1)) [UInt8.ofNat n] n := by
  have hb : (UInt8.ofNat n).toNat = n := by
    rw [UInt8.toNat_ofNat']
    exact Nat.mod_eq_of_lt (by omega)
  refine (Reads.byte (UInt8.ofNat n)).last ?_
  rw [hb, if_pos hn, if_neg (by omega)]
  exact .pure n

theorem earlierGroup {lastMax left n : Nat} {bytes : Bytes}
    (hhigh : Reads (WireReader.varintGroups lastMax left) bytes (n / 128)) :
    Reads (WireReader.varintGroups lastMax (left + 1))
      (UInt8.ofNat (n % 128 + 128) :: bytes) n := by
  have hlow : n % 128 < 128 := Nat.mod_lt n (by decide)
  have hb : (UInt8.ofNat (n % 128 + 128)).toNat = n % 128 + 128 := by
    rw [UInt8.toNat_ofNat']
    exact Nat.mod_eq_of_lt (by omega)
  refine Reads.bind (Reads.byte _) ?_
  rw [hb, if_neg (by omega)]
  refine hhigh.last ?_
  have hn : n % 128 + 128 - 128 + 128 * (n / 128) = n := by omega
  rw [hn]
  exact .pure n

theorem varintGroups {lastMax : Nat} (hlast : lastMax < 128) (left : Nat) {n : Nat}
    (hn : n < (lastMax + 1) * 128 ^ left) :
    Reads (WireReader.varintGroups lastMax (left + 1))
      (WireWriter.varintGroups (left + 1) n) n := by
  induction left generalizing n with
  | zero =>
    have hsmall : n < 128 := by omega
    rw [WireWriter.varintGroups, if_pos hsmall]
    exact lastGroup hsmall fun _ => by omega
  | succ left ih =>
    rw [WireWriter.varintGroups]
    split
    · next hsmall => exact lastGroup hsmall fun h => absurd h (Nat.succ_ne_zero left)
    · refine earlierGroup (ih ?_)
      rw [Nat.div_lt_iff_lt_mul (by decide), Nat.mul_assoc, ← Nat.pow_succ]
      exact hn

theorem items {item : WireReader α} {write : α → Bytes} {as : List α}
    (h : ∀ a ∈ as, Reads item (write a) a) :
    Reads (WireReader.items item as.length) (as.flatMap write) as := by
  induction as with
  | nil => exact .pure []
  | cons a as ih =>
    rw [List.flatMap_cons]
    exact (h a List.mem_cons_self).bind ((ih fun b hb => h b (.tail _ hb)).last (.pure _))

end Reads

/-- The reader takes back what the writer writes, unless that has `2 ^ 64` bytes or more. -/
structure Restores {α : Type} (write : α → Bytes) (read : WireReader α) : Prop where
  nonempty : ∀ a, write a ≠ []
  reads : ∀ a, (write a).length < 2 ^ 64 → Reads read (write a) a

namespace Restores

variable {α β : Type} {write : α → Bytes} {read : WireReader α}

theorem length_pos (h : Restores write read) (a : α) : 0 < (write a).length :=
  List.length_pos_iff.mpr (h.nonempty a)

theorem varint_ne_nil {w : VarintWidth} (hw : w.bytes ≠ 0) (n : Nat) :
    WireWriter.varint w n ≠ [] := by
  obtain ⟨_ | left, lastMax⟩ := w
  · exact absurd rfl hw
  · unfold WireWriter.varint WireWriter.varintGroups
    split <;> exact List.cons_ne_nil _ _

theorem u16 : Restores WireWriter.u16 WireReader.u16 where
  nonempty v := varint_ne_nil (by decide) v.toNat
  reads v _ := by
    have hlast : VarintWidth.u16.lastMax < 128 := by decide
    have h := (Reads.varintGroups hlast 2 v.toNat_lt).map UInt16.ofNat
    rwa [UInt16.ofNat_toNat] at h

theorem u32 : Restores WireWriter.u32 WireReader.u32 where
  nonempty v := varint_ne_nil (by decide) v.toNat
  reads v _ := by
    have hlast : VarintWidth.u32.lastMax < 128 := by decide
    have h := (Reads.varintGroups hlast 4 v.toNat_lt).map UInt32.ofNat
    rwa [UInt32.ofNat_toNat] at h

theorem length {n : Nat} (hn : n < 2 ^ 64) : Reads WireReader.length (WireWriter.length n) n :=
  have hlast : VarintWidth.u64.lastMax < 128 := by decide
  Reads.varintGroups hlast 9 hn

theorem bytes : Restores WireWriter.bytes WireReader.bytes where
  nonempty b := List.append_ne_nil_of_left_ne_nil (varint_ne_nil (by decide) b.length) b
  reads b hb := by
    rw [WireWriter.bytes, List.length_append] at hb
    exact (length (by omega)).bind (.take b)

theorem text : Restores WireWriter.text WireReader.text where
  nonempty s := bytes.nonempty s.toUTF8.data.toList
  reads s hs := by
    have hvalid : String.fromUTF8? ⟨s.toUTF8.data.toList.toArray⟩ = some s := dif_pos s.isValidUTF8
    refine (bytes.reads _ hs).last ?_
    rw [hvalid]
    exact .pure s

theorem flag : Restores WireWriter.flag WireReader.flag where
  nonempty _ := List.cons_ne_nil _ _
  reads b _ := by
    cases b
    · exact (Reads.byte 0).last (.pure false)
    · exact (Reads.byte 1).last (.pure true)

theorem option (h : Restores write read) :
    Restores (WireWriter.option write) (WireReader.option read) where
  nonempty o := by cases o <;> exact List.cons_ne_nil _ _
  reads o ho := by
    cases o with
    | none => exact (Reads.byte 0).last (.pure none)
    | some a =>
      rw [WireWriter.option, List.length_cons] at ho
      exact (Reads.byte 1).bind ((h.reads a (by omega)).map some)

theorem length_le_flatMap (h : Restores write read) (as : List α) :
    as.length ≤ (as.flatMap write).length := by
  induction as with
  | nil => exact Nat.le_refl 0
  | cons a as ih =>
    have ha := h.length_pos a
    rw [List.flatMap_cons, List.length_append, List.length_cons]
    omega

theorem list (h : Restores write read) :
    Restores (WireWriter.list write) (WireReader.list read) where
  nonempty as := List.append_ne_nil_of_left_ne_nil (varint_ne_nil (by decide) as.length) _
  reads as has := by
    rw [WireWriter.list, List.length_append] at has
    have hcount := h.length_le_flatMap as
    refine (length (by omega)).bind (Reads.items fun a ha => h.reads a ?_)
    have hle : (write a).length ≤ (as.flatMap write).length :=
      (List.sublist_flatten_of_mem (List.mem_map_of_mem ha)).length_le
    omega

theorem pair {writeSecond : β → Bytes} {readSecond : WireReader β} (h : Restores write read)
    (hsecond : Restores writeSecond readSecond) :
    Restores (WireWriter.pair write writeSecond) (WireReader.pair read readSecond) where
  nonempty p := List.append_ne_nil_of_left_ne_nil (h.nonempty p.1) _
  reads p hp := by
    rw [WireWriter.pair, List.length_append] at hp
    exact (h.reads p.1 (by omega)).bind ((hsecond.reads p.2 (by omega)).last (.pure _))

theorem map {f : α → β} {g : β → α} (h : Restores write read) (hfg : ∀ b, f (g b) = b) :
    Restores (fun b => write (g b)) (f <$> read) where
  nonempty b := h.nonempty (g b)
  reads b hb := by
    have hread := (h.reads (g b) hb).map f
    rwa [hfg] at hread

theorem typeId : Restores WireWriter.typeId WireReader.typeId := u16.map fun _ => rfl

theorem routineId : Restores WireWriter.routineId WireReader.routineId := u16.map fun _ => rfl

theorem fields : Restores WireWriter.fields WireReader.fields :=
  (text.pair typeId).list.map OrderedMap.ofList_entries

theorem variant {n : Nat} (hn : n < 2 ^ 32) : Reads WireReader.variant (WireWriter.variant n) n :=
  have hlast : VarintWidth.u32.lastMax < 128 := by decide
  Reads.varintGroups hlast 4 hn

theorem scalarKind (kind : ScalarKind) :
    Reads WireReader.scalarKind (WireWriter.variant kind.code) kind := by
  have hcode : kind.code < 2 ^ 32 := by cases kind <;> decide
  refine (variant hcode).last ?_
  rw [ScalarKind.ofCode?_code]
  exact .pure kind

theorem typeDef : Restores WireWriter.typeDef WireReader.typeDef where
  nonempty d := by
    cases d <;> exact List.append_ne_nil_of_left_ne_nil (varint_ne_nil (by decide) _) _
  reads d hd := by
    cases d with
    | scalar kind => exact (variant (by decide)).bind ((scalarKind kind).map TypeDef.scalar)
    | struct name fs =>
      simp only [WireWriter.typeDef, List.length_append] at hd
      exact (variant (by decide)).bind ((text.reads name (by omega)).bind
        ((fields.reads fs (by omega)).map (TypeDef.struct name)))
    | union name fs =>
      simp only [WireWriter.typeDef, List.length_append] at hd
      exact (variant (by decide)).bind ((text.reads name (by omega)).bind
        ((fields.reads fs (by omega)).map (TypeDef.union name)))
    | pointer pointee =>
      simp only [WireWriter.typeDef, List.length_append] at hd
      exact (variant (by decide)).bind ((typeId.reads pointee (by omega)).map TypeDef.pointer)
    | proc params ret closure =>
      simp only [WireWriter.typeDef, List.length_append] at hd
      exact (variant (by decide)).bind ((typeId.list.reads params (by omega)).bind
        ((typeId.option.reads ret (by omega)).bind
          ((flag.reads closure (by omega)).map (TypeDef.proc params ret))))

theorem node : Restores WireWriter.node WireReader.node where
  nonempty n := List.append_ne_nil_of_left_ne_nil (text.nonempty n.text) _
  reads n hn := by
    simp only [WireWriter.node, List.length_append] at hn
    exact (text.reads n.text (by omega)).bind ((u32.reads n.line (by omega)).bind
      ((u32.reads n.column (by omega)).last (.pure _)))

theorem routine : Restores WireWriter.routine WireReader.routine where
  nonempty r := List.append_ne_nil_of_left_ne_nil (text.nonempty r.name) _
  reads r hr := by
    simp only [WireWriter.routine, List.length_append] at hr
    exact (text.reads r.name (by omega)).bind ((u32.reads r.entry (by omega)).bind
      ((u16.reads r.params (by omega)).bind ((typeId.list.reads r.locals (by omega)).bind
        ((typeId.option.reads r.ret (by omega)).last (.pure _)))))

theorem constant : Restores WireWriter.constant WireReader.constant where
  nonempty c := List.append_ne_nil_of_left_ne_nil (text.nonempty c.name) _
  reads c hc := by
    simp only [WireWriter.constant, List.length_append] at hc
    exact (text.reads c.name (by omega)).bind ((typeId.reads c.ty (by omega)).bind
      ((routineId.reads c.initializer (by omega)).bind
        ((u32.reads c.offset (by omega)).last (.pure _))))

theorem program : Restores WireWriter.program WireReader.program where
  nonempty p := List.append_ne_nil_of_left_ne_nil (bytes.nonempty p.code.toList) _
  reads p hp := by
    simp only [WireWriter.program, List.length_append] at hp
    have h : Reads WireReader.program (WireWriter.program p)
        { p with sources := .ofList p.sources.entries } :=
      (bytes.reads p.code.toList (by omega)).bind
        (((u32.pair node).list.reads p.sources.entries (by omega)).bind
          ((typeDef.list.reads p.types.defs.toList (by omega)).bind
            ((routine.list.reads p.routines.toList (by omega)).bind
              ((constant.list.reads p.constants (by omega)).bind
                ((text.list.reads p.natives.toList (by omega)).bind
                  ((routineId.option.reads p.entry (by omega)).last (.pure _)))))))
    rwa [SourceMap.ofList_entries] at h

end Restores
namespace Header

theorem length_encode_forPayload (payload : Bytes) : (forPayload payload).encode.length = size := by
  simp [encode, forPayload, expectedMagic, size]

/-- A number of a header where it was written. -/
theorem word_append {offset : Nat} {front : Bytes} (h : front.length = offset) (n : UInt32)
    (rest : Bytes) : word (front ++ (LittleEndian.encode 4 n.toNat ++ rest)) offset = n := by
  have hlen : (LittleEndian.encode 4 n.toNat).length = 4 := LittleEndian.length_encode 4 n.toNat
  rw [word, ← h, List.drop_left, List.take_left' hlen, LittleEndian.decode_encode]
  rw [Nat.mod_eq_of_lt (by exact n.toNat_lt), UInt32.ofNat_toNat]

theorem decode?_encode {h : Header} (hmagic : h.magic.length = 4) (rest : Bytes) :
    decode? (h.encode ++ rest) = some h := by
  have hlen : size ≤ (h.encode ++ rest).length := by
    simp [encode, hmagic, size, ← Nat.add_assoc]
  have hbytes : h.encode ++ rest =
      h.magic ++ (LittleEndian.encode 4 h.version.toNat ++
        (LittleEndian.encode 4 h.checksum.toNat ++
          (LittleEndian.encode 4 h.payloadSize.toNat ++ rest))) := by
    simp only [encode, List.append_assoc]
  have hversion : word (h.encode ++ rest) 4 = h.version := by
    rw [hbytes]
    exact word_append hmagic h.version _
  have hchecksum : word (h.encode ++ rest) 8 = h.checksum := by
    rw [hbytes, ← List.append_assoc]
    exact word_append (by simp [hmagic]) h.checksum _
  have hsize : word (h.encode ++ rest) 12 = h.payloadSize := by
    rw [hbytes, ← List.append_assoc, ← List.append_assoc]
    exact word_append (by simp [hmagic]) h.payloadSize _
  rw [decode?, if_neg (Nat.not_lt.mpr hlen), hversion, hchecksum, hsize, hbytes,
    List.take_left' hmagic]

end Header

/-- The checks behind the header of a payload. -/
theorem openContainer_forPayload {payload : Bytes} (h : payload.length < 2 ^ 32) (rest : Bytes) :
    openContainer ((Header.forPayload payload).encode ++ rest) =
      if payload.length = rest.length then
        if Crc32.checksum rest = Crc32.checksum payload then .ok rest
        else .error (.checksumMismatch (Crc32.checksum payload) (Crc32.checksum rest))
      else .error (.sizeMismatch (UInt32.ofNat payload.length) rest.length) := by
  have hheader : Header.decode? ((Header.forPayload payload).encode ++ rest) =
      some (.forPayload payload) := Header.decode?_encode rfl rest
  have hrest : ((Header.forPayload payload).encode ++ rest).drop Header.size = rest :=
    List.drop_left' (Header.length_encode_forPayload payload)
  have hsize : (Header.forPayload payload).payloadSize.toNat = payload.length :=
    UInt32.toNat_ofNat_of_lt' h
  have hmagic : (Header.forPayload payload).magicOk = true := decide_eq_true rfl
  have hversion : (Header.forPayload payload).versionOk = true := decide_eq_true rfl
  simp only [openContainer, hheader, hrest, hmagic, hversion, hsize, Bool.not_true,
    Bool.false_eq_true, if_false, ne_eq, ite_not]
  rfl

/-- The header that is made for a payload passes all checks. -/
theorem openContainer_sealPayload {payload : Bytes} (h : payload.length < 2 ^ 32) :
    openContainer (sealPayload payload) = .ok payload := by
  rw [sealPayload, openContainer_forPayload h, if_pos rfl, if_pos rfl]

namespace Program

/-- A program comes back from its container as it was, with everything in its order. -/
theorem ofContainer_toContainer {p : Program} (h : (WireWriter.program p).length < 2 ^ 32) :
    ofContainer p.toContainer = .ok p := by
  have hread : Reads WireReader.program (WireWriter.program p) p :=
    Restores.program.reads p (Nat.lt_trans h (by decide))
  have hrun : WireReader.program.run (WireWriter.program p) = .ok (p, []) := by
    have hnil := hread []
    rwa [List.append_nil] at hnil
  simp only [ofContainer, toContainer, openContainer_sealPayload h, hrun]

/-- Definitions of every form, names outside ASCII, numbers of one to five bytes, and code that no
instruction starts with. -/
def motley : Program where
  code := #[0xff]
  sources := .ofList [(70000, ⟨"a ≤ b", 1, 4294967295⟩), (3, ⟨"", 128, 0⟩)]
  types := ⟨#[.scalar .f64, .struct "Größe" (.ofList [("y", .ofPosition 0), ("x", .ofPosition 2)]),
    .union "U" .empty, .pointer (.ofPosition 40000),
    .proc [.ofPosition 0, .ofPosition 3] (some (.ofPosition 1)) true, .proc [] none false]⟩
  routines := #[⟨"main", 17, 300, [.ofPosition 0], none⟩, ⟨"", 0, 0, [], some (.ofPosition 9)⟩]
  constants := [⟨"π", .ofPosition 0, .ofPosition 1, 300⟩]
  natives := #["𝔸", "puts"]
  entry := some (.ofPosition 65535)

theorem ofContainer_toContainer_motley : (WireWriter.program motley).length < 2 ^ 32 ∧
    ofContainer motley.toContainer = .ok motley := by
  have h : (WireWriter.program motley).length < 2 ^ 32 := by decide +kernel
  exact ⟨h, ofContainer_toContainer h⟩

end Program
end ForeignVM
