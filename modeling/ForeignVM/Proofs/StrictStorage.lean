import ForeignVM.Proofs.Constants
import ForeignVM.Proofs.Strict

/-!
# ForeignVM.Proofs.StrictStorage

Memory and pool for a host that checks its own steps. What the plain forms look at first is enough
for the strict ones, whatever the address or the offset. A pool of a program is always in order in
this sense, also where its offsets have wrapped and constants share their places.

* `Memory.readStrict`, `writeStrict`, `loadStrict`, `storeStrict`, `freeStrict`,
  `Pool.entryStrict`, `dataStrict`, `storeStrict` and others — the strict forms; each with its
  `_eq`.
* `Pool.Regular` — what is needed of pools; `regular_of_forProgram`.
-/

namespace ForeignVM

open Panic

/-! ## Memory -/

/-- The bytes of a block. -/
def Block.contents (b : Block) : Bytes := b.bytes.read 0 b.size

namespace Memory

def readStrict (m : Memory) (address : UInt64) (length : Nat) : Except Fault Bytes := do
  let b ← refuse .memory (m.blockAt address length)
  front length (← behind (Address.offset address) b.contents)

def writeStrict (m : Memory) (address : UInt64) (bytes : Bytes) : Except Fault Memory := do
  let place ← m.readStrict address bytes.length
  let _ ← copyFront place.length bytes place
  refuse .memory (m.write address bytes)

def loadStrict (m : Memory) (address : UInt64) (s : Shape) : Except Fault Value := do
  s.readStrict (← m.readStrict address s.size)

def storeStrict (m : Memory) (address : UInt64) (s : Shape) (v : Value) : Except Fault Memory := do
  m.writeStrict address (← s.writeStrict v (← m.readStrict address s.size))

/-- Releasing a block lowers the number of live ones. -/
def freeStrict (m : Memory) (address : UInt64) : Except Fault Memory := do
  let released ← refuse .memory (m.free address)
  if m.live = 0 then .error (.panic .count) else return released

variable {l : Layouts} {m : Memory} {address : UInt64}

theorem readStrict_eq (m : Memory) (address : UInt64) (length : Nat) :
    m.readStrict address length = refuse .memory (m.read address length) := by
  unfold readStrict read
  cases hb : m.blockAt address length with
  | error e => rfl
  | ok b =>
    obtain ⟨_, hfits⟩ := blockAt_ok_iff.mp hb
    have hcontents : b.contents.length = b.size := ByteStore.length_read _ _ _
    have hrest : (b.contents.drop (Address.offset address)).length =
        b.size - Address.offset address := by rw [List.length_drop, hcontents]
    have hread : slice _ _ b.contents = _ := ByteStore.slice_read b.bytes hfits
    simp only [refuse, Except.mapError, ok_bind]
    rw [behind_ok (by omega), lift_ok, ok_bind, front_ok (by omega), lift_ok]
    exact congrArg Except.ok (hread.trans (by rw [Nat.zero_add]))

/-- What is read is as long as was asked for. -/
theorem length_of_read {length : Nat} {bytes : Bytes} (h : m.read address length = .ok bytes) :
    bytes.length = length := by
  obtain ⟨b, _, rfl⟩ := read_ok_iff.mp h
  exact ByteStore.length_read _ _ _

theorem writeStrict_eq (m : Memory) (address : UInt64) (bytes : Bytes) :
    m.writeStrict address bytes = refuse .memory (m.write address bytes) := by
  rw [writeStrict, readStrict_eq]
  cases hr : m.read address bytes.length with
  | error e => rw [write, read_error_iff.mp hr]; rfl
  | ok place =>
    have hplace := length_of_read hr
    simp only [refuse, Except.mapError, ok_bind]
    rw [copyFront_ok hplace.symm (Nat.le_refl _), lift_ok, ok_bind]

theorem loadStrict_eq (m : Memory) (address : UInt64) (s : Shape) :
    m.loadStrict address s = (m.load address s).mapError .error := by
  rw [loadStrict, readStrict_eq, load]
  cases hr : m.read address s.size with
  | error e => rfl
  | ok bytes =>
    have hlength := length_of_read hr
    simp only [refuse, Except.mapError, ok_bind]
    rw [Shape.readStrict_eq (Nat.le_of_eq hlength.symm), lift_ok]

theorem storeStrict_eq {s : Shape} {v : Value} (hs : s.Own l) (hv : v.Own l) :
    m.storeStrict address s v = (m.store address s v).mapError .error := by
  rw [storeStrict, readStrict_eq, store, read]
  cases hb : m.blockAt address s.size with
  | error e => rfl
  | ok b =>
    simp only [refuse, Except.mapError, ok_bind]
    rw [Shape.writeStrict_exact hs hv (ByteStore.length_read _ _ _)]
    cases s.encode v with
    | error e => rfl
    | ok bytes =>
      simp only [Except.mapError, ok_bind, writeStrict_eq]
      cases m.write address bytes <;> rfl

theorem freeStrict_eq (m : Memory) (address : UInt64) :
    m.freeStrict address = refuse .memory (m.free address) := by
  unfold freeStrict
  cases hf : m.free address with
  | error e => rfl
  | ok released =>
    have hlive : m.live ≠ 0 := by
      have hcount := (free_ok hf).count
      omega
    simp only [refuse, Except.mapError, ok_bind, if_neg hlive]
    rfl

end Memory

/-! ## The pool -/

namespace Pool

/-- The table of offsets gives the position of an entry. -/
def foundStrict (p : Pool) (e : PoolEntry) : Except Panic PoolEntry :=
  element p.entries.values (p.entries.values.idxOf e)

def entryStrict (p : Pool) (offset : UInt32) : Except Fault PoolEntry :=
  match p.byOffset.get? offset.toNat with
  | some e => p.foundStrict e
  | none => .error (.error (.pool (.undeclaredOffset offset)))

def initializerStrict (p : Pool) (offset : UInt32) : Except Fault RoutineId :=
  match p.byOffset.get? offset.toNat with
  | some e => do return (← p.foundStrict e).initializer
  | none => .error (.error (.pool (.missingInitializer offset)))

/-- One byte of the reserved storage. -/
def cellStrict (p : Pool) (i : Nat) : Except Panic UInt8 :=
  if i < p.reserved then .ok (p.storage.byteAt i) else .error (.index i p.reserved)

/-- A part of the reserved storage. -/
def rangeStrict (p : Pool) (start length : Nat) : Except Panic Bytes :=
  if start + length ≤ p.reserved then .ok (p.storage.read start length)
  else .error (.slice start (start + length) p.reserved)

def isInitializedStrict (p : Pool) (offset : UInt32) : Except Fault Bool := do
  let _ ← p.entryStrict offset
  return (← p.cellStrict offset.toNat) ≠ 0

def dataStrict (p : Pool) (offset : UInt32) : Except Fault Bytes := do
  let e ← p.entryStrict offset
  p.rangeStrict (offset.toNat + 1) e.size

def storeStrict (p : Pool) (offset : UInt32) (bytes : Bytes) : Except Fault Pool := do
  let e ← p.entryStrict offset
  if ← p.isInitializedStrict offset then .error (.error (.pool (.alreadyInitialized offset)))
  else if bytes.length ≠ e.size then
    .error (.error (.pool (.sizeMismatch offset e.size bytes.length)))
  else
    let place ← p.rangeStrict (offset.toNat + 1) e.size
    let _ ← copyFront place.length bytes place
    let _ ← p.cellStrict offset.toNat
    return { p with storage := p.storage.write offset.toNat (1 :: bytes) }

/-- The entry at an offset is in the list, and its bytes have been reserved and are as many as its
type asks for. Entries may still lie over one another. -/
structure Seated (l : Layouts) (p : Pool) (o : UInt32) (e : PoolEntry) : Prop where
  listed : e ∈ p.entries.values
  offset : e.offset = o
  inside : o.toNat + 1 + e.size ≤ p.reserved
  typed : l.sizeOf e.ty = .ok e.size

/-- So it is at every offset that the table has. -/
def Regular (l : Layouts) (p : Pool) : Prop := ∀ o e, p.entry o = .ok e → Seated l p o e

variable {l : Layouts} {p q : Pool} {o : UInt32} {e : PoolEntry} {bytes : Bytes}

theorem foundStrict_eq (he : e ∈ p.entries.values) : p.foundStrict e = .ok e := by
  have hlt := List.idxOf_lt_length_of_mem he
  rw [foundStrict, element, List.getElem?_eq_getElem hlt, List.getElem_idxOf]

namespace Regular

variable (hp : p.Regular l)

include hp

theorem entryStrict_eq (o : UInt32) : p.entryStrict o = refuse .pool (p.entry o) := by
  have hseated := hp o
  unfold entryStrict entry at *
  cases hget : p.byOffset.get? o.toNat with
  | none => rfl
  | some e =>
    rw [hget] at hseated
    dsimp only
    rw [foundStrict_eq (hseated e rfl).listed]
    rfl

theorem initializerStrict_eq (o : UInt32) :
    p.initializerStrict o = refuse .pool (p.initializer o) := by
  have hseated := hp o
  unfold initializerStrict initializer entry at *
  cases hget : p.byOffset.get? o.toNat with
  | none => rfl
  | some e =>
    rw [hget] at hseated
    dsimp only
    rw [foundStrict_eq (hseated e rfl).listed]
    rfl

theorem cellStrict_eq (he : p.entry o = .ok e) :
    p.cellStrict o.toNat = .ok (p.storage.byteAt o.toNat) := by
  have hinside := (hp o e he).inside
  exact if_pos (by omega)

theorem rangeStrict_eq (he : p.entry o = .ok e) :
    p.rangeStrict (o.toNat + 1) e.size = .ok (p.bytesOf e) := by
  have hseated := hp o e he
  rw [rangeStrict, if_pos hseated.inside, bytesOf, hseated.offset]

theorem isInitializedStrict_eq (o : UInt32) :
    p.isInitializedStrict o = refuse .pool (p.isInitialized o) := by
  rw [isInitializedStrict, hp.entryStrict_eq, isInitialized]
  cases he : p.entry o with
  | error e => rfl
  | ok e =>
    simp only [refuse, Except.mapError, ok_bind]
    rw [hp.cellStrict_eq he]
    rfl

theorem dataStrict_eq (o : UInt32) : p.dataStrict o = refuse .pool (p.data o) := by
  rw [dataStrict, hp.entryStrict_eq, data]
  cases he : p.entry o with
  | error e => rfl
  | ok e =>
    simp only [refuse, Except.mapError, ok_bind]
    rw [hp.rangeStrict_eq he]
    rfl

theorem storeStrict_eq (o : UInt32) (bytes : Bytes) :
    p.storeStrict o bytes = match p.store o bytes with
      | .ok _ q => .ok q
      | .error e _ => .error (.error (.pool e)) := by
  rw [storeStrict, hp.entryStrict_eq, hp.isInitializedStrict_eq, store, isInitialized]
  cases he : p.entry o with
  | error e => rfl
  | ok e =>
    simp only [refuse, Except.mapError, ok_bind]
    cases p.flag o with
    | true => rfl
    | false =>
      by_cases hsize : bytes.length = e.size
      · have hplace : bytes.length = (p.bytesOf e).length :=
          hsize.trans (ByteStore.length_read _ _ _).symm
        rw [if_neg (not_not.mpr hsize), if_neg (not_not.mpr hsize), hp.rangeStrict_eq he, lift_ok,
          ok_bind, copyFront_ok hplace (Nat.le_refl _), lift_ok, ok_bind, hp.cellStrict_eq he]
        rfl
      · rw [if_pos hsize, if_pos hsize]
        rfl

/-- The size of the bytes of a constant is that of its type. -/
theorem size_of_data {s : Shape} (he : p.entry o = .ok e) (hs : l.shape e.ty = .ok s)
    (h : p.data o = .ok bytes) : bytes.length = s.size := by
  have htyped := (hp o e he).typed
  rw [Layouts.sizeOf, hs] at htyped
  rw [data, he] at h
  cases h
  exact (ByteStore.length_read _ _ _).trans (Except.ok.inj htyped).symm

omit hp in
theorem of_store (hp : p.Regular l) (h : p.store o bytes = .ok () q) : q.Regular l := by
  obtain ⟨_, _, _, _, rfl⟩ := store_cases h
  exact fun o' e' he' =>
    let ⟨hlisted, hoffset, hinside, htyped⟩ := hp o' e' he'
    ⟨hlisted, hoffset, hinside, htyped⟩

end Regular

theorem Regular.declares (hp : p.Regular l) (h : p.Declares e q)
    (htyped : l.sizeOf e.ty = .ok e.size) : q.Regular l := by
  intro o' e' he'
  have hmem : e ∈ q.entries.values := by simp [h.values]
  have hreserved := h.reserved
  obtain ⟨rfl, rfl⟩ | ⟨_, he'⟩ := h.entry he'
  · -- the offset of the new constant is the end of the old ones, or has wrapped to less
    have hoffset : e'.offset.toNat ≤ p.reserved := by
      rw [h.offset, UInt32.toNat_ofNat']
      exact Nat.mod_le _ _
    exact ⟨hmem, rfl, by omega, htyped⟩
  · obtain ⟨hlisted, hoffset, hinside, htyped⟩ := hp o' e' he'
    refine ⟨?_, hoffset, by omega, htyped⟩
    rw [h.values]
    exact List.mem_append_left _ hlisted

theorem regular_of_forProgram {program : Program} {p : Pool}
    (hl : Layouts.compute program.types = .ok l) (h : forProgram program = .ok p) :
    p.Regular l :=
  forProgram_induction (Regular l) hl h (fun o e he => absurd he (entry_empty o e))
    fun _ _ _ _ _ hp hs hdeclares => hp.declares hdeclares (by rw [Layouts.sizeOf, hs])

end Pool
end ForeignVM
