import ForeignVM.Proofs.Overlap
import Mathlib.Algebra.GroupWithZero.Nat
import Mathlib.Data.List.Pairwise

/-!
# ForeignVM.Proofs.Cells

The pool of constants as an ordered map of cells that are written at most once. As long as the
reserved storage fits into 32 bits, the flat storage of a pool answers all calls as the cells do.

* `Cell`, `Cells`     — the map, with `declare` and `store`.
* `PoolCall`, `serve` — sequences of calls, of which any may fail.
* `Pool.Holds`        — what a pool and its cells have in common; `Holds.call` for one call,
  `Holds.serve` for a sequence.
* `Pool.Shows`, `Pool.StoresOnce`, `Cells.Placed` — what calls can learn of a pool and its cells.
-/

namespace ForeignVM

/-- Both fail with the same error, or both succeed with the same answer; the states that they leave
behind are related. -/
inductive Alike {ε σ τ α : Type} (R : σ → τ → Prop) :
    EStateM.Result ε σ α → EStateM.Result ε τ α → Prop where
  | error {s : σ} {t : τ} (e : ε) (h : R s t) : Alike R (.error e s) (.error e t)
  | ok {s : σ} {t : τ} (a : α) (h : R s t) : Alike R (.ok a s) (.ok a t)

/-- The same end with another answer. -/
def answering {ε σ α β : Type} (f : α → β) : EStateM.Result ε σ α → EStateM.Result ε σ β
  | .ok a s => .ok (f a) s
  | .error e s => .error e s

namespace Alike

variable {ε σ τ α β : Type} {R : σ → τ → Prop}
variable {x : EStateM.Result ε σ α} {y : EStateM.Result ε τ α} (h : Alike R x y)
include h

theorem answering (f : α → β) : Alike R (answering f x) (answering f y) := by
  cases h with
  | error e h => exact .error e h
  | ok a h => exact .ok (f a) h

theorem error_iff {e : ε} : (∃ s, x = .error e s) ↔ ∃ t, y = .error e t := by
  cases h <;> simp

theorem ok_iff {a : α} : (∃ s, x = .ok a s) ↔ ∃ t, y = .ok a t := by
  cases h <;> simp

end Alike

/-- Looking up one of several keys is to look for what has the key. -/
theorem lookup_map_eq_find? {α β γ : Type} [DecidableEq β] {key : α → β} {f : α → γ} (as : List α)
    (k : β) : (as.map fun a => (key a, f a)).lookup k = (as.find? (key · = k)).map f := by
  induction as with
  | nil => rfl
  | cons a as ih =>
    rw [List.map_cons, List.lookup_cons, List.find?_cons]
    by_cases h : key a = k
    · simp [h]
    · have hk : (k == key a) = false := beq_eq_false_iff_ne.mpr (Ne.symm h)
      simp [h, hk, ih]

/-- A constant, with the bytes that were stored, if any. -/
structure Cell extends PoolEntry where
  value : Option Bytes
  deriving DecidableEq, Repr

/-- Zero until the constant is stored. -/
def Cell.bytes (c : Cell) : Bytes := c.value.getD (List.replicate c.size 0)

abbrev Cells := List Cell

namespace Cells

def entries (cs : Cells) : List PoolEntry := cs.map (·.toPoolEntry)

/-- A flag and the bytes of the value for each cell. -/
def size (cs : Cells) : Nat := (cs.map fun c => 1 + c.size).sum

def named? (cs : Cells) (name : String) : Option Cell := cs.find? (·.name = name)

/-- The cell that starts at an offset. -/
def at? (cs : Cells) (o : UInt32) : Option Cell := cs.find? (·.offset = o)

/-- The result of a change, with the cells behind it. -/
abbrev Result (α : Type) := EStateM.Result PoolError Cells α

def declare (cs : Cells) (name : String) (ty : TypeId) (size : Nat) (initializer : RoutineId) :
    Result UInt32 :=
  match cs.named? name with
  | some _ => .error (.alreadyDeclared name) cs
  | none =>
    let offset := UInt32.ofNat cs.size
    .ok offset (cs ++ [⟨⟨name, ty, offset, size, initializer⟩, none⟩])

def write (cs : Cells) (o : UInt32) (bytes : Bytes) : Cells :=
  cs.map fun c => if c.offset = o then { c with value := some bytes } else c

def store (cs : Cells) (o : UInt32) (bytes : Bytes) : Result Unit :=
  match cs.at? o with
  | none => .error (.undeclaredOffset o) cs
  | some c =>
    if c.value.isSome then .error (.alreadyInitialized o) cs
    else if bytes.length ≠ c.size then .error (.sizeMismatch o c.size bytes.length) cs
    else .ok () (cs.write o bytes)

theorem store_ok_iff {cs : Cells} {o : UInt32} {bytes : Bytes} :
    (∃ ds, cs.store o bytes = .ok () ds) ↔
      ∃ c, cs.at? o = some c ∧ c.value = none ∧ bytes.length = c.size := by
  unfold store
  cases cs.at? o with
  | none => simp
  | some c =>
    by_cases hvalue : c.value.isSome
    · simp [hvalue, Option.isSome_iff_ne_none.mp hvalue]
    · by_cases hlength : bytes.length = c.size <;>
        simp [Option.not_isSome_iff_eq_none.mp hvalue, hlength]

end Cells

inductive PoolCall where
  | declare (name : String) (ty : TypeId) (size : Nat) (initializer : RoutineId)
  | store (offset : UInt32) (bytes : Bytes)
  deriving DecidableEq, Repr

/-- The offset of a declared constant, nothing for a stored one. -/
abbrev PoolAnswer := Except PoolError (Option UInt32)

def Pool.call (p : Pool) : PoolCall → Pool.Result (Option UInt32)
  | .declare name ty size initializer => answering some (p.declare name ty size initializer)
  | .store offset bytes => answering (fun _ => none) (p.store offset bytes)

def Cells.call (cs : Cells) : PoolCall → Cells.Result (Option UInt32)
  | .declare name ty size initializer => answering some (cs.declare name ty size initializer)
  | .store offset bytes => answering (fun _ => none) (cs.store offset bytes)

namespace PoolCall

/-- The answer to a call and the state that it leaves behind. -/
def settle {σ : Type} : EStateM.Result PoolError σ (Option UInt32) → PoolAnswer × σ
  | .error e s => (.error e, s)
  | .ok answer s => (.ok answer, s)

/-- The answers to calls one after the other, and the state after them. -/
def serve {σ : Type} (call : σ → PoolCall → EStateM.Result PoolError σ (Option UInt32)) :
    σ → List PoolCall → List PoolAnswer × σ
  | s, [] => ([], s)
  | s, c :: rest =>
    let (answer, s') := settle (call s c)
    let (answers, s'') := serve call s' rest
    (answer :: answers, s'')

end PoolCall

namespace Pool

open PoolCall

/-! ## A pool and its cells -/

/-- The cells are those of the pool, and its storage has their flags and values. -/
structure Holds (p : Pool) (cs : Cells) : Prop where
  lists : p.Lists cs.entries
  fits : p.reserved < 2 ^ 32
  sized : ∀ c ∈ cs, c.bytes.length = c.size
  flag : ∀ c ∈ cs, p.flag c.offset = c.value.isSome
  bytes : ∀ c ∈ cs, p.bytesOf c.toPoolEntry = c.bytes
  blank : ∀ i, p.reserved ≤ i → p.storage.byteAt i = 0

theorem stop_eq_sum (start : Nat) (es : List PoolEntry) :
    stop start es = start + (es.map fun e => 1 + e.size).sum := by
  induction es generalizing start with
  | nil => rfl
  | cons e es ih =>
    rw [stop, ih, List.map_cons, List.sum_cons]
    omega

theorem holds_empty : Pool.empty.Holds [] :=
  ⟨.empty, by decide, nofun, nofun, nofun, fun i _ => ByteStore.byteAt_empty i⟩

namespace Holds

variable {p q : Pool} {cs : Cells}

theorem places_fit (h : p.Holds cs) : ∀ n ∈ places 0 cs.entries, n < 2 ^ 32 := fun n hn => by
  have hlt := lt_stop_of_mem_places hn
  have hfits := h.fits
  rw [h.lists.reserved] at hfits
  omega

theorem reserved_eq (h : p.Holds cs) : p.reserved = cs.size := by
  rw [h.lists.reserved, stop_eq_sum, Cells.entries, List.map_map, Nat.zero_add]
  rfl

theorem at?_eq (cs : Cells) (o : UInt32) :
    cs.entries.find? (·.offset = o) = (cs.at? o).map (·.toPoolEntry) :=
  List.find?_map ..

theorem at?_of_mem (h : p.Holds cs) {c : Cell} (hc : c ∈ cs) : cs.at? c.offset = some c := by
  have hnodup := h.lists.chain.nodup h.places_fit
  rw [Cells.entries, List.map_map] at hnodup
  exact find?_of_nodup hnodup hc

theorem entry (h : p.Holds cs) (o : UInt32) :
    p.entry o = match cs.at? o with
      | some c => .ok c.toPoolEntry
      | none => .error (.undeclaredOffset o) := by
  rw [h.lists.entry h.places_fit, at?_eq]
  cases cs.at? o <;> rfl

theorem mem_names_iff {cs : Cells} {name : String} :
    name ∈ cs.entries.map (·.name) ↔ ∃ c, cs.named? name = some c := by
  rw [← Option.isSome_iff_exists, Cells.named?, List.find?_isSome, Cells.entries, List.map_map,
    List.mem_map]
  simp

/-- One more cell, all of whose bytes are zero. -/
theorem append (h : p.Holds cs) {e : PoolEntry} (hlists : q.Lists (cs.entries ++ [e]))
    (hstorage : q.storage = p.storage) (hfits : q.reserved < 2 ^ 32) :
    q.Holds (cs ++ [⟨e, none⟩]) := by
  have hreserved : q.reserved = p.reserved + 1 + e.size := by
    rw [hlists.reserved, stop_append, h.lists.reserved]
  have hplace : e.offset.toNat = p.reserved := by
    rw [(chain_concat.mp hlists.chain).2, ← h.lists.reserved]
    exact UInt32.toNat_ofNat_of_lt' h.fits
  have hzero : q.storage.read (e.offset.toNat + 1) e.size = List.replicate e.size 0 := by
    rw [← ByteStore.read_empty (e.offset.toNat + 1), hstorage]
    exact ByteStore.read_congr fun i hi _ => by
      rw [h.blank i (by omega), ByteStore.byteAt_empty]
  refine ⟨?_, hfits, ?_, ?_, ?_, ?_⟩
  · rw [Cells.entries, List.map_append]
    exact hlists
  · rw [List.forall_mem_append, List.forall_mem_singleton]
    exact ⟨h.sized, List.length_replicate⟩
  · rw [List.forall_mem_append, List.forall_mem_singleton]
    refine ⟨fun c hc => ?_, ?_⟩
    · rw [Pool.flag, hstorage]
      exact h.flag c hc
    · rw [Pool.flag, hstorage, hplace, h.blank _ (Nat.le_refl _)]
      rfl
  · rw [List.forall_mem_append, List.forall_mem_singleton]
    refine ⟨fun c hc => ?_, hzero⟩
    rw [bytesOf, hstorage]
    exact h.bytes c hc
  · intro i hi
    rw [hstorage]
    exact h.blank i (by omega)

theorem declare (h : p.Holds cs) (name : String) (ty : TypeId) (size : Nat)
    (initializer : RoutineId)
    (hfits : ∀ o q, p.declare name ty size initializer = .ok o q → q.reserved < 2 ^ 32) :
    Alike Holds (p.declare name ty size initializer) (cs.declare name ty size initializer) := by
  unfold Cells.declare
  cases hname : cs.named? name with
  | some c =>
    rw [h.lists.declare_known (mem_names_iff.mpr ⟨c, hname⟩)]
    exact .error _ h
  | none =>
    have hnew : name ∉ cs.entries.map (·.name) := by
      rw [mem_names_iff, hname]
      nofun
    obtain ⟨q, hdeclare, hstorage, hlists⟩ := h.lists.declare_new hnew ty size initializer
    rw [← h.reserved_eq, hdeclare]
    exact .ok _ (h.append hlists hstorage (hfits _ _ hdeclare))

theorem stores (h : p.Holds cs) {o : UInt32} {bytes : Bytes} (hstore : p.store o bytes = .ok () q) :
    p.Stores o bytes q := by
  have hmem {o : UInt32} {e : PoolEntry} (he : p.entry o = .ok e) :
      e ∈ cs.entries ∧ e.offset = o := by
    rw [h.lists.entry h.places_fit] at he
    split at he
    · next e' hfind =>
      cases he
      exact ⟨List.mem_of_find?_eq_some hfind, by simpa using List.find?_some hfind⟩
    · cases he
  refine stores_of_apart (fun o e he => (hmem he).2) (fun o o' e e' he he' hne => ?_) hstore
  obtain ⟨hin, rfl⟩ := hmem he
  obtain ⟨hin', rfl⟩ := hmem he'
  exact (h.lists.chain.apart h.places_fit).forall hin hin' fun heq => hne (heq ▸ rfl)

theorem bytesOf_eq {p : Pool} {o : UInt32} {e : PoolEntry} {bytes : Bytes} (he : p.entry o = .ok e)
    (hdata : p.data o = .ok bytes) : p.bytesOf e = bytes := by
  rw [data, he] at hdata
  exact Except.ok.inj hdata

theorem write (h : p.Holds cs) {c : Cell} (hc : c ∈ cs) {bytes : Bytes}
    (hstore : p.store c.offset bytes = .ok () q) : q.Holds (cs.write c.offset bytes) := by
  have hstores := h.stores hstore
  obtain ⟨e, he, -, hsize, hq⟩ := store_cases hstore
  have hentry {d : Cell} (hd : d ∈ cs) : p.entry d.offset = .ok d.toPoolEntry := by
    rw [h.entry, h.at?_of_mem hd]
  have hsame (d : Cell) (hd : d ∈ cs) (hoffset : d.offset = c.offset) : d = c := by
    have hat := h.at?_of_mem hd
    rw [hoffset, h.at?_of_mem hc] at hat
    exact (Option.some.inj hat).symm
  have hlength : bytes.length = c.size := by
    rw [hentry hc] at he
    cases he
    exact hsize
  have hentries : (cs.write c.offset bytes).entries = cs.entries := by
    rw [Cells.write, Cells.entries, List.map_map]
    refine List.map_congr_left fun d _ => ?_
    rw [Function.comp_apply]
    split <;> rfl
  refine ⟨?_, ?_, ?_, ?_, ?_, ?_⟩
  · rw [hentries, hq]
    exact ⟨h.lists.entries, h.lists.chain, h.lists.reserved, h.lists.index⟩
  · rw [hq]
    exact h.fits
  · rw [Cells.write, List.forall_mem_map]
    intro d hd
    split
    · next hoffset =>
      rw [hsame d hd hoffset]
      exact hlength
    · exact h.sized d hd
  · rw [Cells.write, List.forall_mem_map]
    intro d hd
    split
    · next hoffset =>
      rw [hsame d hd hoffset]
      exact hstores.flag
    · next hne =>
      rw [(hstores.others _ _ (hentry hd) hne).1]
      exact h.flag d hd
  · rw [Cells.write, List.forall_mem_map]
    intro d hd
    have hq' := (hstores.same.entry d.offset).trans (hentry hd)
    split
    · next hoffset =>
      rw [hsame d hd hoffset] at hq' ⊢
      exact bytesOf_eq hq' hstores.data
    · next hne =>
      refine bytesOf_eq hq' ?_
      rw [(hstores.others _ _ (hentry hd) hne).2, data, hentry hd, ← h.bytes d hd]
  · intro i hi
    rw [hq] at hi ⊢
    have hinside := h.lists.chain.inside (List.mem_map_of_mem hc)
    rw [ByteStore.byteAt_write, if_neg]
    · exact h.blank i hi
    · rw [List.length_cons, hlength]
      rw [h.lists.reserved] at hi
      omega

theorem store (h : p.Holds cs) (o : UInt32) (bytes : Bytes) :
    Alike Holds (p.store o bytes) (cs.store o bytes) := by
  have hentry := h.entry o
  cases hat : cs.at? o with
  | none =>
    rw [hat] at hentry
    rw [Pool.store, hentry, Cells.store, hat]
    exact .error _ h
  | some c =>
    have hc : c ∈ cs := List.mem_of_find?_eq_some hat
    have ho : c.offset = o := by simpa using List.find?_some hat
    subst ho
    rw [hat] at hentry
    have hstore : p.store c.offset bytes =
        if c.value.isSome then .error (.alreadyInitialized c.offset) p
        else if bytes.length ≠ c.size then .error (.sizeMismatch c.offset c.size bytes.length) p
        else .ok () { p with storage := p.storage.write c.offset.toNat (1 :: bytes) } := by
      rw [Pool.store, hentry, ← h.flag c hc]
    have hcells : cs.store c.offset bytes =
        if c.value.isSome then .error (.alreadyInitialized c.offset) cs
        else if bytes.length ≠ c.size then .error (.sizeMismatch c.offset c.size bytes.length) cs
        else .ok () (cs.write c.offset bytes) := by
      rw [Cells.store, hat]
    by_cases hvalue : c.value.isSome
    · rw [hstore, hcells, if_pos hvalue, if_pos hvalue]
      exact .error _ h
    · by_cases hlength : bytes.length ≠ c.size
      · rw [hstore, hcells, if_neg hvalue, if_neg hvalue, if_pos hlength, if_pos hlength]
        exact .error _ h
      · rw [if_neg hvalue, if_neg hlength] at hstore hcells
        rw [hcells, hstore]
        exact .ok _ (h.write hc hstore)

/-- A call fails alike for a pool and for its cells, or gives the same answer. -/
theorem call (h : p.Holds cs) (c : PoolCall)
    (hfits : ∀ answer q, p.call c = .ok answer q → q.reserved < 2 ^ 32) :
    Alike Holds (p.call c) (cs.call c) := by
  cases c with
  | declare name ty size initializer =>
    refine (h.declare name ty size initializer fun o q hq => ?_).answering some
    exact hfits (some o) q (by rw [Pool.call, hq]; rfl)
  | store o bytes => exact (h.store o bytes).answering _

end Holds

/-- A call is refused before anything is changed, or it leaves the bytes that are reserved. -/
theorem call_cases (p : Pool) (c : PoolCall) :
    (∃ e, p.call c = .error e p) ∨
      ∃ answer q, p.call c = .ok answer q ∧ p.reserved ≤ q.reserved := by
  cases c with
  | declare name ty size initializer =>
    rw [call, declare]
    by_cases hname : p.entries.contains name = true
    · rw [if_pos hname]
      exact .inl ⟨_, rfl⟩
    · rw [if_neg hname]
      exact .inr ⟨_, _, rfl, by rw [Nat.add_assoc]; exact Nat.le_add_right _ _⟩
  | store o bytes =>
    rw [call]
    cases hstore : p.store o bytes with
    | error e q =>
      cases eq_of_store_refused hstore
      exact .inl ⟨e, rfl⟩
    | ok _ q =>
      obtain ⟨_, _, _, _, rfl⟩ := store_cases hstore
      exact .inr ⟨_, _, rfl, Nat.le_refl _⟩

theorem eq_of_refused {p q : Pool} {c : PoolCall} {e : PoolError} (h : p.call c = .error e q) :
    q = p := by
  obtain ⟨e', he⟩ | ⟨_, _, hok, _⟩ := p.call_cases c
  · cases h.symm.trans he
    rfl
  · cases h.symm.trans hok

theorem reserved_le_of_call (p : Pool) (c : PoolCall) :
    p.reserved ≤ (settle (p.call c)).2.reserved := by
  obtain ⟨e, he⟩ | ⟨_, _, hok, hle⟩ := p.call_cases c
  · rw [he]
    exact Nat.le_refl _
  · rw [hok]
    exact hle

theorem reserved_le_serve (p : Pool) (calls : List PoolCall) :
    p.reserved ≤ (serve Pool.call p calls).2.reserved := by
  induction calls generalizing p with
  | nil => exact Nat.le_refl _
  | cons c rest ih => exact Nat.le_trans (reserved_le_of_call p c) (ih _)

/-- All calls are answered alike, and afterwards the pool holds the cells. -/
theorem Holds.serve {p : Pool} {cs : Cells} (h : p.Holds cs) (calls : List PoolCall)
    (hfits : (serve Pool.call p calls).2.reserved < 2 ^ 32) :
    (serve Pool.call p calls).1 = (serve Cells.call cs calls).1 ∧
      (serve Pool.call p calls).2.Holds (serve Cells.call cs calls).2 := by
  induction calls generalizing p cs with
  | nil => exact ⟨rfl, h⟩
  | cons c rest ih =>
    have halike := h.call c fun answer q hq => by
      rw [PoolCall.serve, hq] at hfits
      exact Nat.lt_of_le_of_lt (reserved_le_serve q rest) hfits
    rw [PoolCall.serve, PoolCall.serve]
    rw [PoolCall.serve] at hfits
    generalize p.call c = x at halike hfits
    generalize cs.call c = y at halike
    cases halike with
    | error e hstate | ok answer hstate =>
      obtain ⟨hanswers, hholds⟩ := ih hstate hfits
      exact ⟨congrArg _ hanswers, hholds⟩

/-! ## What calls show -/

/-- All that can be learnt of the pool is learnt of its cells. -/
structure Shows (p : Pool) (cs : Cells) : Prop where
  entries : p.entries.entries = cs.map fun c => (c.name, c.toPoolEntry)
  reserved : p.reserved = cs.size
  offsetOf? : ∀ name, p.offsetOf? name = (cs.named? name).map (·.offset)
  entry : ∀ o, p.entry o = match cs.at? o with
    | some c => .ok c.toPoolEntry
    | none => .error (.undeclaredOffset o)
  initializer : ∀ o, p.initializer o = match cs.at? o with
    | some c => .ok c.initializer
    | none => .error (.missingInitializer o)
  isInitialized : ∀ o, p.isInitialized o = match cs.at? o with
    | some c => .ok c.value.isSome
    | none => .error (.undeclaredOffset o)
  data : ∀ o, p.data o = match cs.at? o with
    | some c => .ok c.bytes
    | none => .error (.undeclaredOffset o)

/-- Storing succeeds for the cells that are empty and have the size of the value. It changes this
cell and no other. -/
structure StoresOnce (p : Pool) (cs : Cells) : Prop where
  possible : ∀ o bytes, (∃ q, p.store o bytes = .ok () q) ↔
    ∃ c ∈ cs, c.offset = o ∧ c.value = none ∧ bytes.length = c.size
  refused : ∀ o bytes e, (∃ q, p.store o bytes = .error e q) ↔
    ∃ ds, cs.store o bytes = .error e ds
  effect : ∀ o bytes q, p.store o bytes = .ok () q → p.Stores o bytes q

end Pool

/-- Cells with different names that follow one another without a gap. -/
structure Cells.Placed (cs : Cells) : Prop where
  names : (cs.map (·.name)).Nodup
  offset : ∀ front c back, cs = front ++ c :: back → c.offset.toNat = Cells.size front
  inside : ∀ c ∈ cs, ∀ o : UInt32, c.offset.toNat < o.toNat →
    o.toNat < c.offset.toNat + 1 + c.size → cs.at? o = none
  sized : ∀ c ∈ cs, ∀ bytes, c.value = some bytes → bytes.length = c.size

namespace Pool.Holds

variable {p : Pool} {cs : Cells}

theorem shows (h : p.Holds cs) : p.Shows cs where
  entries := by rw [h.lists.entries, Cells.entries, List.map_map]; rfl
  reserved := h.reserved_eq
  offsetOf? name := by
    rw [offsetOf?, OrderedMap.find?, h.lists.entries, lookup_map_eq_find?, Option.map_map,
      Cells.entries, List.find?_map, Option.map_map]
    rfl
  entry := h.entry
  initializer o := by
    rw [initializer, h.lists.index h.places_fit, at?_eq]
    cases cs.at? o <;> rfl
  isInitialized o := by
    rw [isInitialized, h.entry]
    cases hat : cs.at? o with
    | none => rfl
    | some c =>
      have ho : c.offset = o := by simpa using List.find?_some hat
      exact congrArg Except.ok (ho ▸ h.flag c (List.mem_of_find?_eq_some hat))
  data o := by
    rw [Pool.data, h.entry]
    cases hat : cs.at? o with
    | none => rfl
    | some c => exact congrArg Except.ok (h.bytes c (List.mem_of_find?_eq_some hat))

theorem storesOnce (h : p.Holds cs) : p.StoresOnce cs where
  possible o bytes := by
    rw [(h.store o bytes).ok_iff, Cells.store_ok_iff]
    constructor
    · rintro ⟨c, hat, hvalue, hlength⟩
      exact ⟨c, List.mem_of_find?_eq_some hat, by simpa using List.find?_some hat, hvalue, hlength⟩
    · rintro ⟨c, hc, rfl, hvalue, hlength⟩
      exact ⟨c, h.at?_of_mem hc, hvalue, hlength⟩
  refused o bytes e := (h.store o bytes).error_iff
  effect o bytes q := h.stores

theorem placed (h : p.Holds cs) : cs.Placed where
  names := by
    have hdistinct : p.entries.keys.Nodup := p.entries.distinct
    rwa [h.lists.keys, Cells.entries, List.map_map] at hdistinct
  offset front c back hcs := by
    have hchain := h.lists.chain
    have hfits := h.fits
    rw [h.reserved_eq, hcs, Cells.size, List.map_append, List.sum_append] at hfits
    rw [hcs, Cells.entries, List.map_append, List.map_cons, chain_append, chain_cons, stop_eq_sum,
      List.map_map, Nat.zero_add] at hchain
    rw [hchain.2.1]
    exact UInt32.toNat_ofNat_of_lt' (Nat.lt_of_le_of_lt (Nat.le_add_right _ _) hfits)
  inside c hc o hlow hhigh := by
    rw [Cells.at?, List.find?_eq_none]
    intro c' hc' ho
    have ho : c'.offset = o := of_decide_eq_true ho
    have hne : c'.toPoolEntry ≠ c.toPoolEntry := fun heq => by
      rw [← ho, heq] at hlow
      exact Nat.lt_irrefl _ hlow
    have hapart := (h.lists.chain.apart h.places_fit).forall (List.mem_map_of_mem hc')
      (List.mem_map_of_mem hc) hne
    rw [PoolEntry.Apart, ho] at hapart
    omega
  sized c hc bytes hvalue := by
    have hsized := h.sized c hc
    rwa [Cell.bytes, hvalue] at hsized

end Pool.Holds
end ForeignVM
