import ForeignVM.Machine.State
import ForeignVM.Pool.ForProgram
import ForeignVM.Proofs.Traverse
import Mathlib.Logic.Relation

/-!
# ForeignVM.Proofs.Constants

The pool of a program, and how it changes. Constants lie apart from one another, so storing one of
them leaves the others alone; a constant is stored at most once, because its flag is looked at
before.

* `Pool.Unwrapped`  — every constant lies where its offset says.
* `Pool.Laid`       — the constants have their shapes and lie apart, by `declaring_of_forProgram`.
* `Pool.Stores`     — what storing a constant does to it and to the others; `store_ok`.
* `Move`            — the changes of pool and events that a machine makes.
* `Sound`           — before a constant is ready it is zero, and afterwards nothing happens to it;
  `sound_moves`, `stable_moves`.
-/

namespace ForeignVM

namespace OrderedMap

variable {α : Type}

theorem values_insert {m : OrderedMap α} {key : String} (h : m.contains key = false) (value : α) :
    (m.insert key value).values = m.values ++ [value] := by
  rw [values, values, entries_insert h, List.map_append, List.map_cons, List.map_nil]

end OrderedMap

namespace Pool

/-! ## Where constants lie -/

/-- The places of entries that follow one another from `start` on. -/
def places : Nat → List PoolEntry → List Nat
  | _, [] => []
  | start, e :: rest => start :: places (start + 1 + e.size) rest

/-- The end of the last of them. -/
def stop : Nat → List PoolEntry → Nat
  | start, [] => start
  | start, e :: rest => stop (start + 1 + e.size) rest

theorem places_append (start : Nat) (es : List PoolEntry) (e : PoolEntry) :
    places start (es ++ [e]) = places start es ++ [stop start es] := by
  induction es generalizing start with
  | nil => rfl
  | cons a es ih => rw [List.cons_append, places, ih, places, stop, List.cons_append]

theorem stop_append (start : Nat) (es : List PoolEntry) (e : PoolEntry) :
    stop start (es ++ [e]) = stop start es + 1 + e.size := by
  induction es generalizing start with
  | nil => rfl
  | cons a es ih => rw [List.cons_append, stop, ih, stop]

/-- No constant lies too far for an offset of 32 bits. -/
def Unwrapped (p : Pool) : Prop := ∀ n ∈ places 0 p.entries.values, n < 2 ^ 32

/-- Every constant has the size of its type, and two constants lie apart. -/
structure Laid (l : Layouts) (p : Pool) : Prop where
  offset : ∀ o e, p.entry o = .ok e → e.offset = o
  typed : ∀ o e, p.entry o = .ok e → ∃ s, l.shape e.ty = .ok s ∧ s.size = e.size
  apart : ∀ o o' e e', p.entry o = .ok e → p.entry o' = .ok e' → o ≠ o' →
    o.toNat + 1 + e.size ≤ o'.toNat ∨ o'.toNat + 1 + e'.size ≤ o.toNat

/-- What is known of a pool while constants are declared. -/
structure Declaring (l : Layouts) (p : Pool) : Prop where
  storage : p.storage = .empty
  reserved : p.reserved = stop 0 p.entries.values
  laid : p.Unwrapped → p.Laid l
  inside : p.Unwrapped → ∀ o e, p.entry o = .ok e → o.toNat + 1 + e.size ≤ p.reserved

theorem entry_empty (o : UInt32) (e : PoolEntry) : empty.entry o ≠ .ok e := by
  unfold entry empty
  rw [SparseArray.get?_empty]
  nofun

theorem declaring_empty (l : Layouts) : Declaring l empty := by
  refine ⟨rfl, rfl, fun _ => ⟨fun o e h => ?_, fun o e h => ?_, fun o _ e _ h => ?_⟩,
    fun _ o e h => ?_⟩ <;> exact absurd h (entry_empty o e)

/-- `q` is the pool `p` with one more constant behind all the others. -/
structure Declares (p : Pool) (e : PoolEntry) (q : Pool) : Prop where
  offset : e.offset = UInt32.ofNat p.reserved
  storage : q.storage = p.storage
  reserved : q.reserved = p.reserved + 1 + e.size
  values : q.entries.values = p.entries.values ++ [e]
  byOffset : q.byOffset = p.byOffset.put e.offset.toNat (some e)

theorem declare_ok {p q : Pool} {name : String} {ty : TypeId} {size : Nat} {id : RoutineId}
    {o : UInt32} (h : p.declare name ty size id = .ok o q) :
    p.Declares ⟨name, ty, o, size, id⟩ q := by
  unfold declare at h
  split at h
  · cases h
  · next hnew =>
    cases h
    exact ⟨rfl, rfl, rfl, OrderedMap.values_insert (by simpa using hnew) _, rfl⟩

/-- A constant of a program gets the size of its type. -/
theorem declareConstant_ok {l : Layouts} {p q : Pool} {c : Constant}
    (h : declareConstant l p c = .ok q) :
    ∃ s, l.shape c.ty = .ok s ∧ p.Declares ⟨c.name, c.ty, c.offset, s.size, c.initializer⟩ q := by
  unfold declareConstant Layouts.sizeOf at h
  cases hs : l.shape c.ty with
  | error e =>
    rw [hs] at h
    cases h
  | ok s =>
    rw [hs] at h
    dsimp only at h
    split at h
    · cases h
    · next o q' hdeclare =>
      split at h
      · next ho =>
        cases h
        exact ⟨s, rfl, ho ▸ declare_ok hdeclare⟩
      · cases h

namespace Declares

variable {p q : Pool} {e : PoolEntry} (h : p.Declares e q)
include h

theorem entry {o : UInt32} {e' : PoolEntry} (he : q.entry o = .ok e') :
    (o = e.offset ∧ e' = e) ∨ (o ≠ e.offset ∧ p.entry o = .ok e') := by
  unfold Pool.entry at he
  rw [h.byOffset, SparseArray.get?_put] at he
  by_cases heq : o.toNat = e.offset.toNat
  · rw [if_pos heq] at he
    cases he
    exact .inl ⟨UInt32.toNat_inj.mp heq, rfl⟩
  · rw [if_neg heq] at he
    exact .inr ⟨fun ho => heq (congrArg UInt32.toNat ho), he⟩

/-- The places so far are those of the smaller pool, and the new one lies at their end. -/
theorem unwrapped (hreserved : p.reserved = stop 0 p.entries.values) (hq : q.Unwrapped) :
    p.Unwrapped ∧ e.offset.toNat = p.reserved := by
  unfold Unwrapped at hq
  rw [h.values, places_append] at hq
  refine ⟨fun n hn => hq n (List.mem_append_left _ hn), ?_⟩
  have hlast := hq _ (List.mem_append_right _ (List.mem_singleton_self _))
  rw [h.offset, UInt32.toNat_ofNat', hreserved]
  exact Nat.mod_eq_of_lt hlast

end Declares

theorem Declaring.declares {l : Layouts} {p q : Pool} {e : PoolEntry} (hp : Declaring l p)
    (h : p.Declares e q) (htyped : ∃ s, l.shape e.ty = .ok s ∧ s.size = e.size) :
    Declaring l q := by
  have hfits := h.unwrapped hp.reserved
  refine ⟨h.storage.trans hp.storage, ?_, fun hq => ⟨fun o e' he => ?_, fun o e' he => ?_,
    fun o₁ o₂ e₁ e₂ h₁ h₂ hne => ?_⟩, fun hq o e' he => ?_⟩
  · rw [h.reserved, h.values, stop_append, hp.reserved]
  · obtain ⟨rfl, rfl⟩ | ⟨_, he⟩ := h.entry he
    · rfl
    · exact (hp.laid (hfits hq).1).offset o e' he
  · obtain ⟨_, rfl⟩ | ⟨_, he⟩ := h.entry he
    · exact htyped
    · exact (hp.laid (hfits hq).1).typed o e' he
  · obtain ⟨hunwrapped, hplace⟩ := hfits hq
    obtain ⟨rfl, rfl⟩ | ⟨_, h₁⟩ := h.entry h₁
    · obtain ⟨rfl, rfl⟩ | ⟨_, h₂⟩ := h.entry h₂
      · exact absurd rfl hne
      · have hinside := hp.inside hunwrapped o₂ e₂ h₂
        omega
    · obtain ⟨rfl, rfl⟩ | ⟨_, h₂⟩ := h.entry h₂
      · have hinside := hp.inside hunwrapped o₁ e₁ h₁
        omega
      · exact (hp.laid hunwrapped).apart o₁ o₂ e₁ e₂ h₁ h₂ hne
  · obtain ⟨hunwrapped, hplace⟩ := hfits hq
    have hreserved := h.reserved
    obtain ⟨rfl, rfl⟩ | ⟨_, he⟩ := h.entry he
    · omega
    · have hinside := hp.inside hunwrapped o e' he
      omega

theorem layouts_of_forProgram {program : Program} {p : Pool} (h : forProgram program = .ok p) :
    ∃ l, Layouts.compute program.types = .ok l := by
  unfold forProgram at h
  split at h
  · cases h
  · next l hl => exact ⟨l, hl⟩

/-- What the declaration of each constant keeps holds of the pool of a program. -/
theorem forProgram_induction {program : Program} {l : Layouts} {p : Pool} (P : Pool → Prop)
    (hl : Layouts.compute program.types = .ok l) (h : forProgram program = .ok p)
    (hempty : P empty)
    (hdeclare : ∀ p q c s, c ∈ program.constants → P p → l.shape c.ty = .ok s →
      p.Declares ⟨c.name, c.ty, c.offset, s.size, c.initializer⟩ q → P q) : P p := by
  unfold forProgram at h
  rw [hl] at h
  refine foldlM_invariant P h hempty fun p c q hmem hp hc => ?_
  obtain ⟨s, hs, hdeclares⟩ := declareConstant_ok hc
  exact hdeclare p q c s hmem hp hs hdeclares

theorem declaring_of_forProgram {program : Program} {l : Layouts} {p : Pool}
    (hl : Layouts.compute program.types = .ok l) (h : forProgram program = .ok p) :
    Declaring l p :=
  forProgram_induction (Declaring l) hl h (declaring_empty l) fun _ _ _ s _ hp hs hdeclares =>
    hp.declares hdeclares ⟨s, hs, rfl⟩

/-! ## Storing a constant -/

theorem data_of_entry {p : Pool} {o : UInt32} {e : PoolEntry} (he : p.entry o = .ok e) :
    p.data o = .ok (p.storage.read (e.offset.toNat + 1) e.size) := by
  rw [data, he]
  rfl

theorem isInitialized_eq_ok_iff {p : Pool} {o : UInt32} {b : Bool} :
    p.isInitialized o = .ok b ↔ (∃ e, p.entry o = .ok e) ∧ p.flag o = b := by
  unfold isInitialized
  cases p.entry o with
  | error e => simp
  | ok e => simp

theorem initializer_of_entry {p : Pool} {o : UInt32} {e : PoolEntry} (he : p.entry o = .ok e) :
    p.initializer o = .ok e.initializer := by
  unfold entry at he
  unfold initializer
  cases hget : p.byOffset.get? o.toNat with
  | none => rw [hget] at he; cases he
  | some e' =>
    rw [hget] at he
    cases he
    rfl

theorem entry_of_initializer {p : Pool} {o : UInt32} {id : RoutineId}
    (h : p.initializer o = .ok id) : ∃ e, p.entry o = .ok e ∧ e.initializer = id := by
  unfold initializer at h
  unfold entry
  cases he : p.byOffset.get? o.toNat with
  | none => rw [he] at h; cases h
  | some e =>
    rw [he] at h
    exact ⟨e, rfl, Except.ok.inj h⟩

theorem store_cases {p q : Pool} {o : UInt32} {bytes : Bytes} (h : p.store o bytes = .ok () q) :
    ∃ e, p.entry o = .ok e ∧ p.flag o = false ∧ bytes.length = e.size ∧
      q = { p with storage := p.storage.write o.toNat (1 :: bytes) } := by
  unfold store at h
  split at h
  · cases h
  · next e he =>
    split at h
    · cases h
    · next hflag =>
      split at h
      · cases h
      · next hsize =>
        cases h
        exact ⟨e, he, Bool.eq_false_iff.mpr hflag, not_not.mp hsize, rfl⟩

/-- The pools hold the same constants. -/
structure SameEntries (p q : Pool) : Prop where
  entries : q.entries = p.entries
  byOffset : q.byOffset = p.byOffset

namespace SameEntries

variable {p q r : Pool}

theorem refl (p : Pool) : SameEntries p p := ⟨rfl, rfl⟩

theorem trans (h : SameEntries p q) (h' : SameEntries q r) : SameEntries p r :=
  ⟨h'.entries.trans h.entries, h'.byOffset.trans h.byOffset⟩

theorem entry (h : SameEntries p q) (o : UInt32) : q.entry o = p.entry o := by
  unfold Pool.entry
  rw [h.byOffset]

theorem of_store {o : UInt32} {bytes : Bytes} (h : p.store o bytes = .ok () q) :
    SameEntries p q := by
  obtain ⟨_, _, _, _, rfl⟩ := store_cases h
  exact ⟨rfl, rfl⟩

end SameEntries

theorem Laid.of_sameEntries {l : Layouts} {p q : Pool} (h : p.Laid l) (hs : SameEntries p q) :
    q.Laid l := by
  refine ⟨?_, ?_, ?_⟩
  · intro o e he
    exact h.offset o e (hs.entry o ▸ he)
  · intro o e he
    exact h.typed o e (hs.entry o ▸ he)
  · intro o o' e e' he he'
    exact h.apart o o' e e' (hs.entry o ▸ he) (hs.entry o' ▸ he')

/-- The constant at `o` has been stored: it is there, and the others are as before. -/
structure Stores (p : Pool) (o : UInt32) (bytes : Bytes) (q : Pool) : Prop where
  same : SameEntries p q
  before : p.flag o = false
  flag : q.flag o = true
  data : q.data o = .ok bytes
  others : ∀ o' e', p.entry o' = .ok e' → o' ≠ o → q.flag o' = p.flag o' ∧ q.data o' = p.data o'

theorem stores_of_apart {p q : Pool} (hoffset : ∀ o e, p.entry o = .ok e → e.offset = o)
    (hapart : ∀ o o' e e', p.entry o = .ok e → p.entry o' = .ok e' → o ≠ o' →
      o.toNat + 1 + e.size ≤ o'.toNat ∨ o'.toNat + 1 + e'.size ≤ o.toNat)
    {o : UInt32} {bytes : Bytes} (h : p.store o bytes = .ok () q) : p.Stores o bytes q := by
  obtain ⟨e, he, hflag, hsize, hq⟩ := store_cases h
  have hsame := SameEntries.of_store h
  have hstorage : q.storage = p.storage.write o.toNat (1 :: bytes) := by rw [hq]
  refine ⟨hsame, hflag, ?_, ?_, ?_⟩
  · unfold Pool.flag
    rw [hstorage, ByteStore.byteAt_write]
    simp
  · rw [data_of_entry ((hsame.entry o).trans he), hoffset o e he, hstorage, ← hsize]
    have hread := ByteStore.read_write (p.storage.setByte o.toNat 1) (o.toNat + 1) bytes
    exact congrArg Except.ok hread
  · intro o' e' he' hne
    have hoff := hapart o o' e e' he he' fun h => hne h.symm
    have hbytes (i : Nat) (hi : o'.toNat ≤ i) (hlt : i < o'.toNat + 1 + e'.size) :
        q.storage.byteAt i = p.storage.byteAt i := by
      rw [hstorage, ByteStore.byteAt_write, if_neg]
      rw [List.length_cons, hsize]
      omega
    refine ⟨?_, ?_⟩
    · unfold flag
      rw [hbytes o'.toNat (Nat.le_refl _) (by omega)]
    · rw [data_of_entry ((hsame.entry o').trans he'), data_of_entry he', hoffset o' e' he']
      exact congrArg Except.ok
        (ByteStore.read_congr fun i hi hlt => hbytes i (by omega) (by omega))

theorem store_ok {l : Layouts} {p q : Pool} (hp : p.Laid l) {o : UInt32} {bytes : Bytes}
    (h : p.store o bytes = .ok () q) : p.Stores o bytes q :=
  stores_of_apart hp.offset hp.apart h

end Pool

/-! ## Pool and events -/

/-- The constant whose life an event is about. -/
def Event.constant? : Event → Option UInt32
  | .constInit offset | .constReady offset => some offset
  | _ => none

/-- The state of one constant and its events agree: it is ready once its flag is set, zero before,
and no event about it follows. -/
structure Settled (p : Pool) (es : List Event) (o : UInt32) (e : PoolEntry) : Prop where
  ready_iff : .constReady o ∈ es ↔ p.flag o = true
  zero : p.flag o = false → p.data o = .ok (List.replicate e.size 0)
  last : ∀ newer older, es = newer ++ .constReady o :: older →
    .constReady o ∉ newer ∧ .constInit o ∉ newer

/-- All constants of `p₀` are settled in a pool with the same entries. -/
structure Sound (p₀ : Pool) (r : Pool × List Event) : Prop where
  same : Pool.SameEntries p₀ r.1
  settled : ∀ o e, p₀.entry o = .ok e → Settled r.1 r.2 o e

theorem Settled.event {p : Pool} {es : List Event} {o : UInt32} {e : PoolEntry}
    (h : Settled p es o e) {new : Event} (hready : new ≠ .constReady o)
    (hinit : p.flag o = true → new ≠ .constInit o) : Settled p (new :: es) o e := by
  refine ⟨?_, h.zero, ?_⟩
  · rw [← h.ready_iff, List.mem_cons]
    exact ⟨fun hmem => hmem.resolve_left (Ne.symm hready), .inr⟩
  · intro newer older heq
    cases newer with
    | nil => exact absurd (List.cons.inj heq).1 hready
    | cons x newer =>
      obtain ⟨rfl, hes⟩ := List.cons.inj heq
      obtain ⟨hno, hno'⟩ := h.last newer older hes
      have hflag : p.flag o = true := h.ready_iff.mp (by rw [hes]; simp)
      refine ⟨?_, ?_⟩
      · rw [List.mem_cons]
        exact fun hmem => hmem.elim (Ne.symm hready) hno
      · rw [List.mem_cons]
        exact fun hmem => hmem.elim (Ne.symm (hinit hflag)) hno'

end ForeignVM
