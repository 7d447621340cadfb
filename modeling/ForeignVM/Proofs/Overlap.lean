import ForeignVM.Program.Validity
import ForeignVM.Proofs.Constants
import Mathlib.Data.List.Induction

/-!
# ForeignVM.Proofs.Overlap

When constants overlap in their pool. The places of constants follow one another without bound,
but an offset keeps only 32 bits of a place.

* `Pool.Chain`  — the offsets of entries are their places, as far as 32 bits go.
* `Pool.Lists`  — the entries of a pool, in the order of declaration.
* `Pool.ranges_of_forProgram` — in the pool of a program, all constants lie in the reserved
  storage. They lie apart if and only if every place fits into 32 bits.
-/

namespace ForeignVM

/-- The bytes of the constants, flag and value, lie apart. -/
def PoolEntry.Apart (e e' : PoolEntry) : Prop :=
  e.offset.toNat + 1 + e.size ≤ e'.offset.toNat ∨ e'.offset.toNat + 1 + e'.size ≤ e.offset.toNat

instance : Std.Symm PoolEntry.Apart := ⟨fun _ _ => Or.symm⟩

instance : DecidableRel PoolEntry.Apart := fun e e' =>
  inferInstanceAs (Decidable (e.offset.toNat + 1 + e.size ≤ e'.offset.toNat ∨
    e'.offset.toNat + 1 + e'.size ≤ e.offset.toNat))

namespace Pool

/-- The offsets are the places of entries that follow one another from `start` on, of which they
keep 32 bits. -/
def Chain (start : Nat) (es : List PoolEntry) : Prop :=
  es.map (·.offset) = (places start es).map UInt32.ofNat

theorem chain_cons {start : Nat} {e : PoolEntry} {es : List PoolEntry} :
    Chain start (e :: es) ↔ e.offset = UInt32.ofNat start ∧ Chain (start + 1 + e.size) es := by
  simp [Chain, places]

theorem chain_append {start : Nat} {es es' : List PoolEntry} :
    Chain start (es ++ es') ↔ Chain start es ∧ Chain (stop start es) es' := by
  induction es generalizing start with
  | nil => simp [Chain, places, stop]
  | cons a es ih => rw [List.cons_append, chain_cons, chain_cons, ih, stop, and_assoc]

theorem chain_concat {start : Nat} {es : List PoolEntry} {e : PoolEntry} :
    Chain start (es ++ [e]) ↔ Chain start es ∧ e.offset = UInt32.ofNat (stop start es) := by
  rw [chain_append, chain_cons]
  simp [Chain, places]

theorem le_stop (start : Nat) (es : List PoolEntry) : start ≤ stop start es := by
  induction es generalizing start with
  | nil => exact Nat.le_refl start
  | cons e es ih =>
    have h := ih (start + 1 + e.size)
    rw [stop]
    omega

theorem lt_stop_of_mem_places {start n : Nat} {es : List PoolEntry} (h : n ∈ places start es) :
    n < stop start es := by
  induction es generalizing start with
  | nil => cases h
  | cons e es ih =>
    rw [places, List.mem_cons] at h
    rw [stop]
    rcases h with rfl | h
    · have hle := le_stop (n + 1 + e.size) es
      omega
    · exact ih h

namespace Chain

variable {start : Nat} {es : List PoolEntry}

/-- A place is not below what is kept of it, so even then the bytes lie in the storage. -/
theorem inside (h : Chain start es) {e : PoolEntry} (he : e ∈ es) :
    e.offset.toNat + 1 + e.size ≤ stop start es := by
  induction es generalizing start with
  | nil => cases he
  | cons a es ih =>
    rw [chain_cons] at h
    rw [stop]
    rcases List.mem_cons.mp he with rfl | he
    · have hle := le_stop (start + 1 + e.size) es
      have hkept : e.offset.toNat ≤ start := by
        rw [h.1, UInt32.toNat_ofNat']
        exact Nat.mod_le start _
      omega
    · exact ih h.2 he

section Fits

variable (h : Chain start es) (hfits : ∀ n ∈ places start es, n < 2 ^ 32)
include h hfits

theorem start_le {e : PoolEntry} (he : e ∈ es) : start ≤ e.offset.toNat := by
  induction es generalizing start with
  | nil => cases he
  | cons a es ih =>
    rw [chain_cons] at h
    rw [places, List.forall_mem_cons] at hfits
    rcases List.mem_cons.mp he with rfl | he
    · have hplace : e.offset.toNat = start := by rw [h.1, UInt32.toNat_ofNat_of_lt' hfits.1]
      exact Nat.le_of_eq hplace.symm
    · have hle := ih h.2 hfits.2 he
      omega

theorem apart : es.Pairwise PoolEntry.Apart := by
  induction es generalizing start with
  | nil => exact .nil
  | cons e es ih =>
    rw [chain_cons] at h
    rw [places, List.forall_mem_cons] at hfits
    refine .cons (fun e' he' => .inl ?_) (ih h.2 hfits.2)
    rw [h.1, UInt32.toNat_ofNat_of_lt' hfits.1]
    exact h.2.start_le hfits.2 he'

/-- The entries leave no gap. -/
theorem exists_covering {o : Nat} (hstart : start ≤ o) (hstop : o < stop start es) :
    ∃ e ∈ es, e.offset.toNat ≤ o ∧ o < e.offset.toNat + 1 + e.size := by
  induction es generalizing start with
  | nil => exact absurd hstart (Nat.not_le.mpr hstop)
  | cons e es ih =>
    rw [chain_cons] at h
    rw [places, List.forall_mem_cons] at hfits
    rw [stop] at hstop
    have hoffset : e.offset.toNat = start := by
      rw [h.1, UInt32.toNat_ofNat_of_lt' hfits.1]
    by_cases hlt : o < start + 1 + e.size
    · exact ⟨e, List.mem_cons_self, by omega, by omega⟩
    · obtain ⟨e', he', hcovers⟩ := ih h.2 hfits.2 (by omega) hstop
      exact ⟨e', .tail e he', hcovers⟩

theorem nodup : (es.map (·.offset)).Nodup := by
  rw [List.Nodup, List.pairwise_map]
  refine (h.apart hfits).imp fun {e e'} hapart heq => ?_
  rw [PoolEntry.Apart, heq] at hapart
  omega

end Fits

/-- The first place that does not fit is cut down to one among the constants before it. -/
theorem fits_of_apart (h : Chain 0 es) (hapart : es.Pairwise PoolEntry.Apart) :
    ∀ n ∈ places 0 es, n < 2 ^ 32 := by
  induction es using List.reverseRecOn with
  | nil => nofun
  | append_singleton es e ih =>
    rw [chain_concat] at h
    rw [List.pairwise_append] at hapart
    have hfits := ih h.1 hapart.1
    rw [places_append, List.forall_mem_append, List.forall_mem_singleton]
    refine ⟨hfits, Nat.lt_of_not_le fun hwraps => ?_⟩
    have hoffset : e.offset.toNat = stop 0 es % 2 ^ 32 := by rw [h.2, UInt32.toNat_ofNat']
    have hlt : e.offset.toNat < stop 0 es := by omega
    obtain ⟨e', he', hcovers⟩ := h.1.exists_covering hfits (Nat.zero_le e.offset.toNat) hlt
    have happart := hapart.2.2 e' he' e (List.mem_singleton_self e)
    unfold PoolEntry.Apart at happart
    omega

end Chain

/-- The entries of the pool are `es`, in the order of declaration, and unless a place does not fit,
each is found at its offset. -/
structure Lists (p : Pool) (es : List PoolEntry) : Prop where
  entries : p.entries.entries = es.map fun e => (e.name, e)
  chain : Chain 0 es
  reserved : p.reserved = stop 0 es
  index : (∀ n ∈ places 0 es, n < 2 ^ 32) →
    ∀ o : UInt32, p.byOffset.get? o.toNat = es.find? (·.offset = o)

namespace Lists

variable {p : Pool} {es : List PoolEntry}

theorem empty : Pool.empty.Lists [] := ⟨rfl, rfl, rfl, fun _ _ => SparseArray.get?_empty _⟩

theorem keys (h : p.Lists es) : p.entries.keys = es.map (·.name) := by
  rw [OrderedMap.keys, h.entries, List.map_map]
  rfl

theorem values (h : p.Lists es) : p.entries.values = es := by
  rw [OrderedMap.values, h.entries, List.map_map]
  exact List.map_id es

theorem entry (h : p.Lists es) (hfits : ∀ n ∈ places 0 es, n < 2 ^ 32) (o : UInt32) :
    p.entry o = match es.find? (·.offset = o) with
      | some e => .ok e
      | none => .error (.undeclaredOffset o) := by
  cases hfound : es.find? (·.offset = o) <;> simp only [Pool.entry, h.index hfits, hfound]

theorem declare_known (h : p.Lists es) {name : String} (hname : name ∈ es.map (·.name))
    (ty : TypeId) (size : Nat) (initializer : RoutineId) :
    p.declare name ty size initializer = .error (.alreadyDeclared name) p := by
  have hknown : p.entries.contains name = true := by
    rw [← Bool.not_eq_false, OrderedMap.contains_eq_false_iff, h.keys]
    exact fun hnew => hnew hname
  rw [declare, if_pos hknown]

theorem declare_new (h : p.Lists es) {name : String} (hname : name ∉ es.map (·.name))
    (ty : TypeId) (size : Nat) (initializer : RoutineId) :
    ∃ q, p.declare name ty size initializer = .ok (UInt32.ofNat p.reserved) q ∧
      q.storage = p.storage ∧
      q.Lists (es ++ [⟨name, ty, UInt32.ofNat p.reserved, size, initializer⟩]) := by
  have hnew : p.entries.contains name = false :=
    OrderedMap.contains_eq_false_iff.mpr (h.keys ▸ hname)
  let e : PoolEntry := ⟨name, ty, UInt32.ofNat p.reserved, size, initializer⟩
  refine ⟨⟨p.entries.insert name e, p.byOffset.put e.offset.toNat (some e), p.storage,
    p.reserved + 1 + size⟩, ?_, rfl, ?_, ?_, ?_, ?_⟩
  · rw [declare, if_neg (Bool.eq_false_iff.mp hnew)]
  · rw [OrderedMap.entries_insert hnew, h.entries, List.map_append, List.map_singleton]
  · exact chain_concat.mpr ⟨h.chain, congrArg UInt32.ofNat h.reserved⟩
  · rw [stop_append, h.reserved]
  · intro hfits o
    rw [places_append, List.forall_mem_append, List.forall_mem_singleton, ← h.reserved] at hfits
    rw [SparseArray.get?_put, List.find?_append]
    by_cases ho : o = UInt32.ofNat p.reserved
    · have hfree : es.find? (·.offset = o) = none := by
        rw [List.find?_eq_none]
        intro e he heq
        have hinside := h.chain.inside he
        rw [of_decide_eq_true heq, ho, UInt32.toNat_ofNat_of_lt' hfits.2, h.reserved] at hinside
        omega
      rw [if_pos (congrArg UInt32.toNat ho), hfree, Option.none_or]
      simp [e, ho]
    · have hne : ¬ o.toNat = (UInt32.ofNat p.reserved).toNat := fun heq =>
        ho (UInt32.toNat_inj.mp heq)
      rw [if_neg hne, h.index hfits.1]
      have hother : [e].find? (·.offset = o) = none :=
        List.find?_cons_of_neg (by simpa using Ne.symm ho)
      rw [hother, Option.or_none]

end Lists

/-! ## The pool of a program -/

/-- The entry is that of the constant, with the size of its type. -/
structure Describes (l : Layouts) (c : Constant) (e : PoolEntry) : Prop where
  name : e.name = c.name
  ty : e.ty = c.ty
  offset : e.offset = c.offset
  initializer : e.initializer = c.initializer
  size : l.sizeOf c.ty = .ok e.size

theorem Lists.of_declareConstant {l : Layouts} {p q : Pool} {es : List PoolEntry} {c : Constant}
    (h : p.Lists es) (hc : declareConstant l p c = .ok q) :
    ∃ e, Describes l c e ∧ q.Lists (es ++ [e]) ∧ q.storage = p.storage := by
  unfold Pool.declareConstant at hc
  split at hc
  · cases hc
  · next size hsize =>
    by_cases hname : c.name ∈ es.map (·.name)
    · rw [h.declare_known hname] at hc
      cases hc
    · obtain ⟨q', hdeclare, hstorage, hlists⟩ := h.declare_new hname c.ty size c.initializer
      rw [hdeclare] at hc
      dsimp only at hc
      split at hc
      · next hoffset =>
        cases hc
        exact ⟨_, ⟨rfl, rfl, hoffset, rfl, hsize⟩, hlists, hstorage⟩
      · cases hc

theorem lists_of_declareAll {l : Layouts} {p : Pool} {cs : List Constant}
    (h : cs.foldlM (declareConstant l) empty = .ok p) :
    ∃ es, p.Lists es ∧ p.storage = .empty ∧ List.Forall₂ (Describes l) cs es := by
  induction cs using List.reverseRecOn generalizing p with
  | nil =>
    cases h
    exact ⟨[], .empty, rfl, .nil⟩
  | append_singleton cs c ih =>
    rw [foldlM_concat] at h
    cases hfront : cs.foldlM (declareConstant l) empty with
    | error e =>
      rw [hfront] at h
      cases h
    | ok q =>
      rw [hfront] at h
      obtain ⟨es, hlists, hstorage, hdescribes⟩ := ih hfront
      obtain ⟨e, he, hlast, hsame⟩ := hlists.of_declareConstant h
      exact ⟨es ++ [e], hlast, hsame.trans hstorage, List.rel_append hdescribes (.cons he .nil)⟩

/-- The constants of a program lie inside the storage in the order of their declaration, and they
lie apart if and only if no place needs more than 32 bits. Then each is found where it lies. -/
theorem ranges_of_forProgram {program : Program} {p : Pool} (h : forProgram program = .ok p) :
    ∃ l, Layouts.compute program.types = .ok l ∧
      List.Forall₂ (Describes l) program.constants p.entries.values ∧
      (∀ e ∈ p.entries.values, e.offset.toNat + 1 + e.size ≤ p.reserved) ∧
      (p.entries.values.Pairwise PoolEntry.Apart ↔ p.Unwrapped) ∧
      (p.Unwrapped → ∀ e ∈ p.entries.values, p.entry e.offset = .ok e) := by
  obtain ⟨l, hl⟩ := layouts_of_forProgram h
  unfold forProgram at h
  rw [hl] at h
  obtain ⟨es, hlists, -, hdescribes⟩ := lists_of_declareAll h
  unfold Unwrapped
  rw [hlists.values, hlists.reserved]
  refine ⟨l, hl, hdescribes, fun e he => hlists.chain.inside he,
    ⟨hlists.chain.fits_of_apart, hlists.chain.apart⟩, fun hfits e he => ?_⟩
  rw [hlists.entry hfits, find?_of_nodup (hlists.chain.nodup hfits) he]

/-- Fields with the types `n - 1` to `m`, in this order. -/
def descending (n m : Nat) : OrderedMap TypeId :=
  .ofList (((List.range' m (n - m)).reverse).map fun k => ("f" ++ toString k, .ofPosition k))

/-- The type `k` has `2 ^ k` bytes, up to `k = 30`. With the next two types, two constants take up
`2 ^ 32 - 1` bytes, and the last constant is left with the offset of a byte of the first. -/
def wrapping : Program where
  code := #[2, 1, 0, 0, 0, 0, 0, 0, 0, 22, 5, 31, 0, 22, 5, 32, 0, 22, 2, 7, 0, 0, 0, 0, 0, 0, 0,
    22, 23, 0, 0, 0, 0, 22, 23, 1, 0, 0, 0, 22]
  sources := .empty
  types := ⟨(.scalar .u8 :: (List.range 30).map fun k =>
    .struct "Pair" (.ofList [("a", .ofPosition k), ("b", .ofPosition k)])).toArray ++
      #[.struct "All" (descending 31 0), .struct "Most" (descending 31 1)]⟩
  routines := #[⟨"init_first", 0, 0, [], some (.ofPosition 0)⟩,
    ⟨"init_all", 10, 0, [], some (.ofPosition 31)⟩, ⟨"init_most", 14, 0, [], some (.ofPosition 32)⟩,
    ⟨"init_last", 18, 0, [], some (.ofPosition 0)⟩, ⟨"first", 28, 0, [], some (.ofPosition 0)⟩,
    ⟨"last", 34, 0, [], some (.ofPosition 0)⟩]
  constants := [⟨"FIRST", .ofPosition 0, .ofPosition 0, 0⟩,
    ⟨"ALL", .ofPosition 31, .ofPosition 1, 2⟩, ⟨"MOST", .ofPosition 32, .ofPosition 2, 2147483650⟩,
    ⟨"LAST", .ofPosition 0, .ofPosition 3, 1⟩]
  natives := #[]
  entry := none

theorem exists_forProgram {β : Type} {program : Program} {f : Pool → β} {b : β}
    (h : (forProgram program).toOption.map f = some b) :
    ∃ p, forProgram program = .ok p ∧ f p = b := by
  cases hp : forProgram program with
  | error e =>
    rw [hp] at h
    cases h
  | ok p =>
    rw [hp] at h
    exact ⟨p, rfl, Option.some.inj h⟩

/-- The value byte of the first constant is the flag of the last one. -/
theorem wrapping_overlaps : wrapping.validate = .ok () ∧
    ∃ p, forProgram wrapping = .ok p ∧ ¬ p.entries.values.Pairwise PoolEntry.Apart := by
  have hvalid : wrapping.validate = .ok () := by decide +kernel
  have hvalues : (forProgram wrapping).toOption.map (·.entries.values) =
      some [⟨"FIRST", .ofPosition 0, 0, 1, .ofPosition 0⟩,
        ⟨"ALL", .ofPosition 31, 2, 2147483647, .ofPosition 1⟩,
        ⟨"MOST", .ofPosition 32, 2147483650, 2147483646, .ofPosition 2⟩,
        ⟨"LAST", .ofPosition 0, 1, 1, .ofPosition 3⟩] := by decide +kernel
  obtain ⟨p, hp, hentries⟩ := exists_forProgram hvalues
  refine ⟨hvalid, p, hp, ?_⟩
  rw [hentries]
  decide

/-- Without the last two, the constants of the same program lie apart. -/
theorem ranges_of_forProgram_front : ∃ p,
    forProgram { wrapping with constants := wrapping.constants.take 2 } = .ok p ∧ p.Unwrapped ∧
      p.entries.values.Pairwise PoolEntry.Apart := by
  have hplaces : (forProgram { wrapping with constants := wrapping.constants.take 2 }).toOption.map
      (fun p => places 0 p.entries.values) = some [0, 2] := by decide +kernel
  obtain ⟨p, hp, hplaces⟩ := exists_forProgram hplaces
  have hfits : p.Unwrapped := by
    unfold Unwrapped
    rw [hplaces]
    decide
  obtain ⟨l, hl, hdescribes, hinside, hapart, hentry⟩ := ranges_of_forProgram hp
  exact ⟨p, hp, hfits, hapart.mpr hfits⟩

end Pool
end ForeignVM
