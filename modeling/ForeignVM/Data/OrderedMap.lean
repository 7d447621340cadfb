/-!
# ForeignVM.Data.OrderedMap

Maps from names that remember the order in which the names first came.

* `insert` — a new name goes to the end; a name that is there keeps its place and takes the
  new value.
* `ofList` — the entries inserted one after the other; `ofList_entries`: those of a map are its own.
* `get?`, `find?` — access by name and by position.
-/

namespace ForeignVM

structure OrderedMap (α : Type) where
  entries : List (String × α)
  distinct : (entries.map Prod.fst).Nodup
  deriving DecidableEq, Repr

namespace OrderedMap

variable {α : Type}

def empty : OrderedMap α := ⟨[], List.nodup_nil⟩

instance : Inhabited (OrderedMap α) := ⟨empty⟩

def keys (m : OrderedMap α) : List String := m.entries.map Prod.fst

def values (m : OrderedMap α) : List α := m.entries.map Prod.snd

def size (m : OrderedMap α) : Nat := m.entries.length

def isEmpty (m : OrderedMap α) : Bool := m.entries.isEmpty

/-- Replaces the value of `key`, or adds the pair at the end. -/
def upsert (key : String) (value : α) : List (String × α) → List (String × α)
  | [] => [(key, value)]
  | e :: rest => if e.1 = key then (key, value) :: rest else e :: upsert key value rest

theorem keys_upsert (key : String) (value : α) (es : List (String × α)) :
    (upsert key value es).map Prod.fst =
      if key ∈ es.map Prod.fst then es.map Prod.fst else es.map Prod.fst ++ [key] := by
  induction es with
  | nil => simp [upsert]
  | cons e rest ih =>
    by_cases h : e.1 = key
    · simp [upsert, h]
    · have h' : ¬ key = e.1 := fun hk => h hk.symm
      simp only [upsert, h, if_false, List.map_cons, ih, List.mem_cons, h', false_or]
      split <;> rfl

theorem nodup_upsert {key : String} {value : α} {es : List (String × α)}
    (h : (es.map Prod.fst).Nodup) : ((upsert key value es).map Prod.fst).Nodup := by
  rw [keys_upsert]
  split
  · exact h
  · next hk =>
    rw [List.nodup_append]
    exact ⟨h, by simp, by intro a ha b hb hab; simp at hb; subst hb; subst hab; exact hk ha⟩

def insert (m : OrderedMap α) (key : String) (value : α) : OrderedMap α :=
  ⟨upsert key value m.entries, nodup_upsert m.distinct⟩

def ofList (es : List (String × α)) : OrderedMap α :=
  es.foldl (fun m e => m.insert e.1 e.2) empty

/-- A new name goes to the end. -/
theorem upsert_of_not_mem {key : String} {es : List (String × α)} (h : key ∉ es.map Prod.fst)
    (value : α) : upsert key value es = es ++ [(key, value)] := by
  induction es with
  | nil => rfl
  | cons e es ih =>
    rw [List.map_cons, List.mem_cons, not_or] at h
    have hne : ¬ e.1 = key := fun he => h.1 he.symm
    rw [upsert, if_neg hne, ih h.2, List.cons_append]

theorem entries_foldl_insert (m : OrderedMap α) {es : List (String × α)}
    (h : ((m.entries ++ es).map Prod.fst).Nodup) :
    (es.foldl (fun m e => m.insert e.1 e.2) m).entries = m.entries ++ es := by
  induction es generalizing m with
  | nil => rw [List.foldl_nil, List.append_nil]
  | cons e es ih =>
    have hnew : e.1 ∉ m.entries.map Prod.fst := by
      rw [List.map_append, List.nodup_append] at h
      exact fun hmem => h.2.2 e.1 hmem e.1 (by simp) rfl
    have hinsert : (m.insert e.1 e.2).entries = m.entries ++ [e] := upsert_of_not_mem hnew e.2
    rw [List.foldl_cons, ih, hinsert, List.append_assoc, List.singleton_append]
    rwa [hinsert, List.append_assoc]

/-- A map is made of its entries. -/
theorem ofList_entries (m : OrderedMap α) : ofList m.entries = m := by
  have hentries : (ofList m.entries).entries = m.entries := entries_foldl_insert empty m.distinct
  cases m
  cases h : ofList _
  rw [h] at hentries
  cases hentries
  rfl

def get? (m : OrderedMap α) (i : Nat) : Option (String × α) := m.entries[i]?

def find? (m : OrderedMap α) (key : String) : Option α := m.entries.lookup key

def contains (m : OrderedMap α) (key : String) : Bool := (m.find? key).isSome

theorem contains_eq_false_iff {m : OrderedMap α} {key : String} :
    m.contains key = false ↔ key ∉ m.keys := by
  rw [contains, find?, Option.isSome_eq_false_iff, Option.isNone_iff_eq_none,
    List.lookup_eq_none_iff, keys, List.mem_map]
  constructor
  · rintro h ⟨e, he, rfl⟩
    simpa using h e he
  · exact fun h e he => bne_iff_ne.mpr fun hkey => h ⟨e, he, hkey.symm⟩

/-- A new name goes to the end. -/
theorem entries_insert {m : OrderedMap α} {key : String} (h : m.contains key = false)
    (value : α) : (m.insert key value).entries = m.entries ++ [(key, value)] :=
  upsert_of_not_mem (contains_eq_false_iff.mp h) value

end OrderedMap
end ForeignVM
