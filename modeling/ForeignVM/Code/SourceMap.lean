/-!
# ForeignVM.Code.SourceMap

Which source text an instruction came from. Entries are kept in the order of their addresses,
one for each address; instructions without a source have none.

* `SourceMap.insert` — adds a node, in place of the one that was there.
* `SourceMap.find?`  — the node of an address.
-/

namespace ForeignVM

structure SourceNode where
  text : String
  line : UInt32
  column : UInt32
  deriving DecidableEq, Repr, Inhabited

def SourceNode.display (n : SourceNode) : String :=
  n.text ++ " @ " ++ toString n.line.toNat ++ ":" ++ toString n.column.toNat

structure SourceMap where
  entries : List (UInt32 × SourceNode)
  ascending : (entries.map Prod.fst).Pairwise (· < ·)
  deriving DecidableEq, Repr

namespace SourceMap

def empty : SourceMap := ⟨[], List.Pairwise.nil⟩

instance : Inhabited SourceMap := ⟨empty⟩

/-- Puts the node in the place of its address. -/
def place (ip : UInt32) (node : SourceNode) :
    List (UInt32 × SourceNode) → List (UInt32 × SourceNode)
  | [] => [(ip, node)]
  | e :: rest =>
    if ip < e.1 then (ip, node) :: e :: rest
    else if ip = e.1 then (ip, node) :: rest
    else e :: place ip node rest

theorem mem_keys_place {ip k : UInt32} {node : SourceNode} {es : List (UInt32 × SourceNode)}
    (h : k ∈ (place ip node es).map Prod.fst) : k = ip ∨ k ∈ es.map Prod.fst := by
  induction es with
  | nil => simpa [place] using h
  | cons e rest ih =>
    unfold place at h
    split at h
    · simpa using h
    · split at h
      · simp only [List.map_cons, List.mem_cons] at h ⊢
        exact h.imp id .inr
      · simp only [List.map_cons, List.mem_cons] at h ⊢
        rcases h with h | h
        · exact .inr (.inl h)
        · exact (ih h).imp id .inr

theorem ascending_place {ip : UInt32} {node : SourceNode} {es : List (UInt32 × SourceNode)}
    (h : (es.map Prod.fst).Pairwise (· < ·)) :
    ((place ip node es).map Prod.fst).Pairwise (· < ·) := by
  induction es with
  | nil => simp [place]
  | cons e rest ih =>
    rw [List.map_cons, List.pairwise_cons] at h
    unfold place
    split
    · next hlt =>
      rw [List.map_cons, List.pairwise_cons]
      refine ⟨fun k hk => ?_, List.pairwise_cons.mpr h⟩
      rcases List.mem_cons.mp hk with rfl | hk
      · exact hlt
      · exact UInt32.lt_trans hlt (h.1 k hk)
    · next hge =>
      split
      · next heq =>
        subst heq
        rw [List.map_cons, List.pairwise_cons]
        exact h
      · next hne =>
        rw [List.map_cons, List.pairwise_cons]
        refine ⟨fun k hk => ?_, ih h.2⟩
        rcases mem_keys_place hk with rfl | hk
        · rcases UInt32.lt_or_lt_of_ne hne with hlt | hlt
          · exact absurd hlt hge
          · exact hlt
        · exact h.1 k hk

def insert (m : SourceMap) (ip : UInt32) (node : SourceNode) : SourceMap :=
  ⟨place ip node m.entries, ascending_place m.ascending⟩

def ofList (es : List (UInt32 × SourceNode)) : SourceMap :=
  es.foldl (fun m e => m.insert e.1 e.2) empty

theorem place_of_lt {ip : UInt32} {es : List (UInt32 × SourceNode)}
    (h : ∀ k ∈ es.map Prod.fst, k < ip) (node : SourceNode) :
    place ip node es = es ++ [(ip, node)] := by
  induction es with
  | nil => rfl
  | cons e es ih =>
    have hlt : e.1 < ip := h e.1 List.mem_cons_self
    have hge : ¬ ip < e.1 := UInt32.lt_asymm hlt
    have hne : ¬ ip = e.1 := fun heq => UInt32.lt_irrefl _ (heq ▸ hlt)
    rw [place, if_neg hge, if_neg hne, ih fun k hk => h k (.tail _ hk), List.cons_append]

theorem entries_foldl_insert (m : SourceMap) {es : List (UInt32 × SourceNode)}
    (h : ((m.entries ++ es).map Prod.fst).Pairwise (· < ·)) :
    (es.foldl (fun m e => m.insert e.1 e.2) m).entries = m.entries ++ es := by
  induction es generalizing m with
  | nil => rw [List.foldl_nil, List.append_nil]
  | cons e es ih =>
    have hlast : ∀ k ∈ m.entries.map Prod.fst, k < e.1 := by
      rw [List.map_append, List.pairwise_append] at h
      exact fun k hk => h.2.2 k hk e.1 (by simp)
    have hinsert : (m.insert e.1 e.2).entries = m.entries ++ [e] := place_of_lt hlast e.2
    rw [List.foldl_cons, ih, hinsert, List.append_assoc, List.singleton_append]
    rwa [hinsert, List.append_assoc]

/-- A map is made of its entries. -/
theorem ofList_entries (m : SourceMap) : ofList m.entries = m := by
  have hentries : (ofList m.entries).entries = m.entries := entries_foldl_insert empty m.ascending
  cases m
  cases h : ofList _
  rw [h] at hentries
  cases hentries
  rfl

def find? (m : SourceMap) (ip : UInt32) : Option SourceNode := m.entries.lookup ip

def size (m : SourceMap) : Nat := m.entries.length

end SourceMap
end ForeignVM
