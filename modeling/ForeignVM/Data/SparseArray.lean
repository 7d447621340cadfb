/-!
# ForeignVM.Data.SparseArray

Arrays of unbounded extent of which finitely many cells are filled. A cell is reached along the
digits of its index, so the work grows with the logarithm of the index and nothing is reserved
for empty cells.

* `Tree`       — a cell and the trees of the odd and of the even indices that follow it.
* `Tree.put`   — fills or clears one cell, leaving no branch without a filled cell.
* `SparseArray` — the trees without such branches: two of them with the same cells are equal,
  by `SparseArray.ext`.
* `SparseArray.count` — how many cells are filled.
-/

namespace ForeignVM

/-- The digits that lead to cell `i`: whether the index is odd, then those of the index halved. -/
def cellPath (i : Nat) : List Bool :=
  go (i + 1) i
where
  go : Nat → Nat → List Bool
    | 0, _ => []
    | fuel + 1, i => if i = 0 then [] else (i % 2 == 1) :: go fuel ((i - 1) / 2)

inductive Tree (α : Type) where
  | leaf
  | node (cell : Option α) (odd even : Tree α)
  deriving DecidableEq, Repr

namespace Tree

variable {α : Type}

def get : Tree α → List Bool → Option α
  | .leaf, _ => none
  | .node cell _ _, [] => cell
  | .node _ odd _, true :: path => odd.get path
  | .node _ _ even, false :: path => even.get path

/-- A node, or a leaf if there is nothing in it. -/
def join : Option α → Tree α → Tree α → Tree α
  | none, .leaf, .leaf => .leaf
  | cell, odd, even => .node cell odd even

def cell : Tree α → Option α
  | .leaf => none
  | .node cell _ _ => cell

def odd : Tree α → Tree α
  | .leaf => .leaf
  | .node _ odd _ => odd

def even : Tree α → Tree α
  | .leaf => .leaf
  | .node _ _ even => even

def put (value : Option α) : List Bool → Tree α → Tree α
  | [], t => join value t.odd t.even
  | true :: path, t => join t.cell (put value path t.odd) t.even
  | false :: path, t => join t.cell t.odd (put value path t.even)

/-- The number of filled cells. -/
def count : Tree α → Nat
  | .leaf => 0
  | .node cell odd even => cell.isSome.toNat + odd.count + even.count

/-- No branch is without a filled cell. -/
def Trimmed : Tree α → Prop
  | .leaf => True
  | .node cell odd even =>
    (cell ≠ none ∨ odd ≠ .leaf ∨ even ≠ .leaf) ∧ odd.Trimmed ∧ even.Trimmed

theorem get_leaf (path : List Bool) : (leaf : Tree α).get path = none := by
  cases path <;> rfl

theorem cell_join (cell : Option α) (odd even : Tree α) : (join cell odd even).cell = cell := by
  cases cell <;> cases odd <;> cases even <;> rfl

theorem odd_join (cell : Option α) (odd even : Tree α) : (join cell odd even).odd = odd := by
  cases cell <;> cases odd <;> cases even <;> rfl

theorem even_join (cell : Option α) (odd even : Tree α) : (join cell odd even).even = even := by
  cases cell <;> cases odd <;> cases even <;> rfl

theorem get_nil (t : Tree α) : t.get [] = t.cell := by cases t <;> rfl

theorem get_true (t : Tree α) (path : List Bool) : t.get (true :: path) = t.odd.get path := by
  cases t <;> simp [get, odd]

theorem get_false (t : Tree α) (path : List Bool) : t.get (false :: path) = t.even.get path := by
  cases t <;> simp [get, even]

theorem get_put (value : Option α) (p q : List Bool) (t : Tree α) :
    (put value p t).get q = if q = p then value else t.get q := by
  induction p generalizing q t with
  | nil =>
    cases q with
    | nil => simp [put, get_nil, cell_join]
    | cons d q => cases d <;> simp [put, get_true, get_false, odd_join, even_join]
  | cons d p ih =>
    cases q with
    | nil => cases d <;> simp [put, get_nil, cell_join]
    | cons e q =>
      cases d <;> cases e <;> simp [put, get_true, get_false, odd_join, even_join, ih]

theorem count_eq (t : Tree α) : t.count = t.cell.isSome.toNat + t.odd.count + t.even.count := by
  cases t <;> rfl

theorem count_join (cell : Option α) (odd even : Tree α) :
    (join cell odd even).count = cell.isSome.toNat + odd.count + even.count := by
  rw [count_eq, cell_join, odd_join, even_join]

/-- Only the cell that is put changes the number. -/
theorem count_put (value : Option α) (path : List Bool) (t : Tree α) :
    (put value path t).count + (t.get path).isSome.toNat = t.count + value.isSome.toNat := by
  induction path generalizing t with
  | nil =>
    rw [put, count_join, get_nil, count_eq t]
    omega
  | cons d path ih =>
    cases d
    · have h := ih t.even
      rw [put, count_join, get_false, count_eq t]
      omega
    · have h := ih t.odd
      rw [put, count_join, get_true, count_eq t]
      omega

theorem trimmed_join {cell : Option α} {odd even : Tree α} (ho : odd.Trimmed)
    (he : even.Trimmed) : (join cell odd even).Trimmed := by
  cases cell <;> cases odd <;> cases even <;> simp_all [join, Trimmed]

theorem Trimmed.odd {t : Tree α} (h : t.Trimmed) : t.odd.Trimmed := by
  cases t with
  | leaf => trivial
  | node c o e => exact h.2.1

theorem Trimmed.even {t : Tree α} (h : t.Trimmed) : t.even.Trimmed := by
  cases t with
  | leaf => trivial
  | node c o e => exact h.2.2

theorem trimmed_put {value : Option α} {path : List Bool} {t : Tree α} (h : t.Trimmed) :
    (put value path t).Trimmed := by
  induction path generalizing t with
  | nil => exact trimmed_join h.odd h.even
  | cons d path ih =>
    cases d
    · exact trimmed_join h.odd (ih h.even)
    · exact trimmed_join (ih h.odd) h.even

/-- In a tree without empty branches some cell is filled, unless it is a leaf. -/
theorem Trimmed.exists_get {t : Tree α} (h : t.Trimmed) (hne : t ≠ .leaf) :
    ∃ path value, t.get path = some value := by
  induction t with
  | leaf => exact absurd rfl hne
  | node cell odd even iho ihe =>
    obtain ⟨hcell | hodd | heven, ho, he⟩ := h
    · obtain ⟨value, hvalue⟩ := Option.ne_none_iff_exists'.mp hcell
      exact ⟨[], value, hvalue⟩
    · obtain ⟨path, value, hvalue⟩ := iho ho hodd
      exact ⟨true :: path, value, hvalue⟩
    · obtain ⟨path, value, hvalue⟩ := ihe he heven
      exact ⟨false :: path, value, hvalue⟩

theorem Trimmed.ext {t u : Tree α} (ht : t.Trimmed) (hu : u.Trimmed)
    (h : ∀ path, t.get path = u.get path) : t = u := by
  induction t generalizing u with
  | leaf =>
    cases u with
    | leaf => rfl
    | node cell odd even =>
      obtain ⟨path, value, hvalue⟩ := hu.exists_get (by simp)
      rw [← h, get_leaf] at hvalue
      cases hvalue
  | node cell odd even iho ihe =>
    cases u with
    | leaf =>
      obtain ⟨path, value, hvalue⟩ := ht.exists_get (by simp)
      rw [h, get_leaf] at hvalue
      cases hvalue
    | node cell' odd' even' =>
      have hcell : cell = cell' := h []
      have hodd : odd = odd' := iho ht.2.1 hu.2.1 fun path => h (true :: path)
      have heven : even = even' := ihe ht.2.2 hu.2.2 fun path => h (false :: path)
      rw [hcell, hodd, heven]

end Tree

structure SparseArray (α : Type) where
  tree : Tree α
  trimmed : tree.Trimmed
  deriving DecidableEq, Repr

namespace SparseArray

variable {α : Type}

def empty : SparseArray α := ⟨.leaf, trivial⟩

instance : Inhabited (SparseArray α) := ⟨empty⟩

def get? (a : SparseArray α) (i : Nat) : Option α := a.tree.get (cellPath i)

/-- Fills cell `i`, or clears it if there is no value. -/
def put (a : SparseArray α) (i : Nat) (value : Option α) : SparseArray α :=
  ⟨a.tree.put value (cellPath i), Tree.trimmed_put a.trimmed⟩

/-- The number of filled cells. -/
def count (a : SparseArray α) : Nat := a.tree.count

end SparseArray

theorem cellPath_go_inj {f g i j : Nat} (hf : i < f) (hg : j < g)
    (h : cellPath.go f i = cellPath.go g j) : i = j := by
  induction f generalizing g i j with
  | zero => omega
  | succ f ih =>
    cases g with
    | zero => omega
    | succ g =>
      simp only [cellPath.go] at h
      by_cases hi : i = 0 <;> by_cases hj : j = 0 <;> simp only [hi, hj, if_true, if_false] at h
      · omega
      · simp at h
      · simp at h
      · rw [List.cons.injEq] at h
        have hrest := ih (by omega) (by omega) h.2
        have hparity : i % 2 = 1 ↔ j % 2 = 1 := by simpa using Bool.eq_iff_iff.mp h.1
        omega

theorem cellPath_inj {i j : Nat} (h : cellPath i = cellPath j) : i = j :=
  cellPath_go_inj (Nat.lt_succ_self i) (Nat.lt_succ_self j) h

/-- The cell to which some digits lead. -/
def cellIndex : List Bool → Nat
  | [] => 0
  | true :: path => 2 * cellIndex path + 1
  | false :: path => 2 * cellIndex path + 2

theorem cellPath_cellIndex (path : List Bool) : cellPath (cellIndex path) = path := by
  have hgo (fuel : Nat) (h : cellIndex path < fuel) :
      cellPath.go fuel (cellIndex path) = path := by
    induction path generalizing fuel with
    | nil => cases fuel <;> rfl
    | cons d path ih =>
      cases fuel with
      | zero => omega
      | succ fuel =>
        cases d
        · have hhalf : (2 * cellIndex path + 1) / 2 = cellIndex path := by omega
          have hparity : (2 * cellIndex path + 2) % 2 = 0 := by omega
          simp only [cellIndex] at h
          simp [cellIndex, cellPath.go, hhalf, hparity, ih fuel (by omega)]
        · have hparity : (2 * cellIndex path + 1) % 2 = 1 := by omega
          simp only [cellIndex] at h
          simp [cellIndex, cellPath.go, hparity, ih fuel (by omega)]
  exact hgo _ (Nat.lt_succ_self _)

namespace SparseArray

variable {α : Type}

/-- Arrays with the same cells are equal. -/
theorem ext {a b : SparseArray α} (h : ∀ i, a.get? i = b.get? i) : a = b := by
  have htree : a.tree = b.tree := a.trimmed.ext b.trimmed fun path => by
    have hcell := h (cellIndex path)
    rwa [get?, get?, cellPath_cellIndex] at hcell
  cases a
  cases b
  cases htree
  rfl

@[simp] theorem get?_empty (i : Nat) : (empty : SparseArray α).get? i = none :=
  Tree.get_leaf _

theorem get?_put (a : SparseArray α) (i j : Nat) (value : Option α) :
    (a.put i value).get? j = if j = i then value else a.get? j := by
  simp only [get?, put, Tree.get_put]
  by_cases h : j = i
  · simp [h]
  · have hp : ¬ cellPath j = cellPath i := fun hp => h (cellPath_inj hp)
    simp [h, hp]

theorem count_put (a : SparseArray α) (i : Nat) (value : Option α) :
    (a.put i value).count + (a.get? i).isSome.toNat = a.count + value.isSome.toNat :=
  Tree.count_put value (cellPath i) a.tree

end SparseArray
end ForeignVM
