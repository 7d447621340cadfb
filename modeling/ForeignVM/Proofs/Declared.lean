import ForeignVM.Proofs.Cells
import ForeignVM.Proofs.Checks
import ForeignVM.Proofs.Shapes

/-!
# ForeignVM.Proofs.Declared

The pool that a program is given. Constants are declared in their order, and each has to be new and
compiled for the place that it gets.

* `Agreed`        — all constants are; `agreed_or_first`: or there is a first one that is not.
* `declareAll_ok`, `declareAll_refused` — the two ways in which declaring them ends.
* `pool_of_cells` — pools are ordered maps of cells that are written once, those of programs too.
-/

namespace ForeignVM
namespace Pool

/-- The bytes that constants take up. -/
def extents (l : Layouts) (cs : List Constant) : Nat :=
  (cs.map fun c => 1 + (l.sizeOf c.ty).toOption.getD 0).sum

/-- The constant is new, and it was compiled for the end of those before it. -/
def Agrees (l : Layouts) (front : List Constant) (c : Constant) : Prop :=
  c.name ∉ front.map (·.name) ∧ c.offset.toNat = extents l front

def Agreed (l : Layouts) (cs : List Constant) : Prop :=
  ∀ front c back, cs = front ++ c :: back → Agrees l front c

theorem extents_append (l : Layouts) (cs cs' : List Constant) :
    extents l (cs ++ cs') = extents l cs + extents l cs' := by
  rw [extents, List.map_append, List.sum_append]
  rfl

theorem agreed_concat {l : Layouts} {cs : List Constant} {c : Constant} :
    Agreed l (cs ++ [c]) ↔ Agreed l cs ∧ Agrees l cs c := by
  constructor
  · intro h
    refine ⟨fun front d back hcs => ?_, h cs c [] rfl⟩
    exact h front d (back ++ [c]) (by rw [hcs, List.append_assoc, List.cons_append])
  · rintro ⟨hfront, hlast⟩ front d back hcs
    rcases List.eq_nil_or_concat back with rfl | ⟨back, d', rfl⟩
    · obtain ⟨rfl, heq⟩ := List.append_inj' hcs rfl
      cases heq
      exact hlast
    · have hconcat : cs ++ [c] = (front ++ d :: back) ++ [d'] := by simpa using hcs
      exact hfront front d back (List.append_inj_left' hconcat rfl)

/-- The first constant that does not agree, if any. -/
theorem agreed_or_first (l : Layouts) (cs : List Constant) :
    Agreed l cs ∨
      ∃ front c back, cs = front ++ c :: back ∧ Agreed l front ∧ ¬ Agrees l front c := by
  induction cs using List.reverseRecOn with
  | nil => exact .inl fun front c back h => by simp at h
  | append_singleton cs c ih =>
    rcases ih with hagreed | ⟨front, d, back, rfl, hfront, hd⟩
    · by_cases hc : Agrees l cs c
      · exact .inl (agreed_concat.mpr ⟨hagreed, hc⟩)
      · exact .inr ⟨cs, c, [], rfl, hagreed, hc⟩
    · exact .inr ⟨front, d, back ++ [c], by simp, hfront, hd⟩

theorem names_of_describes {l : Layouts} {cs : List Constant} {es : List PoolEntry}
    (h : List.Forall₂ (Describes l) cs es) : es.map (·.name) = cs.map (·.name) := by
  induction h with
  | nil => rfl
  | cons he _ ih => rw [List.map_cons, List.map_cons, he.name, ih]

theorem stop_of_describes {l : Layouts} {cs : List Constant} {es : List PoolEntry}
    (h : List.Forall₂ (Describes l) cs es) : stop 0 es = extents l cs := by
  rw [stop_eq_sum, Nat.zero_add, extents]
  congr 1
  induction h with
  | nil => rfl
  | cons he _ ih => rw [List.map_cons, List.map_cons, he.size, ih]; rfl

section DeclareAll

variable {l : Layouts} {p : Pool} {es : List PoolEntry} {c : Constant} {cs : List Constant}

theorem Lists.declareConstant_agreed (h : p.Lists es) {size : Nat}
    (hsize : l.sizeOf c.ty = .ok size) (hname : c.name ∉ es.map (·.name))
    (hoffset : UInt32.ofNat p.reserved = c.offset) :
    ∃ q, declareConstant l p c = .ok q := by
  obtain ⟨q, hdeclare, -, -⟩ := h.declare_new hname c.ty size c.initializer
  refine ⟨q, ?_⟩
  simp only [declareConstant, hsize, hdeclare]
  rw [if_pos hoffset]

theorem Lists.declareConstant_refused (h : p.Lists es) {size : Nat}
    (hsize : l.sizeOf c.ty = .ok size)
    (hrefused : ¬ (c.name ∉ es.map (·.name) ∧ UInt32.ofNat p.reserved = c.offset)) :
    declareConstant l p c = .error (.pool (if c.name ∈ es.map (·.name) then .alreadyDeclared c.name
      else .offsetMismatch c.name c.offset (UInt32.ofNat p.reserved))) := by
  by_cases hname : c.name ∈ es.map (·.name)
  · simp only [declareConstant, hsize, h.declare_known hname, if_pos hname]
  · have hoffset : ¬ UInt32.ofNat p.reserved = c.offset := fun heq => hrefused ⟨hname, heq⟩
    obtain ⟨q, hdeclare, -, -⟩ := h.declare_new hname c.ty size c.initializer
    simp only [declareConstant, hsize, hdeclare, if_neg hname]
    rw [if_neg hoffset]

/-- To a pool that lists the constants before it, a constant is new and in its place if it is so
among these. -/
theorem agrees_iff (h : p.Lists es) (hdescribes : List.Forall₂ (Describes l) cs es)
    (hfits : extents l cs < 2 ^ 32) :
    Agrees l cs c ↔ c.name ∉ es.map (·.name) ∧ UInt32.ofNat p.reserved = c.offset := by
  have hreserved : p.reserved = extents l cs := h.reserved.trans (stop_of_describes hdescribes)
  rw [Agrees, names_of_describes hdescribes, hreserved, ← UInt32.toNat_inj,
    UInt32.toNat_ofNat_of_lt' hfits, eq_comm (a := c.offset.toNat)]

theorem declareAll_ok (hsizes : ∀ c ∈ cs, ∃ n, l.sizeOf c.ty = .ok n)
    (hfits : extents l cs < 2 ^ 32) (h : Agreed l cs) :
    ∃ p, cs.foldlM (declareConstant l) empty = .ok p := by
  induction cs using List.reverseRecOn with
  | nil => exact ⟨_, rfl⟩
  | append_singleton cs c ih =>
    rw [List.forall_mem_append, List.forall_mem_singleton] at hsizes
    rw [extents_append] at hfits
    obtain ⟨hfront, hc⟩ := agreed_concat.mp h
    obtain ⟨p, hp⟩ := ih hsizes.1 (by omega) hfront
    obtain ⟨es, hlists, -, hdescribes⟩ := lists_of_declareAll hp
    obtain ⟨size, hsize⟩ := hsizes.2
    obtain ⟨hname, hoffset⟩ := (agrees_iff hlists hdescribes (by omega)).mp hc
    obtain ⟨q, hq⟩ := hlists.declareConstant_agreed hsize hname hoffset
    exact ⟨q, by rw [foldlM_concat, hp]; exact hq⟩

/-- The first constant that does not agree is reported. -/
theorem declareAll_refused {front back : List Constant}
    (hsizes : ∀ d ∈ front ++ c :: back, ∃ n, l.sizeOf d.ty = .ok n)
    (hfits : extents l (front ++ c :: back) < 2 ^ 32) (hfront : Agreed l front)
    (hc : ¬ Agrees l front c) :
    (front ++ c :: back).foldlM (declareConstant l) empty =
      .error (.pool (if c.name ∈ front.map (·.name) then .alreadyDeclared c.name
        else .offsetMismatch c.name c.offset (UInt32.ofNat (extents l front)))) := by
  rw [List.forall_mem_append, List.forall_mem_cons] at hsizes
  rw [extents_append] at hfits
  obtain ⟨p, hp⟩ := declareAll_ok hsizes.1 (by omega) hfront
  obtain ⟨es, hlists, -, hdescribes⟩ := lists_of_declareAll hp
  obtain ⟨size, hsize⟩ := hsizes.2.1
  rw [agrees_iff hlists hdescribes (by omega)] at hc
  have hrefused := hlists.declareConstant_refused hsize hc
  rw [names_of_describes hdescribes, hlists.reserved, stop_of_describes hdescribes] at hrefused
  rw [List.foldlM_append, hp]
  change (c :: back).foldlM (declareConstant l) p = _
  rw [List.foldlM_cons, hrefused]
  rfl

end DeclareAll

end Pool

namespace Program

/-- The types of a valid program are laid out, those of its constants among them. -/
theorem sizes_of_validate {p : Program} (h : p.validate = .ok ()) :
    ∃ l, Layouts.compute p.types = .ok l ∧ ∀ c ∈ p.constants, ∃ n, l.sizeOf c.ty = .ok n := by
  have hvalid := validate_ok_iff.mp h
  obtain ⟨l, hl, hdescribes⟩ := Layouts.exists_compute hvalid.types
  refine ⟨l, hl, fun c hc => ?_⟩
  obtain ⟨s, hs⟩ := hdescribes.exists_shape (hvalid.constants c hc).1
  exact ⟨s.size, by rw [Layouts.sizeOf, hs]⟩

end Program
namespace Pool

/-- How declaring the constants of a program ends, and the cells of its pool. -/
structure DeclaresAll (program : Program) (l : Layouts) : Prop where
  accepted : (∃ p, forProgram program = .ok p) ↔ Agreed l program.constants
  refused : ∀ front c back, program.constants = front ++ c :: back → Agreed l front →
    ¬ Agrees l front c → forProgram program =
      .error (.pool (if c.name ∈ front.map (·.name) then .alreadyDeclared c.name
        else .offsetMismatch c.name c.offset (UInt32.ofNat (extents l front))))
  cells : ∀ p, forProgram program = .ok p → ∃ cs : Cells,
    List.Forall₂ (Describes l) program.constants cs.entries ∧ (∀ c ∈ cs, c.value = none) ∧
      p.Shows cs ∧ p.StoresOnce cs ∧ cs.Placed

/-- The pool of a program before any constant is stored. -/
theorem Lists.holds {p : Pool} {es : List PoolEntry} (h : p.Lists es) (hfits : p.reserved < 2 ^ 32)
    (hstorage : p.storage = .empty) : p.Holds (es.map fun e => ⟨e, none⟩) := by
  have hentries : Cells.entries (es.map fun e => ⟨e, none⟩) = es := by
    rw [Cells.entries, List.map_map]
    exact List.map_id es
  refine ⟨hentries.symm ▸ h, hfits, ?_, ?_, ?_, ?_⟩
  · rw [List.forall_mem_map]
    exact fun e _ => List.length_replicate
  · rw [List.forall_mem_map]
    intro e _
    rw [flag, hstorage, ByteStore.byteAt_empty]
    rfl
  · rw [List.forall_mem_map]
    intro e _
    rw [bytesOf, hstorage, ByteStore.read_empty]
    rfl
  · intro i _
    rw [hstorage, ByteStore.byteAt_empty]

theorem declares_all {program : Program} {l : Layouts}
    (hl : Layouts.compute program.types = .ok l)
    (hsizes : ∀ c ∈ program.constants, ∃ n, l.sizeOf c.ty = .ok n)
    (hfits : extents l program.constants < 2 ^ 32) : DeclaresAll program l := by
  have hpool : forProgram program = program.constants.foldlM (declareConstant l) empty := by
    rw [forProgram, hl]
  have hrefused {front : List Constant} {c : Constant} {back : List Constant}
      (hcs : program.constants = front ++ c :: back) (hfront : Agreed l front)
      (hc : ¬ Agrees l front c) := by
    rw [hcs] at hsizes hfits
    exact declareAll_refused hsizes hfits hfront hc
  refine ⟨?_, fun front c back hcs hfront hc => ?_, fun p hp => ?_⟩
  · rw [hpool]
    refine ⟨fun ⟨p, hp⟩ => ?_, declareAll_ok hsizes hfits⟩
    rcases agreed_or_first l program.constants with hagreed | ⟨front, c, back, hcs, hfront, hc⟩
    · exact hagreed
    · rw [hcs, hrefused hcs hfront hc] at hp
      cases hp
  · rw [hpool, hcs]
    exact hrefused hcs hfront hc
  · rw [hpool] at hp
    obtain ⟨es, hlists, hstorage, hdescribes⟩ := lists_of_declareAll hp
    have hreserved : p.reserved < 2 ^ 32 := by
      rw [hlists.reserved, stop_of_describes hdescribes]
      exact hfits
    have hholds := hlists.holds hreserved hstorage
    refine ⟨es.map fun e => ⟨e, none⟩, ?_, ?_, hholds.shows, hholds.storesOnce, hholds.placed⟩
    · rw [Cells.entries, List.map_map]
      exact (List.map_id es).symm ▸ hdescribes
    · rw [List.forall_mem_map]
      exact fun e _ => rfl

/-- A pool is an ordered map of cells that are written once: for all calls, any of which may fail
and then leaves the pool as it was, and for the constants of a valid program, as long as the
reserved storage fits into 32 bits. -/
theorem pool_of_cells :
    (∀ calls, (PoolCall.serve call empty calls).2.reserved < 2 ^ 32 →
      (PoolCall.serve call empty calls).1 = (PoolCall.serve Cells.call [] calls).1 ∧
        (PoolCall.serve call empty calls).2.Shows (PoolCall.serve Cells.call [] calls).2 ∧
        (PoolCall.serve call empty calls).2.StoresOnce (PoolCall.serve Cells.call [] calls).2 ∧
        (PoolCall.serve Cells.call [] calls).2.Placed ∧
        ∀ c e q, (PoolCall.serve call empty calls).2.call c = .error e q →
          q = (PoolCall.serve call empty calls).2) ∧
    ∀ program : Program, program.validate = .ok () → ∃ l,
      Layouts.compute program.types = .ok l ∧
        (extents l program.constants < 2 ^ 32 → DeclaresAll program l) := by
  refine ⟨fun calls hfits => ?_, fun program hvalid => ?_⟩
  · obtain ⟨hanswers, hholds⟩ := holds_empty.serve calls hfits
    exact ⟨hanswers, hholds.shows, hholds.storesOnce, hholds.placed, fun _ _ _ => eq_of_refused⟩
  · obtain ⟨l, hl, hsizes⟩ := Program.sizes_of_validate hvalid
    exact ⟨l, hl, declares_all hl hsizes⟩

/-- Two constants, one of them without bytes; all other calls but two are refused. -/
def refusing : List PoolCall :=
  [.declare "A" (.ofPosition 0) 2 (.ofPosition 0), .declare "A" (.ofPosition 1) 4 (.ofPosition 1),
    .declare "B" (.ofPosition 1) 0 (.ofPosition 1), .store 1 [7], .store 0 [7, 8], .store 0 [9],
    .store 3 [], .store 4 []]

/-- A constant that was not compiled for the first place. -/
def misplaced : Program :=
  { wrapping with constants := [⟨"ALL", .ofPosition 31, .ofPosition 1, 2⟩] }

theorem pool_of_cells_refusing :
    (PoolCall.serve call empty refusing).1 =
      [.ok (some 0), .error (.alreadyDeclared "A"), .ok (some 3), .error (.undeclaredOffset 1),
        .ok none, .error (.alreadyInitialized 0), .ok none, .error (.undeclaredOffset 4)] ∧
    (PoolCall.serve call empty refusing).2.data 0 = .ok [7, 8] ∧
    forProgram misplaced = .error (.pool (.offsetMismatch "ALL" 2 0)) := by
  have hfits : (PoolCall.serve call empty refusing).2.reserved < 2 ^ 32 := by decide
  obtain ⟨hanswers, hshows, -, -⟩ := pool_of_cells.1 refusing hfits
  refine ⟨?_, ?_, ?_⟩
  · rw [hanswers]
    decide
  · rw [hshows.data]
    decide
  · have hvalid : misplaced.validate = .ok () := by decide +kernel
    have hsize : (Layouts.compute misplaced.types).toOption.map
        (fun l => extents l misplaced.constants) = some 2147483648 := by decide +kernel
    obtain ⟨l, hl, hall⟩ := pool_of_cells.2 misplaced hvalid
    rw [hl] at hsize
    have hextents : extents l misplaced.constants < 2 ^ 32 :=
      Nat.lt_of_le_of_lt (Nat.le_of_eq (Option.some.inj hsize)) (by decide)
    have hagreed : Agreed l [] := fun front c back h => by simp at h
    have hrefused : ¬ Agrees l [] ⟨"ALL", .ofPosition 31, .ofPosition 1, 2⟩ := fun h => by
      have hoffset : 2 = 0 := h.2
      omega
    exact (hall hextents).refused [] _ [] rfl hagreed hrefused

end Pool
end ForeignVM
