import ForeignVM.Proofs.Checks
import ForeignVM.Proofs.Stream
import ForeignVM.Proofs.Within
import Mathlib.Data.List.Nodup
import Mathlib.Data.List.Perm.Subperm

/-!
# ForeignVM.Proofs.Boundaries

The addresses at which instructions start. In code that decodes as a whole, going on behind an
instruction leads to another one or to the end.

* `Passes`                — instructions that a decoder finds one behind the other.
* `Listed`                — the instructions of the code; `decodeAt_of_listed`, `listed_next`.
* `Program.JumpsClosed`   — jumps lead to instructions or to the end.
* `starts_of_validate`    — in a valid program, routines start at instructions.
-/

namespace ForeignVM

/-! ## Paths through the code -/

/-- Going on behind each instruction, a decoder comes from the first address by these
instructions to the last address. -/
inductive Passes (code : Array UInt8) : UInt32 → List Located → UInt32 → Prop where
  | nil {ip : UInt32} : Passes code ip [] ip
  | cons {ip stop : UInt32} {l : Located} {ls : List Located} (hlt : ip.toNat < code.size)
      (h : decodeAt code ip = .ok l) (hrest : Passes code l.next ls stop) :
      Passes code ip (l :: ls) stop

/-- Without an error, a decoder has come to the end, or has used up its fuel. -/
theorem passes_decodeFrom {code : Array UInt8} (fuel : Nat) (ip : UInt32)
    (before : List Located) {all : List Located}
    (h : decodeFrom code fuel ip before = (all, none)) :
    ∃ ls stop, all = before.reverse ++ ls ∧ Passes code ip ls stop ∧
      (code.size ≤ stop.toNat ∨ ls.length = fuel) := by
  induction fuel generalizing ip before with
  | zero =>
    cases h
    exact ⟨[], ip, (List.append_nil _).symm, .nil, .inr rfl⟩
  | succ fuel ih =>
    unfold decodeFrom at h
    split at h
    · next hle =>
      cases h
      exact ⟨[], ip, (List.append_nil _).symm, .nil, .inl hle⟩
    · next hlt =>
      cases hl : decodeAt code ip with
      | error e =>
        rw [hl] at h
        cases h
      | ok l =>
        rw [hl] at h
        obtain ⟨ls, stop, rfl, hpasses, hend⟩ := ih l.next (l :: before) h
        refine ⟨l :: ls, stop, ?_, .cons (Nat.lt_of_not_le hlt) hl hpasses,
          hend.imp_right (congrArg (· + 1))⟩
        rw [List.reverse_cons, List.append_assoc]
        rfl

namespace Passes

variable {code : Array UInt8} {ip stop stop' : UInt32} {ls ls' : List Located} {l : Located}

theorem decodeAt (h : Passes code ip ls stop) (hl : l ∈ ls) :
    ForeignVM.decodeAt code l.ip = .ok l ∧ l.ip.toNat < code.size := by
  induction h with
  | nil => cases hl
  | cons hlt hfirst _ ih =>
    cases hl with
    | head =>
      rw [(decodeAt_ok_iff.mp hfirst).1]
      exact ⟨hfirst, hlt⟩
    | tail _ hl => exact ih hl

/-- Behind an instruction there is another, or the last address. -/
theorem next (h : Passes code ip ls stop) (hl : l ∈ ls) :
    l.next ∈ ls.map (·.ip) ∨ l.next = stop := by
  induction h with
  | nil => cases hl
  | @cons ip stop first ls _ _ hrest ih =>
    cases hl with
    | head =>
      cases hrest with
      | nil => exact .inr rfl
      | cons _ hsecond _ =>
        refine .inl (.tail _ ?_)
        rw [List.map_cons, (decodeAt_ok_iff.mp hsecond).1]
        exact List.mem_cons_self
    | tail _ hl => exact (ih hl).imp_left (.tail _)

/-- A decoder that goes further comes by where another one has stopped. -/
theorem mem_of_length_lt (h : Passes code ip ls stop) (h' : Passes code ip ls' stop')
    (hlt : ls.length < ls'.length) : stop ∈ ls'.map (·.ip) := by
  induction h generalizing ls' with
  | nil =>
    cases h' with
    | nil => cases hlt
    | cons _ hfirst _ =>
      rw [List.map_cons, (decodeAt_ok_iff.mp hfirst).1]
      exact List.mem_cons_self
  | cons _ hl _ ih =>
    cases h' with
    | nil => cases hlt
    | cons _ hl' hrest' =>
      cases hl.symm.trans hl'
      exact .tail _ (ih hrest' (Nat.lt_of_succ_lt_succ hlt))

theorem drop (h : Passes code ip ls stop) (hl : l ∈ ls) :
    ∃ ls', Passes code l.ip ls' stop ∧ ls'.length ≤ ls.length := by
  induction h with
  | nil => cases hl
  | cons hlt hfirst hrest ih =>
    cases hl with
    | head =>
      rw [(decodeAt_ok_iff.mp hfirst).1]
      exact ⟨_, .cons hlt hfirst hrest, Nat.le_refl _⟩
    | tail _ hl =>
      obtain ⟨ls', hpasses, hle⟩ := ih hl
      exact ⟨ls', hpasses, Nat.le_succ_of_le hle⟩

/-- A decoder that comes to an address twice goes round in a circle. -/
theorem mem_of_not_nodup (h : Passes code ip ls stop) (hdup : ¬ (ls.map (·.ip)).Nodup) :
    stop ∈ ls.map (·.ip) := by
  induction h with
  | nil => exact absurd List.nodup_nil hdup
  | @cons ip stop first ls hlt hfirst hrest ih =>
    rw [List.map_cons, List.nodup_cons, not_and_or, not_not] at hdup
    obtain hagain | hlater := hdup
    · obtain ⟨l, hl, heq⟩ := List.mem_map.mp hagain
      obtain ⟨ls', hpasses, hle⟩ := hrest.drop hl
      rw [heq, (decodeAt_ok_iff.mp hfirst).1] at hpasses
      exact hpasses.mem_of_length_lt (.cons hlt hfirst hrest) (Nat.lt_succ_of_le hle)
    · exact .tail _ (ih hlater)

section

variable (hsize : code.size < 2 ^ 32)
include hsize

/-- In code of less than `2 ^ 32` bytes, a decoder goes forward. -/
theorem le_of_mem (h : Passes code ip ls stop) (hl : l ∈ ls) : ip.toNat ≤ l.ip.toNat := by
  induction h with
  | nil => cases hl
  | cons _ hfirst _ ih =>
    cases hl with
    | head => exact Nat.le_of_eq (congrArg UInt32.toNat (decodeAt_ok_iff.mp hfirst).1.symm)
    | tail _ hl =>
      have hle := ih hl
      rw [(next_of_decodeAt hsize hfirst).1] at hle
      exact Nat.le_of_add_right_le hle

theorem nodup (h : Passes code ip ls stop) : (ls.map (·.ip)).Nodup := by
  induction h with
  | nil => exact List.nodup_nil
  | @cons ip stop first ls _ hfirst hrest ih =>
    rw [List.map_cons, List.nodup_cons]
    refine ⟨fun hagain => ?_, ih⟩
    obtain ⟨l, hl, heq⟩ := List.mem_map.mp hagain
    have hle := hrest.le_of_mem hsize hl
    have hpos := first.instr.length_pos
    rw [heq, (decodeAt_ok_iff.mp hfirst).1, (next_of_decodeAt hsize hfirst).1] at hle
    omega

end

/-- There are not more instructions than bytes, unless the decoder goes round in a circle. -/
theorem length_le (h : Passes code ip ls stop) (hnodup : (ls.map (·.ip)).Nodup) :
    ls.length ≤ code.size := by
  have hsub : ls.map (·.ip.toNat) ⊆ List.range code.size := by
    intro n hn
    obtain ⟨l, hl, rfl⟩ := List.mem_map.mp hn
    exact List.mem_range.mpr (h.decodeAt hl).2
  have hnodup' : ((ls.map (·.ip)).map UInt32.toNat).Nodup :=
    List.Nodup.map (fun _ _ => UInt32.toNat_inj.mp) hnodup
  rw [List.map_map] at hnodup'
  have hle := (hnodup'.subperm hsub).length_le
  rwa [List.length_map, List.length_range] at hle

end Passes

/-! ## The instructions of the code -/

/-- An instruction of the code, as it is decoded from the start. -/
def Listed (code : Array UInt8) (l : Located) : Prop := l ∈ (decodeAll code).1

/-- An instruction starts at the address. -/
def Starts (code : Array UInt8) (ip : UInt32) : Prop := ip ∈ (decodeAll code).1.map (·.ip)

instance (code : Array UInt8) (ip : UInt32) : Decidable (Starts code ip) :=
  inferInstanceAs (Decidable (_ ∈ _))

section

variable {code : Array UInt8} (hwhole : (decodeAll code).2 = none)
include hwhole

theorem passes_decodeAll : ∃ stop, Passes code 0 (decodeAll code).1 stop ∧
    (code.size ≤ stop.toNat ∨ Starts code stop) := by
  obtain ⟨ls, stop, hls, hpasses, hend⟩ := passes_decodeFrom (code.size + 1) 0 []
    (Prod.ext rfl hwhole : decodeAll code = ((decodeAll code).1, none))
  rw [List.reverse_nil, List.nil_append] at hls
  refine ⟨stop, hls ▸ hpasses, hend.imp_right fun hlength => ?_⟩
  rw [Starts, hls]
  refine hpasses.mem_of_not_nodup fun hnodup => ?_
  have hle := hpasses.length_le hnodup
  omega

theorem decodeAt_of_listed {l : Located} (hl : Listed code l) :
    decodeAt code l.ip = .ok l := by
  obtain ⟨stop, hpasses, _⟩ := passes_decodeAll hwhole
  exact (hpasses.decodeAt hl).1

theorem listed_of_starts {ip : UInt32} (h : Starts code ip) :
    ∃ l, Listed code l ∧ decodeAt code ip = .ok l := by
  obtain ⟨l, hl, rfl⟩ := List.mem_map.mp h
  exact ⟨l, hl, decodeAt_of_listed hwhole hl⟩

theorem listed_next {l : Located} (hl : Listed code l) :
    Starts code l.next ∨ code.size ≤ l.next.toNat := by
  obtain ⟨stop, hpasses, hend⟩ := passes_decodeAll hwhole
  obtain hstarts | rfl := hpasses.next hl
  · exact .inl hstarts
  · exact hend.symm

end

namespace Program

variable {p : Program}

/-- Jumps lead to instructions, or to the end of the code. -/
def JumpsClosed (p : Program) : Prop :=
  ∀ l, Listed p.code l → ∀ target, l.instr.jumpTarget? = some target →
    Starts p.code target ∨ target.toNat = p.code.size

/-- A valid program consists of whole instructions, and its routines start at some of them. -/
theorem starts_of_validate (h : p.validate = .ok ()) :
    (decodeAll p.code).2 = none ∧ ∀ r ∈ p.routines.toList, Starts p.code r.entry := by
  have hvalid := validate_ok_iff.mp h
  exact ⟨hvalid.whole, fun r hr => (hvalid.routines r hr).entry⟩

end Program
end ForeignVM
