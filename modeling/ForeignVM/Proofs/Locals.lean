import ForeignVM.Proofs.Arrays
import ForeignVM.Proofs.Slots
import ForeignVM.Proofs.Threads

/-!
# ForeignVM.Proofs.Locals

The locals of a frame as variables. Its block records for each of them what it has been given last,
and the instructions for locals go by that.

* `Shape.assigned`       — the value of a variable that has been given a value, or none.
* `FrameLayout.Records`  — a block records what the variables have been given;
  `records_fill` for arguments, `Records.put` for an assignment.
* `Frame.Remembers`      — the block of a frame is such a block.
* `Machine.HoldsLocals`  — what the instructions for locals do then; `Remembers.holdsLocals`.
-/

namespace ForeignVM

open Address

/-- The value of a variable that has been given a value, or none. -/
def Shape.assigned (s : Shape) : Option Value → Except RuntimeError Value
  | some v => s.coerce v
  | none => .ok s.zero

theorem Shape.coerce_of_encode {s : Shape} {v : Value} {bytes : Bytes}
    (h : s.encode v = .ok bytes) : s.coerce v = .ok (s.decode bytes) := by
  rw [coerce, h]

/-! ## Blocks -/

namespace Block

variable {slots : List Slot} {args : List Value} {b new : Block}

/-- What lies before the slots is not touched. -/
theorem read_fill_before {start n : Nat} (h : fill slots args b = some new)
    (hpos : ∀ slot ∈ slots, slot.position = slot.offset)
    (hbefore : ∀ slot ∈ slots, start + n ≤ slot.offset) :
    new.bytes.read start n = b.bytes.read start n := by
  fun_induction fill slots args b with
  | case1 slot slots arg args b bytes _ ih =>
    obtain ⟨hslot, hslots⟩ := List.forall_mem_cons.mp hpos
    obtain ⟨hfirst, hrest⟩ := List.forall_mem_cons.mp hbefore
    rw [ih h hslots hrest, put, hslot, b.bytes.read_write_apart (.inl hfirst)]
  | case2 => cases h
  | case3 =>
    cases h
    rfl

/-- Arguments that have been stored fit their slots. -/
theorem encode_of_fill (h : fill slots args b = some new) {i : Nat} {slot : Slot} {v : Value}
    (hi : slots[i]? = some slot) (hv : args[i]? = some v) :
    ∃ bytes, slot.shape.encode v = .ok bytes := by
  fun_induction fill slots args b generalizing i with
  | case1 first slots arg args b bytes hbytes ih =>
    cases i with
    | zero =>
      cases hi
      cases hv
      exact ⟨bytes, hbytes⟩
    | succ i => exact ih h hi hv
  | case2 => cases h
  | case3 slots args b hdone =>
    cases slots with
    | nil => cases hi
    | cons first slots =>
      cases args with
      | nil => cases hv
      | cons arg args => exact absurd rfl (hdone first slots arg args rfl)

/-- By induction on the slots: an argument is found in its slot, and a slot for which there is none
is as it was. -/
theorem read_fill (h : fill slots args b = some new)
    (hpos : ∀ slot ∈ slots, slot.position = slot.offset)
    (hapart : slots.Pairwise fun a b => a.offset + a.shape.size ≤ b.offset) {i : Nat} {slot : Slot}
    (hi : slots[i]? = some slot) :
    match args[i]? with
    | some v => slot.shape.coerce v =
        .ok (slot.shape.decode (new.bytes.read slot.offset slot.shape.size))
    | none => new.bytes.read slot.offset slot.shape.size =
        b.bytes.read slot.offset slot.shape.size := by
  fun_induction fill slots args b generalizing i with
  | case1 first slots arg args b bytes hbytes ih =>
    obtain ⟨hfirst, hslots⟩ := List.forall_mem_cons.mp hpos
    obtain ⟨hbehind, hrest⟩ := List.pairwise_cons.mp hapart
    have hlength := Shape.length_of_encode hbytes
    cases i with
    | zero =>
      obtain rfl : first = slot := Option.some.inj hi
      have hread := b.bytes.read_write first.offset bytes
      rw [hlength] at hread
      rw [List.getElem?_cons_zero]
      dsimp only
      rw [read_fill_before h hslots hbehind, put, hfirst, hread, Shape.coerce_of_encode hbytes]
    | succ i =>
      have hlater := ih h hslots hrest hi
      have hput := hbehind slot (List.mem_of_getElem? hi)
      rw [List.getElem?_cons_succ]
      split
      · next v hv =>
        rw [hv] at hlater
        exact hlater
      · next hnone =>
        rw [hnone] at hlater
        dsimp only at hlater
        rw [hlater, put, hfirst, b.bytes.read_write_apart (.inr (hlength ▸ hput))]
  | case2 => cases h
  | case3 slots args b hdone =>
    cases h
    cases args with
    | nil => rfl
    | cons v args =>
      cases slots with
      | nil => cases hi
      | cons first slots => exact absurd rfl (hdone first slots v args rfl)

end Block

namespace FrameLayout

variable {l : Layouts} {locals : List TypeId} {f : FrameLayout} {b : Block}
  {given : UInt16 → Option Value}

/-- The block records what the locals have been given. -/
structure Records (f : FrameLayout) (given : UInt16 → Option Value) (b : Block) : Prop where
  size : b.size = f.size
  value : ∀ (i : UInt16) slot, f.slots[i.toNat]? = some slot →
    slot.shape.assigned (given i) =
      .ok (slot.shape.decode (b.bytes.read slot.offset slot.shape.size))

/-- A new block records the arguments; the other locals have not been given anything. -/
theorem records_fill (h : f.Houses l locals) (hsmall : f.size < half) {args : List Value}
    (hfill : Block.fill f.slots.toList args ⟨f.size, .empty⟩ = some b) :
    f.Records (fun i => args[i.toNat]?) b := by
  refine ⟨Block.size_fill hfill, fun i slot hslot => ?_⟩
  have hpos (slot : Slot) (hmem : slot ∈ f.slots.toList) : slot.position = slot.offset :=
    Slot.position_of_inside (h.inside slot hmem) hsmall
  rw [← Array.getElem?_toList] at hslot
  have hread := Block.read_fill hfill hpos h.apart hslot
  cases harg : args[i.toNat]? with
  | some v =>
    rw [harg] at hread
    exact hread
  | none =>
    rw [harg] at hread
    dsimp only at hread
    rw [hread, ByteStore.read_empty]
    rfl

/-- An assignment is recorded for one local only. -/
theorem Records.put (hb : f.Records given b) (h : f.Houses l locals) {i : UInt16} {slot : Slot}
    (hslot : f.slots[i.toNat]? = some slot) {v : Value} {bytes : Bytes}
    (hbytes : slot.shape.encode v = .ok bytes) :
    f.Records (Function.update given i (some v)) (b.put slot.offset bytes) := by
  have hlength := Shape.length_of_encode hbytes
  refine ⟨hb.size, fun j other hother => ?_⟩
  by_cases hji : j = i
  · subst hji
    cases hslot.symm.trans hother
    have hread := b.bytes.read_write slot.offset bytes
    rw [hlength] at hread
    rw [Function.update_self, Block.put, hread]
    exact Shape.coerce_of_encode hbytes
  · have hne : j.toNat ≠ i.toNat := fun heq => hji (UInt16.toNat_inj.mp heq)
    have hapart := h.disjoint hother hslot hne
    rw [← hlength] at hapart
    rw [Function.update_of_ne hji, Block.put, b.bytes.read_write_apart hapart]
    exact hb.value j other hother

end FrameLayout

/-! ## Instructions -/

/-- The block of the frame records what the locals of its routine have been given. -/
structure Frame.Remembers {σ : Type} (m : Machine σ) (memory : Memory) (f : Frame) (c : Callee)
    (given : UInt16 → Option Value) : Prop where
  callee : m.callee? f.routine = some c
  houses : c.frame.Houses m.layouts c.routine.locals
  small : c.frame.size < half
  starts : f.locals = ofBlock f.block
  records : ∃ b, memory.blocks.get? f.block = some b ∧ c.frame.Records given b

namespace Machine

open ForeignVM.Action

variable {σ τ : Type} {m : Machine σ} {watch : Observer τ} {s : State σ τ}

variable (m watch) in
/-- What the instructions for locals do where the locals have these types and have been given these
values: LOCAL_GET gives the value, and so does LOAD at the address that LOCAL_ADDR gives. -/
structure HoldsLocals (locals : List TypeId) (given : UInt16 → Option Value) (s : State σ τ) :
    Prop where
  value : ∀ (i : UInt16) ty, locals[i.toNat]? = some ty → ∃ sh v, ∃ p : Pointer,
    m.layouts.shape ty = .ok sh ∧ sh.assigned (given i) = .ok v ∧ p.pointee = ty ∧
    ∀ ip next,
      m.step watch ⟨.localGet i, ip, next⟩ s =
        .ok none { s with operands := s.operands.push v } ∧
      m.step watch ⟨.localAddr i, ip, next⟩ s =
        .ok none { s with operands := s.operands.push (.pointer p) } ∧
      m.step watch ⟨.load ty, ip, next⟩ { s with operands := s.operands.push (.pointer p) } =
        .ok none { s with operands := s.operands.push v }
  /-- No access to a local, whether it exists or not, fails for its address. -/
  reached : ∀ (i : UInt16) instr, instr ∈ [Instr.localGet i, .localSet i, .localAddr i] →
    ∀ ip next e t, m.step watch ⟨instr, ip, next⟩ s = .error e t → ∀ cause, e ≠ .memory cause

theorem step_localAddr {i : UInt16} {ip next : UInt32} {a : UInt64} {slot : Slot}
    (h : m.localSlot ip i s = .ok (a, slot) s) :
    m.step watch ⟨.localAddr i, ip, next⟩ s =
      .ok none { s with operands := s.operands.push (.pointer ⟨a, slot.ty⟩) } := by
  change ((m.localSlot ip i >>= _) >>= fun _ => pure none) s = _
  rw [bind_run, bind_ok h]
  rfl

theorem step_localGet {i : UInt16} {ip next : UInt32} {a : UInt64} {slot : Slot} {v : Value}
    (h : m.localSlot ip i s = .ok (a, slot) s) (hv : s.memory.load a slot.shape = .ok v) :
    m.step watch ⟨.localGet i, ip, next⟩ s =
      .ok none { s with operands := s.operands.push v } := by
  change ((m.localSlot ip i >>= fun r => Action.load r.1 r.2.shape >>= push) >>=
    fun _ => pure none) s = _
  rw [bind_run, bind_ok h, bind_run, load_run, hv]
  rfl

theorem step_of_localSlot_error {i : UInt16} {instr : Instr}
    (hinstr : instr = .localGet i ∨ instr = .localAddr i) {ip next : UInt32} {e : RuntimeError}
    (h : m.localSlot ip i s = .error e s) : m.step watch ⟨instr, ip, next⟩ s = .error e s := by
  obtain rfl | rfl := hinstr
  · change ((m.localSlot ip i >>= _) >>= fun _ => pure none) s = _
    rw [bind_run, bind_error h]
  · change ((m.localSlot ip i >>= _) >>= fun _ => pure none) s = _
    rw [bind_run, bind_error h]

end Machine

namespace Frame.Remembers

open Machine ForeignVM.Action

variable {σ τ : Type} {m : Machine σ} {watch : Observer τ} {s : State σ τ}
  {f : Frame} {c : Callee} {given : UInt16 → Option Value}

/-- A slot has its place in the block, and holds what the local has been given. -/
theorem exists_place (h : f.Remembers m s.memory c given) (hf : s.calls.current? = some f)
    {i : UInt16} {slot : Slot} (hslot : c.frame.slots[i.toNat]? = some slot) :
    ∃ a b v, s.memory.blocks.get? (Address.block a) = some b ∧
      offset a + slot.shape.size ≤ b.size ∧ slot.shape.assigned (given i) = .ok v ∧
      s.memory.load a slot.shape = .ok v ∧ ∀ ip, m.localSlot ip i s = .ok (a, slot) s := by
  obtain ⟨b, hb, hrecords⟩ := h.records
  have hinside : slot.offset + slot.shape.size ≤ c.frame.size :=
    h.houses.inside slot (FrameLayout.Houses.mem_of_getElem? hslot)
  have hsmall := h.small
  obtain ⟨a, ha, hblock, hoffset⟩ := Memory.advance_ofBlock (n := slot.offset)
    (Memory.bounds_of_get? hb).1 f.block_lt (by omega)
  rw [← hblock] at hb
  rw [← h.starts] at ha
  rw [← hoffset, ← hrecords.size] at hinside
  have hread := Memory.read_of_live (n := slot.shape.size) hb
  rw [if_pos hinside, hoffset] at hread
  refine ⟨a, b, _, hb, hinside, hrecords.value i slot hslot, by rw [Memory.load, hread],
    fun ip => ?_⟩
  simp only [localSlot, bind_run, get_run, hf, Machine.callee, h.callee, pure_run, hslot, ha,
    check_ok]

/-- If there is no such slot, this is what is reported. -/
theorem localSlot_absent (h : f.Remembers m s.memory c given) (hf : s.calls.current? = some f)
    {i : UInt16} (hslot : c.frame.slots[i.toNat]? = none) (ip : UInt32) :
    m.localSlot ip i s = .error (.unknownLocal c.routine.name i) s := by
  simp only [localSlot, bind_run, get_run, hf, Machine.callee, h.callee, pure_run, hslot, throw_run]

/-- Only a slot that does not exist cannot be read, and its address not be taken. -/
theorem read_error (h : f.Remembers m s.memory c given) (hf : s.calls.current? = some f)
    {i : UInt16} {instr : Instr} (hinstr : instr = .localGet i ∨ instr = .localAddr i)
    {ip next : UInt32} {e : RuntimeError} {t : State σ τ}
    (herror : m.step watch ⟨instr, ip, next⟩ s = .error e t) : ∀ cause, e ≠ .memory cause := by
  cases hslot : c.frame.slots[i.toNat]? with
  | none =>
    rw [step_of_localSlot_error hinstr (h.localSlot_absent hf hslot ip)] at herror
    cases herror
    exact nofun
  | some slot =>
    obtain ⟨a, b, v, -, -, -, hload, hrun⟩ := h.exists_place hf hslot
    obtain rfl | rfl := hinstr
    · cases (step_localGet (hrun ip) hload).symm.trans herror
    · cases (step_localAddr (hrun ip)).symm.trans herror

/-- What is stored into a slot can only be refused for its value. -/
theorem store_error (h : f.Remembers m s.memory c given) (hf : s.calls.current? = some f)
    {i : UInt16} {ip next : UInt32} {e : RuntimeError} {t : State σ τ}
    (herror : m.step watch ⟨.localSet i, ip, next⟩ s = .error e t) :
    ∀ cause, e ≠ .memory cause := by
  change ((pop ip >>= fun v => m.localSlot ip i >>= fun r => Action.store r.1 r.2.shape v) >>=
    fun _ => pure none) s = _ at herror
  rw [bind_run] at herror
  obtain ⟨-, hpop⟩ | ⟨-, v, -, hpop⟩ := pop_cases ip s
  · rw [bind_error hpop] at herror
    cases herror
    exact nofun
  · rw [bind_ok hpop] at herror
    cases hslot : c.frame.slots[i.toNat]? with
    | none =>
      rw [bind_error
        (h.localSlot_absent (s := { s with operands := s.operands.drop 1 }) hf hslot ip)] at herror
      cases herror
      exact nofun
    | some slot =>
      obtain ⟨a, b, -, hb, hfits, -, -, hrun⟩ :=
        h.exists_place (s := { s with operands := s.operands.drop 1 }) hf hslot
      rw [bind_ok (hrun ip), store_run] at herror
      cases hv : slot.shape.encode v with
      | ok bytes =>
        rw [Memory.store_of_fits hb hfits hv] at herror
        cases herror
      | error e' =>
        have hrefusal := Shape.refusal_of_encode hv
        simp only [Memory.store, Memory.blockAt_of_fits hb hfits, hv] at herror
        cases herror
        rintro cause rfl
        exact hrefusal

theorem holdsLocals (h : f.Remembers m s.memory c given) (hf : s.calls.current? = some f)
    (hbase : s.calls.base ≤ s.operands.height) :
    m.HoldsLocals watch c.routine.locals given s where
  value i ty hty := by
    obtain ⟨slot, hslot, rfl, hshape⟩ := h.houses.exists_slot hty
    obtain ⟨a, b, v, -, -, hv, hload, hrun⟩ := h.exists_place hf hslot
    refine ⟨slot.shape, v, ⟨a, slot.ty⟩, hshape, hv, rfl,
      fun ip next => ⟨step_localGet (hrun ip) hload, step_localAddr (hrun ip), ?_⟩⟩
    rw [(m.reachesElements watch slot.ty).load s ⟨a, slot.ty⟩ ip next hbase, Pointer.load,
      hshape]
    dsimp only
    rw [hload]
  reached i instr hinstr ip next e t herror := by
    simp only [List.mem_cons, List.not_mem_nil, or_false] at hinstr
    obtain hget | rfl | haddr := hinstr
    · exact h.read_error hf (.inl hget) herror
    · exact h.store_error hf herror
    · exact h.read_error hf (.inr haddr) herror

end Frame.Remembers
end ForeignVM
