import ForeignVM.Proofs.Isolation
import ForeignVM.Proofs.Threads

/-!
# ForeignVM.Proofs.Sizes

Blocks keep their sizes. Whatever instructions, runs and natives do, a number that has been given
to a block is never given to a block of another size, so a block that is still live is as long as
it was when it was allocated.

* `Memory.Continues`  — what may become of a memory, as far as sizes go.
* `Memory.Reserves`   — a block has been allocated with some size.
* `continues_cycle`, `continues_execute` — instructions, and calls by the host.
* `Frame.Owns`        — the block of a frame has the size of its locals; `owns_of_reached`.
-/

namespace ForeignVM

open Address

namespace Memory

/-- What may have become of a memory: blocks under old numbers are old blocks, of the size that
they had. -/
structure Continues (m m' : Memory) : Prop where
  next : m.next ≤ m'.next
  size : ∀ i b', i < m.next → m'.blocks.get? i = some b' →
    ∃ b, m.blocks.get? i = some b ∧ b.size = b'.size

/-- Block `i` has been allocated with this size; it may have been released. -/
structure Reserves (m : Memory) (i size : Nat) : Prop where
  pos : 0 < i
  lt : i < m.next
  small : size < half
  size : ∀ b, m.blocks.get? i = some b → b.size = size

variable {m m' m'' : Memory} {i size : Nat}

theorem Continues.refl (m : Memory) : m.Continues m :=
  ⟨Nat.le_refl _, fun _ b' _ hb' => ⟨b', hb', rfl⟩⟩

theorem Continues.trans (h : m.Continues m') (h' : m'.Continues m'') : m.Continues m'' := by
  refine ⟨Nat.le_trans h.next h'.next, fun i b'' hi hb'' => ?_⟩
  obtain ⟨b', hb', hsize'⟩ := h'.size i b'' (Nat.lt_of_lt_of_le hi h.next) hb''
  obtain ⟨b, hb, hsize⟩ := h.size i b' hi hb'
  exact ⟨b, hb, hsize.trans hsize'⟩

/-- Cells under old numbers are as they were, or empty. -/
theorem Continues.of_cells (hnext : m.next ≤ m'.next)
    (h : ∀ i b', i < m.next → m'.blocks.get? i = some b' → m.blocks.get? i = some b') :
    m.Continues m' :=
  ⟨hnext, fun i b' hi hb' => ⟨b', h i b' hi hb', rfl⟩⟩

theorem Rewrites.continues (h : m.Rewrites m') : m.Continues m' := by
  refine ⟨Nat.le_of_eq h.next.symm, fun i b' _ hb' => ?_⟩
  have hsize := h.size i
  rw [hb'] at hsize
  exact Option.map_eq_some_iff.mp hsize.symm

theorem Evolves.continues (h : m.Evolves m') : m.Continues m' := by
  refine ⟨h.next_le, fun i b' hi hb' => ?_⟩
  have hlive : m'.Live i := Option.isSome_iff_exists.mpr ⟨b', hb'⟩
  have hbefore : m.Live i := (h.live_or_fresh hlive).resolve_right (Nat.not_le_of_lt hi)
  obtain ⟨b, hb⟩ := Option.isSome_iff_exists.mp hbefore
  obtain ⟨b'', hb'', hsize⟩ := h.size_of_live hb hlive
  cases hb'.symm.trans hb''
  exact ⟨b, hb, hsize.symm⟩

theorem continues_of_alloc {a : UInt64} (h : m.alloc size = .ok (a, m')) : m.Continues m' := by
  have hnext := (alloc_ok h).2.next
  refine .of_cells (hnext ▸ Nat.le_succ _) fun i b' hi hb' => ?_
  rwa [get?_alloc h, if_neg (Nat.ne_of_lt hi)] at hb'

theorem continues_of_free {a : UInt64} (h : m.free a = .ok m') : m.Continues m' := by
  refine .of_cells (Nat.le_of_eq (free_ok h).next.symm) fun i b' _ hb' => ?_
  rw [get?_free h] at hb'
  split at hb'
  · cases hb'
  · exact hb'

theorem Reserves.continues (h : m.Reserves i size) (hm : m.Continues m') :
    m'.Reserves i size := by
  refine ⟨h.pos, Nat.lt_of_lt_of_le h.lt hm.next, h.small, fun b' hb' => ?_⟩
  obtain ⟨b, hb, hsize⟩ := hm.size i b' h.lt hb'
  rw [← hsize, h.size b hb]

end Memory

/-! ## Runs -/

/-- The block of a frame has been allocated with the size of the locals of its routine. -/
structure Frame.Owns {σ : Type} (m : Machine σ) (memory : Memory) (f : Frame) : Prop where
  starts : f.locals = ofBlock f.block
  reserved : ∃ c, m.callee? f.routine = some c ∧ memory.Reserves f.block c.frame.size

namespace Machine

open ForeignVM.Action

variable {σ τ : Type} (m : Machine σ) (watch : Observer τ) {s t : State σ τ}

theorem continues_enter (id : RoutineId) (args : List Value) (kind : FrameKind)
    (s : State σ τ) : s.memory.Continues (finalState (m.enter watch id args kind s)).memory := by
  obtain ⟨e, h⟩ | ⟨c, memory, -, -, halloc, h⟩ := m.enter_cases watch id args kind s
  · rw [h]
    exact .refl _
  have hstored := keeps_storeArgs Memory.Continues.refl Memory.Continues.trans
    (Address.ofBlock s.memory.next) (fun _ hw => (Memory.write_ok hw).continues)
    Memory.continues_of_free c.frame.slots.toList args { s with memory := memory }
  rw [h]
  generalize storeArgs _ c.frame.slots.toList args { s with memory := memory } = r at hstored ⊢
  cases r <;> exact (Memory.continues_of_alloc halloc).trans hstored

theorem continues_leaving {f : Frame} {r : EStateM.Result RuntimeError (State σ τ) (Option Value)}
    (h : Leaving m watch f s r) : s.memory.Continues (finalState r).memory := by
  cases h with
  | failed hw => exact hw.memory.continues
  | dangling _ => exact .refl _
  | finished _ _ hfree _ => exact Memory.continues_of_free hfree
  | undelivered hfree _ => exact Memory.continues_of_free hfree
  | @delivered _ v memory u _ _ hfree hd =>
    have hmemory : u.memory = memory := m.memory_deliver watch hd
    exact hmemory ▸ Memory.continues_of_free hfree

/-- No instruction changes the size of a block. -/
theorem continues_cycle (hnat : m.NativesEvolve) (s : State σ τ) :
    s.memory.Continues (finalState (m.cycle watch s)).memory := by
  obtain ⟨e, -, hc⟩ | ⟨l, -, heffect⟩ := m.effect_cycle watch s
  · rw [hc]
    exact .refl _
  generalize m.cycle watch s = r at heffect
  generalize l.instr = i at heffect
  cases heffect with
  | inner _ hw => exact hw.memory.continues
  | failed hw => exact hw.memory.continues
  | allocated halloc => exact Memory.continues_of_alloc halloc
  | read => exact .refl _
  | @initializing offset id _ =>
    rw [finalState_unfinished]
    exact m.continues_enter watch id [] (.constant offset)
      { fetched watch s l with trace := watch (.constInit offset) (fetched watch s l).trace }
  | @calling i id args kind n _ _ _ _ =>
    rw [finalState_unfinished]
    exact m.continues_enter watch id args kind
      { fetched watch s l with operands := (fetched watch s l).operands.drop n }
  | native _ _ _ _ hrun hr =>
    have hevolves := (m.evolves_native watch hnat hrun).continues
    obtain ⟨e, rfl⟩ | rfl | ⟨v, rfl⟩ := hr <;> exact hevolves
  | leaving _ hleaving => exact m.continues_leaving watch (s := fetched watch s l) hleaving

theorem continues_run (hnat : m.NativesEvolve) (fuel : Nat) :
    ∀ s : State σ τ, s.memory.Continues (finalState (m.run watch fuel s)).memory := by
  induction fuel with
  | zero => exact fun s => .refl _
  | succ fuel ih =>
    intro s
    have hcycle := m.continues_cycle watch hnat s
    unfold run
    cases hc : m.cycle watch s with
    | error e t =>
      rw [hc] at hcycle
      exact hcycle
    | ok o t =>
      rw [hc] at hcycle
      cases o with
      | some v => exact hcycle
      | none => exact hcycle.trans (ih t)

theorem continues_unwind (s : State σ τ) : s.memory.Continues (unwind s).memory := by
  change s.memory.Continues (releaseFrames s.calls.frames s.memory)
  generalize s.calls.frames = frames
  generalize s.memory = memory
  fun_induction releaseFrames frames memory with
  | case1 => exact .refl _
  | case2 _ _ _ _ hfree ih => exact (Memory.continues_of_free hfree).trans ih
  | case3 _ _ _ _ _ ih => exact ih

/-- No call by the host changes the size of a block. -/
theorem continues_execute (hnat : m.NativesEvolve) (id : RoutineId) (args : List Value)
    (s : State σ τ) : s.memory.Continues (finalState (m.execute watch id args s)).memory := by
  have hstart : s.memory.Continues (finalState (m.start watch id args s)).memory :=
    m.continues_enter watch id args .host { s with operands := .empty }
  cases h : m.start watch id args s with
  | error e t =>
    rw [execute_of_refused m watch h]
    rw [h] at hstart
    exact hstart.trans (continues_unwind t)
  | ok u t =>
    rw [execute_of_start m watch h]
    rw [h] at hstart
    have hrun := hstart.trans (m.continues_run watch hnat m.limits.fuel.toNat t)
    cases hr : m.run watch m.limits.fuel.toNat t with
    | error e t' =>
      rw [hr] at hrun
      exact hrun.trans (continues_unwind t')
    | ok v t' =>
      rw [hr] at hrun
      exact hrun

theorem owns_of_enter {id : RoutineId} {args : List Value} {kind : FrameKind} {u : Unit}
    (h : m.enter watch id args kind s = .ok u t) :
    ∃ f, t.calls.frames = f :: s.calls.frames ∧ f.Owns m t.memory := by
  obtain ⟨c, f, new, hc, hfill, hbegun⟩ := enter_ok h
  have hsmall := room_of_enter hc h
  have hblock := hbegun.holds.block
  have hbounds := Memory.bounds_of_get? hblock
  refine ⟨f, hbegun.frames, hbegun.holds.starts, c, hbegun.holds.routine ▸ hc, hbounds.1,
    hbounds.2, hsmall, fun b hb => ?_⟩
  cases hblock.symm.trans hb
  exact Block.size_fill hfill

/-- A frame that an instruction enters has a block for its locals. -/
theorem owns_of_cycle {o : Option Value} (h : m.cycle watch s = .ok o t) :
    ∀ f ∈ t.calls.frames, f ∈ s.calls.frames ∨ f.Owns m t.memory := by
  have hentered {s' : State σ τ} {id : RoutineId} {args : List Value} {kind : FrameKind}
      (henter : EStateM.Result.ok o t = unfinished (m.enter watch id args kind s'))
      (hcalls : s'.calls = s.calls) :
      ∀ f ∈ t.calls.frames, f ∈ s.calls.frames ∨ f.Owns m t.memory := by
    obtain ⟨g, hframes, howns⟩ := m.owns_of_enter watch (unfinished_eq_ok henter.symm).2
    rw [hframes, hcalls]
    exact List.forall_mem_cons.mpr ⟨.inr howns, fun f => .inl⟩
  obtain ⟨e, -, hc⟩ | ⟨l, -, heffect⟩ := m.effect_cycle watch s
  · cases h.symm.trans hc
  rw [h] at heffect
  generalize l.instr = i at heffect
  generalize hr : (EStateM.Result.ok o t : EStateM.Result RuntimeError (State σ τ) _) = r at heffect
  cases heffect with
  | inner _ hw =>
    cases hr
    exact fun f hf => .inl (hw.calls ▸ hf)
  | failed _ => cases hr
  | allocated _ =>
    cases hr
    exact fun f => .inl
  | read =>
    cases hr
    exact fun f => .inl
  | initializing _ => exact hentered hr rfl
  | calling _ _ _ _ => exact hentered hr rfl
  | native _ _ _ _ hrun hstates =>
    obtain ⟨e, rfl⟩ | rfl | ⟨v, rfl⟩ := hstates <;> cases hr <;>
      exact fun f hf => .inl (hrun.calls ▸ hf)
  | leaving _ hleaving =>
    have hcalls : t.calls.frames = s.calls.frames.tail := by
      cases hleaving with
      | finished _ _ _ _ =>
        cases hr
        rfl
      | delivered _ _ _ hd =>
        cases hr
        exact congrArg CallStack.frames (m.calls_deliver watch hd)
      | _ => cases hr
    exact fun f hf => .inl (List.mem_of_mem_tail (hcalls ▸ hf))

/-- In every state of a run, all frames have blocks for their locals. -/
theorem owns_of_reached (hnat : m.NativesEvolve) (h : m.Reached watch t) :
    ∀ f ∈ t.calls.frames, f.Owns m t.memory := by
  obtain ⟨id, args, s₀, s, n, hidle, hstart, hafter⟩ := h
  refine m.after_keeps watch (P := fun s => ∀ f ∈ s.calls.frames, f.Owns m s.memory) ?_ ?_ hafter
  · intro s t hs hc f hf
    have hcontinues := m.continues_cycle watch hnat s
    rw [hc] at hcontinues
    obtain hbefore | howns := m.owns_of_cycle watch hc f hf
    · obtain ⟨hstarts, c, hcallee, hreserved⟩ := hs f hbefore
      exact ⟨hstarts, c, hcallee, hreserved.continues hcontinues⟩
    · exact howns
  · obtain ⟨f, hframes, howns⟩ := m.owns_of_enter watch hstart
    have hempty : s.calls.frames = [f] := by
      rw [hframes]
      change f :: s₀.calls.frames = [f]
      rw [hidle]
      rfl
    rw [hempty]
    exact List.forall_mem_singleton.mpr howns

end Machine
end ForeignVM
