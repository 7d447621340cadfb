import ForeignVM.Proofs.Naming
import ForeignVM.Proofs.Watching
import ForeignVM.Program.Validity

/-!
# ForeignVM.Proofs.Limits

What the limits of fuel and of recursion do to a run: they cut it short and change nothing else.
Every run ends within them, but for those that are stuck in the name of a type.

* `Machine.withLimits`    — the same machine under other limits.
* `Action.Extends`        — an action that differs from another where that one runs into the limit
  of recursion, and only there.
* `extends_cycle`         — higher limits extend every instruction; `run_extends` carries this
  through whole runs, with any larger fuel.
* `depth_after`           — no more frames than the limit of recursion.
* `meter_after`           — one fetched instruction per step, as an observer counts them.
* `execute_within_limits` — all of it for calls by the host.
* `stuck_of_selfPointer`  — a call of a valid program that never comes back.
-/

namespace ForeignVM

/-- The error is one by which the machine enforces its limits. -/
def RuntimeError.IsLimit : RuntimeError → Prop
  | .fuelExhausted _ | .recursionLimit _ => True
  | _ => False

/-- Every limit is at least as high. -/
structure Limits.AtMost (l l' : Limits) : Prop where
  fuel : l.fuel ≤ l'.fuel
  recursion : l.recursion ≤ l'.recursion

/-- `meter` reads off a trace how many instructions have been fetched. -/
def Observer.Counts {τ : Type} (watch : Observer τ) (meter : τ → Nat) : Prop :=
  ∀ e t, meter (watch e t) = meter t + e.isInstr.toNat

namespace Action

variable {σ τ α β : Type}

/-- `a'` does what `a` does wherever `a` does not run into the limit of recursion. -/
def Extends (limit : UInt32) (a a' : Action σ τ α) : Prop :=
  ∀ s, a' s = a s ∨ ∃ t, a s = .error (.recursionLimit limit) t

theorem Extends.refl {limit : UInt32} (a : Action σ τ α) : Extends limit a a := fun _ => .inl rfl

theorem Extends.bind {limit : UInt32} {a a' : Action σ τ α} {f f' : α → Action σ τ β}
    (ha : Extends limit a a') (hf : ∀ x, Extends limit (f x) (f' x)) :
    Extends limit (a >>= f) (a' >>= f') := by
  intro s
  rw [bind_run, bind_run]
  rcases ha s with h | ⟨t, h⟩
  · rw [h]
    cases a s with
    | ok x t => exact hf x t
    | error e t => exact .inl rfl
  · rw [h]
    exact .inr ⟨t, rfl⟩

theorem congruence_extends {limit : UInt32} :
    Machine.Congruence fun _ (a a' : Action σ τ _) => Extends limit a a' where
  pure _ := .refl _
  throw _ := .refl _
  bind := .bind
  pop _ := .refl _
  push _ := .refl _

end Action

namespace Machine

open ForeignVM.Action

variable {σ τ : Type} (m : Machine σ) (watch : Observer τ)

/-- The machine under other limits. -/
def withLimits (l : Limits) : Machine σ := { m with limits := l }

/-! ## Higher limits extend every instruction -/

section

variable {l : Limits} (hrec : m.limits.recursion ≤ l.recursion)
include hrec

theorem extends_enter (id : RoutineId) (args : List Value) (kind : FrameKind) :
    Extends m.limits.recursion (m.enter watch id args kind)
      ((m.withLimits l).enter watch id args kind) := by
  refine .bind (.refl (m.callee id)) fun c => .bind (.refl get) fun s t => ?_
  have hle : m.limits.recursion.toNat ≤ l.recursion.toNat := hrec
  by_cases hdepth : m.limits.recursion.toNat ≤ s.calls.depth
  · refine .inr ⟨t, ?_⟩
    rw [if_pos hdepth, bind_error (throw_run _ t)]
  · have hdepth' : ¬ (m.withLimits l).limits.recursion.toNat ≤ s.calls.depth := fun h =>
      hdepth (Nat.le_trans hle h)
    refine .inl ?_
    rw [if_neg hdepth, if_neg hdepth']

theorem extends_constGet (offset : UInt32) :
    Extends m.limits.recursion (m.constGet watch offset)
      ((m.withLimits l).constGet watch offset) := by
  refine .bind (.refl get) fun s => .bind (.refl _) fun ready => ?_
  cases ready with
  | true => exact .refl _
  | false =>
    exact .bind (.refl _) fun id => .bind (.refl _) fun _ => m.extends_enter watch hrec _ _ _

theorem extends_callProc (ip : UInt32) (ty : TypeId) :
    Extends m.limits.recursion (m.callProc watch ip ty)
      ((m.withLimits l).callProc watch ip ty) := by
  have hm : Akin m (m.withLimits l) := ⟨rfl, rfl, rfl, fun _ => rfl⟩
  exact congruence_extends.callProc hm watch watch
    (fun id args ret => m.extends_enter watch hrec id args (.procCall ret))
    (fun id args context => .refl (m.callNative watch id args context)) ip ty
    fun n => .refl (popMany ip n)

theorem extends_perform (ip : UInt32) (i : Instr) :
    Extends m.limits.recursion (m.perform watch ip i)
      ((m.withLimits l).perform watch ip i) := by
  cases i with
  | call id =>
    exact .bind (.refl (m.callee id)) fun c => .bind (.refl _) fun args =>
      m.extends_enter watch hrec id args .call
  | constGet offset => exact m.extends_constGet watch hrec offset
  | callProc ty => exact m.extends_callProc watch hrec ip ty
  | _ => exact .refl _

theorem extends_cycle : Extends m.limits.recursion (m.cycle watch)
    ((m.withLimits l).cycle watch) := by
  refine .bind (.refl get) fun s => .bind (.refl _) fun located => .bind (.refl _) fun _ =>
    .bind (.refl _) fun _ => ?_
  unfold step
  split
  · exact .refl _
  · exact .bind (m.extends_perform watch hrec located.ip _) fun _ => .refl _

/-- A run that no limit has cut short goes the same way under a higher limit of recursion and
with more fuel. -/
theorem run_extends {fuel fuel' : Nat} (hfuel : fuel ≤ fuel') (s : State σ τ)
    (hfree : ∀ e t, m.run watch fuel s = .error e t → ¬ e.IsLimit) :
    (m.withLimits l).run watch fuel' s = m.run watch fuel s := by
  induction fuel generalizing fuel' s with
  | zero => exact absurd trivial (hfree _ s rfl)
  | succ fuel ih =>
    obtain ⟨rest, rfl⟩ : ∃ rest, fuel' = rest + 1 := ⟨fuel' - 1, by omega⟩
    unfold run at hfree ⊢
    rcases m.extends_cycle watch hrec s with h | ⟨t, h⟩
    · rw [h]
      cases hc : m.cycle watch s with
      | error e t => rfl
      | ok o t =>
        cases o with
        | some v => rfl
        | none =>
          rw [hc] at hfree
          exact ih (Nat.le_of_succ_le_succ hfuel) t hfree
    · rw [h] at hfree
      exact absurd trivial (hfree _ t rfl)

end

/-! ## Frames -/

theorem Nesting.depth_le {c c' : CallStack} (h : Nesting m c c')
    (hc : c.depth ≤ m.limits.recursion.toNat) : c'.depth ≤ m.limits.recursion.toNat := by
  cases h with
  | same => exact hc
  | closed => exact Nat.le_trans (Nat.sub_le _ _) hc
  | opened f _ hroom => exact hroom

theorem depth_start (id : RoutineId) (args : List Value) {s : State σ τ}
    (hidle : s.calls = .empty) :
    (finalState (m.start watch id args s)).calls.depth ≤ m.limits.recursion.toNat := by
  have hdepth : s.calls.depth = 0 := by rw [hidle]; rfl
  have h := m.entering_enter watch id args .host { s with operands := .empty }
  unfold start
  generalize m.enter watch id args .host { s with operands := .empty } = r at h
  cases h with
  | begun _ hroom _ => exact hroom
  | refused => exact hdepth ▸ Nat.zero_le _
  | rejected _ _ => exact hdepth ▸ Nat.zero_le _
  | noPlace _ _ => exact hdepth ▸ Nat.zero_le _

theorem depth_after {n : Nat} {s t : State σ τ} (hs : s.calls.depth ≤ m.limits.recursion.toNat)
    (h : m.after watch n s = some t) : t.calls.depth ≤ m.limits.recursion.toNat := by
  refine m.after_keeps watch (P := fun t => t.calls.depth ≤ m.limits.recursion.toNat) ?_ hs h
  intro t u ht hc
  have hn := m.nesting_cycle watch t
  rw [hc] at hn
  exact hn.depth_le m ht

/-! ## Fetched instructions -/

section

variable {watch} {meter : τ → Nat} (hcount : watch.Counts meter)
include hcount

theorem meter_of_quiet {s t : State σ τ} (h : Quiet watch s t) : meter t.trace = meter s.trace := by
  obtain ⟨es, ht, hes⟩ := h
  rw [ht]
  clear ht
  generalize s.trace = trace
  induction es generalizing trace with
  | nil => rfl
  | cons e es ih =>
    rw [List.foldl_cons, ih fun e' he' => hes e' (.tail _ he'), hcount, hes e List.mem_cons_self]
    rfl

theorem meter_cycle (s : State σ τ) :
    meter (finalState (m.cycle watch s)).trace =
      meter s.trace + (decodeAt m.program.code s.ip).isOk.toNat := by
  rw [cycle_eq]
  cases decodeAt m.program.code s.ip with
  | error e => rfl
  | ok l =>
    have hquiet := m.quiet_step watch l (fetched watch s l)
    exact (meter_of_quiet hcount hquiet).trans (hcount (.instr l) s.trace)

theorem meter_after {n : Nat} {s t : State σ τ} (h : m.after watch n s = some t) :
    meter t.trace = meter s.trace + n := by
  induction n generalizing t with
  | zero =>
    cases h
    rfl
  | succ n ih =>
    obtain ⟨u, hu, hc⟩ := (m.after_succ watch).mp h
    have hmeter := m.meter_cycle hcount u
    rw [cycle_eq] at hc
    cases hl : decodeAt m.program.code u.ip with
    | error e =>
      rw [hl] at hc
      cases hc
    | ok l =>
      rw [cycle_eq, hl] at hmeter
      rw [hl] at hc
      dsimp only at hc hmeter
      rw [hc, ih hu] at hmeter
      exact hmeter

end

/-! ## Calls by the host -/

/-- What the limits of the machine have to do with the call of a routine by the host. -/
structure Limited (id : RoutineId) (args : List Value) (s : State σ τ) : Prop where
  /-- A call that no limit has cut short has the same result, and leaves the same state behind,
  under higher limits. -/
  higher {l : Limits} (hl : m.limits.AtMost l)
    (hfree : ∀ e t, m.execute watch id args s = .error e t → ¬ e.IsLimit) :
    (m.withLimits l).execute watch id args s = m.execute watch id args s
  /-- A call that is refused fails before its first instruction. -/
  refused {e : RuntimeError} {t : State σ τ} (h : m.start watch id args s = .error e t) :
    m.execute watch id args s = .error e (unwind t) ∧
      t.calls.frames.length ≤ m.limits.recursion.toNat
  /-- The fuel is exhausted if as many instructions as it allows have not ended the run. -/
  exhausted {s₁ t : State σ τ} (h : m.start watch id args s = .ok () s₁)
    (ht : m.after watch m.limits.fuel.toNat s₁ = some t) :
    m.execute watch id args s = .error (.fuelExhausted m.limits.fuel) (unwind t)
  /-- Else the run ends by an instruction that finishes or fails, if that comes back. -/
  ended {s₁ : State σ τ} (h : m.start watch id args s = .ok () s₁)
    (ht : m.after watch m.limits.fuel.toNat s₁ = none) :
    ∃ n t, n < m.limits.fuel.toNat ∧ m.after watch n s₁ = some t ∧
      ((∃ v u, m.cycle watch t = .ok (some v) u ∧ m.execute watch id args s = .ok v u) ∨
        ∃ e u, m.cycle watch t = .error e u ∧ m.execute watch id args s = .error e (unwind u))
  /-- It does not if and only if it takes something for an aggregate of a type whose name has no
  end. The limits do not help then, and nothing is returned. -/
  hangs (hnatives : m.NativesReturn) {ty : TypeId} :
    (∃ t, m.execute watch id args s = .error (.abort (.endlessName ty)) t) ↔
      ∃ s₁ n t, m.start watch id args s = .ok () s₁ ∧ n < m.limits.fuel.toNat ∧
        m.after watch n s₁ = some t ∧ m.Misnames t ty
  /-- There are never more frames than the limit of recursion. -/
  frames {s₁ t : State σ τ} {n : Nat} (h : m.start watch id args s = .ok () s₁)
    (ht : m.after watch n s₁ = some t) :
    t.calls.frames.length ≤ m.limits.recursion.toNat ∧
      (finalState (m.cycle watch t)).calls.frames.length ≤ m.limits.recursion.toNat
  /-- The observer sees no more instructions than the fuel allows. -/
  fetched {meter : τ → Nat} (hcount : watch.Counts meter) :
    meter (finalState (m.execute watch id args s)).trace ≤ meter s.trace + m.limits.fuel.toNat

theorem execute_extends {l : Limits} (hl : m.limits.AtMost l) (id : RoutineId) (args : List Value)
    (s : State σ τ) (hfree : ∀ e t, m.execute watch id args s = .error e t → ¬ e.IsLimit) :
    (m.withLimits l).execute watch id args s = m.execute watch id args s := by
  have hfuel : m.limits.fuel.toNat ≤ l.fuel.toNat := hl.fuel
  rcases m.extends_enter watch hl.recursion id args .host { s with operands := .empty } with
    h | ⟨t, h⟩
  · cases hc : m.start watch id args s with
    | error e t =>
      rw [m.execute_of_refused watch hc]
      exact (m.withLimits l).execute_of_refused watch (h.trans hc)
    | ok u t =>
      rw [m.execute_of_start watch hc] at hfree ⊢
      rw [(m.withLimits l).execute_of_start watch (h.trans hc)]
      refine congrArg settle (m.run_extends watch hl.recursion hfuel t ?_)
      intro e u he
      exact hfree e (unwind u) (by rw [he]; rfl)
  · exact absurd trivial (hfree (.recursionLimit m.limits.recursion) (unwind t)
      (m.execute_of_refused watch h))

theorem meter_run {meter : τ → Nat} (hcount : watch.Counts meter) (fuel : Nat) (s : State σ τ) :
    meter (finalState (m.run watch fuel s)).trace ≤ meter s.trace + fuel := by
  have hend := m.ending_run watch fuel s
  -- the last instruction may fail to be fetched
  have hlast {n : Nat} {t : State σ τ} (hn : n < fuel) (ht : m.after watch n s = some t) :
      meter (finalState (m.cycle watch t)).trace ≤ meter s.trace + fuel := by
    have hle := Bool.toNat_le (decodeAt m.program.code t.ip).isOk
    rw [m.meter_cycle hcount, m.meter_after hcount ht]
    omega
  generalize m.run watch fuel s = r at hend
  cases hend with
  | finished hn ht h =>
    have hmeter := hlast hn ht
    rw [h] at hmeter
    exact hmeter
  | failed hn ht h =>
    have hmeter := hlast hn ht
    rw [h] at hmeter
    exact hmeter
  | exhausted ht => exact Nat.le_of_eq (m.meter_after hcount ht)

theorem execute_within_limits (id : RoutineId) (args : List Value) (s : State σ τ)
    (hidle : s.calls = .empty) : Limited m watch id args s where
  higher hl hfree := m.execute_extends watch hl id args s hfree
  refused {e t} h := by
    refine ⟨m.execute_of_refused watch h, ?_⟩
    have hdepth := m.depth_start watch id args hidle
    rw [h] at hdepth
    exact t.calls.depth_eq ▸ hdepth
  exhausted h ht := by
    rw [m.execute_of_start watch h, m.run_of_after watch ht]
    rfl
  ended {s₁} h ht := by
    rw [m.execute_of_start watch h]
    have hend := m.ending_run watch m.limits.fuel.toNat s₁
    generalize m.run watch m.limits.fuel.toNat s₁ = r at hend
    cases hend with
    | finished hn hu hc => exact ⟨_, _, hn, hu, .inl ⟨_, _, hc, rfl⟩⟩
    | failed hn hu hc => exact ⟨_, _, hn, hu, .inr ⟨_, _, hc, rfl⟩⟩
    | exhausted hu =>
      rw [hu] at ht
      cases ht
  hangs hnatives := hangs_execute_iff watch hnatives
  frames {s₁ t n} h ht := by
    have hstart := m.depth_start watch id args hidle
    rw [h] at hstart
    have hdepth := m.depth_after watch hstart ht
    have hdepth' := (m.nesting_cycle watch t).depth_le m hdepth
    rw [← CallStack.depth_eq, ← CallStack.depth_eq]
    exact ⟨hdepth, hdepth'⟩
  fetched {meter} hcount := by
    have hquiet := m.quiet_enter watch id args .host { s with operands := .empty }
    have hentered := meter_of_quiet hcount hquiet
    cases h : m.start watch id args s with
    | error e t =>
      rw [m.execute_of_refused watch h]
      rw [start] at h
      rw [h] at hentered
      exact Nat.le_trans (Nat.le_of_eq hentered) (Nat.le_add_right _ _)
    | ok u t =>
      have hrun := m.meter_run watch hcount m.limits.fuel.toNat t
      rw [m.execute_of_start watch h]
      rw [start] at h
      rw [h] at hentered
      dsimp only [finalState] at hentered
      rw [hentered] at hrun
      cases hr : m.run watch m.limits.fuel.toNat t <;> rw [hr] at hrun <;> exact hrun

/-- A machine with one routine, which does nothing and returns. -/
def twoSteps (l : Limits) : Machine Unit where
  program :=
    ⟨([.nop, .ret].flatMap Instr.encode).toArray, .empty, .empty, #[], [], #[], none⟩
  layouts := ⟨.empty, #[]⟩
  callees := #[⟨⟨"main", 0, 0, [], none⟩, ⟨#[], 0⟩⟩]
  natives := #[]
  limits := l

/-- Two instructions and one frame are enough, one instruction or no frame is not. -/
theorem execute_within_limits_twoSteps :
    (∃ t, (twoSteps ⟨2, 1⟩).execute .recorder ⟨0⟩ [] .blank = .ok .void t) ∧
      ((twoSteps ⟨2, 1⟩).withLimits ⟨3, 4⟩).execute .recorder ⟨0⟩ [] .blank =
        (twoSteps ⟨2, 1⟩).execute .recorder ⟨0⟩ [] .blank ∧
      (∃ t, (twoSteps ⟨1, 1⟩).execute .recorder ⟨0⟩ [] .blank = .error (.fuelExhausted 1) t) ∧
      (∃ t, (twoSteps ⟨2, 0⟩).execute .recorder ⟨0⟩ [] .blank =
        .error (.recursionLimit 0) t) := by
  refine ⟨⟨_, rfl⟩, ?_, ⟨_, rfl⟩, ⟨_, rfl⟩⟩
  have hlimited := execute_within_limits (twoSteps ⟨2, 1⟩) .recorder ⟨0⟩ [] .blank rfl
  refine hlimited.higher ⟨by decide, by decide⟩ ?_
  intro e t h
  cases h

/-- A program with a type of pointers to itself, which it asks of an integer. -/
def selfPointer : Program where
  code := ([.pushI64 1, .fieldGet ⟨0⟩ 0, .ret].flatMap Instr.encode).toArray
  sources := .empty
  types := ⟨#[.pointer ⟨0⟩]⟩
  routines := #[⟨"main", 0, 0, [], none⟩]
  constants := []
  natives := #[]
  entry := none

/-- The operand is of the wrong type, but this is never said. -/
theorem stuck_of_selfPointer : selfPointer.validate = .ok () ∧ ∃ m : Machine Unit,
    Machine.build selfPointer (fun _ => none) .standard = .ok m ∧ m.NativesReturn ∧
      ∃ t, m.execute .recorder ⟨0⟩ [] .blank = .error (.abort (.endlessName ⟨0⟩)) t := by
  obtain ⟨m, hm⟩ :
      ∃ m : Machine Unit, Machine.build selfPointer (fun _ => none) .standard = .ok m :=
    ⟨_, rfl⟩
  refine ⟨by decide +kernel, m, hm, ?_, ?_⟩
  · cases hm
    exact fun id name native h => nomatch h
  · cases hm
    exact ⟨_, rfl⟩

end Machine
end ForeignVM
