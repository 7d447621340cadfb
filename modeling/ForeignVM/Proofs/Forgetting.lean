import ForeignVM.Proofs.Registers
import ForeignVM.Proofs.Veil

/-!
# ForeignVM.Proofs.Forgetting

A call by the host depends on the memory, the pool and the state of the natives, and on nothing
else that earlier calls have left behind. Operands are cleared and the fuel is filled up; the stale
address goes into the frame that the host enters, from which it is never taken, since the return
from this frame ends the run.

* `CallStack.forget`      — the calls without the addresses at which the host would go on.
* `run_forget`            — these addresses make no difference to a run.
* `enter_moved`           — and nothing else depends on the address that is left over.
* `execute_outcome`       — so idle states that share what is kept have calls with one outcome.
* `executeKept_outcome`   — the same of registers between two calls by the host.
-/

namespace ForeignVM

/-! ## Where the host goes on -/

/-- A frame without the address at which the host would go on. -/
def Frame.forget (f : Frame) : Frame :=
  match f.kind with
  | .host => { f with returnIp := 0 }
  | _ => f

theorem Frame.forget_eq {f : Frame} (h : f.kind ≠ .host) : f.forget = f := by
  unfold forget
  split
  · next hkind => exact absurd hkind h
  · rfl

theorem Frame.kind_forget (f : Frame) : f.forget.kind = f.kind := by
  unfold forget
  split <;> rfl

theorem Frame.seen_forget (f : Frame) : f.forget.seen = f.seen := by
  unfold forget
  split <;> rfl

def CallStack.forget (c : CallStack) : CallStack :=
  ⟨c.frames.map Frame.forget, c.depth, by rw [List.length_map, c.depth_eq]⟩

theorem CallStack.current?_forget (c : CallStack) :
    c.forget.current? = c.current?.map Frame.forget := List.head?_map

theorem veil_forget : Veil (fun _ => True) CallStack.forget where
  depth _ := rfl
  seen c := by
    rw [c.current?_forget, Option.map_map]
    exact congrArg (c.current?.map ·) (funext Frame.seen_forget)
  tail c := CallStack.ext_frames List.map_tail.symm
  push {c f} _ h :=
    ⟨trivial, CallStack.ext_frames (congrArg (· :: c.frames.map Frame.forget) (f.forget_eq h))⟩

namespace Machine

open ForeignVM.Action

variable {σ τ : Type} (m : Machine σ) (watch : Observer τ)

/-- The return from a frame of the host does not go on at the address that it keeps. -/
theorem handOver_forget (f : Frame) (v : Value) (s : State σ τ) :
    m.handOver watch f.forget v (s.behind .forget) =
      veiled .forget (m.handOver watch f v s) := by
  by_cases hkind : f.kind = .host
  · have hforget : f.forget.kind = .host := f.kind_forget.trans hkind
    simp only [handOver, hkind, hforget]
    rfl
  · rw [f.forget_eq hkind]
    exact (veil_forget.handOver m watch f v s trivial).2

theorem leave_forget (ip : UInt32) (s : State σ τ) :
    m.leave watch ip (s.behind .forget) = veiled .forget (m.leave watch ip s) := by
  cases hf : s.calls.current? with
  | none =>
    have hf' : (s.behind .forget).calls.current? = none := veil_forget.current?_eq_none hf
    simp only [leave, bind_run, get_run, hf, hf']
    rfl
  | some f =>
    have hf' : s.calls.forget.current? = some f.forget := by
      rw [s.calls.current?_forget, hf]
      rfl
    exact veil_forget.leave m watch trivial hf hf'
      (fun _ v t _ _ _ => m.handOver_forget watch f v t) ip

theorem veiled_unfinished {g : CallStack → CallStack}
    (r : EStateM.Result RuntimeError (State σ τ) Unit) :
    unfinished (veiled g r) = veiled g (unfinished r) := by
  cases r <;> rfl

theorem cycle_forget (s : State σ τ) :
    m.cycle watch (s.behind .forget) = veiled .forget (m.cycle watch s) := by
  have hip : (s.behind .forget).ip = s.ip := rfl
  rw [cycle_eq, cycle_eq, hip]
  cases decodeAt m.program.code s.ip with
  | error e => rfl
  | ok l =>
    have hfetched : fetched watch (s.behind .forget) l = (fetched watch s l).behind .forget := rfl
    dsimp only
    rw [hfetched]
    by_cases hret : l.instr = .ret
    · rw [m.step_ret watch hret]
      exact m.leave_forget watch l.ip _
    · rw [m.step_eq watch hret, m.step_eq watch hret, ← veiled_unfinished,
        (veil_forget.perform m watch l.ip l.instr (fetched watch s l) trivial).2]

theorem run_forget (fuel : Nat) (s : State σ τ) :
    m.run watch fuel (s.behind .forget) = veiled .forget (m.run watch fuel s) := by
  induction fuel generalizing s with
  | zero => rfl
  | succ fuel ih =>
    rw [run, run, m.cycle_forget watch s]
    cases m.cycle watch s with
    | error e t => rfl
    | ok o t =>
      cases o with
      | some v => rfl
      | none => exact ih t

end Machine

/-! ## Where a run starts -/

namespace Action

variable {σ τ α β ε : Type}

/-- The same result at another address. -/
def moved (ip : UInt32) :
    EStateM.Result RuntimeError (State σ τ) α → EStateM.Result RuntimeError (State σ τ) α
  | .ok a s => .ok a { s with ip := ip }
  | .error e s => .error e { s with ip := ip }

/-- The action has nothing to do with the address. -/
def Placeless (a : Action σ τ α) : Prop :=
  ∀ (s : State σ τ) (ip : UInt32), a { s with ip := ip } = moved ip (a s)

namespace Placeless

theorem bind {a : Action σ τ α} {f : α → Action σ τ β} (ha : Placeless a)
    (hf : ∀ x, Placeless (f x)) : Placeless (a >>= f) := by
  intro s ip
  rw [bind_run, bind_run, ha]
  cases a s with
  | ok x t => exact hf x t ip
  | error e t => rfl

theorem get {f : State σ τ → Action σ τ α} (hsame : ∀ s ip, f { s with ip := ip } = f s)
    (h : ∀ s, Placeless (f s)) : Placeless (MonadState.get >>= f) := by
  intro s ip
  rw [bind_ok (get_run s), bind_ok (get_run _), hsame]
  exact h s s ip

theorem check (cause : ε → RuntimeError) (x : Except ε α) :
    Placeless (Action.check cause x : Action σ τ α) := by
  cases x with
  | ok a => exact fun _ _ => rfl
  | error e => exact fun _ _ => rfl

theorem setMemory (memory : Memory) : Placeless (Action.setMemory memory : Action σ τ Unit) :=
  fun _ _ => rfl

theorem release (address : UInt64) : Placeless (Action.release address : Action σ τ Unit) :=
  .get (fun _ _ => rfl) fun _ => .bind (.check _ _) .setMemory

theorem storeArgs (locals : UInt64) (slots : List Slot) (args : List Value) :
    Placeless (Machine.storeArgs locals slots args : Action σ τ Unit) := by
  induction slots generalizing args with
  | nil => exact fun _ _ => rfl
  | cons slot slots ih =>
    cases args with
    | nil => exact fun _ _ => rfl
    | cons arg args =>
      refine .bind (.check _ _) fun address => .get (fun _ _ => rfl) fun s => ?_
      refine .bind (.check _ _) fun _ => ?_
      split
      · exact .get (fun _ _ => rfl) fun s => .bind (.check _ _) fun _ =>
          .bind (.setMemory _) fun _ => ih args
      · exact .bind (.release _) fun _ _ _ => rfl

end Placeless
end Action

namespace Machine

open ForeignVM.Action

variable {σ τ : Type} (m : Machine σ) (watch : Observer τ)

/-- The address at which a routine is entered matters to nothing but the frame. -/
theorem enter_moved (id : RoutineId) (args : List Value) (kind : FrameKind) (s : State σ τ)
    (ip : UInt32) :
    (∃ e t, m.enter watch id args kind s = .error e t ∧
      m.enter watch id args kind { s with ip := ip } = .error e { t with ip := ip }) ∨
    ∃ (t : State σ τ) (f : Frame), f.kind = kind ∧
      m.enter watch id args kind s = .ok () { t with calls := t.calls.push f } ∧
      m.enter watch id args kind { s with ip := ip } =
        .ok () { t with calls := t.calls.push { f with returnIp := ip } } := by
  cases hc : m.callee? id with
  | none =>
    refine .inl ⟨.unknownRoutine id, s, ?_, ?_⟩ <;>
      simp only [enter, callee, hc, bind_run, throw_run]
  | some c =>
    by_cases hdepth : m.limits.recursion.toNat ≤ s.calls.depth
    · refine .inl ⟨.recursionLimit m.limits.recursion, s, ?_, ?_⟩ <;>
        simp only [enter, callee, hc, bind_run, pure_run, get_run, if_pos hdepth, throw_run]
    by_cases hargs : args.length = c.routine.params.toNat
    · have hlt := Nat.lt_of_not_le hdepth
      rw [m.enter_eq watch hc hlt hargs kind,
        m.enter_eq watch (s := { s with ip := ip }) hc hlt hargs kind]
      cases s.memory.alloc c.frame.size with
      | error e => exact .inl ⟨_, _, rfl, rfl⟩
      | ok r =>
        obtain ⟨locals, memory⟩ := r
        have hmoved := Placeless.storeArgs locals c.frame.slots.toList args
          { s with memory := memory } ip
        dsimp only at hmoved ⊢
        rw [hmoved]
        cases storeArgs locals c.frame.slots.toList args { s with memory := memory } with
        | error e t => exact .inl ⟨_, _, rfl, rfl⟩
        | ok _ t =>
          exact .inr ⟨{ t with ip := c.routine.entry, trace := watch (.called id) t.trace },
            ⟨id, kind, t.ip, locals, t.operands.height⟩, rfl, rfl, rfl⟩
    · refine .inl ⟨.arityMismatch c.routine.name c.routine.params.toNat args.length, s, ?_, ?_⟩ <;>
        simp only [enter, callee, hc, bind_run, pure_run, get_run, if_neg hdepth, ne_eq, hargs,
          not_false_eq_true, if_true, throw_run]

/-! ## Calls by the host -/

/-- What a call by the host comes to: its result, and what is kept of the state. -/
def outcome (r : EStateM.Result RuntimeError (State σ τ) Value) :
    Except RuntimeError Value × Memory × Pool × σ × τ :=
  match r with
  | .ok v s => (.ok v, s.memory, s.pool, s.host, s.trace)
  | .error e s => (.error e, s.memory, s.pool, s.host, s.trace)

theorem releaseFrames_forget (frames : List Frame) (memory : Memory) :
    releaseFrames (frames.map Frame.forget) memory = releaseFrames frames memory := by
  induction frames generalizing memory with
  | nil => rfl
  | cons f frames ih =>
    have hlocals : f.forget.locals = f.locals := congrArg (·.2.1) f.seen_forget
    simp only [List.map_cons, releaseFrames, hlocals, ih]

theorem outcome_settle_forget (r : EStateM.Result RuntimeError (State σ τ) Value) :
    outcome (settle (veiled .forget r)) = outcome (settle r) := by
  cases r with
  | ok v s => rfl
  | error e s =>
    have hmemory := releaseFrames_forget s.calls.frames s.memory
    simp only [veiled, settle, unwind, outcome, State.behind, CallStack.forget, hmemory]

theorem outcome_run_forget (fuel : Nat) (s : State σ τ) :
    outcome (settle (m.run watch fuel (s.behind .forget))) =
      outcome (settle (m.run watch fuel s)) := by
  rw [m.run_forget, outcome_settle_forget]

theorem execute_outcome {s s' : State σ τ} (hs : s.calls = .empty) (hs' : s'.calls = .empty)
    (hmemory : s'.memory = s.memory) (hpool : s'.pool = s.pool) (hhost : s'.host = s.host)
    (htrace : s'.trace = s.trace) (id : RoutineId) (args : List Value) :
    outcome (m.execute watch id args s') = outcome (m.execute watch id args s) := by
  have hstart : m.start watch id args s' =
      m.enter watch id args .host { { s with operands := .empty } with ip := s'.ip } := by
    rw [start, ← hmemory, ← hpool, ← hhost, ← htrace, hs, ← hs']
  obtain ⟨e, t, hr, hr'⟩ | ⟨t, f, hkind, hr, hr'⟩ :=
    m.enter_moved watch id args .host { s with operands := .empty } s'.ip
  · rw [m.execute_of_refused watch hr, m.execute_of_refused watch (hstart.trans hr')]
    rfl
  · have hsame : ({ f with returnIp := s'.ip } : Frame).forget = f.forget := by
      simp only [Frame.forget, hkind]
    have hcalls : (t.calls.push { f with returnIp := s'.ip }).forget = (t.calls.push f).forget :=
      CallStack.ext_frames (congrArg (· :: t.calls.frames.map Frame.forget) hsame)
    rw [m.execute_of_start watch hr, m.execute_of_start watch (hstart.trans hr'),
      ← m.outcome_run_forget watch _ { t with calls := t.calls.push f },
      ← m.outcome_run_forget watch _ { t with calls := t.calls.push _ }]
    simp only [State.behind, hcalls]

end Machine

/-! ## Machines between calls by the host -/

namespace Registers

variable {σ τ : Type}

/-- What a call by the host comes to: its result, the trace, and of the registers the memory, the
pool and the state of the natives. -/
def outcome (k : Except RuntimeError Value × τ × Registers σ) :
    Except RuntimeError Value × Memory × Pool × σ × τ :=
  (k.1, k.2.2.memory, k.2.2.pool, k.2.2.host, k.2.1)

theorem Tells.outcome {k : Except RuntimeError Value × τ × Registers σ}
    {r : EStateM.Result RuntimeError (State σ τ) Value} (h : Tells k r) :
    outcome k = Machine.outcome r := by
  obtain ⟨result, trace, kept⟩ := k
  cases r with
  | ok v s =>
    obtain ⟨rfl, rfl⟩ := h
    rfl
  | error e s =>
    obtain ⟨rfl, rfl⟩ := h
    rfl

end Registers

namespace Machine

variable {σ τ : Type} {m : Machine σ}

/-- Whatever two machines have run before: if they share the memory, the pool and the state of the
natives, a call by the host gives the same result or error and the same trace on both, and they
share the memory, the pool and the state of the natives again. -/
theorem executeKept_outcome {a b : Registers σ} (ha : m.Between a) (hb : m.Between b)
    (hmemory : a.memory = b.memory) (hpool : a.pool = b.pool) (hhost : a.host = b.host)
    (watch : Observer τ) (id : RoutineId) (args : List Value) (trace : τ) :
    Registers.outcome (m.executeKept watch id args a trace) =
      Registers.outcome (m.executeKept watch id args b trace) := by
  rw [(m.tells_executeKept watch id args a trace).outcome,
    (m.tells_executeKept watch id args b trace).outcome]
  have hidle : (b.state trace).calls = .empty := hb.idle
  have hidle' : (a.state trace).calls = .empty := ha.idle
  exact m.execute_outcome watch hidle hidle' hmemory hpool hhost rfl id args

/-- The address and the pool that are left when `failing` has failed. -/
def leftOver : Option (UInt32 × Pool) :=
  match Machine.build failing (fun _ => some tick) .standard with
  | .ok m =>
    let s := Action.finalState (m.execute .recorder ⟨0⟩ [] (.idle .empty .empty 0 []))
    some (s.ip, s.pool)
  | .error _ => none

/-- One machine has run the program, which has failed. For the other one the host has brought about
the same memory, but its registers are those of a machine that has just been built. -/
theorem executeKept_outcome_failing :
    ∃ (m : Machine Nat) (used fresh : Registers Nat),
      Machine.build failing (fun _ => some tick) .standard = .ok m ∧
      used = (m.executeKept .recorder ⟨0⟩ [] (m.registers .empty 0) ([] : List Event)).2.2 ∧
      fresh = { m.registers .empty 0 with memory := used.memory, host := used.host } ∧
      used.ip ≠ fresh.ip ∧
      Registers.outcome (m.executeKept .recorder ⟨0⟩ [] used ([] : List Event)) =
        Registers.outcome (m.executeKept .recorder ⟨0⟩ [] fresh ([] : List Event)) := by
  obtain ⟨m, hbuild⟩ : ∃ m, Machine.build failing (fun _ => some tick) .standard = .ok m :=
    ⟨_, rfl⟩
  have hstate := (m.tells_executeKept .recorder ⟨0⟩ [] (m.registers .empty 0) []).finalState
  have hleft : leftOver = some (12, .empty) := by decide +kernel
  rw [leftOver, hbuild] at hleft
  obtain ⟨hip, hpool⟩ := Prod.mk.inj (Option.some.inj hleft)
  have hinit : m.Between (m.registers .empty 0) := .built .empty 0
  refine ⟨m, _, _, hbuild, rfl, rfl, ?_, ?_⟩
  · have hused := (congrArg State.ip hstate).trans hip
    have hne : (12 : UInt32) ≠ 0 := by decide
    exact fun hfresh => hne (hused.symm.trans hfresh)
  · have hused := (congrArg State.pool hstate).trans hpool
    exact executeKept_outcome (hinit.executed ..) (hinit.changed ..) rfl hused rfl ..

end Machine
end ForeignVM
