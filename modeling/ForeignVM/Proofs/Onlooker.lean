import ForeignVM.Proofs.Path

/-!
# ForeignVM.Proofs.Onlooker

Runs in front of an onlooker, who is told the same events as an observer and in addition sees the
calls that are open at that moment. What happens between two events is left to an observer that
does not react, so the only difference to a run of the machine is what is shown.

* `Hook`, `Onlooker`        — an event with the open calls, and who is told of it.
* `Machine.cycleSeen`, `runSeen`, `executeSeen` — the run of a machine in front of an onlooker.
* `executeSeen_ofObserver`  — in front of one who ignores the calls it is the run of the machine.
-/

namespace ForeignVM

/-- An event, and the calls that are open right after it. -/
structure Hook where
  event : Event
  calls : CallStack

/-- How hooks change a trace. -/
abbrev Onlooker (τ : Type) := Hook → τ → τ

namespace Onlooker

/-- An observer does not look at the calls. -/
def ofObserver {τ : Type} (watch : Observer τ) : Onlooker τ := fun h => watch h.event

end Onlooker

/-- Shows the calls as they are. -/
def Action.tell {σ τ : Type} (look : Onlooker τ) (e : Event) : Action σ τ Unit :=
  modify fun s => { s with trace := look ⟨e, s.calls⟩ s.trace }

namespace Machine

open ForeignVM.Action

variable {σ τ : Type} (m : Machine σ) (look : Onlooker τ)

def enterSeen (id : RoutineId) (args : List Value) (kind : FrameKind) : Action σ τ Unit := do
  m.enter .silent id args kind
  tell look (.called id)

/-- Takes the result of the current frame and the frame itself. -/
def retire (ip : UInt32) : Action σ τ (Frame × Value) := do
  match (← get).calls.current? with
  | none => throw (.stackUnderflow ip)
  | some frame =>
    let c ← m.callee frame.routine
    let v ← m.result ip c.routine.ret
    modify fun s => { s with calls := s.calls.tail, operands := s.operands.cut frame.base }
    release frame.locals
    pure (frame, v)

def deliverSeen (v : Value) : FrameKind → Action σ τ Unit
  | .constant offset => do
    let stored ← m.storeConstant .silent offset v
    tell look (.constReady offset)
    push stored
  | kind => m.deliver .silent v kind

def handOverSeen (f : Frame) (v : Value) : Action σ τ (Option Value) :=
  match f.kind with
  | .host => pure (some v)
  | kind => do
    m.deliverSeen look v kind
    jump f.returnIp
    pure none

def leaveSeen (ip : UInt32) : Action σ τ (Option Value) := do
  let (frame, v) ← m.retire ip
  tell look (.returned v)
  m.handOverSeen look frame v

def constGetSeen (offset : UInt32) : Action σ τ Unit := do
  let pool := (← get).pool
  if ← check .pool (pool.isInitialized offset) then
    let entry ← check .pool (pool.entry offset)
    let s ← m.shape entry.ty
    let bytes ← check .pool (pool.data offset)
    tell look (.constHit offset)
    push (s.decode bytes)
  else
    let initializer ← check .pool (pool.initializer offset)
    tell look (.constInit offset)
    m.enterSeen look initializer [] (.constant offset)

def callNativeSeen (id : NativeId) (args : List Value) (context : UInt64) :
    Action σ τ Value := do
  match m.native? id with
  | none => throw (.unknownNative ("#" ++ toString id.position))
  | some _ =>
    tell look (.native id)
    m.callNative .silent id args context

def callTargetSeen (p : ProcRef) (args : List Value) (ret : Option TypeId)
    (shape? : Option Shape) : Action σ τ Unit :=
  match p.target with
  | none => throw .nilProc
  | some (.routine id) =>
    if p.context ≠ 0 then throw (.routineContext id)
    else m.enterSeen look id args (.procCall ret)
  | some (.native id) => do
    let v ← m.callNativeSeen look id args p.context
    match shape? with
    | some s => push (← ofResult (s.coerce v))
    | none => pure ()

def callProcSeen (ip : UInt32) (ty : TypeId) : Action σ τ Unit := do
  let (params, ret) ← check .type (m.layouts.types.signature ty)
  let shapes ← check .type (params.mapM m.layouts.shape)
  let shape? ← check .type (ret.mapM m.layouts.shape)
  let raw ← popMany ip shapes.length
  let p ← popProc ip
  let args ← ofResult (coerceArgs shapes raw)
  m.callTargetSeen look p args ret shape?

def mallocSeen (ty : TypeId) (count : UInt32) : Action σ τ Unit := do
  let size ← ofResult (m.allocationSize ty count)
  let address ← allocate size
  tell look (.allocated address size)
  push (.pointer ⟨address, ty⟩)

/-- Only four instructions tell of more than their fetch. -/
def performSeen (ip : UInt32) : Instr → Action σ τ Unit
  | .malloc ty count => m.mallocSeen look ty count
  | .call id => do
    let c ← m.callee id
    let args ← popMany ip c.routine.params.toNat
    m.enterSeen look id args .call
  | .constGet offset => m.constGetSeen look offset
  | .callProc ty => m.callProcSeen look ip ty
  | i => m.perform .silent ip i

def stepSeen (l : Located) : Action σ τ (Option Value) :=
  match l.instr with
  | .ret => m.leaveSeen look l.ip
  | i => do
    m.performSeen look l.ip i
    pure none

theorem stepSeen_eq {l : Located} (h : l.instr ≠ .ret) :
    m.stepSeen look l = (m.performSeen look l.ip l.instr >>= fun _ => pure none) := by
  unfold stepSeen
  generalize l.instr = i at h
  cases i <;> first | rfl | exact absurd rfl h

def cycleSeen : Action σ τ (Option Value) := do
  let l ← check .code (decodeAt m.program.code (← get).ip)
  tell look (.instr l)
  jump l.next
  m.stepSeen look l

def runSeen : Nat → State σ τ → EStateM.Result RuntimeError (State σ τ) Value
  | 0, s => .error (.fuelExhausted m.limits.fuel) s
  | fuel + 1, s =>
    match m.cycleSeen look s with
    | .error e s => .error e s
    | .ok (some v) s => .ok v s
    | .ok none s => runSeen fuel s

def executeSeen (id : RoutineId) (args : List Value) (s : State σ τ) :
    EStateM.Result RuntimeError (State σ τ) Value :=
  match m.enterSeen look id args .host { s with operands := .empty } with
  | .error e s => .error e (unwind s)
  | .ok () s =>
    match m.runSeen look m.limits.fuel.toNat s with
    | .error e s => .error e (unwind s)
    | .ok v s => .ok v s

/-! ## An onlooker who ignores the calls -/

variable (watch : Observer τ)

theorem tell_ofObserver (e : Event) :
    (tell (.ofObserver watch) e : Action σ τ Unit) = emit watch e := rfl

theorem enterSeen_ofObserver (id : RoutineId) (args : List Value) (kind : FrameKind) :
    m.enterSeen (.ofObserver watch) id args kind = m.enter watch id args kind := by
  unfold enterSeen enter
  simp only [tell_ofObserver, bind_assoc]
  congr 1
  funext c
  congr 1
  funext s
  split
  · rfl
  · split
    · rfl
    · simp only [bind_assoc]
      rfl

theorem deliverSeen_ofObserver (v : Value) (kind : FrameKind) :
    m.deliverSeen (.ofObserver watch) v kind = m.deliver watch v kind := by
  cases kind with
  | constant offset =>
    simp only [deliverSeen, deliver, storeConstant, tell_ofObserver, bind_assoc, pure_bind]
    rfl
  | procCall ret => cases ret <;> rfl
  | host | call => rfl

theorem handOverSeen_ofObserver (f : Frame) (v : Value) :
    m.handOverSeen (.ofObserver watch) f v = m.handOver watch f v := by
  unfold handOverSeen handOver
  cases f.kind with
  | host => rfl
  | _ => simp only [deliverSeen_ofObserver]

theorem leaveSeen_ofObserver (ip : UInt32) :
    m.leaveSeen (.ofObserver watch) ip = m.leave watch ip := by
  unfold leaveSeen leave retire
  simp only [tell_ofObserver, bind_assoc, handOverSeen_ofObserver]
  congr 1
  funext s
  cases s.calls.current? with
  | none => rfl
  | some frame =>
    simp only [bind_assoc, pure_bind]
    rfl

theorem constGetSeen_ofObserver (offset : UInt32) :
    m.constGetSeen (.ofObserver watch) offset = m.constGet watch offset := by
  unfold constGetSeen constGet
  simp only [enterSeen_ofObserver]
  rfl

theorem callNativeSeen_ofObserver (id : NativeId) (args : List Value) (context : UInt64) :
    m.callNativeSeen (.ofObserver watch) id args context =
      m.callNative watch id args context := by
  unfold callNativeSeen callNative
  cases m.native? id <;> rfl

theorem callTargetSeen_ofObserver (p : ProcRef) (args : List Value) (ret : Option TypeId)
    (shape? : Option Shape) :
    m.callTargetSeen (.ofObserver watch) p args ret shape? =
      m.callTarget watch p args ret shape? := by
  unfold callTargetSeen callTarget
  cases p.target with
  | none => rfl
  | some target =>
    cases target with
    | routine id => simp only [enterSeen_ofObserver]
    | native id =>
      cases shape? <;> simp only [callNativeSeen_ofObserver]

theorem callProcSeen_ofObserver (ip : UInt32) (ty : TypeId) :
    m.callProcSeen (.ofObserver watch) ip ty = m.callProc watch ip ty := by
  unfold callProcSeen callProc
  simp only [callTargetSeen_ofObserver]

theorem performSeen_of_isInner {i : Instr} (hi : i.isInner) (ip : UInt32) :
    m.performSeen look ip i = m.perform .silent ip i := by
  cases i with
  | malloc _ _ | call _ | constGet _ | callProc _ => cases hi
  | _ => simp only [performSeen]

theorem performSeen_ofObserver (ip : UInt32) (i : Instr) :
    m.performSeen (.ofObserver watch) ip i = m.perform watch ip i := by
  cases i with
  | call id =>
    simp only [performSeen, perform, enterSeen_ofObserver]
  | constGet offset => exact m.constGetSeen_ofObserver watch offset
  | callProc ty => exact m.callProcSeen_ofObserver watch ip ty
  | _ => rfl

theorem stepSeen_ofObserver (l : Located) :
    m.stepSeen (.ofObserver watch) l = m.step watch l := by
  by_cases hret : l.instr = .ret
  · simp only [stepSeen, step, hret, leaveSeen_ofObserver]
  · funext s
    rw [m.stepSeen_eq _ hret, m.step_eq watch hret, performSeen_ofObserver, bind_run]
    cases m.perform watch l.ip l.instr s <;> rfl

theorem cycleSeen_ofObserver : m.cycleSeen (.ofObserver watch) = m.cycle watch := by
  unfold cycleSeen cycle
  simp only [stepSeen_ofObserver]
  rfl

theorem runSeen_ofObserver (fuel : Nat) (s : State σ τ) :
    m.runSeen (.ofObserver watch) fuel s = m.run watch fuel s := by
  induction fuel generalizing s with
  | zero => rfl
  | succ fuel ih =>
    rw [runSeen, run, cycleSeen_ofObserver]
    cases m.cycle watch s with
    | error e t => rfl
    | ok o t =>
      cases o with
      | some v => rfl
      | none => exact ih t

/-- Apart from the calls that are shown, the run is that of the machine. -/
theorem executeSeen_ofObserver (id : RoutineId) (args : List Value) (s : State σ τ) :
    m.executeSeen (.ofObserver watch) id args s = m.execute watch id args s := by
  rw [executeSeen, execute, enterSeen_ofObserver]
  cases m.enter watch id args .host { s with operands := .empty } with
  | error e t => rfl
  | ok _ t =>
    cases hr : m.run watch m.limits.fuel.toNat t <;> simp only [runSeen_ofObserver, hr]

end Machine
end ForeignVM
