import ForeignVM.Proofs.Path
import ForeignVM.Proofs.Raises
import ForeignVM.Proofs.TypeNames

/-!
# ForeignVM.Proofs.Naming

Where a run is stuck in the name of a type. Two instructions take an aggregate of a type that they
give, and name the type if they find something else. If its name has no end they never come back,
and nothing else in a machine does that.

* `Action.Hangs`        — an action is stuck in the name of a type.
* `Machine.Misnames`    — the instruction at the address of a state has to name such a type.
* `returns_perform`     — every other instruction comes back; `hangs_cycle_iff`.
* `hangs_execute_iff`   — the calls by the host that never come back.
-/

namespace ForeignVM

/-- It is an error that the host is told of, if it is not a panic. -/
def RuntimeError.Returned (e : RuntimeError) : Prop := ∀ ty, e ≠ .abort (.endlessName ty)

theorem RuntimeError.IsRefusal.returned {e : RuntimeError} (h : e.IsRefusal) : e.Returned := by
  rintro ty rfl
  exact h

theorem admits_returned : Admits RuntimeError.Returned where
  operands _ := nofun
  memory _ := nofun
  refusal _ h := h.returned

/-! ## Errors of computations with values -/

section

variable {a b v : Value} {e : RuntimeError}

theorem Arithmetic.refusal_of_apply {op : Arithmetic} (h : op.apply a b = .error e) :
    e.IsRefusal := by
  unfold apply at h
  split at h <;> cases h
  trivial

theorem Value.refusal_of_less (h : a.less b = .error e) : e.IsRefusal := by
  unfold less at h
  split at h <;> cases h
  trivial

theorem Value.refusal_of_same (h : a.same b = .error e) : e.IsRefusal := by
  unfold same at h
  split at h <;> cases h
  trivial

theorem Value.refusal_of_castTo {source target : ScalarKind}
    (h : v.castTo source target = .error e) : e.IsRefusal := by
  unfold castTo at h
  split at h
  · exact Shape.refusal_of_coerce h
  · cases h
    trivial

theorem Pointer.returned_of_field {p : Pointer} {l : Layouts} {i : UInt16}
    (h : p.field l i = .error e) : e.Returned := by
  unfold field at h
  split at h
  · cases h
    nofun
  · split at h
    · cases h
      nofun
    · split at h <;> cases h
      nofun
  · cases h
    nofun

theorem Pointer.returned_of_index {p : Pointer} {l : Layouts} {i : Int64}
    (h : p.index l i = .error e) : e.Returned := by
  unfold index at h
  split at h
  · cases h
    nofun
  · dsimp only at h
    split at h
    · split at h <;> cases h
      nofun
    · cases h
      nofun

theorem Aggregate.returned_of_get {c : Aggregate} {i : UInt16} (h : c.get i = .error e) :
    e.Returned := by
  unfold get readField at h
  split at h
  · cases h
    nofun
  · split at h <;> cases h
    nofun

theorem Aggregate.returned_of_write {c : Aggregate} {f : FieldLayout}
    (h : c.write f v = .error e) : e.Returned := by
  unfold write at h
  by_cases hbegin : c.bytes.length < f.offset
  · rw [if_pos hbegin] at h
    cases h
    nofun
  · rw [if_neg hbegin] at h
    cases hencode : f.shape.encode v with
    | error e' =>
      rw [hencode] at h
      cases h
      exact (Shape.refusal_of_encode hencode).returned
    | ok bytes =>
      rw [hencode] at h
      dsimp only at h
      split at h <;> cases h
      nofun

theorem Aggregate.returned_of_set {c : Aggregate} {i : UInt16} (h : c.set i v = .error e) :
    e.Returned := by
  unfold set at h
  split at h
  · cases h
    nofun
  · exact returned_of_write h

end

/-! ## Actions -/

namespace Action

variable {σ τ α β : Type} {s : State σ τ} {ty : TypeId}

/-- The action is stuck in the name of the type. -/
def Hangs (ty : TypeId) (a : Action σ τ α) (s : State σ τ) : Prop :=
  ∃ t, a s = .error (.abort (.endlessName ty)) t

/-- The action comes back, with a result or an error. -/
abbrev Returns (a : Action σ τ α) (s : State σ τ) : Prop := Raises RuntimeError.Returned a s

theorem Raises.not_hangs {a : Action σ τ α} (h : Returns a s) : ¬ Hangs ty a s :=
  fun ⟨t, ht⟩ => h _ t ht ty rfl

/-- Where the second action comes back it is the first that is stuck. -/
theorem hangs_bind_iff {a : Action σ τ α} {f : α → Action σ τ β}
    (hf : ∀ x t, a s = .ok x t → Returns (f x) t) : Hangs ty (a >>= f) s ↔ Hangs ty a s := by
  unfold Hangs
  rw [bind_run]
  cases ha : a s with
  | error e t => simp
  | ok x t => exact iff_of_false (hf x t ha).not_hangs nofun

theorem hangs_bind_iff_of_returns {a : Action σ τ α} {f : α → Action σ τ β} (ha : Returns a s) :
    Hangs ty (a >>= f) s ↔ ∃ x t, a s = .ok x t ∧ Hangs ty (f x) t := by
  constructor
  · rintro ⟨t, ht⟩
    rw [bind_run] at ht
    cases hr : a s with
    | error e u =>
      rw [hr] at ht
      cases ht
      exact absurd rfl (ha _ _ hr ty)
    | ok x u =>
      rw [hr] at ht
      exact ⟨x, u, rfl, t, ht⟩
  · rintro ⟨x, u, hr, t, ht⟩
    exact ⟨t, (bind_ok hr).trans ht⟩

end Action

/-- The value is not an aggregate of the type. -/
def Value.IsNot (ty : TypeId) (v : Value) : Prop := ∀ a, v = .aggregate a → a.ty ≠ ty

namespace Action

variable {σ τ : Type} {s : State σ τ} {ty ty' : TypeId}

theorem notOfType_eq_iff {types : TypeTable} {v : Value} :
    notOfType types ty' v = .abort (.endlessName ty) ↔ ty' = ty ∧ types.Endless ty := by
  unfold notOfType
  cases hname : types.name? ty' with
  | some name =>
    refine iff_of_false nofun ?_
    rintro ⟨rfl, hendless⟩
    rw [TypeTable.name?_eq_none_iff.mpr hendless] at hname
    cases hname
  | none =>
    constructor
    · intro h
      cases h
      exact ⟨rfl, TypeTable.name?_eq_none_iff.mp hname⟩
    · rintro ⟨rfl, _⟩
      rfl

/-- A value is taken for an aggregate of the type, or found not to be one. -/
theorem popAggregate_of_popped (types : TypeTable) {ip : UInt32} {v : Value} {t : State σ τ}
    (hpop : pop ip s = .ok v t) :
    (¬ v.IsNot ty ∧ ∃ a, popAggregate types ip ty s = .ok a t) ∨
      v.IsNot ty ∧ popAggregate types ip ty s = .error (notOfType types ty v) t := by
  unfold popAggregate
  rw [bind_ok hpop]
  cases v with
  | aggregate a =>
    by_cases hty : a.ty = ty
    · refine .inl ⟨fun hnot => hnot a rfl hty, a, ?_⟩
      dsimp only
      rw [if_pos hty]
      rfl
    · refine .inr ⟨?_, ?_⟩
      · rintro _ ⟨⟩
        exact hty
      · dsimp only
        rw [if_neg hty]
        rfl
  | _ => exact .inr ⟨nofun, rfl⟩

theorem hangs_popAggregate_of_popped {types : TypeTable} {ip : UInt32} {v : Value} {t : State σ τ}
    (hpop : pop ip s = .ok v t) :
    Hangs ty (popAggregate types ip ty' : Action σ τ Aggregate) s ↔
      ty' = ty ∧ types.Endless ty ∧ v.IsNot ty := by
  unfold Hangs
  obtain ⟨his, a, hrun⟩ | ⟨hnot, hrun⟩ := popAggregate_of_popped types hpop
  · rw [hrun]
    refine iff_of_false nofun ?_
    rintro ⟨rfl, _, hnot⟩
    exact his hnot
  · simp only [hrun, EStateM.Result.error.injEq, exists_and_left, exists_eq', and_true,
      notOfType_eq_iff]
    constructor
    · rintro ⟨rfl, hendless⟩
      exact ⟨rfl, hendless, hnot⟩
    · rintro ⟨rfl, hendless, _⟩
      exact ⟨rfl, hendless⟩

theorem hangs_popAggregate_iff {types : TypeTable} {ip : UInt32} :
    Hangs ty (popAggregate types ip ty' : Action σ τ Aggregate) s ↔
      ty' = ty ∧ types.Endless ty ∧ s.calls.base + 1 ≤ s.operands.height ∧
        ∃ v, s.operands.values.head? = some v ∧ v.IsNot ty := by
  obtain ⟨hb, hpop⟩ | ⟨hb, v, hv, hpop⟩ := pop_cases ip s
  · refine iff_of_false ?_ ?_
    · rintro ⟨_, h⟩
      cases (bind_error hpop).symm.trans h
    · rintro ⟨_, _, hmany, _⟩
      omega
  · rw [hangs_popAggregate_of_popped hpop]
    simp only [hv, hb, true_and, Option.some.injEq, exists_eq_left']

end Action

/-! ## Instructions -/

/-- An aggregate that the instruction takes: how many operands lie on it, and the type that it has
to have. -/
def Instr.aggregate? : Instr → Option (Nat × TypeId)
  | .fieldGet ty _ => some (0, ty)
  | .fieldSet ty _ => some (1, ty)
  | _ => none

namespace Machine

open ForeignVM.Action

variable {σ τ α : Type} (m : Machine σ) (watch : Observer τ)

/-- The natives come back, whatever they are called with. -/
def NativesReturn : Prop :=
  ∀ id name native, m.native? id = some (name, native) → ∀ call memory host e,
    (native call memory host).1 = .error e → e.Returned

/-- The instruction at the address of the state takes an operand of the current frame for an
aggregate of the type. It is none, and the name of the type, which its error asks for, has no
end. -/
def Misnames (s : State σ τ) (ty : TypeId) : Prop :=
  ∃ l n v, decodeAt m.program.code s.ip = .ok l ∧ l.instr.aggregate? = some (n, ty) ∧
    s.calls.base + n + 1 ≤ s.operands.height ∧ s.operands.values[n]? = some v ∧ v.IsNot ty ∧
    m.layouts.types.Endless ty

variable {s : State σ τ} {ty : TypeId}

theorem returns_callee {id : RoutineId} {f : Callee → Action σ τ α}
    (hf : ∀ c, Returns (f c) s) : Returns (m.callee id >>= f) s :=
  .callee m (fun _ => nofun) fun c _ => hf c

theorem returns_shape {f : Shape → Action σ τ α} (hf : ∀ sh, Returns (f sh) s) :
    Returns (m.shape ty >>= f) s :=
  .shape m (fun _ _ => nofun) fun sh _ => hf sh

theorem returns_localSlot (ip : UInt32) (i : UInt16) :
    Returns (m.localSlot ip i : Action σ τ (UInt64 × Slot)) s :=
  .localSlot m admits_returned (fun _ _ _ => nofun) (fun _ _ => nofun) ip i

theorem returns_binary (ip : UInt32) {f : Value → Value → Except RuntimeError Value}
    (hf : ∀ a b e, f a b = .error e → e.IsRefusal) :
    Returns (binary ip f : Action σ τ Unit) s :=
  .bind (.pop admits_returned ip) fun _ _ _ => .bind (.pop admits_returned ip) fun _ _ _ =>
    .bind (.ofResult fun e he => (hf _ _ e he).returned) fun _ _ _ => .push _

theorem returns_malloc (ty : TypeId) (count : UInt32) : Returns (m.malloc watch ty count) s := by
  refine .bind (.ofResult fun e he => ?_) fun size t _ => ?_
  · unfold allocationSize at he
    split at he
    · cases he
      nofun
    · dsimp only at he
      split at he <;> cases he
      nofun
  · refine .bind (.get (.memory admits_returned fun _ _ => .ok ⟨_, _, rfl⟩)) fun _ _ _ => ?_
    exact .bind (.ok ⟨_, _, rfl⟩) fun _ _ _ => .push _

theorem returns_fieldAddr (ip : UInt32) (ty : TypeId) (field : UInt16) :
    Returns (m.fieldAddr ip ty field : Action σ τ Unit) s := by
  refine .bind (.popPointer admits_returned ip) fun p t _ => ?_
  dsimp only
  split
  · exact .bind (.throw nofun) nofun
  · exact .bind (.ofResult fun _ => Pointer.returned_of_field) fun _ _ _ => .push _

theorem returns_ptrIndex (ip : UInt32) (ty : TypeId) :
    Returns (m.ptrIndex ip ty : Action σ τ Unit) s := by
  refine .bind (.pop admits_returned ip) fun index t _ => ?_
  split
  · exact .throw nofun
  · exact .bind (.popPointer admits_returned ip) fun _ _ _ =>
      .bind (.ofResult fun _ => Pointer.returned_of_index) fun _ _ _ => .push _

theorem returns_nativeRef (id : NativeId) (ty : TypeId) :
    Returns (m.nativeRef id ty : Action σ τ Unit) s := by
  unfold nativeRef
  split
  · exact .bind (.throw nofun) nofun
  · exact .check (fun _ _ => nofun) fun _ _ => .push _

theorem returns_procContext (ip : UInt32) : Returns (procContext ip : Action σ τ Unit) s := by
  refine .bind (.pop admits_returned ip) fun v t _ => ?_
  split
  · exact .throw nofun
  · exact .bind (.popProc admits_returned ip) fun _ _ _ => .push _

theorem returns_cast (ip : UInt32) (kinds : UInt8) :
    Returns (cast ip kinds : Action σ τ Unit) s := by
  unfold cast
  split
  · exact .throw nofun
  · exact .bind (.pop admits_returned ip) fun _ _ _ =>
      .bind (.ofResult fun _ he => (Value.refusal_of_castTo he).returned) fun _ _ _ => .push _

theorem returns_enter (id : RoutineId) (args : List Value) (kind : FrameKind) :
    Returns (m.enter watch id args kind) s :=
  .enter m admits_returned watch (fun _ => nofun) nofun (fun _ _ _ => nofun) args kind

theorem returns_result (ip : UInt32) (ret : Option TypeId) :
    Returns (m.result ip ret : Action σ τ Value) s :=
  .result m admits_returned ip fun _ _ _ _ => nofun

theorem returns_storeConstant (o : UInt32) (v : Value) :
    Returns (m.storeConstant watch o v) s := by
  refine .get (.check (fun _ _ => nofun) fun e _ => m.returns_shape fun sh => ?_)
  refine .check (fun _ he => (Shape.refusal_of_encode he).returned) fun bytes _ => ?_
  exact .bind (.changePool fun _ _ _ => nofun) fun _ _ _ => .ok ⟨_, _, rfl⟩

theorem returns_deliver (v : Value) (kind : FrameKind) : Returns (m.deliver watch v kind) s := by
  cases kind with
  | host => exact .pure ()
  | call =>
    unfold deliver
    dsimp only
    split
    · exact .pure ()
    · exact .push _
  | procCall ret =>
    cases ret with
    | none => exact .pure ()
    | some ty =>
      exact m.returns_shape fun sh => .bind (.coerce admits_returned sh v) fun _ _ _ => .push _
  | constant o => exact .bind (m.returns_storeConstant watch o v) fun _ _ _ => .push _

theorem returns_leave (ip : UInt32) : Returns (m.leave watch ip) s := by
  refine .get ?_
  split
  · exact .throw nofun
  · next f _ =>
    refine m.returns_callee fun c => .bind (m.returns_result ip _) fun v _ _ => ?_
    refine .bind (.ok ⟨_, _, rfl⟩) fun _ _ _ => .bind (.release admits_returned _) fun _ _ _ => ?_
    refine .bind (.ok ⟨_, _, rfl⟩) fun _ _ _ => ?_
    split
    · exact .pure _
    · exact .bind (m.returns_deliver watch v _) fun _ _ _ => .ok ⟨_, _, rfl⟩

theorem returns_constGet (o : UInt32) : Returns (m.constGet watch o) s := by
  refine .get (.check (fun _ _ => nofun) fun ready _ => ?_)
  split
  · refine .check (fun _ _ => nofun) fun e _ => m.returns_shape fun sh => ?_
    exact .check (fun _ _ => nofun) fun _ _ => .ok ⟨_, _, rfl⟩
  · exact .check (fun _ _ => nofun) fun _ _ => .bind (.ok ⟨_, _, rfl⟩) fun _ _ _ =>
      m.returns_enter watch _ _ _

section

variable {m} (hnatives : m.NativesReturn)
include hnatives

theorem returns_callNative (id : NativeId) (args : List Value) (context : UInt64) :
    Returns (m.callNative watch id args context) s := by
  unfold callNative
  cases hn : m.native? id with
  | none => exact .throw nofun
  | some entry =>
    obtain ⟨name, native⟩ := entry
    refine .bind (.ok ⟨_, _, rfl⟩) fun _ t _ => .get ?_
    exact .bind (.ok ⟨_, _, rfl⟩) fun _ _ _ =>
      .ofResult (hnatives id name native hn ⟨name, args, context, m.layouts⟩ t.memory t.host)

theorem returns_callTarget (p : ProcRef) (args : List Value) (ret : Option TypeId)
    (shape? : Option Shape) : Returns (m.callTarget watch p args ret shape?) s := by
  unfold callTarget
  split
  · exact .throw nofun
  · split
    · exact .throw nofun
    · exact m.returns_enter watch _ _ _
  · refine .bind (returns_callNative watch hnatives _ _ _) fun v _ _ => ?_
    split
    · exact .bind (.coerce admits_returned _ _) fun _ _ _ => .push _
    · exact .pure ()

theorem returns_callProc (ip : UInt32) (ty : TypeId) : Returns (m.callProc watch ip ty) s := by
  refine .check (fun _ _ => nofun) fun sig _ => .check (fun _ _ => nofun) fun shapes _ => ?_
  refine .check (fun _ _ => nofun) fun shape? _ => ?_
  refine .bind (.popMany admits_returned ip _) fun raw _ _ => .bind (.popProc admits_returned ip) ?_
  refine fun p _ _ => .bind (.ofResult fun _ he => (refusal_of_coerceArgs he).returned) ?_
  exact fun args _ _ => returns_callTarget watch hnatives p args _ _

/-- One case per instruction. -/
theorem returns_perform {i : Instr} (hi : i.aggregate? = none) (ip : UInt32) :
    Returns (m.perform watch ip i) s := by
  cases i with
  | nop | ret => exact .pure ()
  | pushI64 _ | pushU64 _ | pushF64 _ | pushBool _ => exact .push _
  | pushZero ty => exact m.returns_shape fun _ => .push _
  | pop => exact .bind (.pop admits_returned ip) fun _ _ _ => .pure ()
  | dup =>
    exact .bind (.pop admits_returned ip) fun _ _ _ => .bind (.push _) fun _ _ _ => .push _
  | swap =>
    exact .bind (.pop admits_returned ip) fun _ _ _ => .bind (.pop admits_returned ip) fun _ _ _ =>
      .bind (.push _) fun _ _ _ => .push _
  | localGet i =>
    exact .bind (m.returns_localSlot ip i) fun _ _ _ =>
      .bind (.load admits_returned _ _) fun _ _ _ => .push _
  | localSet i =>
    exact .bind (.pop admits_returned ip) fun _ _ _ => .bind (m.returns_localSlot ip i)
      fun _ _ _ => .store admits_returned _ _ _
  | localAddr i => exact .bind (m.returns_localSlot ip i) fun _ _ _ => .push _
  | add | sub | mul => exact returns_binary ip fun _ _ _ => Arithmetic.refusal_of_apply
  | lt =>
    refine returns_binary ip fun a b e he => ?_
    cases hless : a.less b <;> rw [hless] at he <;> cases he
    exact Value.refusal_of_less hless
  | eq =>
    refine returns_binary ip fun a b e he => ?_
    cases hsame : a.same b <;> rw [hsame] at he <;> cases he
    exact Value.refusal_of_same hsame
  | not => exact .bind (.popBool admits_returned ip) fun _ _ _ => .push _
  | cast kinds => exact returns_cast ip kinds
  | jump target => exact .jump target
  | jumpIfFalse target =>
    refine .bind (.popBool admits_returned ip) fun b _ _ => ?_
    split
    · exact .jump target
    · exact .pure ()
  | call id =>
    exact m.returns_callee fun _ => .bind (.popMany admits_returned ip _) fun _ _ _ =>
      m.returns_enter watch _ _ _
  | constGet o => exact m.returns_constGet watch o
  | fieldAddr ty field => exact m.returns_fieldAddr ip ty field
  | load ty =>
    exact .bind (.popPointer admits_returned ip) fun _ _ _ =>
      m.returns_shape fun _ => .bind (.load admits_returned _ _) fun _ _ _ => .push _
  | store ty =>
    exact .bind (.pop admits_returned ip) fun _ _ _ =>
      .bind (.popPointer admits_returned ip) fun _ _ _ =>
        m.returns_shape fun _ => .store admits_returned _ _ _
  | malloc ty count => exact m.returns_malloc watch ty count
  | ptrIndex ty => exact m.returns_ptrIndex ip ty
  | procRef id ty =>
    exact m.returns_callee fun _ => .check (fun _ _ => nofun) fun _ _ => .push _
  | nativeRef id ty => exact m.returns_nativeRef id ty
  | procContext => exact returns_procContext ip
  | callProc ty => exact returns_callProc watch hnatives ip ty
  | fieldGet _ _ | fieldSet _ _ => cases hi

end

variable {ty' : TypeId}

theorem hangs_fieldGet_iff (ip : UInt32) (field : UInt16) :
    Hangs ty (m.perform watch ip (.fieldGet ty' field)) s ↔
      ty' = ty ∧ m.layouts.types.Endless ty ∧ s.calls.base + 1 ≤ s.operands.height ∧
        ∃ v, s.operands.values[0]? = some v ∧ v.IsNot ty := by
  have hrest (a : Aggregate) (t : State σ τ) :
      Returns (ofResult (a.get field) >>= push : Action σ τ Unit) t :=
    .bind (.ofResult fun _ => Aggregate.returned_of_get) fun _ _ _ => .push _
  rw [perform, hangs_bind_iff fun a t _ => hrest a t, hangs_popAggregate_iff,
    List.head?_eq_getElem?]

/-- The aggregate lies below the value of the field. -/
theorem hangs_fieldSet_iff (ip : UInt32) (field : UInt16) :
    Hangs ty (m.perform watch ip (.fieldSet ty' field)) s ↔
      ty' = ty ∧ m.layouts.types.Endless ty ∧ s.calls.base + 2 ≤ s.operands.height ∧
        ∃ v, s.operands.values[1]? = some v ∧ v.IsNot ty := by
  have hrest (v : Value) (t : State σ τ) :
      Hangs ty (do
        let a ← popAggregate m.layouts.types ip ty'
        push (.aggregate (← ofResult (a.set field v))) : Action σ τ Unit) t ↔ _ :=
    (hangs_bind_iff fun _ _ _ => .bind (.ofResult fun _ => Aggregate.returned_of_set)
      fun _ _ _ => .push _).trans hangs_popAggregate_iff
  rw [perform, hangs_bind_iff_of_returns (.pop admits_returned ip)]
  simp only [hrest]
  obtain ⟨hb, hpop⟩ | ⟨hb, v, hv, hpop⟩ := pop_cases ip s
  · rw [hpop]
    refine iff_of_false ?_ ?_
    · rintro ⟨_, _, ⟨⟩, _⟩
    · rintro ⟨_, _, hmany, _⟩
      omega
  · have hheight : s.calls.base + 1 ≤ s.operands.height - 1 ↔
        s.calls.base + 2 ≤ s.operands.height := by omega
    have hsecond : (s.operands.values.drop 1).head? = s.operands.values[1]? := List.head?_drop
    rw [hpop, ← hheight, ← hsecond]
    constructor
    · rintro ⟨_, _, ⟨⟩, h⟩
      exact h
    · intro h
      exact ⟨v, _, rfl, h⟩

/-- The two instructions that take an aggregate are stuck in the name of its type and nowhere
else. -/
theorem hangs_perform_iff {i : Instr} {n : Nat} (hi : i.aggregate? = some (n, ty'))
    (ip : UInt32) : Hangs ty (m.perform watch ip i) s ↔
      ty' = ty ∧ m.layouts.types.Endless ty ∧ s.calls.base + n + 1 ≤ s.operands.height ∧
        ∃ v, s.operands.values[n]? = some v ∧ v.IsNot ty := by
  cases i with
  | fieldGet _ field =>
    cases hi
    exact m.hangs_fieldGet_iff watch ip field
  | fieldSet _ field =>
    cases hi
    exact m.hangs_fieldSet_iff watch ip field
  | _ => cases hi

variable {m} (hnatives : m.NativesReturn)
include hnatives

/-- An instruction is stuck if and only if it takes something for an aggregate whose type has a name
without end. -/
theorem hangs_cycle_iff : Hangs ty (m.cycle watch) s ↔ m.Misnames s ty := by
  unfold Hangs Misnames
  rw [cycle_eq]
  cases hl : decodeAt m.program.code s.ip with
  | error e => exact iff_of_false nofun nofun
  | ok l =>
    dsimp only
    by_cases hret : l.instr = .ret
    · refine iff_of_false ?_ ?_
      · rw [m.step_ret watch hret]
        exact (m.returns_leave watch l.ip).not_hangs
      · rintro ⟨_, _, _, ⟨⟩, hi, _⟩
        rw [hret] at hi
        cases hi
    · have hstep : (∃ t, m.step watch l (fetched watch s l) = .error (.abort (.endlessName ty)) t) ↔
          Hangs ty (m.perform watch l.ip l.instr) (fetched watch s l) := by
        rw [m.step_eq watch hret, Hangs]
        cases m.perform watch l.ip l.instr (fetched watch s l) <;> simp [unfinished]
      rw [hstep]
      cases hi : l.instr.aggregate? with
      | none =>
        refine iff_of_false (returns_perform watch hnatives hi l.ip).not_hangs ?_
        rintro ⟨_, _, _, ⟨⟩, hi', _⟩
        cases hi.symm.trans hi'
      | some place =>
        obtain ⟨n, ty'⟩ := place
        rw [m.hangs_perform_iff watch hi]
        constructor
        · rintro ⟨rfl, hendless, hmany, v, hv, hnot⟩
          exact ⟨l, n, v, rfl, hi, hmany, hv, hnot, hendless⟩
        · rintro ⟨_, _, v, ⟨⟩, hi', hmany, hv, hnot, hendless⟩
          cases hi.symm.trans hi'
          exact ⟨rfl, hendless, hmany, v, hv, hnot⟩

/-! ## Runs -/

theorem hangs_run_iff {fuel : Nat} :
    (∃ u, m.run watch fuel s = .error (.abort (.endlessName ty)) u) ↔
      ∃ n t, n < fuel ∧ m.after watch n s = some t ∧ m.Misnames t ty := by
  constructor
  · rintro ⟨u, hu⟩
    have hend := m.ending_run watch fuel s
    rw [hu] at hend
    cases hend with
    | failed hn ht h => exact ⟨_, _, hn, ht, (hangs_cycle_iff watch hnatives).mp ⟨u, h⟩⟩
  · rintro ⟨n, t, hn, ht, hmisnames⟩
    obtain ⟨u, hu⟩ := (hangs_cycle_iff watch hnatives).mpr hmisnames
    exact ⟨u, m.run_of_failed watch hn ht hu⟩

/-- The calls by the host that never come back. -/
theorem hangs_execute_iff {id : RoutineId} {args : List Value} :
    (∃ u, m.execute watch id args s = .error (.abort (.endlessName ty)) u) ↔
      ∃ s₁ n t, m.start watch id args s = .ok () s₁ ∧ n < m.limits.fuel.toNat ∧
        m.after watch n s₁ = some t ∧ m.Misnames t ty := by
  cases hstart : m.start watch id args s with
  | error e t =>
    rw [m.execute_of_refused watch hstart]
    refine iff_of_false ?_ nofun
    rintro ⟨_, ⟨⟩⟩
    exact m.returns_enter watch id args .host _ _ hstart ty rfl
  | ok u s₁ =>
    rw [m.execute_of_start watch hstart]
    have hsettled : (∃ u, settle (m.run watch m.limits.fuel.toNat s₁) =
        .error (.abort (.endlessName ty)) u) ↔
          ∃ u, m.run watch m.limits.fuel.toNat s₁ = .error (.abort (.endlessName ty)) u := by
      cases m.run watch m.limits.fuel.toNat s₁ <;> simp [settle]
    rw [hsettled, hangs_run_iff watch hnatives]
    simp

end Machine
end ForeignVM
