import ForeignVM.Machine.Step
import ForeignVM.Proofs.Action

/-!
# ForeignVM.Proofs.Congruence

What holds of the elementary actions and of everything that is made of them holds of whole
instructions. Most of them only take operands, compute and give operands; for these one traversal
is enough, whatever the relation, and whether it is about one machine or compares two. Others also
use the locals, the memory or a call, and the relation has to hold of that use.

* `Machine.Akin`                — machines that differ in limits and in the state of the host.
* `Machine.Congruence`          — a relation between actions that elementary actions and `>>=` keep.
* `Congruence.perform`          — it holds of every plain instruction.
* `Congruence.inner`            — and of those that use the locals and the memory.
* `Congruence.callProc`         — and of a call through a proc value.
-/

namespace ForeignVM

/-- The instructions that only compute with operands. -/
def Instr.isPlain : Instr → Bool
  | .localGet _ | .localSet _ | .localAddr _ | .jump _ | .jumpIfFalse _ | .fieldAddr _ _ | .load _
  | .store _ | .ptrIndex _ | .malloc _ _ | .call _ | .constGet _ | .callProc _ => false
  | _ => true

/-- The instructions that stay within the current frame. -/
def Instr.isInner : Instr → Bool
  | .malloc _ _ | .call _ | .constGet _ | .callProc _ => false
  | _ => true

/-- Where an instruction may go on instead of behind itself. -/
def Instr.jumpTarget? : Instr → Option UInt32
  | .jump target | .jumpIfFalse target => some target
  | _ => none

namespace Machine

open ForeignVM.Action

variable {σ σ' τ τ' : Type}

/-- The machines run the same routines on the same types, and know the same natives. -/
structure Akin (m : Machine σ) (m' : Machine σ') : Prop where
  program : m'.program = m.program
  layouts : m'.layouts = m.layouts
  callees : m'.callees = m.callees
  natives : ∀ id, (m'.native? id).isNone = (m.native? id).isNone

namespace Akin

variable {m : Machine σ} {m' : Machine σ'}

theorem refl (m : Machine σ) : Akin m m := ⟨rfl, rfl, rfl, fun _ => rfl⟩

theorem symm (h : Akin m m') : Akin m' m :=
  ⟨h.program.symm, h.layouts.symm, h.callees.symm, fun id => (h.natives id).symm⟩

theorem trans {σ'' : Type} {m'' : Machine σ''} (h : Akin m m') (h' : Akin m' m'') : Akin m m'' :=
  ⟨h'.program.trans h.program, h'.layouts.trans h.layouts, h'.callees.trans h.callees,
    fun id => (h'.natives id).trans (h.natives id)⟩

theorem callee? (h : Akin m m') (id : RoutineId) : m'.callee? id = m.callee? id := by
  rw [Machine.callee?, Machine.callee?, h.callees]

theorem native?_none (h : Akin m m') (hnone : ∀ id, m.native? id = none) (id : NativeId) :
    m'.native? id = none := by
  have heq := h.natives id
  rw [hnone] at heq
  exact Option.isNone_iff_eq_none.mp heq

end Akin

/-- A relation between actions of two machines that is kept by what actions are made of. -/
structure Congruence (P : ∀ α : Type, Action σ τ α → Action σ' τ' α → Prop) : Prop where
  pure : ∀ {α : Type} (a : α), P α (Pure.pure a) (Pure.pure a)
  throw : ∀ {α : Type} (e : RuntimeError), P α (MonadExcept.throw e) (MonadExcept.throw e)
  bind : ∀ {α β : Type} {a : Action σ τ α} {a' : Action σ' τ' α} {f : α → Action σ τ β}
    {f' : α → Action σ' τ' β}, P α a a' → (∀ x, P β (f x) (f' x)) → P β (a >>= f) (a' >>= f')
  pop : ∀ ip, P Value (Action.pop ip) (Action.pop ip)
  push : ∀ v, P Unit (Action.push v) (Action.push v)

namespace Congruence

variable {P : ∀ α : Type, Action σ τ α → Action σ' τ' α → Prop} (h : Congruence P)

section
include h

theorem check {α ε : Type} (cause : ε → RuntimeError) (x : Except ε α) :
    P α (Action.check cause x) (Action.check cause x) := by
  cases x with
  | ok a => exact h.pure a
  | error e => exact h.throw (cause e)

theorem ofResult {α : Type} (x : Except RuntimeError α) :
    P α (Action.ofResult x) (Action.ofResult x) :=
  h.check _ x

theorem popPointer (ip : UInt32) : P Pointer (Action.popPointer ip) (Action.popPointer ip) := by
  refine h.bind (h.pop ip) ?_
  intro v
  cases v <;> first | exact h.pure _ | exact h.throw _

theorem popProc (ip : UInt32) : P ProcRef (Action.popProc ip) (Action.popProc ip) := by
  refine h.bind (h.pop ip) ?_
  intro v
  cases v <;> first | exact h.pure _ | exact h.throw _

theorem popBool (ip : UInt32) : P Bool (Action.popBool ip) (Action.popBool ip) := by
  refine h.bind (h.pop ip) ?_
  intro v
  cases v <;> first | exact h.pure _ | exact h.throw _

theorem popAggregate (types : TypeTable) (ip : UInt32) (ty : TypeId) :
    P Aggregate (Action.popAggregate types ip ty) (Action.popAggregate types ip ty) := by
  refine h.bind (h.pop ip) ?_
  intro v
  cases v with
  | aggregate a =>
    dsimp only
    split
    · exact h.pure a
    · exact h.throw _
  | _ => exact h.throw _

theorem binary (ip : UInt32) (f : Value → Value → Except RuntimeError Value) :
    P Unit (Machine.binary ip f) (Machine.binary ip f) :=
  h.bind (h.pop ip) fun _ => h.bind (h.pop ip) fun _ => h.bind (h.ofResult _) h.push

theorem procContext (ip : UInt32) : P Unit (Machine.procContext ip) (Machine.procContext ip) := by
  refine h.bind (h.pop ip) ?_
  intro v
  split
  · exact h.throw _
  · exact h.bind (h.popProc ip) fun _ => h.push _

theorem cast (ip : UInt32) (kinds : UInt8) :
    P Unit (Machine.cast ip kinds) (Machine.cast ip kinds) := by
  unfold Machine.cast
  split
  · exact h.throw _
  · exact h.bind (h.pop ip) fun _ => h.bind (h.ofResult _) h.push

end

section

variable {m : Machine σ} {m' : Machine σ'} (hm : Akin m m')
include h hm

theorem callee (id : RoutineId) : P Callee (m.callee id) (m'.callee id) := by
  unfold Machine.callee
  rw [hm.callee?]
  split
  · exact h.pure _
  · exact h.throw _

theorem shape (ty : TypeId) : P Shape (m.shape ty) (m'.shape ty) := by
  unfold Machine.shape
  rw [hm.layouts]
  exact h.check _ _

theorem nativeRef (id : NativeId) (ty : TypeId) :
    P Unit (m.nativeRef id ty) (m'.nativeRef id ty) := by
  unfold Machine.nativeRef
  rw [hm.layouts, hm.natives]
  split
  · exact h.throw _
  · exact h.bind (h.check _ _) fun _ => h.push _

/-- One case per instruction. -/
theorem perform (watch : Observer τ) (watch' : Observer τ') {i : Instr} (hi : i.isPlain)
    (ip : UInt32) : P Unit (m.perform watch ip i) (m'.perform watch' ip i) := by
  cases i with
  | nop | ret => exact h.pure ()
  | pushI64 v => exact h.push _
  | pushU64 v => exact h.push _
  | pushF64 x => exact h.push _
  | pushBool b => exact h.push _
  | pushZero ty => exact h.bind (h.shape hm ty) fun _ => h.push _
  | pop => exact h.bind (h.pop ip) fun _ => h.pure ()
  | dup => exact h.bind (h.pop ip) fun v => h.bind (h.push v) fun _ => h.push v
  | swap =>
    exact h.bind (h.pop ip) fun _ => h.bind (h.pop ip) fun _ =>
      h.bind (h.push _) fun _ => h.push _
  | add | sub | mul | lt | eq => exact h.binary ip _
  | not => exact h.bind (h.popBool ip) fun _ => h.push _
  | cast kinds => exact h.cast ip kinds
  | fieldGet ty field =>
    simp only [Machine.perform, hm.layouts]
    exact h.bind (h.popAggregate _ ip ty) fun _ => h.bind (h.ofResult _) h.push
  | fieldSet ty field =>
    simp only [Machine.perform, hm.layouts]
    exact h.bind (h.pop ip) fun _ => h.bind (h.popAggregate _ ip ty) fun _ =>
      h.bind (h.ofResult _) fun _ => h.push _
  | procRef id ty =>
    simp only [Machine.perform, hm.layouts]
    exact h.bind (h.callee hm id) fun _ => h.bind (h.check _ _) fun _ => h.push _
  | nativeRef id ty => exact h.nativeRef hm id ty
  | procContext => exact h.procContext ip
  | localGet _ | localSet _ | localAddr _ | jump _ | jumpIfFalse _ | fieldAddr _ _ | load _
  | store _ | ptrIndex _ | malloc _ _ | call _ | constGet _ | callProc _ => cases hi

theorem fieldAddr (ip : UInt32) (ty : TypeId) (field : UInt16) :
    P Unit (m.fieldAddr ip ty field) (m'.fieldAddr ip ty field) := by
  unfold Machine.fieldAddr
  rw [hm.layouts]
  refine h.bind (h.popPointer ip) ?_
  intro p
  split
  · exact h.throw _
  · exact h.bind (h.ofResult _) fun _ => h.push _

theorem ptrIndex (ip : UInt32) (ty : TypeId) : P Unit (m.ptrIndex ip ty) (m'.ptrIndex ip ty) := by
  unfold Machine.ptrIndex
  rw [hm.layouts]
  refine h.bind (h.pop ip) ?_
  intro index
  split
  · exact h.throw _
  · exact h.bind (h.popPointer ip) fun _ => h.bind (h.ofResult _) fun _ => h.push _

/-- One case per instruction that is not plain and does not leave the frame. -/
theorem inner (watch : Observer τ) (watch' : Observer τ') {i : Instr} (hi : i.isInner) (ip : UInt32)
    (hslot : ∀ i, P (UInt64 × Slot) (m.localSlot ip i) (m'.localSlot ip i))
    (hload : ∀ a s, P Value (Action.load a s) (Action.load a s))
    (hstore : ∀ a s v, P Unit (Action.store a s v) (Action.store a s v))
    (hjump : ∀ target, i.jumpTarget? = some target →
      P Unit (Action.jump target) (Action.jump target)) :
    P Unit (m.perform watch ip i) (m'.perform watch' ip i) := by
  cases i with
  | localGet i => exact h.bind (hslot i) fun _ => h.bind (hload _ _) h.push
  | localSet i => exact h.bind (h.pop ip) fun _ => h.bind (hslot i) fun _ => hstore _ _ _
  | localAddr i => exact h.bind (hslot i) fun _ => h.push _
  | jump target => exact hjump target rfl
  | jumpIfFalse target =>
    refine h.bind (h.popBool ip) ?_
    intro b
    split
    · exact hjump target rfl
    · exact h.pure ()
  | fieldAddr ty field => exact h.fieldAddr hm ip ty field
  | load ty =>
    exact h.bind (h.popPointer ip) fun _ => h.bind (h.shape hm ty) fun _ =>
      h.bind (hload _ _) h.push
  | store ty =>
    exact h.bind (h.pop ip) fun _ => h.bind (h.popPointer ip) fun _ =>
      h.bind (h.shape hm ty) fun _ => hstore _ _ _
  | ptrIndex ty => exact h.ptrIndex hm ip ty
  | malloc _ _ | call _ | constGet _ | callProc _ => cases hi
  | _ => exact h.perform hm watch watch' rfl ip

variable (watch : Observer τ) (watch' : Observer τ')
  (henter : ∀ id args ret,
    P Unit (m.enter watch id args (.procCall ret)) (m'.enter watch' id args (.procCall ret)))
  (hnative : ∀ id args context,
    P Value (m.callNative watch id args context) (m'.callNative watch' id args context))
include henter hnative

omit hm in
theorem callTarget (p : ProcRef) (args : List Value) (ret : Option TypeId)
    (shape? : Option Shape) :
    P Unit (m.callTarget watch p args ret shape?) (m'.callTarget watch' p args ret shape?) := by
  unfold Machine.callTarget
  split
  · exact h.throw _
  · split
    · exact h.throw _
    · exact henter _ args _
  · refine h.bind (hnative _ args _) fun v => ?_
    split
    · exact h.bind (h.ofResult _) h.push
    · exact h.pure ()

theorem callProc (ip : UInt32) (ty : TypeId)
    (hmany : ∀ n, P (List Value) (Action.popMany ip n) (Action.popMany ip n)) :
    P Unit (m.callProc watch ip ty) (m'.callProc watch' ip ty) := by
  unfold Machine.callProc
  rw [hm.layouts]
  refine h.bind (h.check _ _) fun sig => ?_
  refine h.bind (h.check _ _) fun shapes => ?_
  refine h.bind (h.check _ _) fun shape? => ?_
  refine h.bind (hmany _) fun raw => ?_
  refine h.bind (h.popProc ip) fun p => ?_
  exact h.bind (h.ofResult _) fun args => h.callTarget watch watch' henter hnative p args _ _

end

end Congruence
end Machine
end ForeignVM
