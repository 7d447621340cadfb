import ForeignVM.Proofs.Indirect
import ForeignVM.Proofs.Isolation
import ForeignVM.Proofs.StrictRun

/-!
# ForeignVM.Proofs.Orderly

What a run keeps so that no step of it is out of range: the operands are values proper, each
aggregate with the layout of its type; every frame is that of a routine; and the pool has reserved
what its entries say. From such a state a strict action does what the plain one does.

* `Machine.Sane`       — what is needed of a machine; `sane_of_built` for those that are built from
  a program.
* `State.Orderly`      — the invariant.
* `Tidy`               — a plain action leaves it in force; one lemma per elementary action.
* `Follows`            — a strict action does what a plain one does, and that one is tidy; closed
  under `>>=`.
-/

namespace ForeignVM

theorem map_of_mapM {ε α β : Type} {f : α → Except ε β} {g : β → α} {as : List α} {bs : List β}
    (h : as.mapM f = .ok bs) (hg : ∀ a b, f a = .ok b → g b = a) : bs.map g = as := by
  have hall := mapM_eq_ok_iff.mp h
  clear h
  induction hall with
  | nil => rfl
  | cons hab _ ih => rw [List.map_cons, hg _ _ hab, ih]

namespace Layouts.Regular

variable {l : Layouts} (hl : l.Regular)

include hl

theorem own_of_mem_mapM {types : List TypeId} {shapes : List Shape}
    (h : types.mapM l.shape = .ok shapes) {s : Shape} (hs : s ∈ shapes) : s.Own l := by
  obtain ⟨_, _, hty⟩ := exists_of_mem_mapM h hs
  exact hl.own hty

theorem own_of_mapM {ty? : Option TypeId} {s : Shape} (h : ty?.mapM l.shape = .ok (some s)) :
    s.Own l := by
  cases ty? with
  | none => cases h
  | some ty =>
    rw [Option.mapM_some] at h
    cases hty : l.shape ty with
    | error e =>
      rw [hty] at h
      cases h
    | ok s' =>
      rw [hty] at h
      cases h
      exact hl.own hty

end Layouts.Regular

/-! ## Machines -/

/-- A value that can be an operand. -/
structure Value.Proper (l : Layouts) (v : Value) : Prop where
  ne_void : v ≠ .void
  own : v.Own l

theorem Shape.decode_proper {l : Layouts} {s : Shape} (hs : s.Own l) (bytes : Bytes) :
    (s.decode bytes).Proper l :=
  ⟨s.decode_ne_void bytes, decode_own hs bytes⟩

theorem Shape.coerce_proper {l : Layouts} {s : Shape} (hs : s.Own l) {v w : Value}
    (h : s.coerce v = .ok w) : w.Proper l :=
  ⟨coerce_ne_void h, coerce_own hs h⟩

theorem Aggregate.get_proper {l : Layouts} (hl : l.Regular) {a : Aggregate}
    (ha : (Value.aggregate a).Own l) {i : UInt16} {v : Value} (h : a.get i = .ok v) :
    v.Proper l := by
  obtain ⟨f, hf, _, rfl⟩ := get_eq_ok h
  exact Shape.decode_proper (field_own hl ha (Aggregated.mem_of_field hf)).1 _

/-- Given aggregates with layouts of the table, the native returns no others. What it relies on its
own state for has to be in the type of that state. -/
def Native.Own {σ : Type} (l : Layouts) (native : Native σ) : Prop :=
  ∀ call memory host v memory' host', call.layouts = l → (∀ a ∈ call.args, Value.Own l a) →
    native call memory host = (.ok v, memory', host') → v.Own l

namespace Machine

variable {σ : Type}

/-- All natives of the machine do so. -/
def NativesOwn (m : Machine σ) : Prop :=
  ∀ id name native, m.native? id = some (name, native) → Native.Own m.layouts native

theorem nativesOwn_of_build {m : Machine σ} {program : Program}
    {registry : String → Option (Native σ)} {limits : Limits}
    (h : build program registry limits = .ok m)
    (hregistry : ∀ name native, registry name = some native → Native.Own m.layouts native) :
    m.NativesOwn :=
  fun _ name native hnative => hregistry name native (m.native_of_build h hnative)

/-- Routines, frames and natives have the same numbers, and shapes are those of the types. -/
structure Sane (m : Machine σ) : Prop where
  layouts : m.layouts.Regular
  routine : ∀ id, m.program.routines[id.position]? = (m.callee? id).map Callee.routine
  name : ∀ id, m.program.natives[id.position]? = (m.native? id).map Prod.fst
  slot : ∀ {id c}, m.callee? id = some c → ∀ s ∈ c.frame.slots.toList, s.shape.Own m.layouts
  natives : m.NativesOwn

theorem sane_of_built {m : Machine σ} {program : Program} (hm : m.BuiltFor program)
    (hbounded : m.layouts.Bounded) (hnatives : m.NativesOwn) : m.Sane := by
  obtain ⟨rfl, hcallees, registry, hnames⟩ := hm.parts
  have hlayouts := Layouts.regular_of_compute hm.layouts hbounded
  refine ⟨hlayouts, fun id => ?_, fun id => ?_, fun {id c} hc slot hslot => ?_, hnatives⟩
  · have hmap : m.callees.toList.map Callee.routine = m.program.routines.toList := by
      refine map_of_mapM hcallees fun r c hc => ?_
      unfold calleeOf at hc
      split at hc <;> cases hc
      rfl
    rw [callee?, ← Array.getElem?_toList, ← Array.getElem?_toList, ← hmap, List.getElem?_map]
  · have hmap : m.natives.toList.map Prod.fst = m.program.natives.toList := by
      refine map_of_mapM hnames fun name entry hentry => ?_
      obtain ⟨native, _, rfl⟩ := bindNative_ok_iff.mp hentry
      rfl
    rw [native?, ← Array.getElem?_toList, ← Array.getElem?_toList, ← hmap, List.getElem?_map]
  · have hshapes := FrameLayout.shapes_of_ofLocals (hm.callee hc).2
    exact hlayouts.own_of_mem_mapM hshapes (List.mem_map_of_mem hslot)

section

variable {m : Machine σ} {τ : Type} {id : RoutineId} {c : Callee}

theorem callee_eq (hc : m.callee? id = some c) : (m.callee id : Action σ τ Callee) = pure c := by
  rw [callee, hc]

theorem frameStrict_eq (hc : m.callee? id = some c) :
    (m.frameStrict id : Strict σ τ FrameLayout) = pure c.frame := by
  have helement : Panic.element m.callees.toList id.position = .ok c := by
    rw [callee?] at hc
    rw [Panic.element, Array.getElem?_toList, hc]
  rw [frameStrict, helement]
  rfl

theorem Sane.routineStrict_eq (hm : m.Sane) (hc : m.callee? id = some c) :
    (m.routineStrict id : Strict σ τ Routine) = pure c.routine := by
  have hroutine := hm.routine id
  rw [hc] at hroutine
  rw [routineStrict, hroutine]
  rfl

theorem Sane.routineStrict_none (hm : m.Sane) (hc : m.callee? id = none) :
    (m.routineStrict id : Strict σ τ Routine) = Strict.fail (.unknownRoutine id) := by
  have hroutine := hm.routine id
  rw [hc] at hroutine
  rw [routineStrict, hroutine]
  rfl

end

/-- A native is listed under the name that it is bound to. -/
theorem Sane.element_name {m : Machine σ} (hm : m.Sane) {id : NativeId} {name : String}
    {native : Native σ} (hn : m.native? id = some (name, native)) :
    Panic.element m.program.natives.toList id.position = .ok name := by
  have hname := hm.name id
  rw [hn] at hname
  rw [Panic.element, Array.getElem?_toList, hname]
  rfl

end Machine

/-! ## States -/

/-- What the frames and the pool have to be like before a run begins. -/
structure State.Ready {σ τ : Type} (m : Machine σ) (s : State σ τ) : Prop where
  frames : ∀ f ∈ s.calls.frames, ∃ c, m.callee? f.routine = some c
  pool : s.pool.Regular m.layouts

structure State.Orderly {σ τ : Type} (m : Machine σ) (s : State σ τ) : Prop
    extends State.Ready m s where
  operands : ∀ v ∈ s.operands.values, v.Proper m.layouts

namespace State.Orderly

variable {σ τ : Type} {m : Machine σ} {s t : State σ τ}

theorem of_operands (h : s.Orderly m) (hcalls : t.calls = s.calls) (hpool : t.pool = s.pool)
    (hoperands : ∀ v ∈ t.operands.values, v.Proper m.layouts) : t.Orderly m :=
  ⟨⟨hcalls ▸ h.frames, hpool ▸ h.pool⟩, hoperands⟩

theorem congr (h : s.Orderly m) (hcalls : t.calls = s.calls) (hpool : t.pool = s.pool)
    (hoperands : t.operands = s.operands) : t.Orderly m :=
  h.of_operands hcalls hpool (hoperands ▸ h.operands)

theorem drop (h : s.Orderly m) (n : Nat) :
    ({ s with operands := s.operands.drop n } : State σ τ).Orderly m :=
  h.of_operands rfl rfl fun v hv => h.operands v (List.mem_of_mem_drop hv)

/-- The routine of the current frame. -/
theorem current (h : s.Orderly m) {f : Frame} (hf : s.calls.current? = some f) :
    ∃ c, m.callee? f.routine = some c :=
  h.frames f (List.mem_of_mem_head? hf)

end State.Orderly

/-! ## Plain actions -/

/-- What is left is orderly, and a result has the property. -/
def Tidy {σ τ α : Type} (m : Machine σ) (P : α → Prop) :
    EStateM.Result RuntimeError (State σ τ) α → Prop
  | .ok a s => s.Orderly m ∧ P a
  | .error _ s => s.Orderly m

namespace Tidy

open ForeignVM.Action

variable {σ τ α β ε : Type} {m : Machine σ} {P : α → Prop} {Q : β → Prop} {s : State σ τ}

theorem finalState {r : EStateM.Result RuntimeError (State σ τ) α} (h : Tidy m P r) :
    (Action.finalState r).Orderly m := by
  cases r with
  | ok a s => exact h.1
  | error e s => exact h

theorem mono {P' : α → Prop} {r : EStateM.Result RuntimeError (State σ τ) α} (h : Tidy m P r)
    (hP : ∀ a, P a → P' a) : Tidy m P' r := by
  cases r with
  | ok a s => exact ⟨h.1, hP a h.2⟩
  | error e s => exact h

theorem bind {a : Action σ τ α} {f : α → Action σ τ β} (ha : Tidy m P (a s))
    (hf : ∀ x t, t.Orderly m → P x → Tidy m Q (f x t)) : Tidy m Q ((a >>= f) s) := by
  rw [bind_run]
  cases hr : a s with
  | ok x t =>
    rw [hr] at ha
    exact hf x t ha.1 ha.2
  | error e t =>
    rw [hr] at ha
    exact ha

variable (hs : s.Orderly m)

include hs

theorem pure {a : α} (ha : P a) : Tidy m P ((Pure.pure a : Action σ τ α) s) := ⟨hs, ha⟩

theorem throw (e : RuntimeError) : Tidy m P ((MonadExcept.throw e : Action σ τ α) s) := hs

theorem check {cause : ε → RuntimeError} {x : Except ε α} (hx : ∀ a, x = .ok a → P a) :
    Tidy m P ((Action.check cause x : Action σ τ α) s) := by
  cases x with
  | ok a => exact ⟨hs, hx a rfl⟩
  | error e => exact hs

theorem emit (watch : Observer τ) (e : Event) :
    Tidy m (fun _ => True) ((Action.emit watch e : Action σ τ Unit) s) :=
  ⟨hs.congr rfl rfl rfl, trivial⟩

theorem jump (ip : UInt32) : Tidy m (fun _ => True) ((Action.jump ip : Action σ τ Unit) s) :=
  ⟨hs.congr rfl rfl rfl, trivial⟩

theorem setMemory (memory : Memory) :
    Tidy m (fun _ => True) ((Action.setMemory memory : Action σ τ Unit) s) :=
  ⟨hs.congr rfl rfl rfl, trivial⟩

theorem allocate (size : Nat) :
    Tidy m (fun _ => True) ((Action.allocate size : Action σ τ UInt64) s) := by
  rw [allocate_run]
  split
  · exact ⟨hs.congr rfl rfl rfl, trivial⟩
  · exact hs

theorem push {v : Value} (hv : v.Proper m.layouts) :
    Tidy m (fun _ => True) ((Action.push v : Action σ τ Unit) s) := by
  refine ⟨hs.of_operands rfl rfl fun w hw => ?_, trivial⟩
  obtain rfl | hw := List.mem_cons.mp hw
  · exact hv
  · exact hs.operands w hw

theorem pop (ip : UInt32) :
    Tidy m (Value.Proper m.layouts) ((Action.pop ip : Action σ τ Value) s) := by
  obtain ⟨_, h⟩ | ⟨_, v, hv, h⟩ := pop_cases ip s
  · rw [h]
    exact hs
  · rw [h]
    exact ⟨hs.drop 1, hs.operands v (List.mem_of_mem_head? hv)⟩

theorem popPointer (ip : UInt32) :
    Tidy m (fun _ => True) ((Action.popPointer ip : Action σ τ Pointer) s) := by
  refine .bind (.pop hs ip) fun v t ht _ => ?_
  cases v with
  | pointer p => exact .pure ht trivial
  | _ => exact .throw ht _

theorem popProc (ip : UInt32) :
    Tidy m (fun _ => True) ((Action.popProc ip : Action σ τ ProcRef) s) := by
  refine .bind (.pop hs ip) fun v t ht _ => ?_
  cases v with
  | proc p => exact .pure ht trivial
  | _ => exact .throw ht _

theorem popBool (ip : UInt32) :
    Tidy m (fun _ => True) ((Action.popBool ip : Action σ τ Bool) s) := by
  refine .bind (.pop hs ip) fun v t ht _ => ?_
  cases v with
  | bool b => exact .pure ht trivial
  | _ => exact .throw ht _

theorem popAggregate (types : TypeTable) (ip : UInt32) (ty : TypeId) :
    Tidy m (fun a => (Value.aggregate a).Own m.layouts)
      ((Action.popAggregate types ip ty : Action σ τ Aggregate) s) := by
  refine .bind (.pop hs ip) fun v t ht hv => ?_
  cases v with
  | aggregate a =>
    dsimp only
    split
    · exact .pure ht hv.own
    · exact .throw ht _
  | _ => exact .throw ht _

end Tidy

/-! ## Strict and plain actions -/

/-- The strict action does what the plain one does, which is tidy. -/
structure Follows {σ τ α : Type} (m : Machine σ) (P : α → Prop) (s : State σ τ)
    (c : Strict σ τ α) (a : Action σ τ α) : Prop where
  same : c s = calm (a s)
  tidy : Tidy m P (a s)

namespace Follows

open Strict

variable {σ τ α β ε : Type} {m : Machine σ} {P : α → Prop} {Q : β → Prop} {s : State σ τ}

theorem plainly {a : Action σ τ α} (h : Tidy m P (a s)) : Follows m P s (plainly a) a := ⟨rfl, h⟩

theorem bind {c : Strict σ τ α} {a : Action σ τ α} {f : α → Strict σ τ β} {g : α → Action σ τ β}
    (h : Follows m P s c a) (hf : ∀ x t, t.Orderly m → P x → Follows m Q t (f x) (g x)) :
    Follows m Q s (c >>= f) (a >>= g) := by
  have hrun : (c >>= f) s =
      match calm (a s) with
      | .ok x t => f x t
      | .error e t => .error e t := by
    change EStateM.bind c f s = _
    unfold EStateM.bind
    rw [h.same]
    cases calm (a s) <;> rfl
  have htidy := Tidy.bind h.tidy fun x t ht hx => (hf x t ht hx).tidy
  refine ⟨?_, htidy⟩
  rw [hrun, Action.bind_run]
  cases hr : a s with
  | ok x t =>
    obtain ⟨ht, hx⟩ := hr ▸ h.tidy
    exact (hf x t ht hx).same
  | error e t => rfl

theorem mono {P' : α → Prop} {c : Strict σ τ α} {a : Action σ τ α} (h : Follows m P s c a)
    (hP : ∀ x, P x → P' x) : Follows m P' s c a :=
  ⟨h.same, h.tidy.mono hP⟩

theorem get {f : State σ τ → Strict σ τ β} {g : State σ τ → Action σ τ β}
    (h : Follows m Q s (f s) (g s)) : Follows m Q s (MonadState.get >>= f) (MonadState.get >>= g) :=
  ⟨h.same, h.tidy⟩

/-- A partial result that is there. -/
theorem asked {x : α} {f : α → Strict σ τ β} {a : Action σ τ β} (h : Follows m Q s (f x) a) :
    Follows m Q s (Strict.ask (.ok x) >>= f) a :=
  ⟨h.same, h.tidy⟩

section

variable (hs : s.Orderly m)

include hs

theorem pure {a : α} (ha : P a) : Follows m P s (Pure.pure a) (Pure.pure a) := ⟨rfl, .pure hs ha⟩

theorem fail (e : RuntimeError) : Follows m P s (Strict.fail e) (MonadExcept.throw e) :=
  ⟨rfl, .throw hs e⟩

theorem ask {cause : ε → RuntimeError} {x : Except Fault α} {y : Except ε α}
    (hx : x = refuse cause y) (hy : ∀ a, y = .ok a → P a) :
    Follows m P s (Strict.ask x) (Action.check cause y) := by
  refine ⟨?_, .check hs hy⟩
  subst hx
  cases y <;> rfl

theorem shape (hm : m.Sane) (ty : TypeId) :
    Follows m (Shape.Own m.layouts) s (Strict.plainly (m.shape ty)) (m.shape ty) :=
  plainly (.check hs fun _ => hm.layouts.own)

/-- The strict action looks the routine up, and the plain one its frame besides. -/
theorem callee (hm : m.Sane) {id : RoutineId} {f : Routine → Strict σ τ β}
    {g : Callee → Action σ τ β}
    (h : ∀ c, m.callee? id = some c → Follows m Q s (f c.routine) (g c)) :
    Follows m Q s (m.routineStrict id >>= f) (m.callee id >>= g) := by
  cases hc : m.callee? id with
  | none =>
    rw [hm.routineStrict_none hc, Machine.callee, hc]
    exact fail hs _
  | some c =>
    rw [hm.routineStrict_eq hc, Machine.callee_eq hc, pure_bind, pure_bind]
    exact h c hc

end

end Follows
end ForeignVM
