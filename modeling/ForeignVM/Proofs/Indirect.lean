import ForeignVM.Proofs.History
import ForeignVM.Proofs.Raises
import ForeignVM.Proofs.Relabel

/-!
# ForeignVM.Proofs.Indirect

A routine can be called by its name or through a proc value. A call by name converts each argument
once, to its slot; a call through a proc value converts it to the parameter of the proc type before.
If the type of the proc says what the routine says, this makes no difference.

* `Callee.convert`     — the arguments as the slots take them.
* `storeArgs_cases`    — they are stored if and only if they can be converted.
* `direct`, `indirect` — the two instructions, with their arguments on the operands.
* `enter_of_converted` — arguments that have been converted before enter the routine like raw ones.
* `calls_agree`        — whether the calls enter, how they fail, and what they return.
-/

namespace ForeignVM

/-! ## Operands of a call -/

namespace Operands

/-- Values on top of the operands, the last one uppermost. -/
def pushAll (o : Operands) (vs : List Value) : Operands := vs.foldl push o

theorem values_pushAll (o : Operands) (vs : List Value) :
    (o.pushAll vs).values = vs.reverse ++ o.values := by
  induction vs generalizing o with
  | nil => rfl
  | cons v vs ih =>
    rw [pushAll, List.foldl_cons, ← pushAll, ih, List.reverse_cons, List.append_assoc]
    rfl

theorem height_pushAll (o : Operands) (vs : List Value) :
    (o.pushAll vs).height = o.height + vs.length := by
  rw [height_eq, values_pushAll, List.length_append, List.length_reverse, o.height_eq,
    Nat.add_comm]

theorem drop_pushAll (o : Operands) (vs : List Value) : (o.pushAll vs).drop vs.length = o := by
  apply ext_values
  simp only [drop, values_pushAll]
  exact List.drop_left' (List.length_reverse ..)

end Operands

namespace Action

variable {σ τ : Type}

theorem popMany_pushAll (ip : UInt32) {s : State σ τ} {vs : List Value}
    (hs : s.calls.base ≤ s.operands.height) :
    popMany ip vs.length { s with operands := s.operands.pushAll vs } = .ok vs s := by
  obtain ⟨hb, _⟩ | ⟨_, h⟩ := popMany_cases ip vs.length { s with operands := s.operands.pushAll vs }
  · exact absurd hb (by simp only [Operands.height_pushAll]; omega)
  · rw [h]
    simp only [Operands.drop_pushAll, Operands.values_pushAll]
    rw [List.take_left' (List.length_reverse ..), List.reverse_reverse]

theorem pop_push (ip : UInt32) {s : State σ τ} {v : Value}
    (hs : s.calls.base ≤ s.operands.height) :
    pop ip { s with operands := s.operands.push v } = .ok v s := by
  obtain ⟨hb, _⟩ | ⟨_, w, hw, h⟩ := pop_cases ip { s with operands := s.operands.push v }
  · exact absurd hb (Nat.not_le_of_lt (Nat.lt_succ_of_le hs))
  · cases hw
    exact h

theorem popProc_push (ip : UInt32) {s : State σ τ} {p : ProcRef}
    (hs : s.calls.base ≤ s.operands.height) :
    popProc ip { s with operands := s.operands.push (.proc p) } = .ok p s :=
  bind_ok (pop_push ip hs)

theorem popPointer_push (ip : UInt32) {s : State σ τ} {p : Pointer}
    (hs : s.calls.base ≤ s.operands.height) :
    popPointer ip { s with operands := s.operands.push (.pointer p) } = .ok p s :=
  bind_ok (pop_push ip hs)

end Action

namespace Machine

open ForeignVM.Action

variable {σ τ : Type}

/-! ## Arguments -/

theorem coerceArgs_take (shapes : List Shape) (args : List Value) :
    coerceArgs (shapes.take args.length) args = coerceArgs shapes args := by
  induction args generalizing shapes with
  | nil => cases shapes <;> rfl
  | cons arg args ih =>
    cases shapes with
    | nil => rfl
    | cons s shapes => simp only [List.length_cons, List.take_succ_cons, coerceArgs, ih]

/-- The first argument is converted before the others. -/
theorem coerceArgs_cons (s : Shape) (shapes : List Shape) (arg : Value) (args : List Value) :
    coerceArgs (s :: shapes) (arg :: args) =
      match s.encode arg with
      | .error e => .error e
      | .ok bytes =>
        match coerceArgs shapes args with
        | .error e => .error e
        | .ok rest => .ok (s.decode bytes :: rest) := by
  simp only [coerceArgs, Shape.coerce]
  cases s.encode arg with
  | error e => rfl
  | ok bytes => cases coerceArgs shapes args <;> rfl

theorem length_coerceArgs {shapes : List Shape} {args args' : List Value}
    (h : coerceArgs shapes args = .ok args') (hlength : args.length ≤ shapes.length) :
    args'.length = args.length := by
  induction shapes generalizing args args' with
  | nil =>
    cases args with
    | nil =>
      cases h
      rfl
    | cons arg args => cases hlength
  | cons s shapes ih =>
    cases args with
    | nil =>
      cases h
      rfl
    | cons arg args =>
      rw [coerceArgs_cons] at h
      split at h
      · cases h
      · split at h
        · cases h
        · next rest hrest =>
          cases h
          rw [List.length_cons, List.length_cons, ih hrest (Nat.le_of_succ_le_succ hlength)]

/-- Arguments that have been converted to the shapes of their slots are stored like the raw
ones. -/
theorem storeArgs_of_coerced {locals : UInt64} {slots : List Slot} {args args' : List Value}
    (h : coerceArgs (slots.map Slot.shape) args = .ok args') :
    (storeArgs locals slots args' : Action σ τ Unit) = storeArgs locals slots args := by
  induction slots generalizing args args' with
  | nil =>
    cases args <;> cases h <;> rfl
  | cons slot slots ih =>
    cases args with
    | nil =>
      cases h
      rfl
    | cons arg args =>
      rw [List.map_cons, coerceArgs_cons] at h
      split at h
      · cases h
      · next bytes hbytes =>
        split at h
        · cases h
        · next rest hrest =>
          cases h
          simp only [storeArgs, Shape.encode_decode hbytes, hbytes, ih hrest]

/-- If the slots lie in the block, arguments are stored if and only if they can be converted, and
the error is that of the first that cannot. -/
theorem storeArgs_cases {locals : UInt64} {b size : Nat} (hlocals : locals = Address.ofBlock b)
    (hb : b < Address.half) (hsize : size < Address.half) {slots : List Slot}
    (hin : ∀ slot ∈ slots, slot.Inside size) (args : List Value) {s : State σ τ}
    (hblock : (s.memory.blocks.get? b).map Block.size = some size) :
    ∃ t, (storeArgs locals slots args : Action σ τ Unit) s =
      match coerceArgs (slots.map Slot.shape) args with
      | .ok _ => .ok () t
      | .error e => .error e t := by
  induction slots generalizing args s with
  | nil => cases args <;> exact ⟨s, rfl⟩
  | cons slot slots ih =>
    cases args with
    | nil => exact ⟨s, rfl⟩
    | cons arg args =>
      obtain ⟨old, hold, hsz⟩ := Option.map_eq_some_iff.mp hblock
      have hlive : s.memory.Live b := Option.isSome_iff_exists.mpr ⟨old, hold⟩
      obtain ⟨address, ha, hat⟩ :=
        place_of_inside hlocals hb hold hsz hsize (hin slot List.mem_cons_self)
      rw [List.map_cons, coerceArgs_cons]
      unfold storeArgs
      simp only [ha, check_ok, bind_run, pure_run, get_run, hat]
      cases he : slot.shape.encode arg with
      | error e =>
        -- the block is live, so that its release does not hide the error of the argument
        obtain ⟨released, hf⟩ := hlocals ▸ Memory.free_of_live hlive hb
        simp only [bind_run, release_run, hf, throw_run]
        exact ⟨_, rfl⟩
      | ok bytes =>
        obtain ⟨memory, hw⟩ := Memory.write_of_blockAt hat (Shape.length_of_encode he)
        obtain ⟨t, ht⟩ := ih (fun slot' hmem => hin slot' (.tail _ hmem)) args
          (s := { s with memory := memory }) (((Memory.write_ok hw).size b).trans hblock)
        simp only [bind_run, get_run, hw, check_ok, pure_run, setMemory_run, ht]
        refine ⟨t, ?_⟩
        cases coerceArgs (slots.map Slot.shape) args <;> rfl

/-- In a frame of any size, arguments are stored if and only if they can be converted and their
slots lie in the block. -/
theorem storeArgs_ok_iff {locals : UInt64} {b size : Nat} (hlocals : locals = Address.ofBlock b)
    (hb : b < Address.half) (hsize : size < Address.half) {slots : List Slot}
    (hword : ∀ slot ∈ slots, slot.offset < 2 ^ 64) (args : List Value) {s : State σ τ}
    (hblock : (s.memory.blocks.get? b).map Block.size = some size) :
    (∃ t, (storeArgs locals slots args : Action σ τ Unit) s = .ok () t) ↔
      (∀ slot ∈ slots.take args.length, slot.Inside size) ∧
        ∃ args', coerceArgs (slots.map Slot.shape) args = .ok args' := by
  induction slots generalizing args s with
  | nil => cases args <;> exact ⟨fun _ => ⟨nofun, _, rfl⟩, fun _ => ⟨s, rfl⟩⟩
  | cons slot slots ih =>
    cases args with
    | nil => exact ⟨fun _ => ⟨nofun, _, rfl⟩, fun _ => ⟨s, rfl⟩⟩
    | cons arg args =>
      obtain ⟨old, hold, hsz⟩ := Option.map_eq_some_iff.mp hblock
      rw [List.map_cons, coerceArgs_cons, List.length_cons, List.take_succ_cons,
        List.forall_mem_cons]
      unfold storeArgs
      by_cases hin : slot.Inside size
      · obtain ⟨address, ha, hat⟩ := place_of_inside hlocals hb hold hsz hsize hin
        simp only [ha, check_ok, bind_run, pure_run, get_run, hat, hin, true_and]
        cases he : slot.shape.encode arg with
        | error e =>
          simp only [bind_run, release_run, throw_run]
          split <;> simp_all
        | ok bytes =>
          obtain ⟨memory, hw⟩ := Memory.write_of_blockAt hat (Shape.length_of_encode he)
          have hrest := ih (fun slot' hmem => hword slot' (.tail _ hmem)) args
            (s := { s with memory := memory }) (((Memory.write_ok hw).size b).trans hblock)
          simp only [bind_run, get_run, hw, check_ok, pure_run, setMemory_run, hrest]
          cases coerceArgs (slots.map Slot.shape) args <;> simp
      · refine iff_of_false ?_ fun h => hin h.1.1
        rintro ⟨t, ht⟩
        cases ha : Address.advance locals slot.offset with
        | error e =>
          rw [ha] at ht
          cases ht
        | ok address =>
          simp only [ha, check_ok, bind_run, pure_run, get_run] at ht
          cases hat : s.memory.blockAt address slot.shape.size with
          | error e =>
            rw [hat] at ht
            cases ht
          | ok block =>
            exact hin (inside_of_place hlocals hb hold hsz (hword slot List.mem_cons_self) ha hat)

end Machine

namespace Machine

open ForeignVM.Action

variable {σ τ : Type} {m : Machine σ}

/-- The result type of a proc type has a shape. -/
theorem BuiltFor.shape_of_signature {program : Program} (hm : m.BuiltFor program) {ty : TypeId}
    {params : List TypeId} {ret : Option TypeId}
    (hsig : m.layouts.types.signature ty = .ok (params, ret)) :
    ∀ ty' ∈ ret, ∃ s, m.layouts.shape ty' = .ok s := by
  intro ty' hret
  have hdescribes := Layouts.describes_compute hm.layouts
  obtain ⟨hdefines, _⟩ :=
    TypeTable.validate_ok_iff.mp (Layouts.validate_of_compute hm.layouts)
  rw [hdescribes.types] at hsig
  unfold TypeTable.signature at hsig
  split at hsig
  · cases hsig
  · next closure hget =>
    cases hsig
    have hmem := TypeTable.mem_defs_of_get? (TypeTable.get_ok_iff.mp hget)
    refine hdescribes.exists_shape ((hdefines _ hmem).resolved ty' ?_)
    exact List.mem_append_right _ (Option.mem_toList.mpr hret)
  · cases hsig

theorem BuiltFor.shape_ret {program : Program} (hm : m.BuiltFor program) {ty : TypeId}
    {params : List TypeId} {ret : Option TypeId}
    (hsig : m.layouts.types.signature ty = .ok (params, ret)) :
    ∃ shape?, ret.mapM m.layouts.shape = .ok shape? := by
  cases ret with
  | none => exact ⟨none, rfl⟩
  | some ty' =>
    obtain ⟨s, hs⟩ := hm.shape_of_signature hsig ty' rfl
    exact ⟨some s, by rw [Option.mapM_some, hs]; rfl⟩

end Machine

/-! ## The two calls -/

/-- The arguments of a call as the slots of the routine take them. -/
def Callee.convert (c : Callee) (args : List Value) : Except RuntimeError (List Value) :=
  Machine.coerceArgs (c.frame.slots.toList.map Slot.shape) args

namespace Machine

open ForeignVM.Action

variable {σ τ : Type} (m : Machine σ) (watch : Observer τ)

/-- The call of a routine by name, with arguments on the operands of `s`. -/
def direct (ip : UInt32) (id : RoutineId) (args : List Value) (s : State σ τ) :
    EStateM.Result RuntimeError (State σ τ) Unit :=
  m.perform watch ip (.call id) { s with operands := s.operands.pushAll args }

/-- The call of the same routine through a proc value that lies below the arguments. -/
def indirect (ip : UInt32) (id : RoutineId) (ty : TypeId) (args : List Value) (s : State σ τ) :
    EStateM.Result RuntimeError (State σ τ) Unit :=
  m.perform watch ip (.callProc ty)
    { s with operands := (s.operands.push (.proc (.routine id))).pushAll args }

section

variable {m} {id : RoutineId} {c : Callee} (ip : UInt32) {ty : TypeId} {args : List Value}
  {s : State σ τ}

/-- Below the base of the frame there is neither an argument nor a proc value. -/
theorem direct_of_underflow (hc : m.callee? id = some c)
    (hargs : args.length = c.routine.params.toNat) (hs : s.operands.height < s.calls.base) :
    ∃ t, m.direct watch ip id args s = .error (.stackUnderflow ip) t := by
  simp only [direct, perform, callee, hc, bind_run, pure_run, ← hargs]
  obtain ⟨_, h⟩ | ⟨hb, _⟩ :=
    popMany_cases ip args.length { s with operands := s.operands.pushAll args }
  · rw [h]
    exact ⟨_, rfl⟩
  · simp only [Operands.height_pushAll] at hb
    omega

theorem direct_eq (hc : m.callee? id = some c) (hargs : args.length = c.routine.params.toNat)
    (hs : s.calls.base ≤ s.operands.height) :
    m.direct watch ip id args s = m.enter watch id args .call s := by
  simp only [direct, perform, callee, hc, bind_run, pure_run, ← hargs, popMany_pushAll ip hs]

variable {program : Program} (hm : m.BuiltFor program) (hc : m.callee? id = some c)
  (hparams : c.routine.params.toNat ≤ c.routine.locals.length)
  (hsig : m.layouts.types.signature ty =
    .ok (c.routine.locals.take c.routine.params.toNat, c.routine.ret))
  (hargs : args.length = c.routine.params.toNat)
include hm hc hparams hsig hargs

/-- The proc value is taken from below the arguments, and then they are converted. -/
theorem indirect_run (s : State σ τ) :
    ∃ shape?, m.indirect watch ip id ty args s =
      (popMany ip args.length >>= fun raw => popProc ip >>= fun p =>
        ofResult (coerceArgs ((c.frame.slots.toList.map Slot.shape).take args.length) raw) >>=
          fun args' => m.callTarget watch p args' c.routine.ret shape?)
        { s with operands := (s.operands.push (.proc (.routine id))).pushAll args } := by
  have hshapes := mapM_take (FrameLayout.shapes_of_ofLocals (hm.callee hc).2)
    c.routine.params.toNat
  obtain ⟨shape?, hret⟩ := hm.shape_ret hsig
  have hlength := length_of_mapM hshapes
  rw [List.length_take (l := c.routine.locals), Nat.min_eq_left hparams] at hlength
  refine ⟨shape?, ?_⟩
  simp only [indirect, perform, callProc, hsig, hshapes, hret, check_ok, bind_run, pure_run,
    hlength, hargs]

theorem indirect_of_underflow (hs : s.operands.height < s.calls.base) :
    ∃ t, m.indirect watch ip id ty args s = .error (.stackUnderflow ip) t := by
  obtain ⟨shape?, h⟩ := indirect_run watch ip hm hc hparams hsig hargs s
  let o := (s.operands.push (.proc (.routine id))).pushAll args
  have ho : o.height = s.operands.height + 1 + args.length := Operands.height_pushAll _ _
  rw [h]
  obtain ⟨_, hmany⟩ | ⟨_, hmany⟩ := popMany_cases ip args.length { s with operands := o }
  · exact ⟨_, bind_error hmany⟩
  · rw [bind_ok hmany]
    -- the arguments may reach over the base, but then the proc value lies below it
    obtain ⟨_, hpop⟩ | ⟨hb, _⟩ := pop_cases ip { s with operands := o.drop args.length }
    · exact ⟨_, bind_error (bind_error hpop)⟩
    · have hheight : (o.drop args.length).height = o.height - args.length := rfl
      simp only [hheight, ho] at hb
      omega

theorem indirect_eq (hs : s.calls.base ≤ s.operands.height) :
    m.indirect watch ip id ty args s =
      match c.convert args with
      | .error e => .error e s
      | .ok args' => m.enter watch id args' (.procCall c.routine.ret) s := by
  obtain ⟨shape?, h⟩ := indirect_run watch ip hm hc hparams hsig hargs s
  let t : State σ τ := { s with operands := s.operands.push (.proc (.routine id)) }
  have ht : t.calls.base ≤ t.operands.height := Nat.le_succ_of_le hs
  have hmany : popMany ip args.length { t with operands := t.operands.pushAll args } = .ok args t :=
    popMany_pushAll ip ht
  rw [h, bind_ok hmany, bind_ok (popProc_push ip hs), coerceArgs_take, Callee.convert]
  cases coerceArgs (c.frame.slots.toList.map Slot.shape) args <;> rfl

omit hm hparams hsig in
/-- Arguments that have been converted before enter the routine like the raw ones. -/
theorem enter_of_converted {args' : List Value} (hconvert : c.convert args = .ok args')
    (hslots : args.length ≤ c.frame.slots.toList.length)
    (hdepth : s.calls.depth < m.limits.recursion.toNat) (ret : Option TypeId) :
    m.enter watch id args' (.procCall ret) s =
      relabelled s.calls.depth (.procCall ret) (m.enter watch id args .call s) := by
  have hargs' : args'.length = c.routine.params.toNat := by
    rw [length_coerceArgs hconvert (by simpa using hslots), hargs]
  -- if no frame is opened, there is none to have another kind
  have hsame (t : State σ τ) (ht : t.calls = s.calls) :
      t.relabel s.calls.depth (.procCall ret) = t :=
    State.relabel_of_le (Nat.le_of_eq (congrArg CallStack.depth ht))
  rw [m.enter_eq watch hc hdepth hargs, m.enter_eq watch hc hdepth hargs']
  cases ha : s.memory.alloc c.frame.size with
  | error e => simp only [relabelled, hsame s rfl]
  | ok r =>
    obtain ⟨locals, memory⟩ := r
    obtain ⟨rfl, hadds⟩ := Memory.alloc_ok ha
    obtain ⟨hsize, hblock⟩ := Memory.alloc_block ha
    have hs := storing_storeArgs rfl hadds.room hsize c.frame.slots.toList args
      { s with memory := memory } (by rw [hblock]; rfl)
    simp only [storeArgs_of_coerced hconvert]
    generalize storeArgs _ c.frame.slots.toList args { s with memory := memory } = r at hs ⊢
    cases hs with
    | stored _ => simp only [relabelled, State.relabel, CallStack.relabel_push]
    | rejected _ _ =>
      refine congrArg (EStateM.Result.error _) (Eq.symm ?_)
      exact hsame _ rfl
    | noPlace _ _ =>
      refine congrArg (EStateM.Result.error _) (Eq.symm ?_)
      exact hsame _ rfl

end

section

variable {m} {id : RoutineId} {c : Callee} {args : List Value} {s : State σ τ}

/-- A routine is entered if a block is left for its locals and the arguments can be converted. -/
theorem enter_of_fits (hc : m.callee? id = some c)
    (hargs : args.length = c.routine.params.toNat)
    (hdepth : s.calls.depth < m.limits.recursion.toNat) (hfits : c.frame.Fits)
    (hframe : c.frame.size < Address.half) (kind : FrameKind) :
    if s.memory.next < Address.half then
      ∃ t, m.enter watch id args kind s =
        match c.convert args with
        | .ok _ => .ok () t
        | .error e => .error e t
    else m.enter watch id args kind s = .error (.memory (.allocationTooLarge c.frame.size)) s := by
  rw [m.enter_eq watch hc hdepth hargs]
  split
  · next hroom =>
    have hfree : ¬ (Address.half ≤ c.frame.size ∨ Address.half ≤ s.memory.next) := by omega
    obtain ⟨⟨locals, memory⟩, ha⟩ : ∃ r, s.memory.alloc c.frame.size = .ok r := ⟨_, if_neg hfree⟩
    obtain ⟨rfl, hadds⟩ := Memory.alloc_ok ha
    obtain ⟨hsize, hblock⟩ := Memory.alloc_block ha
    obtain ⟨t, ht⟩ := storeArgs_cases rfl hadds.room hsize hfits args
      (s := { s with memory := memory }) (by rw [hblock]; rfl)
    rw [ha]
    dsimp only
    rw [ht, Callee.convert]
    cases coerceArgs (c.frame.slots.toList.map Slot.shape) args <;> exact ⟨_, rfl⟩
  · next hroom =>
    have hfull : Address.half ≤ c.frame.size ∨ Address.half ≤ s.memory.next := by omega
    have ha : s.memory.alloc c.frame.size = .error (.allocationTooLarge c.frame.size) :=
      if_pos hfull
    rw [ha]

end

/-! ## The main result -/

/-- The arguments on the operands of `s` are accepted: they belong to the current frame, there is a
block for the locals, and each of them can be converted. -/
structure Accepts (c : Callee) (args : List Value) (s : State σ τ) : Prop where
  owned : s.calls.base ≤ s.operands.height
  room : s.memory.next < Address.half
  converted : ∃ args', c.convert args = .ok args'

/-- How a call by name and one through a proc value agree in `s`: on whether the routine is
entered, on the error if it is not, on the state in which it begins, and on the one in which its
caller goes on. -/
structure CallsAgree (ip : UInt32) (id : RoutineId) (c : Callee) (ty : TypeId)
    (args : List Value) (s : State σ τ) : Prop where
  direct : (∃ t, m.direct watch ip id args s = .ok () t) ↔ Accepts c args s
  indirect : (∃ t, m.indirect watch ip id ty args s = .ok () t) ↔ Accepts c args s
  fails : s.memory.next < Address.half → ∀ e,
    (∃ t, m.direct watch ip id args s = .error e t) ↔
      ∃ t, m.indirect watch ip id ty args s = .error e t
  /-- A call by name looks for a block before it converts the arguments. -/
  refused : ∀ e, s.calls.base ≤ s.operands.height → c.convert args = .error e →
    e.IsRefusal ∧ (∃ t, m.indirect watch ip id ty args s = .error e t) ∧
      (s.memory.next < Address.half → ∃ t, m.direct watch ip id args s = .error e t)
  exhausted : s.calls.base ≤ s.operands.height → Address.half ≤ s.memory.next →
    m.direct watch ip id args s = .error (.memory (.allocationTooLarge c.frame.size)) s ∧
      m.indirect watch ip id ty args s =
        match c.convert args with
        | .error e => .error e s
        | .ok _ => .error (.memory (.allocationTooLarge c.frame.size)) s
  /-- Only the kind of the new frame differs: the address, the locals and their bytes are the
  same. -/
  begun : ∀ t, m.direct watch ip id args s = .ok () t →
    m.indirect watch ip id ty args s =
      .ok () (t.relabel s.calls.depth (.procCall c.routine.ret)) ∧
    t.ip = c.routine.entry ∧ t.operands = s.operands ∧
    ∃ f, t.calls = s.calls.push f ∧ f.routine = id ∧ f.kind = .call ∧ f.returnIp = s.ip
  returned : ∀ t, m.direct watch ip id args s = .ok () t → ∀ n u,
    Back m watch s.calls.depth n t u ↔
      Back m watch s.calls.depth n (t.relabel s.calls.depth (.procCall c.routine.ret)) u
  delivered : ∀ t, m.direct watch ip id args s = .ok () t → ∀ n u,
    Back m watch s.calls.depth n t u →
    u.calls = s.calls ∧ u.ip = s.ip ∧ ∃ below v, (s.Based → below = s.operands) ∧
      m.IsResult c.routine.ret v ∧
      u.operands = if c.routine.ret.isSome then below.push v else below

section

variable {m watch} {id : RoutineId} {c : Callee} {ip : UInt32} {args : List Value}
  {s t : State σ τ}

/-- The frame of a routine that has been entered by name can be taken for one that has been entered
through a proc value. -/
theorem disguises_of_entered (hc : m.callee? id = some c)
    (h : m.enter watch id args .call s = .ok () t) :
    ∃ f, t.calls = s.calls.push f ∧ f.base = s.operands.height ∧ f.returnIp = s.ip ∧
      f.routine = id ∧ t.ip = c.routine.entry ∧ t.operands = s.operands ∧
      m.Disguises s.calls f (.procCall c.routine.ret) t.calls := by
  have hentering := m.entering_enter watch id args .call s
  rw [h] at hentering
  cases hentering with
  | @begun c' _ hc' _ _ =>
    obtain rfl : c = c' := Option.some.inj (hc.symm.trans hc')
    exact ⟨_, rfl, rfl, rfl, rfl, rfl, rfl, ⟨[], rfl⟩, rfl, c, hc, rfl⟩

/-- A routine that has been entered by name delivers its result onto the operands that it has
found. -/
theorem delivered_of_back (hc : m.callee? id = some c)
    (h : m.enter watch id args .call s = .ok () t) {n : Nat} {u : State σ τ}
    (hback : Back m watch s.calls.depth n t u) :
    u.calls = s.calls ∧ u.ip = s.ip ∧ ∃ below v, (s.Based → below = s.operands) ∧
      m.IsResult c.routine.ret v ∧
      u.operands = if c.routine.ret.isSome then below.push v else below := by
  obtain ⟨f, hcalls, hbase, hip, rfl, _, ho, hopen⟩ := disguises_of_entered hc h
  obtain ⟨c', v, s', t', hc', hv, hs', hd, rfl, hbelow⟩ :
      ∃ c' v s' t', m.callee? f.routine = some c' ∧ m.IsResult c'.routine.ret v ∧
        s'.calls = s.calls ∧ Delivering m watch v s' .call t' ∧ u = { t' with ip := f.returnIp } ∧
        (s.Based → s'.operands = s.operands) := by
    -- only in a state whose bases are in order do the operands below the frame stay
    by_cases hs : s.Based
    · have hsafe := m.safe_enter watch hs f.routine args .call
      rw [h] at hsafe
      obtain ⟨c', v, s', t', hc', hv, hs', ho', hd, hu⟩ :=
        m.delivered_of_pending watch hsafe.1 hcalls (ho ▸ hbase) hback.reached hback.closed
          hback.deeper
      rw [hopen.call] at hd
      exact ⟨c', v, s', t', hc', hv, hs', hd, hu, fun _ => ho'.trans ho⟩
    · obtain ⟨c', v, s', t', hc', hv, hs', hd, hu⟩ := hopen.returned watch hback
      exact ⟨c', v, s', t', hc', hv, hs', hd, hu, fun hbased => absurd hbased hs⟩
  obtain rfl : c = c' := Option.some.inj (hc.symm.trans hc')
  have hresult := m.isResult_void_iff hv
  refine ⟨(m.calls_deliver watch hd).trans hs', hip, s'.operands, v, hbelow, hv, ?_⟩
  cases hd with
  | nothing hvoid => simp [hresult.mp hvoid]
  | value hvalue =>
    have hsome : c.routine.ret.isSome := by
      cases hret : c.routine.ret with
      | none => exact absurd (hresult.mpr hret) hvalue
      | some ty => rfl
    simp [hsome]

end

section

variable {m} {id : RoutineId} {c : Callee} (ip : UInt32) {ty : TypeId} {args : List Value}
  {s : State σ τ} {program : Program} (hm : m.BuiltFor program) (hc : m.callee? id = some c)
  (hparams : c.routine.params.toNat ≤ c.routine.locals.length)
  (hframe : c.frame.exactSize < Address.half)
  (hsig : m.layouts.types.signature ty =
    .ok (c.routine.locals.take c.routine.params.toNat, c.routine.ret))
  (hargs : args.length = c.routine.params.toNat)
  (hdepth : s.calls.depth < m.limits.recursion.toNat)
include hm hc hframe hargs hdepth

theorem enter_of_built (kind : FrameKind) :
    if s.memory.next < Address.half then
      ∃ t, m.enter watch id args kind s =
        match c.convert args with
        | .ok _ => .ok () t
        | .error e => .error e t
    else m.enter watch id args kind s = .error (.memory (.allocationTooLarge c.frame.size)) s := by
  have haligned := Layouts.aligned_of_compute hm.layouts
  have hlocals := (hm.callee hc).2
  have hbounded : c.frame.Bounded := Nat.lt_trans hframe (by decide)
  have hsize := FrameLayout.size_of_ofLocals haligned hlocals hbounded
  exact enter_of_fits watch hc hargs hdepth
    (FrameLayout.fits_of_ofLocals haligned hlocals hbounded) (hsize ▸ hframe) kind

theorem direct_ok_iff :
    (∃ t, m.direct watch ip id args s = .ok () t) ↔ Accepts c args s := by
  rcases Nat.lt_or_ge s.operands.height s.calls.base with hs | hs
  · obtain ⟨_, hd⟩ := direct_of_underflow watch ip hc hargs hs
    rw [hd]
    exact ⟨nofun, fun h => absurd h.owned (Nat.not_le_of_lt hs)⟩
  · have henter := enter_of_built watch hm hc hframe hargs hdepth .call
    rw [direct_eq watch ip hc hargs hs]
    split at henter
    · next hroom =>
      obtain ⟨t, ht⟩ := henter
      rw [ht]
      cases hconvert : c.convert args with
      | error e => exact ⟨nofun, fun ⟨_, _, _, h⟩ => by cases hconvert.symm.trans h⟩
      | ok args' => exact ⟨fun _ => ⟨hs, hroom, args', hconvert⟩, fun _ => ⟨t, rfl⟩⟩
    · next hfull =>
      rw [henter]
      exact ⟨nofun, fun h => absurd h.room hfull⟩

include hparams hsig

omit hframe in
/-- If the arguments can be converted, it makes no difference which call they are for. -/
theorem indirect_of_converted (hs : s.calls.base ≤ s.operands.height) {args' : List Value}
    (hconvert : c.convert args = .ok args') :
    m.indirect watch ip id ty args s =
      relabelled s.calls.depth (.procCall c.routine.ret) (m.direct watch ip id args s) := by
  have hslots := length_of_mapM (FrameLayout.shapes_of_ofLocals (hm.callee hc).2)
  rw [List.length_map] at hslots
  rw [indirect_eq watch ip hm hc hparams hsig hargs hs, hconvert, direct_eq watch ip hc hargs hs]
  exact enter_of_converted watch hc hargs hconvert (by omega) hdepth c.routine.ret

theorem indirect_ok_iff :
    (∃ t, m.indirect watch ip id ty args s = .ok () t) ↔ Accepts c args s := by
  rcases Nat.lt_or_ge s.operands.height s.calls.base with hs | hs
  · obtain ⟨_, hi⟩ := indirect_of_underflow watch ip hm hc hparams hsig hargs hs
    rw [hi]
    exact ⟨nofun, fun h => absurd h.owned (Nat.not_le_of_lt hs)⟩
  cases hconvert : c.convert args with
  | error e =>
    have hi := indirect_eq watch ip hm hc hparams hsig hargs hs
    rw [hconvert] at hi
    rw [hi]
    exact ⟨nofun, fun ⟨_, _, _, h⟩ => by cases hconvert.symm.trans h⟩
  | ok args' =>
    have hdirect := direct_ok_iff watch ip hm hc hframe hargs hdepth
    rw [indirect_of_converted watch ip hm hc hparams hsig hargs hdepth hs hconvert, ← hdirect]
    cases m.direct watch ip id args s <;> simp [relabelled]

/-- If no block is left, a call by name does not come to its arguments. -/
theorem fails_of_exhausted (hs : s.calls.base ≤ s.operands.height)
    (hfull : Address.half ≤ s.memory.next) :
    m.direct watch ip id args s = .error (.memory (.allocationTooLarge c.frame.size)) s ∧
      m.indirect watch ip id ty args s =
        match c.convert args with
        | .error e => .error e s
        | .ok _ => .error (.memory (.allocationTooLarge c.frame.size)) s := by
  have henter := enter_of_built watch hm hc hframe hargs hdepth .call
  rw [if_neg (Nat.not_lt_of_le hfull), ← direct_eq watch ip hc hargs hs] at henter
  refine ⟨henter, ?_⟩
  cases hconvert : c.convert args with
  | error e => rw [indirect_eq watch ip hm hc hparams hsig hargs hs, hconvert]
  | ok args' =>
    rw [indirect_of_converted watch ip hm hc hparams hsig hargs hdepth hs hconvert, henter]
    exact congrArg (EStateM.Result.error _) (State.relabel_of_le (Nat.le_refl _))

/-- As long as there is a block for the locals, the calls fail alike. -/
theorem error_iff (hroom : s.memory.next < Address.half) (e : RuntimeError) :
    (∃ t, m.direct watch ip id args s = .error e t) ↔
      ∃ t, m.indirect watch ip id ty args s = .error e t := by
  rcases Nat.lt_or_ge s.operands.height s.calls.base with hs | hs
  · obtain ⟨t, hd⟩ := direct_of_underflow watch ip hc hargs hs
    obtain ⟨t', hi⟩ := indirect_of_underflow watch ip hm hc hparams hsig hargs hs
    rw [hd, hi]
    simp
  cases hconvert : c.convert args with
  | error e' =>
    have henter := enter_of_built watch hm hc hframe hargs hdepth .call
    rw [if_pos hroom, hconvert] at henter
    obtain ⟨t, ht⟩ := henter
    have hi := indirect_eq watch ip hm hc hparams hsig hargs hs
    rw [hconvert] at hi
    rw [direct_eq watch ip hc hargs hs, ht, hi]
    simp
  | ok args' =>
    rw [indirect_of_converted watch ip hm hc hparams hsig hargs hdepth hs hconvert]
    cases m.direct watch ip id args s <;> simp [relabelled]

end

/-- Calls by name and through a proc value agree, if the type of the proc says what the routine
says. -/
theorem calls_agree {program : Program} (hm : m.BuiltFor program) {id : RoutineId} {c : Callee}
    (hc : m.callee? id = some c) (hparams : c.routine.params.toNat ≤ c.routine.locals.length)
    (hframe : c.frame.exactSize < Address.half) {ty : TypeId}
    (hsig : m.layouts.types.signature ty =
      .ok (c.routine.locals.take c.routine.params.toNat, c.routine.ret))
    (ip : UInt32) {args : List Value} (hargs : args.length = c.routine.params.toNat)
    {s : State σ τ} (hdepth : s.calls.depth < m.limits.recursion.toNat) :
    CallsAgree m watch ip id c ty args s := by
  have hdirect := direct_ok_iff watch ip hm hc hframe hargs hdepth
  have herror := error_iff watch ip hm hc hparams hframe hsig hargs hdepth
  have henter {t : State σ τ} (ht : m.direct watch ip id args s = .ok () t) :
      m.enter watch id args .call s = .ok () t := by
    rw [← direct_eq watch ip hc hargs (hdirect.mp ⟨t, ht⟩).owned]
    exact ht
  refine ⟨hdirect, indirect_ok_iff watch ip hm hc hparams hframe hsig hargs hdepth, herror, ?_,
    fails_of_exhausted watch ip hm hc hparams hframe hsig hargs hdepth, ?_, ?_, ?_⟩
  · intro e hs hconvert
    have hi := indirect_eq watch ip hm hc hparams hsig hargs hs
    rw [hconvert] at hi
    exact ⟨refusal_of_coerceArgs hconvert, ⟨s, hi⟩, fun hroom => (herror hroom e).mpr ⟨s, hi⟩⟩
  · intro t ht
    obtain ⟨hs, _, args', hconvert⟩ := hdirect.mp ⟨t, ht⟩
    obtain ⟨f, hcalls, _, hip, hid, hentry, ho, hopen⟩ := disguises_of_entered hc (henter ht)
    refine ⟨?_, hentry, ho, f, hcalls, hid, hopen.call, hip⟩
    rw [indirect_of_converted watch ip hm hc hparams hsig hargs hdepth hs hconvert, ht]
    rfl
  · intro t ht n u
    obtain ⟨_, _, _, _, _, _, _, hopen⟩ := disguises_of_entered hc (henter ht)
    exact hopen.back_iff watch n u
  · intro t ht n u hback
    exact delivered_of_back hc (henter ht) hback

/-- A program whose only routine returns the low bits of its argument, with a proc type for it. -/
def lowBits : Program where
  code := ([.localGet 0, .ret].flatMap Instr.encode).toArray
  sources := .empty
  types := ⟨#[.scalar .i8, .proc [⟨0⟩] (some ⟨0⟩) false]⟩
  routines := #[⟨"low", 0, 1, [⟨0⟩], some ⟨0⟩⟩]
  constants := []
  natives := #[]
  entry := none

/-- The state `n` instructions after the routine has been called by name with 300. -/
def lowBitsAfter (n : Nat) : Option (State Unit (List Event)) :=
  match Machine.build lowBits (fun _ => none) .standard with
  | .error _ => none
  | .ok m =>
    match m.direct .recorder 0 ⟨0⟩ [.int 300] .blank with
    | .error _ _ => none
    | .ok _ t => m.after .recorder n t

/-- An argument that is too wide: the call through the proc value narrows it twice, and its result
too. -/
theorem calls_agree_lowBits :
    ∃ (m : Machine Unit) (c : Callee), m.BuiltFor lowBits ∧ m.callee? ⟨0⟩ = some c ∧
      c.routine.params.toNat ≤ c.routine.locals.length ∧ c.frame.exactSize < Address.half ∧
      m.layouts.types.signature ⟨1⟩ =
        .ok (c.routine.locals.take c.routine.params.toNat, c.routine.ret) ∧
      [Value.int 300].length = c.routine.params.toNat ∧
      State.blank.calls.depth < m.limits.recursion.toNat ∧
      ∃ t u, m.indirect .recorder 0 ⟨0⟩ ⟨1⟩ [.int 300] .blank = .ok () t ∧
        Back m .recorder 0 2 t u ∧ u.operands.values.map Value.int64? = [some 44] := by
  obtain ⟨m, hm⟩ : ∃ m : Machine Unit, Machine.build lowBits (fun _ => none) .standard = .ok m :=
    ⟨_, rfl⟩
  obtain ⟨c, t, hc, ht, hframe, hroutine, htypes, hlimits⟩ : ∃ c t, m.callee? ⟨0⟩ = some c ∧
      m.direct .recorder 0 ⟨0⟩ [.int 300] .blank = .ok () t ∧ c.frame.exactSize = 1 ∧
      c.routine = ⟨"low", 0, 1, [⟨0⟩], some ⟨0⟩⟩ ∧ m.layouts.types = lowBits.types ∧
      m.limits = .standard := by
    cases hm
    exact ⟨_, _, rfl, rfl, rfl, rfl, rfl, rfl⟩
  have hafter (n : Nat) : lowBitsAfter n = m.after .recorder n t := by
    rw [lowBitsAfter, hm]
    dsimp only
    rw [ht]
  have hback : (lowBitsAfter 2).map (fun u => (u.calls.depth, u.operands.values.map Value.int64?)) =
      some (0, [some 44]) := by decide +kernel
  have hinside : ∀ j < 2, (lowBitsAfter j).map (·.calls.depth) = some 1 := by decide +kernel
  obtain ⟨u, hu, hseen⟩ := Option.map_eq_some_iff.mp hback
  obtain ⟨hdepth, hgiven⟩ := Prod.mk.inj hseen
  have hparams : c.routine.params.toNat ≤ c.routine.locals.length := by
    rw [hroutine]
    decide
  have hsmall : c.frame.exactSize < Address.half := by
    rw [hframe]
    decide
  have hsig : m.layouts.types.signature ⟨1⟩ =
      .ok (c.routine.locals.take c.routine.params.toNat, c.routine.ret) := by
    rw [htypes, hroutine]
    rfl
  have hargs : [Value.int 300].length = c.routine.params.toNat := by
    rw [hroutine]
    rfl
  have hroom : State.blank.calls.depth < m.limits.recursion.toNat := by
    rw [hlimits]
    decide
  have hagree := m.calls_agree .recorder ⟨_, _, hm⟩ hc hparams hsmall hsig 0 hargs hroom
  refine ⟨m, c, ⟨_, _, hm⟩, hc, hparams, hsmall, hsig, hargs, hroom, _, u, (hagree.begun t ht).1,
    (hagree.returned t ht 2 u).mp ⟨(hafter 2).symm.trans hu, Nat.le_of_eq hdepth, ?_⟩, hgiven⟩
  intro j w hj hw
  have hdeeper := hinside j hj
  rw [hafter, hw, Option.map_some, Option.some.injEq] at hdeeper
  exact hdeeper ▸ Nat.one_pos

/-- A program whose routine has a parameter of eight bytes and, with the other locals, a frame of
2⁶⁴ bytes. The size of the frame wraps around to zero. -/
def overdrawn : Program where
  code := #[]
  sources := .empty
  types := ⟨TypeTable.doubled.defs.push (.proc [⟨3⟩] none false)⟩
  routines := #[⟨"main", 0, 1, ⟨3⟩ :: (List.range 61).map fun k => .ofPosition (k + 3), none⟩]
  constants := []
  natives := #[]
  entry := none

/-- A memory that has given away all its numbers, and got back all its blocks. -/
def usedUp : Memory :=
  { Memory.empty with
    next := Address.half
    next_pos := Nat.two_pow_pos 32
    unused_absent := fun i _ => SparseArray.get?_empty i }

/-- A routine and a proc type that go together, and arguments and a state for a call. -/
def Callable (m : Machine Unit) (c : Callee) (ty : TypeId) (args : List Value)
    (s : State Unit (List Event)) : Prop :=
  c.routine.params.toNat ≤ c.routine.locals.length ∧ c.frame.size < Address.half ∧
    m.layouts.types.signature ty =
      .ok (c.routine.locals.take c.routine.params.toNat, c.routine.ret) ∧
    args.length = c.routine.params.toNat ∧ s.calls.depth < m.limits.recursion.toNat

instance (m : Machine Unit) (c : Callee) (ty : TypeId) (args : List Value)
    (s : State Unit (List Event)) : Decidable (Callable m c ty args s) :=
  inferInstanceAs (Decidable (_ ∧ _ ∧ _ ∧ _ ∧ _))

def refusal? {α : Type} : EStateM.Result RuntimeError (State Unit (List Event)) α →
    Option RuntimeError
  | .ok _ _ => none
  | .error e _ => some e

theorem exists_of_refusal? {α : Type} {r : EStateM.Result RuntimeError (State Unit (List Event)) α}
    {e : RuntimeError} (h : refusal? r = some e) : ∃ t, r = .error e t := by
  cases r <;> cases h
  exact ⟨_, rfl⟩

/-- Whether the first routine can be called, and why calls by name and through a proc fail. -/
def refusals (p : Program) (ty : TypeId) (args : List Value) (s : State Unit (List Event)) :
    Option (Bool × Option RuntimeError × Option RuntimeError) :=
  match Machine.build p (fun _ => (none : Option (Native Unit))) .standard with
  | .error _ => none
  | .ok m =>
    match m.callee? ⟨0⟩ with
    | none => none
    | some c => some (decide (Callable m c ty args s),
        refusal? (m.direct .recorder 0 ⟨0⟩ args s), refusal? (m.indirect .recorder 0 ⟨0⟩ ty args s))

theorem differ_of_refusals {p : Program} {ty : TypeId} {args : List Value}
    {s : State Unit (List Event)} {e e' : RuntimeError}
    (h : refusals p ty args s = some (true, some e, some e')) (hne : e ≠ e') :
    ∃ m c, m.BuiltFor p ∧ m.callee? ⟨0⟩ = some c ∧ Callable m c ty args s ∧
      (∃ t, m.direct .recorder 0 ⟨0⟩ args s = .error e t) ∧
      ¬ ∃ t, m.indirect .recorder 0 ⟨0⟩ ty args s = .error e t := by
  unfold refusals at h
  split at h
  case h_1 => cases h
  next m hm =>
  split at h
  case h_1 => cases h
  next c hc =>
  obtain ⟨hcallable, herrors⟩ := Prod.mk.inj (Option.some.inj h)
  obtain ⟨hdirect, hindirect⟩ := Prod.mk.inj herrors
  refine ⟨m, c, ⟨_, _, hm⟩, hc, of_decide_eq_true hcallable, exists_of_refusal? hdirect, ?_⟩
  rintro ⟨t, ht⟩
  obtain ⟨t', ht'⟩ := exists_of_refusal? hindirect
  cases ht.symm.trans ht'
  exact hne rfl

/-- Calls do not always fail alike: a frame may be too small for its slots because its size has
wrapped around, and there may be no number left for its block. A call by name finds this out before
it converts the arguments. -/
theorem calls_differ :
    (State.blank.memory.next < Address.half ∧ ∃ m c, m.BuiltFor overdrawn ∧
      m.callee? ⟨0⟩ = some c ∧ Callable m c ⟨65⟩ [.int 0] .blank ∧
      (∃ t, m.direct .recorder 0 ⟨0⟩ [.int 0] .blank =
        .error (.memory (.invalidAddress 0x100000000)) t) ∧
      ¬ ∃ t, m.indirect .recorder 0 ⟨0⟩ ⟨65⟩ [.int 0] .blank =
        .error (.memory (.invalidAddress 0x100000000)) t) ∧
    ∃ s m c, s = .idle usedUp .empty () [] ∧ m.BuiltFor lowBits ∧ m.callee? ⟨0⟩ = some c ∧
      Callable m c ⟨1⟩ [.proc .nil] s ∧
      (∃ t, m.direct .recorder 0 ⟨0⟩ [.proc .nil] s = .error (.memory (.allocationTooLarge 1)) t) ∧
      ¬ ∃ t, m.indirect .recorder 0 ⟨0⟩ ⟨1⟩ [.proc .nil] s =
        .error (.memory (.allocationTooLarge 1)) t := by
  have hwrapped : refusals overdrawn ⟨65⟩ [.int 0] .blank = some (true,
      some (.memory (.invalidAddress 0x100000000)), some (.typeMismatch "`Pair`" "int")) := by
    decide +kernel
  have hfull : refusals lowBits ⟨1⟩ [.proc .nil] (.idle usedUp .empty () []) =
      some (true, some (.memory (.allocationTooLarge 1)), some (.typeMismatch "i8" "proc")) := by
    decide +kernel
  obtain ⟨m, c, hm, hdiffer⟩ := differ_of_refusals hfull nofun
  exact ⟨⟨by decide, differ_of_refusals hwrapped nofun⟩, _, m, c, rfl, hm, hdiffer⟩

end Machine
end ForeignVM
