import ForeignVM.Proofs.Narrowing
import ForeignVM.Proofs.Veil

/-!
# ForeignVM.Proofs.Relabel

Why a routine has been called shows only when it returns. Two runs that differ in the kind of one
frame go the same way as long as this frame is open, and if it has been entered by a call in the
one and through a proc value of the same result type in the other, it returns the same.

* `State.relabel`         — another kind for the frame that has a number of frames below it.
* `veil_relabel`          — it is a change of the calls behind which the same is seen.
* `Action.Blind`          — an action to which the kind makes no difference; `blind_perform`.
* `Machine.leave_relabel` — a return, also from the frame itself.
* `cycle_relabel`         — one instruction; `after_relabel` carries this through runs.
-/

namespace ForeignVM

/-! ## Another kind for a frame -/

/-- The frames with another kind for the one that has `d` frames below it. -/
def relabelFrames (d : Nat) (kind : FrameKind) : List Frame → List Frame
  | [] => []
  | f :: below =>
    if below.length = d then { f with kind := kind } :: below
    else f :: relabelFrames d kind below

variable {d : Nat} {kind : FrameKind}

@[simp] theorem length_relabelFrames (frames : List Frame) :
    (relabelFrames d kind frames).length = frames.length := by
  induction frames with
  | nil => rfl
  | cons f below ih =>
    unfold relabelFrames
    split <;> simp [ih]

theorem relabelFrames_of_le {frames : List Frame} (h : frames.length ≤ d) :
    relabelFrames d kind frames = frames := by
  induction frames with
  | nil => rfl
  | cons f below ih =>
    rw [List.length_cons] at h
    rw [relabelFrames, if_neg (by omega), ih (by omega)]

theorem tail_relabelFrames (frames : List Frame) :
    (relabelFrames d kind frames).tail = relabelFrames d kind frames.tail := by
  cases frames with
  | nil => rfl
  | cons f below =>
    rw [relabelFrames, List.tail_cons]
    split
    · next h => exact (relabelFrames_of_le (Nat.le_of_eq h)).symm
    · rfl

namespace CallStack

def relabel (c : CallStack) (d : Nat) (kind : FrameKind) : CallStack :=
  ⟨relabelFrames d kind c.frames, c.depth, by rw [length_relabelFrames, c.depth_eq]⟩

variable {c : CallStack}

theorem relabel_of_le (h : c.depth ≤ d) : c.relabel d kind = c :=
  ext_frames (relabelFrames_of_le (c.depth_eq ▸ h))

theorem tail_relabel : (c.relabel d kind).tail = c.tail.relabel d kind :=
  ext_frames (tail_relabelFrames c.frames)

theorem push_relabel (h : d < c.depth) (f : Frame) :
    (c.push f).relabel d kind = (c.relabel d kind).push f := by
  apply ext_frames
  have hne : c.frames.length ≠ d := by
    rw [← c.depth_eq]
    exact Nat.ne_of_gt h
  exact if_neg hne

/-- The frame on top of `c` has as many frames below it as `c` has. -/
theorem relabel_push (c : CallStack) (f : Frame) (kind : FrameKind) :
    (c.push f).relabel c.depth kind = c.push { f with kind := kind } :=
  ext_frames (if_pos c.depth_eq.symm)

/-- The current frame has another kind if it is the one with `d` frames below it. -/
theorem current?_relabel (c : CallStack) (d : Nat) (kind : FrameKind) :
    (c.relabel d kind).current? =
      c.current?.map fun f => if c.depth = d + 1 then { f with kind := kind } else f := by
  obtain ⟨frames, depth, rfl⟩ := c
  cases frames with
  | nil => rfl
  | cons f below =>
    simp only [relabel, current?, relabelFrames, List.length_cons, List.head?_cons, Option.map_some,
      Nat.add_right_cancel_iff]
    split <;> rfl

end CallStack

namespace State

variable {σ τ : Type}

def relabel (s : State σ τ) (d : Nat) (kind : FrameKind) : State σ τ :=
  { s with calls := s.calls.relabel d kind }

theorem relabel_of_le {s : State σ τ} (h : s.calls.depth ≤ d) : s.relabel d kind = s := by
  rw [relabel, CallStack.relabel_of_le h]

end State

namespace Action

open Machine

variable {σ τ α β : Type}

/-- The same result with another kind for a frame of the state it leaves behind. -/
def relabelled (d : Nat) (kind : FrameKind) :
    EStateM.Result RuntimeError (State σ τ) α → EStateM.Result RuntimeError (State σ τ) α
  | .ok a s => .ok a (s.relabel d kind)
  | .error e s => .error e (s.relabel d kind)

theorem relabelled_of_le {r : EStateM.Result RuntimeError (State σ τ) α}
    (h : (finalState r).calls.depth ≤ d) : relabelled d kind r = r := by
  cases r with
  | ok a s => exact congrArg (EStateM.Result.ok a) (State.relabel_of_le h)
  | error e s => exact congrArg (EStateM.Result.error e) (State.relabel_of_le h)

/-- The action does not depend on the kind of the frame with `d` frames below it, and leaves it
open. -/
def Blind (d : Nat) (kind : FrameKind) (a : Action σ τ α) : Prop :=
  ∀ s, d < s.calls.depth →
    d < (finalState (a s)).calls.depth ∧ a (s.relabel d kind) = relabelled d kind (a s)

theorem Blind.of_unaware {a : Action σ τ α}
    (h : Unaware (d < ·.depth) (·.relabel d kind) a) : Blind d kind a := by
  intro s hd
  obtain ⟨hdepth, hrun⟩ := h s hd
  refine ⟨hdepth, hrun.trans ?_⟩
  cases a s <;> rfl

end Action

/-- No other frame is changed, and what is entered lies above the one that is. -/
theorem veil_relabel (d : Nat) (kind : FrameKind) : Veil (d < ·.depth) (·.relabel d kind) where
  depth _ := rfl
  seen c := by
    rw [CallStack.current?_relabel]
    cases c.current? with
    | none => rfl
    | some f =>
      simp only [Option.map_some]
      split <;> rfl
  tail _ := CallStack.tail_relabel
  push hd _ := ⟨Nat.lt_succ_of_lt hd, CallStack.push_relabel hd _⟩

namespace Machine

open ForeignVM.Action

variable {σ τ : Type} (m : Machine σ) (watch : Observer τ)

/-! ## Instructions and returns -/

theorem blind_perform (ip : UInt32) (i : Instr) : Blind d kind (m.perform watch ip i) :=
  .of_unaware ((veil_relabel d kind).perform m watch ip i)

theorem blind_handOver (f : Frame) (v : Value) : Blind d kind (m.handOver watch f v) :=
  .of_unaware ((veil_relabel d kind).handOver m watch f v)

/-- What a routine returns is of its result type already, so a proc value of the same result type
hands it over as it is. -/
theorem deliver_procCall {ret : Option TypeId} {v : Value} (hv : m.IsResult ret v)
    (s : State σ τ) : m.deliver watch v (.procCall ret) s = m.deliver watch v .call s := by
  cases ret with
  | none =>
    cases hv
    rfl
  | some ty =>
    obtain ⟨sh, w, hs, hw⟩ := hv
    have hcall : m.deliver watch v .call = (push v : Action σ τ Unit) := by
      have hne := Shape.coerce_ne_void hw
      cases v with
      | void => exact absurd rfl hne
      | _ => rfl
    rw [hcall]
    simp only [deliver, shape, hs, check_ok, bind_run, pure_run, Shape.coerce_coerce hw,
      ofResult_ok]

theorem handOver_procCall {ret : Option TypeId} {v : Value} (hv : m.IsResult ret v) {f : Frame}
    (hf : f.kind = .call) (s : State σ τ) :
    m.handOver watch { f with kind := .procCall ret } v s = m.handOver watch f v s := by
  simp only [handOver, hf, bind_run, m.deliver_procCall watch hv]

theorem calls_handOver (f : Frame) (v : Value) (s : State σ τ) :
    (finalState (m.handOver watch f v s)).calls = s.calls := by
  obtain ⟨_, h⟩ | ⟨_, ⟨e, h⟩ | ⟨t, _, hd, h⟩⟩ := m.handOver_cases watch f v s
  · rw [h]
    rfl
  · rw [h]
    rfl
  · rw [h]
    exact (m.calls_deliver watch hd : t.calls = s.calls)

/-- If the current frame hands over its result alike, it returns alike. -/
theorem leave_relabel_of_handOver {s : State σ τ} {f : Frame} {kind' : FrameKind}
    (hd : d < s.calls.depth) (hf : s.calls.current? = some f)
    (hf' : (s.relabel d kind).calls.current? = some { f with kind := kind' })
    (hover : ∀ c v t, m.callee? f.routine = some c → m.IsResult c.routine.ret v →
      t.calls = s.calls.tail →
      m.handOver watch { f with kind := kind' } v (t.relabel d kind) =
        relabelled d kind (m.handOver watch f v t)) (ip : UInt32) :
    m.leave watch ip (s.relabel d kind) = relabelled d kind (m.leave watch ip s) := by
  have hveiled {α : Type} (r : EStateM.Result RuntimeError (State σ τ) α) :
      relabelled d kind r = veiled (·.relabel d kind) r := by cases r <;> rfl
  rw [hveiled]
  refine (veil_relabel d kind).leave m watch hd hf hf' ?_ ip
  intro c v t hc hv ht
  rw [← hveiled]
  exact hover c v t hc hv ht

/-- The frame `f`, entered by a call, is open above the calls `outer`, and the kind is that of a
call through a proc value of the same result type. -/
structure Disguises (outer : CallStack) (f : Frame) (kind : FrameKind) (c : CallStack) : Prop where
  frames : ∃ inner, c.frames = inner ++ f :: outer.frames
  call : f.kind = .call
  callee : ∃ callee, m.callee? f.routine = some callee ∧ kind = .procCall callee.routine.ret

variable {m} {outer : CallStack} {f : Frame} {s : State σ τ}

theorem Disguises.lt {c : CallStack} (h : m.Disguises outer f kind c) : outer.depth < c.depth := by
  obtain ⟨inner, hframes⟩ := h.frames
  rw [outer.depth_eq, c.depth_eq, hframes, List.length_append, List.length_cons]
  omega

theorem leave_relabel (h : m.Disguises outer f kind s.calls) (ip : UInt32) :
    m.leave watch ip (s.relabel outer.depth kind) =
      relabelled outer.depth kind (m.leave watch ip s) := by
  obtain ⟨inner, hframes⟩ := h.frames
  obtain ⟨callee, hcallee, rfl⟩ := h.callee
  have hdepth : s.calls.depth = inner.length + (outer.depth + 1) := by
    rw [s.calls.depth_eq, hframes, List.length_append, List.length_cons, outer.depth_eq]
  have hcurrent : (s.relabel outer.depth _).calls.current? = _ :=
    CallStack.current?_relabel s.calls outer.depth (.procCall callee.routine.ret)
  cases inner with
  | nil =>
    have hf : s.calls.current? = some f := by
      rw [CallStack.current?, hframes]
      rfl
    rw [hf, Option.map_some, if_pos (by simpa using hdepth)] at hcurrent
    refine m.leave_relabel_of_handOver watch h.lt hf hcurrent ?_ ip
    intro c v t hc hv ht
    obtain rfl : callee = c := Option.some.inj (hcallee.symm.trans hc)
    have htd : t.calls.depth ≤ outer.depth := by
      have htail : t.calls.depth = s.calls.depth - 1 := congrArg CallStack.depth ht
      rw [List.length_nil] at hdepth
      omega
    rw [State.relabel_of_le htd, m.handOver_procCall watch hv h.call, relabelled_of_le]
    rw [m.calls_handOver]
    exact htd
  | cons g inner =>
    have hf : s.calls.current? = some g := by
      rw [CallStack.current?, hframes]
      rfl
    rw [List.length_cons] at hdepth
    rw [hf, Option.map_some, if_neg (by omega)] at hcurrent
    refine m.leave_relabel_of_handOver watch h.lt hf hcurrent ?_ ip
    intro c v t _ _ ht
    refine (m.blind_handOver watch g v t ?_).2
    have htail : t.calls.depth = s.calls.depth - 1 := congrArg CallStack.depth ht
    omega

/-! ## Runs -/

variable (m) in
/-- After `n` instructions no more than `d` calls are open in `u`, for the first time since `t`. -/
structure Back (d n : Nat) (t u : State σ τ) : Prop where
  reached : m.after watch n t = some u
  closed : u.calls.depth ≤ d
  deeper : ∀ j w, j < n → m.after watch j t = some w → d < w.calls.depth

/-- The frame stays where it is as long as it is open. -/
theorem Disguises.cycle {t : State σ τ} (h : m.Disguises outer f kind s.calls)
    (hc : m.cycle watch s = .ok none t) (hd : outer.depth < t.calls.depth) :
    m.Disguises outer f kind t.calls := by
  obtain ⟨inner, hframes⟩ := h.frames
  refine ⟨?_, h.call, h.callee⟩
  have hnesting := m.nesting_cycle watch s
  rw [hc, finalState_ok] at hnesting
  rw [t.calls.depth_eq, outer.depth_eq] at hd
  generalize t.calls = calls at hnesting hd
  cases hnesting with
  | same => exact ⟨inner, hframes⟩
  | opened g _ _ => exact ⟨g :: inner, congrArg (g :: ·) hframes⟩
  | closed =>
    have htail : s.calls.tail.frames = s.calls.frames.tail := rfl
    rw [htail, hframes] at hd ⊢
    cases inner with
    | nil => exact absurd hd (Nat.lt_irrefl _)
    | cons g inner => exact ⟨inner, rfl⟩

theorem relabelled_unfinished {d : Nat} (r : EStateM.Result RuntimeError (State σ τ) Unit) :
    unfinished (relabelled d kind r) = relabelled d kind (unfinished r) := by
  cases r <;> rfl

theorem cycle_relabel (h : m.Disguises outer f kind s.calls) :
    m.cycle watch (s.relabel outer.depth kind) =
      relabelled outer.depth kind (m.cycle watch s) := by
  have hip : (s.relabel outer.depth kind).ip = s.ip := rfl
  rw [cycle_eq, cycle_eq, hip]
  cases decodeAt m.program.code s.ip with
  | error e => rfl
  | ok l =>
    have hfetched : fetched watch (s.relabel outer.depth kind) l =
        (fetched watch s l).relabel outer.depth kind := rfl
    have h : m.Disguises outer f kind (fetched watch s l).calls := h
    dsimp only
    rw [hfetched]
    by_cases hret : l.instr = .ret
    · rw [m.step_ret watch hret]
      exact leave_relabel watch h l.ip
    · rw [m.step_eq watch hret, m.step_eq watch hret, ← relabelled_unfinished,
        (m.blind_perform watch l.ip l.instr (fetched watch s l) h.lt).2]

/-- The runs go on in step until the frame returns, and then they are in the same state. -/
theorem after_relabel (h : m.Disguises outer f kind s.calls) {n : Nat}
    (hdeeper : ∀ j t, j < n → m.after watch j s = some t → outer.depth < t.calls.depth) :
    m.after watch n (s.relabel outer.depth kind) =
      (m.after watch n s).map (·.relabel outer.depth kind) := by
  induction n generalizing s with
  | zero => rfl
  | succ n ih =>
    simp only [after, cycle_relabel watch h]
    cases hc : m.cycle watch s with
    | error e t => rfl
    | ok o t =>
      cases o with
      | some v => rfl
      | none =>
        have hnext := m.after_next watch hc
        simp only [relabelled]
        cases n with
        | zero => rfl
        | succ n =>
          refine ih (h.cycle watch hc ?_) fun j u hj hu =>
            hdeeper (j + 1) u (Nat.succ_lt_succ hj) ((hnext j).trans hu)
          exact hdeeper 1 t (Nat.succ_lt_succ (Nat.succ_pos n)) (m.after_one watch hc)

/-- A run that is back is so with either kind of the frame. -/
theorem Disguises.back_iff (h : m.Disguises outer f kind s.calls) (n : Nat) (u : State σ τ) :
    Back m watch outer.depth n s u ↔
      Back m watch outer.depth n (s.relabel outer.depth kind) u := by
  have hsame {k : Nat} (hdeeper : ∀ j w, j < k → m.after watch j s = some w →
      outer.depth < w.calls.depth) := after_relabel watch h hdeeper
  constructor
  · intro hback
    refine ⟨?_, hback.closed, ?_⟩
    · rw [hsame hback.deeper, hback.reached, Option.map_some,
        State.relabel_of_le hback.closed]
    · intro j w hj hw
      rw [hsame fun i v hi => hback.deeper i v (Nat.lt_trans hi hj)] at hw
      obtain ⟨v, hv, rfl⟩ := Option.map_eq_some_iff.mp hw
      exact hback.deeper j v hj hv
  · intro hback
    -- the runs are in step up to `k`, so that neither can be back before the other
    have hdeeper (k : Nat) (hk : k ≤ n) :
        ∀ j w, j < k → m.after watch j s = some w → outer.depth < w.calls.depth := by
      induction k with
      | zero => exact fun _ _ hj => absurd hj (Nat.not_lt_zero _)
      | succ k ih =>
        intro j w hj hw
        have hbefore := ih (Nat.le_of_succ_le hk)
        rcases Nat.lt_succ_iff_lt_or_eq.mp hj with hlt | rfl
        · exact hbefore j w hlt hw
        · have hrun := hsame hbefore
          rw [hw, Option.map_some] at hrun
          exact (hback.deeper j (w.relabel outer.depth kind) hk hrun :)
    have hrun := hsame (hdeeper n (Nat.le_refl n))
    rw [hback.reached] at hrun
    obtain ⟨v, hv, hu⟩ := Option.map_eq_some_iff.mp hrun.symm
    have hclosed : v.calls.depth ≤ outer.depth := by
      rw [← hu] at hback
      exact hback.closed
    rw [State.relabel_of_le hclosed] at hu
    exact ⟨hu ▸ hv, hback.closed, hdeeper n (Nat.le_refl n)⟩

theorem Disguises.after (h : m.Disguises outer f kind s.calls) {k n : Nat} {t : State σ τ}
    (ht : m.after watch k s = some t) (hk : k < n)
    (hdeeper : ∀ j w, j < n → m.after watch j s = some w → outer.depth < w.calls.depth) :
    m.Disguises outer f kind t.calls := by
  induction k generalizing t with
  | zero =>
    cases ht
    exact h
  | succ k ih =>
    obtain ⟨w, hw, hc⟩ := (m.after_succ watch).mp ht
    exact (ih hw (Nat.lt_of_succ_lt hk)).cycle watch hc (hdeeper _ t hk ht)

/-- Once the frame has returned, its caller goes on with the result. -/
theorem Disguises.returned (h : m.Disguises outer f kind s.calls) {n : Nat} {u : State σ τ}
    (hback : Back m watch outer.depth n s u) :
    ∃ callee v s' t, m.callee? f.routine = some callee ∧ m.IsResult callee.routine.ret v ∧
      s'.calls = outer ∧ Delivering m watch v s' .call t ∧ u = { t with ip := f.returnIp } := by
  cases n with
  | zero =>
    cases hback.reached
    exact absurd h.lt (Nat.not_lt_of_le hback.closed)
  | succ n =>
    obtain ⟨t, ht, hc⟩ := (m.after_succ watch).mp hback.reached
    have hopen := h.after watch ht (Nat.lt_succ_self n) hback.deeper
    obtain ⟨g, callee, v, s', t', hg, hcallee, hv, hs', _, hd, rfl⟩ :=
      m.delivering_of_closed watch hc (Nat.lt_of_le_of_lt hback.closed hopen.lt)
    have hcalls : t'.calls = s'.calls := m.calls_deliver watch hd
    have hclosed : t'.calls.depth ≤ outer.depth := hback.closed
    have htail : s'.calls.frames = t.calls.frames.tail := congrArg CallStack.frames hs'
    obtain ⟨inner, hframes⟩ := hopen.frames
    cases inner with
    | nil =>
      rw [CallStack.current?, hframes] at hg
      obtain rfl : f = g := Option.some.inj hg
      rw [h.call] at hd
      refine ⟨callee, v, s', t', hcallee, hv, CallStack.ext_frames ?_, hd, rfl⟩
      rw [htail, hframes]
      rfl
    | cons k inner =>
      rw [hcalls, s'.calls.depth_eq, outer.depth_eq, htail, hframes, List.cons_append,
        List.tail_cons, List.length_append, List.length_cons] at hclosed
      omega

end Machine
end ForeignVM
