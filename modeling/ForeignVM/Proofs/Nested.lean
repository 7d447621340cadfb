import ForeignVM.Proofs.History
import ForeignVM.Proofs.Telling
import ForeignVM.Trace

/-!
# ForeignVM.Proofs.Nested

The events of a run are well nested. A call and its return enclose what is told in between, and so
do the two events about a constant that enclose the call of its initializer; a failed run stops
somewhere in such a word.

* `Body`, `Whole`       — the grammar: what is told during a call, and of a whole one.
* `Open`, `Progress`    — what has been told while some calls are open, and at each stage of a run.
* `pending`             — the routines of the calls without a matching return.
* `Tracing.Indents`     — a line is indented by the number of open calls.
* `execute_nested`      — every run of every machine, in front of every onlooker.
-/

namespace ForeignVM

/-! ## The grammar -/

mutual

/-- What can be told during a call; `bound` says which routines initialize which constants. -/
inductive Body (bound : UInt32 → RoutineId → Prop) : List Event → Prop where
  | nil : Body bound []
  | leaf {es : List Event} {e : Event} (h : Body bound es) (he : e.isLeaf) : Body bound (es ++ [e])
  | call {es word : List Event} {id : RoutineId} {v : Value} (h : Body bound es)
      (hword : Whole bound id v word) : Body bound (es ++ word)
  | constant {es word : List Event} {o : UInt32} {id : RoutineId} {v : Value} (h : Body bound es)
      (hbound : bound o id) (hword : Whole bound id v word) :
      Body bound (es ++ (.constInit o :: (word ++ [.constReady o])))

/-- What is told of a call that returns a value. -/
inductive Whole (bound : UInt32 → RoutineId → Prop) : RoutineId → Value → List Event → Prop where
  | intro {es : List Event} (id : RoutineId) (v : Value) (h : Body bound es) :
      Whole bound id v (.called id :: (es ++ [.returned v]))

end

variable {bound : UInt32 → RoutineId → Prop} {id : RoutineId}

/-! ## Open calls -/

/-- What has been told of the calls that are open, the innermost first; the outermost is that of
routine `id` by the host. -/
inductive Open (bound : UInt32 → RoutineId → Prop) (id : RoutineId) :
    List Frame → List Event → Prop where
  | host {f : Frame} {es : List Event} (hkind : f.kind = .host) (hid : f.routine = id)
      (h : Body bound es) : Open bound id [f] (.called id :: es)
  | call {f : Frame} {frames : List Frame} {outer es : List Event} (hkind : f.kind.isCall)
      (houter : Open bound id frames outer) (h : Body bound es) :
      Open bound id (f :: frames) (outer ++ .called f.routine :: es)
  | constant {f : Frame} {frames : List Frame} {outer es : List Event} {o : UInt32}
      (hkind : f.kind = .constant o) (hbound : bound o f.routine)
      (houter : Open bound id frames outer) (h : Body bound es) :
      Open bound id (f :: frames) (outer ++ .constInit o :: .called f.routine :: es)

namespace Open

variable {frames : List Frame} {f : Frame} {es : List Event}

/-- What extends a body extends the events of the innermost call. -/
theorem extend (h : Open bound id frames es) {more : List Event}
    (hmore : ∀ body, Body bound body → Body bound (body ++ more)) :
    Open bound id frames (es ++ more) := by
  cases h with
  | host hkind hid h => exact .host hkind hid (hmore _ h)
  | call hkind houter h =>
    rw [List.append_assoc]
    exact .call hkind houter (hmore _ h)
  | constant hkind hbound houter h =>
    rw [List.append_assoc]
    exact .constant hkind hbound houter (hmore _ h)

theorem leaf (h : Open bound id frames es) {e : Event} (he : e.isLeaf) :
    Open bound id frames (es ++ [e]) :=
  h.extend fun _ hbody => .leaf hbody he

/-- Whatever is open can be closed. -/
theorem completes (h : Open bound id frames es) : ∃ rest v, Whole bound id v (es ++ rest) := by
  induction frames generalizing es with
  | nil => cases h
  | cons f frames ih =>
    cases h with
    | host _ _ h => exact ⟨[.returned .void], .void, .intro id .void h⟩
    | @call _ _ outer es hkind houter h =>
      have hclosed := houter.extend fun _ hbody => .call hbody (.intro f.routine .void h)
      obtain ⟨rest, v, hw⟩ := ih hclosed
      refine ⟨.returned .void :: rest, v, ?_⟩
      simpa only [List.append_assoc, List.cons_append, List.nil_append] using hw
    | @constant _ _ outer es o hkind hbound houter h =>
      have hclosed := houter.extend fun _ hbody =>
        .constant hbody hbound (.intro f.routine .void h)
      obtain ⟨rest, v, hw⟩ := ih hclosed
      refine ⟨.returned .void :: .constReady o :: rest, v, ?_⟩
      simpa only [List.append_assoc, List.cons_append, List.nil_append] using hw

end Open

/-! ## Stages -/

/-- What has been told when a run stands at a stage. -/
def Progress (bound : UInt32 → RoutineId → Prop) (id : RoutineId) : Stage → List Event → Prop
  | .idle routine, es => routine = id ∧ es = []
  | .body c, es => Open bound id c.frames es
  | .initializing o routine c, es =>
    bound o routine ∧ ∃ outer, Open bound id c.frames outer ∧ es = outer ++ [.constInit o]
  | .storing o c, es =>
    ∃ outer word routine v, bound o routine ∧ Whole bound routine v word ∧
      Open bound id c.frames outer ∧ es = outer ++ .constInit o :: word
  | .done v c, es => c.frames = [] ∧ Whole bound id v es

namespace Progress

variable {g g' : Stage} {es : List Event}

/-- The innermost call returns: what was told of it is a whole word of the call below. -/
theorem returned {c : CallStack} {f : Frame} (h : Open bound id c.frames es)
    (hf : c.current? = some f) (v : Value) :
    Progress bound id (.afterReturn v c.tail f.kind) (es ++ [.returned v]) := by
  obtain ⟨frames, depth, hdepth⟩ := c
  cases h with
  | host hkind hid h =>
    cases hf
    rw [hkind]
    exact ⟨rfl, .intro id v h⟩
  | @call _ _ outer es hkind houter h =>
    cases hf
    have hclosed := houter.extend fun _ hbody => .call hbody (.intro f.routine v h)
    rw [List.append_assoc, List.cons_append]
    cases hk : f.kind with
    | host | constant _ =>
      rw [hk] at hkind
      cases hkind
    | call | procCall _ => exact hclosed
  | @constant _ _ outer es o hkind hbound houter h =>
    cases hf
    rw [hkind, List.append_assoc]
    exact ⟨outer, _, f.routine, v, hbound, .intro f.routine v h, houter, rfl⟩

/-- One case per hook. -/
theorem fires (h : Progress bound id g es) {hook : Hook} (hfires : g.Fires bound hook g') :
    Progress bound id g' (es ++ [hook.event]) := by
  cases hfires with
  | host hkind =>
    obtain ⟨hid, rfl⟩ := h
    rw [hid]
    exact .host hkind hid .nil
  | leaf he => exact Open.leaf h he
  | called hkind => exact .call hkind h .nil
  | init hbound => exact ⟨hbound, es, h, rfl⟩
  | initializer hkind =>
    obtain ⟨hbound, outer, houter, rfl⟩ := h
    rw [List.append_assoc]
    exact .constant hkind hbound houter .nil
  | ready =>
    obtain ⟨outer, word, routine, v, hbound, hword, houter, rfl⟩ := h
    rw [List.append_assoc]
    exact houter.extend fun _ hbody => .constant hbody hbound hword
  | returned hf => exact returned h hf _

theorem leads (h : Progress bound id g es) {hooks : List Hook}
    (hleads : g.Leads bound hooks g') : Progress bound id g' (es ++ hooks.map Hook.event) := by
  induction hleads generalizing es with
  | nil => rwa [List.map_nil, List.append_nil]
  | cons hfires _ ih =>
    rw [List.map_cons, List.append_cons]
    exact ih (h.fires hfires)

/-- At every stage, what has been told is the beginning of a whole call. -/
theorem completes (h : Progress bound id g es) : ∃ rest v, Whole bound id v (es ++ rest) := by
  cases g with
  | idle _ =>
    obtain ⟨_, rfl⟩ := h
    exact ⟨_, .void, .intro id .void .nil⟩
  | body c => exact Open.completes h
  | initializing o routine c =>
    obtain ⟨hbound, outer, houter, rfl⟩ := h
    have hclosed := houter.extend fun _ hbody =>
      .constant hbody hbound (.intro routine .void .nil)
    obtain ⟨rest, v, hw⟩ := hclosed.completes
    refine ⟨.called routine :: .returned .void :: .constReady o :: rest, v, ?_⟩
    simpa only [List.append_assoc, List.cons_append, List.nil_append] using hw
  | storing o c =>
    obtain ⟨outer, word, routine, v, hbound, hword, houter, rfl⟩ := h
    have hclosed := houter.extend fun _ hbody => .constant hbody hbound hword
    obtain ⟨rest, v, hw⟩ := hclosed.completes
    refine ⟨.constReady o :: rest, v, ?_⟩
    simpa only [List.append_assoc, List.cons_append, List.nil_append] using hw
  | done v c => exact ⟨[], v, (List.append_nil es).symm ▸ h.2⟩

end Progress

/-! ## Calls without a return -/

/-- The routines of the calls without a matching return, the innermost first. -/
def pendingAfter : List RoutineId → Event → List RoutineId
  | ids, .called id => id :: ids
  | ids, .returned _ => ids.tail
  | ids, _ => ids

def pending (es : List Event) : List RoutineId := es.foldl pendingAfter []

namespace Stage

/-- The calls that are open. -/
def calls : Stage → CallStack
  | .idle _ => .empty
  | .body c | .initializing _ _ c | .storing _ c | .done _ c => c

theorem calls_afterReturn (v : Value) (c : CallStack) (kind : FrameKind) :
    (afterReturn v c kind).calls = c := by
  cases kind <;> rfl

def routines (g : Stage) : List RoutineId := g.calls.frames.map Frame.routine

variable {g g' : Stage} {hook : Hook} {hooks : List Hook}

/-- The calls that go with a hook are those that are open after it. -/
theorem Fires.calls_eq (h : g.Fires bound hook g') : hook.calls = g'.calls := by
  cases h with
  | returned _ => exact (calls_afterReturn _ _ _).symm
  | _ => rfl

/-- A return is told of an open call. -/
theorem Fires.open_of_returned (h : g.Fires bound hook g') {v : Value}
    (hv : hook.event = .returned v) : 0 < g.calls.depth := by
  cases h with
  | leaf he =>
    obtain rfl : _ = Event.returned v := hv
    cases he
  | @returned c f _ hf =>
    rw [CallStack.depth_eq]
    exact List.length_pos_of_mem (List.mem_of_mem_head? hf)
  | _ => cases hv

theorem Fires.pendingAfter (h : g.Fires bound hook g') :
    pendingAfter g.routines hook.event = g'.routines := by
  cases h with
  | @leaf c e he => cases e <;> first | rfl | cases he
  | @returned c f v _ =>
    unfold routines
    rw [calls_afterReturn]
    exact List.map_tail.symm
  | _ => rfl

theorem Leads.pendingAfter (h : g.Leads bound hooks g') :
    (hooks.map Hook.event).foldl ForeignVM.pendingAfter g.routines = g'.routines := by
  induction h with
  | nil => rfl
  | cons hfires _ ih =>
    rw [List.map_cons, List.foldl_cons, hfires.pendingAfter]
    exact ih

theorem Leads.split {before after : List Hook} (h : g.Leads bound (before ++ hook :: after) g') :
    ∃ u w, g.Leads bound before u ∧ u.Fires bound hook w ∧ w.Leads bound after g' := by
  induction before generalizing g with
  | nil =>
    cases h with
    | cons hfires hrest => exact ⟨g, _, .nil, hfires, hrest⟩
  | cons first before ih =>
    cases h with
    | cons hfires hrest =>
      obtain ⟨u, w, hu, hhook, hw⟩ := ih hrest
      exact ⟨u, w, .cons hfires hu, hhook, hw⟩

end Stage

/-! ## Traces -/

namespace Tracing

variable (c : Tracing)

/-- The line that an event adds to the empty trace, where nothing is indented. -/
def line? (e : Event) : Option String := (c.observer e .empty).lines.head?

/-- A trace whose first call is indented by `d`, before an event that finds `n` calls open. The
line of the event is indented by all of them, and a return closes one. -/
structure Indents (d n : Nat) (e : Event) (t : Trace) : Prop where
  depth : t.depth = d + n
  lines : (c.observer e t).lines =
    ((c.line? e).map (String.ofList (List.replicate (2 * (d + n)) ' ') ++ ·)).toList ++ t.lines
  closes : ∀ v, e = .returned v → 0 < n

theorem observer_lines (e : Event) (t : Trace) :
    (c.observer e t).lines =
      ((c.line? e).map (String.ofList (List.replicate (2 * t.depth) ' ') ++ ·)).toList ++
        t.lines := by
  cases e with
  | constHit _ | native _ | allocated _ _ =>
    simp only [line?, observer, detail]
    cases c.verbose with
    | true => simp [Trace.add, Trace.empty]
    | false => rfl
  | _ => simp [line?, observer, Trace.add, Trace.empty]

theorem observer_depth_leaf {e : Event} (he : e.isLeaf) (t : Trace) :
    (c.observer e t).depth = t.depth := by
  cases e with
  | instr l => rfl
  | constHit _ | native _ | allocated _ _ =>
    simp only [observer, detail]
    cases c.verbose <;> rfl
  | _ => cases he

/-- The depth goes with the calls. -/
theorem depth_fires {g g' : Stage} {hook : Hook} (h : g.Fires bound hook g') {d : Nat} {t : Trace}
    (ht : t.depth = d + g.calls.depth) :
    (c.observer hook.event t).depth = d + g'.calls.depth := by
  have hopen (v : Value) (hv : hook.event = .returned v) := h.open_of_returned hv
  cases h with
  | leaf he => exact (c.observer_depth_leaf he t).trans ht
  | host _ | called _ | initializer _ => exact congrArg (· + 1) ht
  | init _ | ready => exact ht
  | @returned calls f v hf =>
    have hpos : 0 < calls.depth := hopen v rfl
    rw [Stage.calls_afterReturn]
    change t.depth - 1 = d + (calls.depth - 1)
    rw [ht]
    exact Nat.add_sub_assoc hpos d

theorem depth_leads {g g' : Stage} {hooks : List Hook} (h : g.Leads bound hooks g') {d : Nat}
    {t : Trace} (ht : t.depth = d + g.calls.depth) :
    ((Onlooker.ofObserver c.observer).told hooks t).depth = d + g'.calls.depth := by
  induction h generalizing t with
  | nil => exact ht
  | cons hfires _ ih => exact ih (c.depth_fires hfires ht)

/-- Whatever comes next is indented by the calls that are open. -/
theorem indents_of_leads {id : RoutineId} {g g' : Stage} {before : List Hook} {hook : Hook}
    (hbefore : (Stage.idle id).Leads bound before g) (h : g.Fires bound hook g') (t : Trace) :
    c.Indents t.depth (pending (before.map Hook.event)).length hook.event
      ((Onlooker.ofObserver c.observer).told before t) := by
  have hpending : pending (before.map Hook.event) = g.routines := hbefore.pendingAfter
  have hopen : (pending (before.map Hook.event)).length = g.calls.depth := by
    rw [hpending, Stage.routines, List.length_map, CallStack.depth_eq]
  have hdepth := c.depth_leads hbefore (d := t.depth) (t := t) rfl
  rw [hopen]
  refine ⟨hdepth, ?_, fun v hv => h.open_of_returned hv⟩
  rw [← hdepth]
  exact c.observer_lines _ _

end Tracing

/-! ## Runs -/

namespace Machine

open ForeignVM.Action

variable {σ : Type}

/-- Whoever looks on is told the same hooks of a run. After each of them the calls without a
matching return are the frames that are live. The events are those of a whole call if the run
succeeds, and the beginning of one if it fails; in a readable trace, each line is indented by the
calls that are open just before, and no return finds the trace without indentation. -/
theorem execute_nested (m : Machine σ) (id : RoutineId) (args : List Value) {s₀ : State σ Unit}
    (hidle : s₀.calls = .empty) :
    ∃ hooks : List Hook,
      (∀ (τ : Type) (look : Onlooker τ) (t : τ),
        (finalState (m.executeSeen look id args (s₀.withTrace t))).trace = look.told hooks t) ∧
      (∀ (τ : Type) (watch : Observer τ) (s : State σ τ),
        m.executeSeen (.ofObserver watch) id args s = m.execute watch id args s) ∧
      (∀ before hook after, hooks = before ++ hook :: after →
        pending ((before ++ [hook]).map Hook.event) = hook.calls.frames.map Frame.routine) ∧
      (∀ (τ : Type) (watch : Observer τ) (t : τ) (v : Value) (u : State σ τ),
        m.execute watch id args (s₀.withTrace t) = .ok v u →
          Whole (fun o routine => s₀.pool.initializer o = .ok routine) id v
            (hooks.map Hook.event)) ∧
      (∃ rest v, Whole (fun o routine => s₀.pool.initializer o = .ok routine) id v
        (hooks.map Hook.event ++ rest)) ∧
      ∀ (c : Tracing) (t₀ : Trace),
        (∀ before hook after, hooks = before ++ hook :: after →
          c.Indents t₀.depth (pending (before.map Hook.event)).length hook.event
            ((Onlooker.ofObserver c.observer).told before t₀)) ∧
        ∀ v u, m.execute c.observer id args (s₀.withTrace t₀) = .ok v u →
          u.trace.depth = t₀.depth := by
  have hbinds : Binds (fun o routine => s₀.pool.initializer o = .ok routine) s₀.pool :=
    fun _ _ h => h
  obtain ⟨hooks, g, r, hleads, htold, hpost⟩ := m.tells_executeSeen id args hidle hbinds
  replace htold (τ : Type) (look : Onlooker τ) (t : τ) :
      m.executeSeen look id args (s₀.withTrace t) = retrace r (look.told hooks t) := htold τ look t
  have hstart : Progress (fun o routine => s₀.pool.initializer o = .ok routine) id (.idle id) [] :=
    ⟨rfl, rfl⟩
  have hprogress := hstart.leads hleads
  rw [List.nil_append] at hprogress
  have hblind (τ : Type) (watch : Observer τ) (s : State σ τ) :=
    m.executeSeen_ofObserver watch id args s
  -- what is known of a run that succeeds
  have hdone {τ : Type} {watch : Observer τ} {t : τ} {v : Value} {u : State σ τ}
      (h : m.execute watch id args (s₀.withTrace t) = .ok v u) :
      (∃ c, g = .done v c) ∧ u.trace = (Onlooker.ofObserver watch).told hooks t := by
    rw [← hblind] at h
    have hr := (htold τ (.ofObserver watch) t).symm.trans h
    cases r with
    | error e w => cases hr
    | ok _ w =>
      cases hr
      exact ⟨hpost _ w rfl, rfl⟩
  refine ⟨hooks, fun τ look t => ?_, hblind, ?_, ?_, hprogress.completes, fun c t₀ => ⟨?_, ?_⟩⟩
  · rw [htold τ look t]
    cases r <;> rfl
  · rintro before hook after rfl
    obtain ⟨u, w, hu, hhook, _⟩ := hleads.split
    rw [hhook.calls_eq]
    exact (hu.append (.cons hhook .nil)).pendingAfter
  · intro τ watch t v u h
    obtain ⟨⟨c, rfl⟩, _⟩ := hdone h
    exact hprogress.2
  · rintro before hook after rfl
    obtain ⟨u, w, hu, hhook, _⟩ := hleads.split
    exact c.indents_of_leads hu hhook t₀
  · intro v u h
    obtain ⟨⟨calls, rfl⟩, htrace⟩ := hdone h
    have hempty : calls.depth = 0 := by rw [calls.depth_eq, hprogress.1, List.length_nil]
    rw [htrace, c.depth_leads hleads (d := t₀.depth) rfl]
    exact congrArg (t₀.depth + ·) hempty

/-- The constant of `cached` is computed by a call of its initializer before it is read. -/
theorem execute_nested_cached :
    ∃ (m : Machine Unit) (pool : Pool),
      Machine.build Moment.cached (fun _ => none) .standard = .ok m ∧
      Pool.forProgram Moment.cached = .ok pool ∧ ∃ es,
        Whole (fun o routine => pool.initializer o = .ok routine) ⟨0⟩ (.bool true) es ∧
        (finalState (m.execute .recorder ⟨0⟩ [] (.idle .empty pool () []))).trace = es.reverse := by
  obtain ⟨pool, hpool⟩ : ∃ pool, Pool.forProgram Moment.cached = .ok pool := ⟨_, rfl⟩
  obtain ⟨m, hm⟩ : ∃ m : Machine Unit,
      Machine.build Moment.cached (fun _ => none) .standard = .ok m := ⟨_, rfl⟩
  obtain ⟨u, hu⟩ : ∃ u, m.execute .recorder ⟨0⟩ [] (.idle .empty pool () []) =
      .ok (.bool true) u := by
    cases hm
    cases hpool
    exact ⟨_, rfl⟩
  have hidle : (State.idle .empty pool () () : State Unit Unit).calls = .empty := rfl
  obtain ⟨hooks, htold, hblind, _, hword, _⟩ := execute_nested m ⟨0⟩ [] hidle
  refine ⟨m, pool, hm, hpool, hooks.map Hook.event, hword _ .recorder [] _ u hu, ?_⟩
  have htrace := htold _ (.ofObserver .recorder) []
  rw [hblind, Onlooker.told_ofObserver] at htrace
  refine htrace.trans ?_
  simp only [Observer.recorder, List.foldl_flip_cons_eq_append', List.append_nil]

end Machine
end ForeignVM
