import ForeignVM.Proofs.Boundaries
import ForeignVM.Proofs.History
import ForeignVM.Proofs.Watching
import ForeignVM.Trace

/-!
# ForeignVM.Proofs.Flow

Where a run goes on. The next instruction is the one behind, a target of a jump, the start of a
routine, or where a frame returns to; addresses of which these things hold are never left.

* `Machine.Confined`          — such a set of addresses.
* `Aligned`                   — the address and the saved addresses of a state are in the set.
* `Aligned.cycle`, `start`    — runs keep to it.
* `execute_on_boundaries`     — runs of a valid program execute its instructions and no others.
-/

namespace ForeignVM
namespace Machine

open ForeignVM.Action

variable {σ τ : Type} (m : Machine σ) (watch : Observer τ)

/-! ## Within a frame -/

/-- The address is kept, or it is a target of the instruction. -/
def Flows (i : Instr) (s t : State σ τ) : Prop := t.ip = s.ip ∨ i.jumpTarget? = some t.ip

instance (i : Instr) : IsPreorder (State σ τ) (Flows i) where
  refl _ := .inl rfl
  trans s t u h h' := by
    obtain heq | hjump := h'
    · rw [Flows, heq]
      exact h
    · exact .inr hjump

theorem inward_flows (i : Instr) : Inward (Flows i : State σ τ → State σ τ → Prop) where
  pop ip s := by
    obtain ⟨_, h⟩ | ⟨_, v, _, h⟩ := pop_cases ip s <;> rw [h] <;> exact .inl rfl
  push _ _ := .inl rfl
  store address shape v s := by
    cases h : s.memory.store address shape v with
    | ok memory =>
      simp only [store, bind_run, get_run, h, ofResult_ok, pure_run, setMemory_run]
      exact .inl rfl
    | error e =>
      simp only [store, bind_run, get_run, h, ofResult_error, throw_run]
      exact .inl rfl

/-- An instruction that stays within the frame goes on behind itself or at its target. -/
theorem flows_perform {i : Instr} (hi : i.isInner) (ip : UInt32) (s : State σ τ) :
    Flows i s (finalState (m.perform watch ip i s)) :=
  m.perform_keeps watch (inward_flows i) hi ip (fun _ htarget _ => .inr htarget) s

/-! ## Across frames -/

variable {m watch} {P : UInt32 → Prop}

/-- A set of addresses that no step leaves. -/
structure Confined (m : Machine σ) (P : UInt32 → Prop) : Prop where
  entry : ∀ id c, m.callee? id = some c → P c.routine.entry
  next : ∀ ip l, P ip → decodeAt m.program.code ip = .ok l → P l.next
  jump : ∀ ip l target, P ip → decodeAt m.program.code ip = .ok l →
    l.instr.jumpTarget? = some target → P target

/-- The address of a state is in the set, and so is every address that a frame returns to. The
frame of the host returns to none. -/
structure Aligned (P : UInt32 → Prop) (s : State σ τ) : Prop where
  ip : P s.ip
  frames : ∀ f ∈ s.calls.frames, f.kind ≠ .host → P f.returnIp

namespace Aligned

variable {s t : State σ τ}

theorem congr (h : Aligned P s) (hcalls : t.calls = s.calls) (hip : P t.ip) : Aligned P t :=
  ⟨hip, hcalls ▸ h.frames⟩

theorem entered (h : Aligned P s) (hP : Confined m P) {id : RoutineId} {kind : FrameKind}
    {c : Callee} (hc : m.callee? id = some c) (memory : Memory) :
    Aligned P (Machine.entered watch s id kind c memory) where
  ip := hP.entry id c hc
  frames f hf hkind := by
    cases hf with
    | head => exact h.ip
    | tail _ hf => exact h.frames f hf hkind

theorem enter (h : Aligned P s) (hP : Confined m P) {id : RoutineId} {args : List Value}
    {kind : FrameKind} {o : Option Value}
    (hr : unfinished (m.enter watch id args kind s) = .ok o t) : Aligned P t := by
  have hentering := m.entering_enter watch id args kind s
  generalize m.enter watch id args kind s = r at hr hentering
  cases hentering with
  | begun hc _ _ =>
    cases hr
    exact h.entered hP hc _
  | refused => cases hr
  | rejected _ _ => cases hr
  | noPlace _ _ => cases hr

theorem leave (h : Aligned P s) {f : Frame} (hf : s.calls.current? = some f)
    (hr : Leaving m watch f s (.ok none t)) : Aligned P t := by
  have hmem : f ∈ s.calls.frames := List.mem_of_mem_head? hf
  cases hr with
  | delivered _ _ _ hd =>
    have hcalls := m.calls_deliver watch hd
    refine ⟨h.frames f hmem ?_, fun g hg hkind => h.frames g ?_ hkind⟩
    · intro hhost
      rw [hhost] at hd
      cases hd
    · rw [hcalls] at hg
      exact List.mem_of_mem_tail hg

/-- One case per kind of effect; instructions within a frame are up to `flows_perform`. -/
theorem cycle (h : Aligned P s) (hP : Confined m P) (hc : m.cycle watch s = .ok none t) :
    Aligned P t := by
  rw [cycle_eq] at hc
  cases hl : decodeAt m.program.code s.ip with
  | error e =>
    rw [hl] at hc
    cases hc
  | ok l =>
    rw [hl] at hc
    dsimp only at hc
    have hnext := hP.next s.ip l h.ip hl
    have hfetched : Aligned P (fetched watch s l) := h.congr rfl hnext
    by_cases hret : l.instr = .ret
    · rw [m.step_ret watch hret] at hc
      cases hf : (fetched watch s l).calls.current? with
      | none => cases (m.leave_without_frame watch hf).symm.trans hc
      | some f =>
        have hleaving := m.leaving_leave watch hf l.ip
        rw [hc] at hleaving
        exact hfetched.leave hf hleaving
    by_cases hinner : l.instr.isInner
    · rw [m.step_eq watch hret] at hc
      have hflows := m.flows_perform watch hinner l.ip (fetched watch s l)
      have hwithin := m.perform_within watch hinner l.ip (fetched watch s l)
      generalize m.perform watch l.ip l.instr (fetched watch s l) = r at hc hflows hwithin
      cases r with
      | error e u => cases hc
      | ok _ u =>
        cases hc
        refine hfetched.congr hwithin.calls ?_
        obtain heq | htarget := hflows
        · exact (congrArg P heq).mpr hnext
        · exact hP.jump s.ip l _ h.ip hl htarget
    have heffect := m.effect_step watch l (fetched watch s l)
    generalize m.step watch l (fetched watch s l) = r at hc heffect
    generalize l.instr = i at hret hinner heffect
    cases heffect with
    | inner hi _ => exact absurd hi hinner
    | failed _ => cases hc
    | allocated _ =>
      cases hc
      exact hfetched.congr rfl hnext
    | read =>
      cases hc
      exact hfetched.congr rfl hnext
    | initializing _ =>
      refine enter ?_ hP hc
      exact hfetched.congr rfl hnext
    | calling _ _ _ _ =>
      refine enter ?_ hP hc
      exact hfetched.congr rfl hnext
    | native _ _ _ _ hrun hr =>
      have hcalls := hrun.calls
      have hip := hrun.ip
      obtain ⟨e, rfl⟩ | rfl | ⟨v, rfl⟩ := hr
      · cases hc
      all_goals
        cases hc
        exact hfetched.congr hcalls (hip.symm ▸ hnext)
    | leaving _ _ => exact absurd rfl hret

theorem start (hP : Confined m P) {id : RoutineId} {args : List Value} (hidle : s.calls = .empty)
    (h : m.start watch id args s = .ok () t) : Aligned P t := by
  obtain ⟨c, memory, hc, _, rfl⟩ := m.start_cases watch h
  refine ⟨hP.entry id c hc, fun f hf hkind => ?_⟩
  cases hf with
  | head => exact absurd rfl hkind
  | tail _ hf =>
    have hnone : f ∈ s.calls.frames := hf
    rw [hidle] at hnone
    cases hnone

theorem after (hP : Confined m P) (h : Aligned P s) {n : Nat} (ht : m.after watch n s = some t) :
    Aligned P t :=
  m.after_keeps watch (fun _ _ hs hc => cycle hs hP hc) h ht

end Aligned

/-! ## Valid programs -/

section

variable {program : Program} (hvalid : program.validate = .ok ()) (hjumps : program.JumpsClosed)
  (hm : m.BuiltFor program)

include hvalid

theorem listed_of_decodeAt {ip : UInt32} {l : Located}
    (h : Starts program.code ip ∨ program.code.size ≤ ip.toNat)
    (hl : decodeAt program.code ip = .ok l) : Listed program.code l := by
  obtain hstarts | hend := h
  · obtain ⟨l', hlisted, hl'⟩ := listed_of_starts (Program.starts_of_validate hvalid).1 hstarts
    cases hl.symm.trans hl'
    exact hlisted
  · cases hl.symm.trans (decodeAt_of_le hend)

include hm

theorem starts_of_callee {id : RoutineId} {c : Callee} (hc : m.callee? id = some c) :
    Starts program.code c.routine.entry :=
  (Program.starts_of_validate hvalid).2 _ (hm.callee hc).1

include hjumps

/-- Runs of a valid program do not leave its instructions, but they may run off the end. -/
theorem confined_of_valid :
    Confined m fun ip => Starts program.code ip ∨ program.code.size ≤ ip.toNat where
  entry id c hc := .inl (starts_of_callee hvalid hm hc)
  next ip l h hl := by
    rw [hm.parts.1] at hl
    exact listed_next (Program.starts_of_validate hvalid).1 (listed_of_decodeAt hvalid h hl)
  jump ip l target h hl htarget := by
    rw [hm.parts.1] at hl
    exact (hjumps l (listed_of_decodeAt hvalid h hl) target htarget).imp_right
      fun hend => Nat.le_of_eq hend.symm

/-- In code of less than `2 ^ 32` bytes, they run off exactly at the end. -/
theorem confined_of_short (hsize : program.code.size < 2 ^ 32) :
    Confined m fun ip => Starts program.code ip ∨ ip.toNat = program.code.size where
  entry id c hc := .inl (starts_of_callee hvalid hm hc)
  next ip l h hl := by
    have hnext := (confined_of_valid hvalid hjumps hm).next ip l
      (h.imp_right fun hend => Nat.le_of_eq hend.symm) hl
    rw [hm.parts.1] at hl
    exact hnext.imp_right fun hle => Nat.le_antisymm (next_of_decodeAt hsize hl).2 hle
  jump ip l target h hl htarget := by
    rw [hm.parts.1] at hl
    have hlisted := listed_of_decodeAt hvalid (h.imp_right fun hend => Nat.le_of_eq hend.symm) hl
    exact hjumps l hlisted target htarget

end

/-! ## What is told of a run -/

/-- An event that tells of no instruction but those of the code. -/
def Heard (code : Array UInt8) (e : Event) : Prop := ∀ l, e = .instr l → Listed code l

theorem heard_of_quiet {code : Array UInt8} {s t : State σ τ} (h : Quiet watch s t) :
    Watched watch (Heard code) s t := by
  refine h.mono fun e he l hl => ?_
  rw [hl] at he
  cases he

section

variable {code : Array UInt8}
  (hlisted : ∀ ip l, P ip → decodeAt m.program.code ip = .ok l → Listed code l)

include hlisted

theorem heard_cycle {s : State σ τ} (h : Aligned P s) :
    Watched watch (Heard code) s (finalState (m.cycle watch s)) := by
  rw [cycle_eq]
  cases hl : decodeAt m.program.code s.ip with
  | error e => exact .of_eq rfl
  | ok l =>
    have hfetched : Watched watch (Heard code) s (fetched watch s l) := by
      refine .single (e := .instr l) rfl fun l' hl' => ?_
      cases hl'
      exact hlisted s.ip l h.ip hl
    exact hfetched.trans (heard_of_quiet (m.quiet_step watch l _))

variable (hP : Confined m P)

include hP

theorem heard_after {n : Nat} {s t : State σ τ} (h : Aligned P s)
    (ht : m.after watch n s = some t) : Watched watch (Heard code) s t := by
  induction n generalizing t with
  | zero =>
    cases ht
    exact .of_eq rfl
  | succ n ih =>
    obtain ⟨u, hu, hc⟩ := (m.after_succ watch).mp ht
    have hcycle : Watched watch (Heard code) u _ := heard_cycle hlisted (h.after hP hu)
    rw [hc] at hcycle
    exact (ih hu).trans hcycle

theorem heard_run (fuel : Nat) {s : State σ τ} (h : Aligned P s) :
    Watched watch (Heard code) s (finalState (m.run watch fuel s)) := by
  have hend := m.ending_run watch fuel s
  have hlast {n : Nat} {t : State σ τ} (ht : m.after watch n s = some t) :
      Watched watch (Heard code) s (finalState (m.cycle watch t)) :=
    (heard_after hlisted hP h ht).trans (heard_cycle hlisted (h.after hP ht))
  generalize m.run watch fuel s = r at hend
  cases hend with
  | finished _ ht hc =>
    have hwatched := hlast ht
    rw [hc] at hwatched
    exact hwatched
  | failed _ ht hc =>
    have hwatched := hlast ht
    rw [hc] at hwatched
    exact hwatched
  | exhausted ht => exact heard_after hlisted hP h ht

theorem heard_execute (id : RoutineId) (args : List Value) {s : State σ τ}
    (hidle : s.calls = .empty) :
    Watched watch (Heard code) s (finalState (m.execute watch id args s)) := by
  have hstart : Watched watch (Heard code) s (finalState (m.start watch id args s)) :=
    heard_of_quiet (m.quiet_enter watch id args .host { s with operands := .empty })
  cases h : m.start watch id args s with
  | error e t =>
    rw [h] at hstart
    rw [m.execute_of_refused watch h]
    exact hstart
  | ok u t =>
    rw [h, finalState_ok] at hstart
    rw [m.execute_of_start watch h]
    have hrun := hstart.trans
      (heard_run hlisted hP m.limits.fuel.toNat (Aligned.start hP hidle h))
    cases hr : m.run watch m.limits.fuel.toNat t <;> rw [hr] at hrun <;> exact hrun

end

/-! ## Boundaries -/

theorem disassemble_of_whole {code : Array UInt8} (hwhole : (decodeAll code).2 = none)
    (sources : SourceMap) (c : Palette) :
    disassemble code sources c = .ok (String.join
      ((decodeAll code).1.map fun l => listingLine c (sources.find? l.ip) l ++ "\n")) := by
  unfold disassemble
  split
  · next h =>
    rw [h] at hwhole
    cases hwhole
  · next h => rw [h]

/-- In a valid program of less than `2 ^ 32` bytes whose jumps lead to instructions or to the end,
every run executes instructions of the code; the only address at which none is found is the end.
For an instruction a trace gets one more line. Behind two blanks for each call that has not returned
it is the line that the listing has for the address. -/
theorem execute_on_boundaries {program : Program} (hvalid : program.validate = .ok ())
    (hsize : program.code.size < 2 ^ 32) (hjumps : program.JumpsClosed)
    (hm : m.BuiltFor program) (watch : Observer τ) (id : RoutineId) (args : List Value)
    {s₀ : State σ τ} (hidle : s₀.calls = .empty) :
    (∀ s n t, m.start watch id args s₀ = .ok () s → m.after watch n s = some t →
      (∃ l, Listed program.code l ∧ decodeAt program.code t.ip = .ok l) ∨
      (t.ip.toNat = program.code.size ∧
        decodeAt program.code t.ip = .error (.truncated t.ip 1 0))) ∧
    (∃ es : List Event,
      (finalState (m.execute watch id args s₀)).trace =
        es.foldl (fun trace e => watch e trace) s₀.trace ∧
      ∀ l, .instr l ∈ es → Listed program.code l) ∧
    ∀ palette, ∃ lines : List (UInt32 × String),
      disassemble program.code program.sources palette =
        .ok (String.join (lines.map (·.2 ++ "\n"))) ∧
      (lines.map Prod.fst).Nodup ∧
      ∀ l, Listed program.code l → ∃ line, (l.ip, line) ∈ lines ∧
        ∀ verbose (trace : Trace),
          (Tracing.observer ⟨program, palette, verbose⟩ (.instr l) trace).lines =
            (String.ofList (List.replicate (2 * trace.depth) ' ') ++ line) :: trace.lines := by
  have hwhole := (Program.starts_of_validate hvalid).1
  have hconfined := confined_of_short hvalid hjumps hm hsize
  refine ⟨?_, ?_, ?_⟩
  · intro s n t hs ht
    obtain hstarts | hend := ((Aligned.start hconfined hidle hs).after hconfined ht).ip
    · exact .inl (listed_of_starts hwhole hstarts)
    · exact .inr ⟨hend, decodeAt_of_le (Nat.le_of_eq hend.symm)⟩
  · have hlisted (ip : UInt32) (l : Located)
        (h : Starts program.code ip ∨ ip.toNat = program.code.size)
        (hl : decodeAt m.program.code ip = .ok l) : Listed program.code l := by
      rw [hm.parts.1] at hl
      exact listed_of_decodeAt hvalid (h.imp_right fun hend => Nat.le_of_eq hend.symm) hl
    have hheard : Watched watch (Heard program.code) s₀ (finalState (m.execute watch id args s₀)) :=
      heard_execute hlisted hconfined id args hidle
    obtain ⟨es, htrace, hes⟩ := hheard
    exact ⟨es, htrace, fun l hl => hes _ hl l rfl⟩
  · intro palette
    let line (l : Located) := listingLine palette (program.sources.find? l.ip) l
    obtain ⟨stop, hpasses, _⟩ := passes_decodeAll hwhole
    refine ⟨(decodeAll program.code).1.map fun l => (l.ip, line l), ?_, ?_, ?_⟩
    · rw [disassemble_of_whole hwhole, List.map_map]
      rfl
    · rw [List.map_map]
      exact hpasses.nodup hsize
    · intro l hl
      exact ⟨line l, List.mem_map_of_mem hl, fun _ _ => rfl⟩

/-- A program that skips two instructions. -/
def skipping : Program where
  code := ([.pushBool 0, .jumpIfFalse 9, .nop, .nop, .ret].flatMap Instr.encode).toArray
  sources := .empty
  types := ⟨#[]⟩
  routines := #[⟨"main", 0, 0, [], none⟩]
  constants := []
  natives := #[]
  entry := none

/-- The jump is found in the listing, and so is the instruction that it leads to. -/
theorem execute_on_boundaries_skipping :
    skipping.validate = .ok () ∧ skipping.code.size < 2 ^ 32 ∧ skipping.JumpsClosed ∧
    ∃ m : Machine Unit, m.BuiltFor skipping ∧ ∃ s t,
      m.start .recorder ⟨0⟩ [] .blank = .ok () s ∧ m.after .recorder 2 s = some t ∧
      ∃ l, Listed skipping.code l ∧ decodeAt skipping.code t.ip = .ok l ∧ l.instr = .ret := by
  have hvalid : skipping.validate = .ok () := by decide
  have hcode : (decodeAll skipping.code).1 =
      [⟨.pushBool 0, 0, 2⟩, ⟨.jumpIfFalse 9, 2, 7⟩, ⟨.nop, 7, 8⟩, ⟨.nop, 8, 9⟩, ⟨.ret, 9, 10⟩] := by
    decide
  have hjumps : skipping.JumpsClosed := by
    intro l hl target htarget
    rw [Listed, hcode] at hl
    simp only [List.mem_cons, List.not_mem_nil, or_false] at hl
    obtain rfl | rfl | rfl | rfl | rfl := hl <;> cases htarget
    exact .inl (by decide)
  obtain ⟨m, hm⟩ : ∃ m : Machine Unit, Machine.build skipping (fun _ => none) .standard = .ok m :=
    ⟨_, rfl⟩
  have hbuilt : m.BuiltFor skipping := ⟨_, _, hm⟩
  obtain ⟨s, t, hs, ht, hip⟩ : ∃ s t, m.start .recorder ⟨0⟩ [] .blank = .ok () s ∧
      m.after .recorder 2 s = some t ∧ t.ip = 9 := by
    cases hm
    exact ⟨_, _, rfl, rfl, rfl⟩
  have hidle : State.blank.calls = .empty := rfl
  have hruns := execute_on_boundaries hvalid (by decide) hjumps hbuilt .recorder ⟨0⟩ [] hidle
  obtain ⟨l, hl, hdecode⟩ | ⟨hend, _⟩ := hruns.1 s 2 t hs ht
  · refine ⟨hvalid, by decide, hjumps, m, hbuilt, s, t, hs, ht, l, hl, hdecode, ?_⟩
    have hret : decodeAt skipping.code 9 = .ok ⟨.ret, 9, 10⟩ := by decide
    rw [hip, hret] at hdecode
    cases hdecode
    rfl
  · rw [hip] at hend
    exact absurd hend (by decide)

end Machine
end ForeignVM
