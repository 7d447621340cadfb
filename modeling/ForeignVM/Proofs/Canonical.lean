import ForeignVM.Proofs.Flow
import ForeignVM.Proofs.Lockstep

/-!
# ForeignVM.Proofs.Canonical

The bytes of a constant do not depend on when it is initialized, by which machine, and on which
constants are there already.

They are those that its initializer returns if every constant that is read on the way has just been
computed in the same manner. To this the pool makes no difference: a constant that is there has
these bytes, and one that is not there gets them before it is read.

* `Thread.Follows`       — one instruction within a thread; `follows_unique`.
* `Thread.Returns`       — a thread and what it returns in the end; `Returns.unique`.
* `Machine.Computes`     — the bytes of a constant.
* `Pool.Canonical`       — a pool in which all constants have their bytes.
* `Running`, `Tracked`   — the threads that wait for one another during a run; `Tracked.cycle`.
* `Pool.History`         — the pools that come of a fresh one by calls of a host.
* `constants_order_free` — two histories agree on the constants that are initialized in both.
-/

namespace ForeignVM

open Machine

/-! ## What a thread returns -/

/-- Some machine takes the thread `a` to `b` by one instruction within it. -/
def Thread.Follows {σ : Type} (m : Machine σ) (a b : Thread) : Prop :=
  ∃ l, a.Advances m l ∧ ∃ (σ' τ : Type) (m' : Machine σ') (watch : Observer τ) (g : Ground σ' τ)
    (s t : State σ' τ), Akin m m' ∧ Shows s g a ∧ Shows t g b ∧ m'.cycle watch s = .ok none t

/-- The thread in which a routine without arguments begins. -/
def Thread.start (id : RoutineId) (c : Callee) : Thread :=
  ⟨c.routine.entry, ⟨id, ⟨c.frame.size, .empty⟩, []⟩, []⟩

/-- The thread returns the value in the end, if each constant that it reads is computed first, as
declared. -/
inductive Thread.Returns {σ : Type} (m : Machine σ) (declared : Pool) : Thread → Value → Prop where
  | last {a : Thread} {l : Located} {c : Callee} {v : Value}
      (hl : decodeAt m.program.code a.ip = .ok l) (hret : l.instr = .ret) (hlast : a.callers = [])
      (hc : m.callee? a.top.routine = some c)
      (hv : result? m.layouts c.routine.ret a.top.operands = some v) : Returns m declared a v
  | next {a b : Thread} {v : Value} (hb : a.Follows m b) (hv : Returns m declared b v) :
      Returns m declared a v
  | read {a : Thread} {l : Located} {o : UInt32} {e : PoolEntry} {c : Callee} {w v : Value}
      {sh : Shape} {bytes : Bytes} (hl : decodeAt m.program.code a.ip = .ok l)
      (hread : l.instr = .constGet o) (he : declared.entry o = .ok e)
      (hc : m.callee? e.initializer = some c)
      (hw : Returns m declared (.start e.initializer c) w) (hs : m.layouts.shape e.ty = .ok sh)
      (hb : sh.encode w = .ok bytes)
      (hv : Returns m declared (a.receive l.next (sh.decode bytes)) v) : Returns m declared a v

/-- The constant at an offset has these bytes, by its initializer. -/
inductive Machine.Computes {σ : Type} (m : Machine σ) (declared : Pool) (o : UInt32) :
    Shape → Bytes → Prop where
  | of {e : PoolEntry} {c : Callee} {v : Value} {sh : Shape} {bytes : Bytes}
      (he : declared.entry o = .ok e) (hc : m.callee? e.initializer = some c)
      (hv : (Thread.start e.initializer c).Returns m declared v)
      (hs : m.layouts.shape e.ty = .ok sh) (hb : sh.encode v = .ok bytes) :
      Computes m declared o sh bytes

section

variable {σ : Type} {m : Machine σ} {declared : Pool} {a b : Thread} {v w : Value}

theorem Thread.Returns.of_computes {l : Located} {o : UInt32} {sh : Shape} {bytes : Bytes}
    (hl : decodeAt m.program.code a.ip = .ok l) (hread : l.instr = .constGet o)
    (h : m.Computes declared o sh bytes)
    (hv : (a.receive l.next (sh.decode bytes)).Returns m declared v) :
    a.Returns m declared v := by
  cases h with
  | of he hc hw hs hb => exact .read hl hread he hc hw hs hb hv

theorem Thread.Advances.of_akin {σ' : Type} {m' : Machine σ'} {l : Located}
    (h : a.Advances m l) (hm : Akin m m') : a.Advances m' l :=
  ⟨hm.program ▸ h.fetch, h.plain, h.unread, h.inside⟩

variable (hnone : ∀ id, m.native? id = none)
include hnone

theorem follows_unique {c : Thread} (h : a.Follows m b) (h' : a.Follows m c) : c = b := by
  obtain ⟨l, ha, _, _, m₁, _, _, s, t, hm, hs, ht, hc⟩ := h
  obtain ⟨_, _, _, _, m₂, _, _, s', t', hm', hs', ht', hc'⟩ := h'
  obtain ⟨_, _, d, hd, hd'⟩ := lockstep (hm.symm.trans hm') (hm.native?_none hnone)
    (ha.of_akin hm) hs hs' hc hc'
  rw [hd.unique ht, hd'.unique ht']

/-- One case per next instruction of the thread. -/
theorem Thread.Returns.unique (h : a.Returns m declared v) (h' : a.Returns m declared w) :
    w = v := by
  induction h generalizing w with
  | last hl hret hlast hc hv =>
    cases h' with
    | last hl' _ _ hc' hv' =>
      cases hc.symm.trans hc'
      exact Option.some.inj (hv'.symm.trans hv)
    | next hb' _ =>
      obtain ⟨l', ha, _⟩ := hb'
      cases hl.symm.trans ha.fetch
      exact absurd hlast (ha.inside hret)
    | read hl' hread' _ _ _ _ _ _ =>
      cases hl.symm.trans hl'
      cases hret.symm.trans hread'
  | next hb _ ih =>
    cases h' with
    | last hl' hret' hlast' _ _ =>
      obtain ⟨l, ha, _⟩ := hb
      cases hl'.symm.trans ha.fetch
      exact absurd hlast' (ha.inside hret')
    | next hb' hv' =>
      cases follows_unique hnone hb hb'
      exact ih hv'
    | read hl' hread' _ _ _ _ _ _ =>
      obtain ⟨l, ha, _⟩ := hb
      cases hl'.symm.trans ha.fetch
      exact absurd hread' (ha.unread _)
  | read hl hread he hc _ hs hbytes _ ihw ihv =>
    cases h' with
    | last hl' hret' _ _ _ =>
      cases hl.symm.trans hl'
      cases hread.symm.trans hret'
    | next hb' _ =>
      obtain ⟨l', ha, _⟩ := hb'
      cases hl.symm.trans ha.fetch
      exact absurd hread (ha.unread _)
    | read hl' hread' he' hc' hw' hs' hbytes' hv' =>
      cases hl.symm.trans hl'
      cases hread.symm.trans hread'
      cases he.symm.trans he'
      cases hc.symm.trans hc'
      cases hs.symm.trans hs'
      cases ihw hw'
      cases hbytes.symm.trans hbytes'
      exact ihv hv'

theorem Machine.Computes.unique {o : UInt32} {sh sh' : Shape} {bytes bytes' : Bytes}
    (h : m.Computes declared o sh bytes) (h' : m.Computes declared o sh' bytes') :
    bytes' = bytes := by
  cases h with
  | of he hc hv hs hb =>
    cases h' with
    | of he' hc' hv' hs' hb' =>
      cases he.symm.trans he'
      cases hc.symm.trans hc'
      cases hs.symm.trans hs'
      cases hv.unique hnone hv'
      exact Except.ok.inj (hb'.symm.trans hb)

end

/-! ## Pools -/

/-- The pool has the declared constants, and those that are initialized have their bytes. -/
structure Pool.Canonical {σ : Type} (p : Pool) (m : Machine σ) (declared : Pool) : Prop where
  same : SameEntries declared p
  computed : ∀ o e, p.entry o = .ok e → p.flag o = true →
    ∃ sh bytes, p.data o = .ok bytes ∧ m.Computes declared o sh bytes

namespace Pool

variable {σ : Type} {m : Machine σ} {declared p q : Pool} {l : Layouts}

theorem canonical_declared (h : Declaring l declared) : declared.Canonical m declared where
  same := .refl declared
  computed o e _ hflag := by
    rw [flag, h.storage, ByteStore.byteAt_empty] at hflag
    cases hflag

theorem Canonical.store (h : p.Canonical m declared) (hlaid : declared.Laid l) {o : UInt32}
    {sh : Shape} {bytes : Bytes} (hp : p.store o bytes = .ok () q)
    (hbytes : m.Computes declared o sh bytes) : q.Canonical m declared := by
  obtain ⟨hsame, _, _, hdata, hothers⟩ := store_ok (hlaid.of_sameEntries h.same) hp
  refine ⟨h.same.trans hsame, fun o' e he hflag => ?_⟩
  by_cases ho : o' = o
  · subst ho
    exact ⟨sh, bytes, hdata, hbytes⟩
  · rw [hsame.entry] at he
    obtain ⟨hflag', hdata'⟩ := hothers o' e he ho
    rw [hdata']
    exact h.computed o' e he (hflag'.symm.trans hflag)

/-- What is read of a constant are its bytes, and the shape is that of its type. -/
theorem Canonical.data (h : p.Canonical m declared) {o : UInt32} {e : PoolEntry} {sh : Shape}
    {bytes : Bytes} (hset : p.isInitialized o = .ok true) (he : p.entry o = .ok e)
    (hs : m.layouts.shape e.ty = .ok sh) (hdata : p.data o = .ok bytes) :
    m.Computes declared o sh bytes := by
  obtain ⟨sh', bytes', hdata', hcomputes⟩ :=
    h.computed o e he (isInitialized_eq_ok_iff.mp hset).2
  cases hdata.symm.trans hdata'
  cases hcomputes with
  | of he' hc hv hs' hb =>
    cases (he.symm.trans (h.same.entry o)).trans he'
    cases hs.symm.trans hs'
    exact .of he' hc hv hs' hb

end Pool

namespace Machine

open ForeignVM.Action

variable {σ τ : Type} (m : Machine σ) (watch : Observer τ)

theorem pool_enter (id : RoutineId) (args : List Value) (kind : FrameKind) (s : State σ τ) :
    (finalState (m.enter watch id args kind s)).pool = s.pool := by
  have h := m.entering_enter watch id args kind s
  generalize m.enter watch id args kind s = r at h
  cases h <;> rfl

/-- Only the return from an initializer changes the pool, and after it the run goes on. -/
theorem pool_cycle (s : State σ τ) :
    (finalState (m.cycle watch s)).pool = s.pool ∨
    ∃ l f o t, decodeAt m.program.code s.ip = .ok l ∧ l.instr = .ret ∧
      s.calls.current? = some f ∧ f.kind = .constant o ∧ m.cycle watch s = .ok none t := by
  obtain ⟨e, _, hc⟩ | ⟨l, hl, h⟩ := m.effect_cycle watch s
  · rw [hc]
    exact .inl rfl
  generalize m.cycle watch s = r at h
  generalize hi : l.instr = i at h
  cases h with
  | inner _ h => exact .inl h.pool
  | failed h => exact .inl h.pool
  | allocated _ => exact .inl rfl
  | read => exact .inl rfl
  | @initializing offset id _ =>
    rw [finalState_unfinished]
    exact .inl (m.pool_enter watch id [] (.constant offset) _)
  | @calling _ id args kind n _ _ _ _ =>
    rw [finalState_unfinished]
    exact .inl (m.pool_enter watch id args kind _)
  | native _ _ _ _ hrun hr =>
    have hpool := hrun.pool
    obtain ⟨e, rfl⟩ | rfl | ⟨v, rfl⟩ := hr <;> exact .inl hpool
  | @leaving f _ hf h =>
    cases h with
    | failed h => exact .inl h.pool
    | dangling _ => exact .inl rfl
    | finished _ _ _ _ => exact .inl rfl
    | undelivered _ _ => exact .inl rfl
    | delivered _ _ _ hd =>
      generalize hkind : f.kind = kind at hd
      cases hd with
      | constant _ _ _ _ => exact .inr ⟨l, f, _, _, hl, hi, hf, hkind, rfl⟩
      | _ => exact .inl rfl

end Machine

/-! ## What runs -/

/-- The thread above the ground has been entered by the host, or for a constant that another
thread waits for. What it returns is then what the initializer of the constant returns, and the
other thread can go on with it. -/
inductive Running {σ σ' τ : Type} (m : Machine σ) (declared : Pool) :
    Ground σ' τ → Thread → Prop where
  | host {g : Ground σ' τ} {a : Thread} (hkind : g.kind = .host) : Running m declared g a
  | constant {g g' : Ground σ' τ} {a b : Thread} {o : UInt32} {e : PoolEntry} {c : Callee}
      (hkind : g.kind = .constant o) (he : declared.entry o = .ok e)
      (hc : m.callee? e.initializer = some c)
      (hreturns : ∀ v, a.Returns m declared v →
        (Thread.start e.initializer c).Returns m declared v)
      (hbelow : Shows g.below g' b)
      (hresumes : ∀ sh bytes, m.Computes declared o sh bytes →
        Running m declared g' (b.receive b.ip (sh.decode bytes))) : Running m declared g a

/-- The pool is canonical, and the state shows a thread that is on its way. -/
structure Tracked {σ σ' τ : Type} (m : Machine σ) (declared : Pool) (s : State σ' τ) : Prop where
  pool : s.pool.Canonical m declared
  thread : ∃ g a, Shows s g a ∧ Running m declared g a

section

open ForeignVM.Action

variable {σ₀ σ τ : Type} {m₀ : Machine σ₀} {declared : Pool} {m : Machine σ} {watch : Observer τ}
  {g : Ground σ τ} {a b : Thread} {s t : State σ τ} {l : Located}

theorem Running.forward (h : Running m₀ declared g a)
    (hback : ∀ v, b.Returns m₀ declared v → a.Returns m₀ declared v) :
    Running m₀ declared g b := by
  cases h with
  | host hkind => exact .host hkind
  | constant hkind he hc hreturns hbelow hresumes =>
    exact .constant hkind he hc (fun v hv => hreturns v (hback v hv)) hbelow hresumes

/-- Only the return of the outermost call of a thread changes the pool. -/
theorem pool_of_inside (hs : Shows s g a) (hl : decodeAt m.program.code a.ip = .ok l)
    (hinside : l.instr = .ret → a.callers ≠ []) (hc : m.cycle watch s = .ok none t) :
    t.pool = s.pool := by
  obtain h | ⟨l', f, o, _, hl', hret, hf, hkind, _⟩ := m.pool_cycle watch s
  · rw [hc] at h
    exact h
  · rw [hs.ip, hl] at hl'
    cases hl'
    have hcall := hs.isCall (hinside hret) hf
    rw [hkind] at hcall
    cases hcall

variable (hm : Akin m₀ m) (hs : Shows s g a) (hrunning : Running m₀ declared g a)
  (hpool : s.pool.Canonical m₀ declared)
  (hl : decodeAt m.program.code a.ip = .ok l) (hc : m.cycle watch s = .ok none t)
include hm hs hrunning hpool hl hc

/-- A constant is there and has its bytes, or a thread begins that computes them. -/
theorem tracked_constGet {o : UInt32} (hread : l.instr = .constGet o) :
    Tracked m₀ declared t := by
  have hret : l.instr ≠ .ret := by
    rw [hread]
    nofun
  have hsame := pool_of_inside hs hl (fun h => absurd h hret) hc
  have hl₀ : decodeAt m₀.program.code a.ip = .ok l := hm.program ▸ hl
  -- whatever the bytes are, the thread can go on with them
  have hresumes (sh : Shape) (bytes : Bytes) (h : m₀.Computes declared o sh bytes) :
      Running m₀ declared g (a.receive l.next (sh.decode bytes)) :=
    hrunning.forward fun v hv => .of_computes hl₀ hread h hv
  refine ⟨hsame ▸ hpool, ?_⟩
  rw [cycle_of_fetch hl hs, m.step_eq watch hret, hread, perform] at hc
  obtain ⟨e, h⟩ | ⟨e, sh, bytes, hset, he, hshape, hdata, h⟩ | ⟨id, _, hid, h⟩ :=
    m.constGet_cases watch o (fetched watch s l)
  · rw [h] at hc
    cases hc
  · rw [h] at hc
    cases hc
    rw [hm.layouts] at hshape
    have hcomputes := hpool.data hset he hshape hdata
    have hfetched := hs.jump l.next (watch (.constHit o) (watch (.instr l) s.trace))
    exact ⟨g, _, hfetched.push (sh.decode bytes), hresumes sh bytes hcomputes⟩
  · rw [h] at hc
    obtain ⟨e, he, rfl⟩ := Pool.entry_of_initializer hid
    have hfetched := hs.jump l.next (watch (.constInit o) (watch (.instr l) s.trace))
    obtain ⟨c, new, hcallee, hfill, hshows⟩ :=
      Shows.begin hfetched.stands.block_lt (unfinished_eq_ok hc).2
    have hnew : new = ⟨c.frame.size, .empty⟩ := by
      cases hslots : c.frame.slots.toList <;> rw [hslots] at hfill <;> cases hfill <;> rfl
    rw [hm.callee?] at hcallee
    refine ⟨_, _, hshows, .constant rfl ((hpool.same.entry o).symm.trans he) hcallee ?_ hfetched
      hresumes⟩
    intro v hv
    rw [Thread.start, ← hnew]
    exact hv

/-- The return from an initializer stores the bytes of the constant, and the thread that has
waited for it goes on. -/
theorem tracked_return (hlaid : declared.Laid m₀.layouts) (hret : l.instr = .ret)
    (hlast : a.callers = []) : Tracked m₀ declared t := by
  have hl₀ : decodeAt m₀.program.code a.ip = .ok l := hm.program ▸ hl
  rw [cycle_of_fetch hl hs, m.step_ret watch hret] at hc
  have hf := shows_fetched hs watch l
  obtain ⟨f, _, hcurrent, hholds, _⟩ := hf.update
  obtain ⟨c, v, _, memory, hcallee, hr, hfree, hdelivered⟩ := leave_ok hcurrent hc
  obtain ⟨hkind, hresume, hframes, hvalues, hkept⟩ :=
    hf.left_outermost hcurrent hfree watch v hlast
  obtain ⟨_, ho⟩ | ⟨hhost, _, u, _, hdelivering, rfl⟩ := hdelivered
  · cases ho
  have hv : a.Returns m₀ declared v := by
    rw [hholds.routine, hm.callee?] at hcallee
    have hresult := hf.result hr
    rw [hm.layouts] at hresult
    exact .last hl₀ hret hlast hcallee hresult
  rw [hkind] at hhost hdelivering
  cases hrunning with
  | host hkind' => exact absurd hkind' hhost
  | @constant _ _ _ b o e _ hkind' he hinit hreturns hbelow hresumes =>
    rw [hkind'] at hdelivering
    cases hdelivering with
    | @constant _ e' sh bytes pool he' hshape hb hp =>
      cases (he'.symm.trans (hpool.same.entry o)).trans he
      rw [hm.layouts] at hshape
      have hcomputes : m₀.Computes declared o sh bytes := .of he hinit (hreturns v hv) hshape hb
      refine ⟨hpool.store hlaid hp hcomputes, ?_⟩
      have hshows := hbelow.carry
        (t := { left watch (fetched watch s l) f v memory with
          pool := pool
          trace := watch (.constReady o) (left watch (fetched watch s l) f v memory).trace
          ip := f.returnIp })
        (hresume.trans hbelow.ip) hframes hvalues hkept
      exact ⟨_, _, hshows.push (sh.decode bytes), hresumes sh bytes hcomputes⟩

/-- Any other instruction stays in the thread and leaves the pool alone. -/
theorem tracked_advance (hnone : ∀ id, m₀.native? id = none) (ha : a.Advances m l) :
    Tracked m₀ declared t := by
  obtain ⟨_, b, hb⟩ := shows_cycle (hm.native?_none hnone) ha hs hc
  have hfollows : a.Follows m₀ b :=
    ⟨l, ha.of_akin hm.symm, _, _, m, watch, g, s, t, hm, hs, hb, hc⟩
  have hsame := pool_of_inside hs hl ha.inside hc
  exact ⟨hsame ▸ hpool, g, b, hb, hrunning.forward fun v hv => .next hfollows hv⟩

end

/-! ## Runs and histories -/

namespace Machine

open ForeignVM.Action

variable {σ σ' τ : Type} {program : Program} {declared : Pool}

/-- Machines of one program that has no natives differ in nothing but limits. -/
theorem akin_of_builtFor {m : Machine σ} {m' : Machine σ'} (hnatives : program.natives = #[])
    (hm : m.BuiltFor program) (hm' : m'.BuiltFor program) :
    Akin m m' ∧ ∀ id, m.native? id = none := by
  have hnone {σ : Type} {m : Machine σ} (hm : m.BuiltFor program) (id : NativeId) :
      m.native? id = none := by
    obtain ⟨_, _, _, h⟩ := hm.parts
    rw [hnatives] at h
    have hempty : m.natives = #[] := Array.toList_eq_nil_iff.mp (Except.ok.inj h).symm
    rw [native?, hempty]
    rfl
  have hlayouts : m'.layouts = m.layouts := Except.ok.inj (hm'.layouts.symm.trans hm.layouts)
  obtain ⟨hprogram, hcallees, _⟩ := hm.parts
  obtain ⟨hprogram', hcallees', _⟩ := hm'.parts
  rw [hlayouts] at hcallees'
  refine ⟨⟨hprogram'.trans hprogram.symm, hlayouts, ?_, fun id => ?_⟩, hnone hm⟩
  · exact Array.toList_inj.mp (Except.ok.inj (hcallees'.symm.trans hcallees))
  · rw [hnone hm, hnone hm']
    rfl

end Machine

/-- The program is valid, its jumps lead to its instructions or to their end, and it neither calls
natives nor has to do with addresses. -/
structure Program.SelfContained (program : Program) : Prop where
  valid : program.validate = .ok ()
  natives : program.natives = #[]
  jumps : program.JumpsClosed
  plain : ∀ l, Listed program.code l → ¬ l.instr.isPointing

section

open ForeignVM.Action

variable {σ₀ σ τ : Type} {program : Program} {declared : Pool} {m₀ : Machine σ₀} {m : Machine σ}
  {watch : Observer τ} {s t : State σ τ}

theorem Tracked.cycle (hm : Akin m₀ m) (hnone : ∀ id, m₀.native? id = none)
    (hlaid : declared.Laid m₀.layouts) (h : Tracked m₀ declared s)
    (hplain : ∀ l, decodeAt m.program.code s.ip = .ok l → ¬ l.instr.isPointing)
    (hc : m.cycle watch s = .ok none t) : Tracked m₀ declared t := by
  obtain ⟨hpool, g, a, hs, hrunning⟩ := h
  rw [hs.ip] at hplain
  cases hl : decodeAt m.program.code a.ip with
  | error e =>
    rw [cycle_eq, hs.ip, hl] at hc
    cases hc
  | ok l =>
    by_cases hread : ∃ o, l.instr = .constGet o
    · obtain ⟨o, hread⟩ := hread
      exact tracked_constGet hm hs hrunning hpool hl hc hread
    by_cases hreturn : l.instr = .ret ∧ a.callers = []
    · exact tracked_return hm hs hrunning hpool hl hc hlaid hreturn.1 hreturn.2
    · refine tracked_advance hm hs hrunning hpool hl hc hnone
        ⟨hl, hplain l hl, fun o ho => hread ⟨o, ho⟩, fun hret hlast => hreturn ⟨hret, hlast⟩⟩

/-- The host begins a thread on a ground of its own. -/
theorem tracked_start {id : RoutineId} {args : List Value} (hidle : s.calls = .empty)
    (hpool : s.pool.Canonical m₀ declared) (h : m.start watch id args s = .ok () t) :
    Tracked m₀ declared t := by
  have hsame := m.pool_enter watch id args .host { s with operands := .empty }
  rw [start] at h
  rw [h] at hsame
  have hnone : ∀ f ∈ s.calls.frames, f.block < s.memory.next := by
    rw [hidle]
    exact fun f hf => absurd hf List.not_mem_nil
  obtain ⟨_, _, _, _, hshows⟩ := Shows.begin (s := { s with operands := .empty }) hnone h
  exact ⟨hsame ▸ hpool, _, _, hshows, .host rfl⟩

variable (hprogram : program.SelfContained) (hm₀ : m₀.BuiltFor program) (hm : m.BuiltFor program)
  (hlaid : declared.Laid m₀.layouts)
include hprogram hm₀ hm hlaid

/-- A pool stays canonical during a run, and whatever ends it. -/
theorem canonical_run (fuel : Nat) (h : Tracked m₀ declared s)
    (haligned : Aligned
      (fun ip => Starts program.code ip ∨ program.code.size ≤ ip.toNat) s) :
    (finalState (m.run watch fuel s)).pool.Canonical m₀ declared := by
  obtain ⟨hakin, hnone⟩ := akin_of_builtFor hprogram.natives hm₀ hm
  have hconfined := confined_of_valid hprogram.valid hprogram.jumps hm
  have hafter {n : Nat} {t : State σ τ} (ht : m.after watch n s = some t) :
      Tracked m₀ declared t := by
    refine (m.after_keeps watch (P := fun t => Tracked m₀ declared t ∧ Aligned _ t) ?_
      ⟨h, haligned⟩ ht).1
    intro t u ⟨htracked, haligned⟩ hc
    refine ⟨htracked.cycle hakin hnone hlaid (fun l hl => ?_) hc, haligned.cycle hconfined hc⟩
    rw [hm.parts.1] at hl
    exact hprogram.plain l (listed_of_decodeAt hprogram.valid haligned.ip hl)
  -- the last instruction does not change the pool unless the run goes on
  have hlast {n : Nat} {t : State σ τ} (ht : m.after watch n s = some t)
      (hend : ∀ u, m.cycle watch t ≠ .ok none u) :
      (finalState (m.cycle watch t)).pool.Canonical m₀ declared := by
    obtain hsame | ⟨_, _, _, u, _, _, _, _, hc⟩ := m.pool_cycle watch t
    · rw [hsame]
      exact (hafter ht).pool
    · exact absurd hc (hend u)
  have hending := m.ending_run watch fuel s
  generalize m.run watch fuel s = r at hending
  cases hending with
  | finished _ ht hc =>
    have hpool := hlast ht (by rw [hc]; nofun)
    rw [hc] at hpool
    exact hpool
  | failed _ ht hc =>
    have hpool := hlast ht (by rw [hc]; nofun)
    rw [hc] at hpool
    exact hpool
  | exhausted ht => exact (hafter ht).pool

theorem canonical_execute (id : RoutineId) (args : List Value) (hidle : s.calls = .empty)
    (h : s.pool.Canonical m₀ declared) :
    (finalState (m.execute watch id args s)).pool.Canonical m₀ declared := by
  have hsame := m.pool_enter watch id args .host { s with operands := .empty }
  cases hs : m.start watch id args s with
  | error e t =>
    rw [m.execute_of_refused watch hs]
    rw [start] at hs
    rw [hs] at hsame
    exact hsame ▸ h
  | ok _ t =>
    have hconfined := confined_of_valid hprogram.valid hprogram.jumps hm
    have hpool : (finalState (m.run watch m.limits.fuel.toNat t)).pool.Canonical m₀ declared :=
      canonical_run hprogram hm₀ hm hlaid _ (tracked_start hidle h hs)
        (Aligned.start hconfined hidle hs)
    rw [m.execute_of_start watch hs]
    generalize m.run watch m.limits.fuel.toNat t = r at hpool
    cases r <;> exact hpool

end

/-- What comes of a fresh pool for a program when a host calls routines of machines that have been
built for it. Each machine may be a new one, and what the host does to all but the pool does not
matter. -/
inductive Pool.History (program : Program) : Pool → Prop where
  | fresh {p : Pool} (h : forProgram program = .ok p) : History program p
  | execute {σ τ : Type} {m : Machine σ} (hm : m.BuiltFor program) (watch : Observer τ)
      (id : RoutineId) (args : List Value) {s : State σ τ} (hidle : s.calls = .empty)
      (h : History program s.pool) :
      History program (Action.finalState (m.execute watch id args s)).pool

namespace Pool.History

variable {program : Program} {declared p : Pool}

theorem canonical {σ : Type} {m : Machine σ} (hprogram : program.SelfContained)
    (hm : m.BuiltFor program) (hdeclared : forProgram program = .ok declared)
    (hfits : declared.Unwrapped) (h : History program p) : p.Canonical m declared := by
  have hdeclaring := declaring_of_forProgram hm.layouts hdeclared
  induction h with
  | fresh h =>
    cases hdeclared.symm.trans h
    exact canonical_declared hdeclaring
  | execute hm' watch id args hidle _ ih =>
    exact canonical_execute hprogram hm hm' (hdeclaring.laid hfits) id args hidle ih

/-- Without a machine, no constant is initialized. -/
theorem exists_machine (h : History program p) {o : UInt32} (hset : p.isInitialized o = .ok true) :
    ∃ (σ : Type) (m : Machine σ), m.BuiltFor program := by
  cases h with
  | fresh h =>
    obtain ⟨_, hlayouts⟩ := layouts_of_forProgram h
    have hclear : p.flag o = false := by
      rw [flag, (declaring_of_forProgram hlayouts h).storage, ByteStore.byteAt_empty]
      rfl
    cases hclear.symm.trans (isInitialized_eq_ok_iff.mp hset).2
  | execute hm _ _ _ _ _ => exact ⟨_, _, hm⟩

end Pool.History

/-- Two histories of a program that is self-contained give the same bytes to every constant that is
initialized in both, if no constant lies too far. -/
theorem constants_order_free {program : Program} (hprogram : program.SelfContained)
    {declared p q : Pool} (hdeclared : Pool.forProgram program = .ok declared)
    (hfits : declared.Unwrapped) (hp : Pool.History program p) (hq : Pool.History program q)
    {o : UInt32} (hset : p.isInitialized o = .ok true) (hset' : q.isInitialized o = .ok true) :
    ∃ bytes, p.data o = .ok bytes ∧ q.data o = .ok bytes := by
  obtain ⟨σ, m, hm⟩ := hp.exists_machine hset
  obtain ⟨_, hnone⟩ := akin_of_builtFor hprogram.natives hm hm
  obtain ⟨⟨e, he⟩, hflag⟩ := Pool.isInitialized_eq_ok_iff.mp hset
  obtain ⟨⟨e', he'⟩, hflag'⟩ := Pool.isInitialized_eq_ok_iff.mp hset'
  obtain ⟨_, bytes, hdata, hcomputes⟩ :=
    (hp.canonical hprogram hm hdeclared hfits).computed o e he hflag
  obtain ⟨_, bytes', hdata', hcomputes'⟩ :=
    (hq.canonical hprogram hm hdeclared hfits).computed o e' he' hflag'
  cases hcomputes.unique hnone hcomputes'
  exact ⟨bytes, hdata, hdata'⟩

/-- A program with two constants; the second one is the negation of the first. -/
def negated : Program where
  code := ([.constGet 2, .ret, .pushBool 1, .ret, .constGet 0, .not, .ret].flatMap
    Instr.encode).toArray
  sources := .empty
  types := ⟨#[.scalar .bool]⟩
  routines := #[⟨"main", 0, 0, [], some ⟨0⟩⟩, ⟨"first", 6, 0, [], some ⟨0⟩⟩,
    ⟨"second", 9, 0, [], some ⟨0⟩⟩]
  constants := [⟨"first", ⟨0⟩, ⟨1⟩, 0⟩, ⟨"second", ⟨0⟩, ⟨2⟩, 2⟩]
  natives := #[]
  entry := none

/-- The pool after a call of the first routine of `negated`, which reads the second constant. -/
def afterNegated (limits : Limits) (p : Pool) : Pool :=
  match Machine.build negated (fun _ => none) limits with
  | .error _ => p
  | .ok (m : Machine Unit) =>
    (Action.finalState (m.execute .silent ⟨0⟩ [] (.idle .empty p () ()))).pool

theorem history_afterNegated {p : Pool} (limits : Limits) (h : Pool.History negated p) :
    Pool.History negated (afterNegated limits p) := by
  unfold afterNegated
  split
  · exact h
  · next m hm => exact .execute ⟨_, _, hm⟩ .silent ⟨0⟩ [] rfl h

/-- A call that is cut short when the first constant is ready and the second is not, and another
one that finds the first constant, agree with a call that computes both. -/
theorem constants_order_free_negated :
    ∃ pool, Pool.forProgram negated = .ok pool ∧
      (afterNegated ⟨4, 8⟩ pool).isInitialized 0 = .ok true ∧
      (afterNegated ⟨4, 8⟩ pool).isInitialized 2 = .ok false ∧
      ∃ bytes, (afterNegated .standard (afterNegated ⟨4, 8⟩ pool)).data 2 = .ok bytes ∧
        (afterNegated .standard pool).data 2 = .ok bytes := by
  have hcode : (decodeAll negated.code).1 =
      [⟨.constGet 2, 0, 5⟩, ⟨.ret, 5, 6⟩, ⟨.pushBool 1, 6, 8⟩, ⟨.ret, 8, 9⟩, ⟨.constGet 0, 9, 14⟩,
        ⟨.not, 14, 15⟩, ⟨.ret, 15, 16⟩] := by
    decide
  have hlisted {l : Located} (hl : Listed negated.code l) :
      l.instr.jumpTarget? = none ∧ l.instr.isPointing = false := by
    rw [Listed, hcode] at hl
    simp only [List.mem_cons, List.not_mem_nil, or_false] at hl
    obtain rfl | rfl | rfl | rfl | rfl | rfl | rfl := hl <;> exact ⟨rfl, rfl⟩
  have hnegated : negated.SelfContained := by
    refine ⟨by decide, rfl, fun l hl target htarget => ?_, fun l hl => ?_⟩
    · rw [(hlisted hl).1] at htarget
      cases htarget
    · rw [(hlisted hl).2]
      exact Bool.false_ne_true
  obtain ⟨pool, hpool⟩ : ∃ pool, Pool.forProgram negated = .ok pool := ⟨_, rfl⟩
  have hfits : pool.Unwrapped := by
    cases hpool
    unfold Pool.Unwrapped
    decide
  have hcut := history_afterNegated ⟨4, 8⟩ (.fresh hpool)
  have hagain := history_afterNegated .standard hcut
  have honce := history_afterNegated .standard (.fresh hpool)
  have hset : (afterNegated .standard (afterNegated ⟨4, 8⟩ pool)).isInitialized 2 = .ok true := by
    cases hpool
    decide +kernel
  have hset' : (afterNegated .standard pool).isInitialized 2 = .ok true := by
    cases hpool
    decide +kernel
  refine ⟨pool, hpool, ?_, ?_,
    constants_order_free hnegated hpool hfits hagain honce hset hset'⟩ <;>
  · cases hpool
    decide +kernel

end ForeignVM
