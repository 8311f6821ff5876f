import Mathlib.Logic.Function.Basic
import Xv6.Library.Transition

/-!
# Interrupt flags of kernel threads

`push_off` and `pop_off` on any number of processors, with `sched` and `scheduler`.
-/

namespace Xv6.Interrupts

open Transition Function

structure Cpu where
  intr : Bool
  noff : Int
  intena : Bool

def pushOff (cpu : Cpu) (old : Bool) : Cpu where
  intr := false
  noff := cpu.noff + 1
  intena := if cpu.noff = 0 then old else cpu.intena

def popOff (cpu : Cpu) : Option Cpu :=
  if cpu.intr then none
  else if cpu.noff < 1 then none
  else some { cpu with
    noff := cpu.noff - 1
    intr := decide (cpu.noff - 1 = 0) && cpu.intena }

structure Frame where
  old : Option Bool
  before : Option Bool

structure Thread where
  old : Option Bool
  levels : Nat
  before : Option Bool
  traps : List Frame

def Thread.read (t : Thread) (flag : Bool) : Thread :=
  { t with old := some flag, before := if t.levels = 0 then some flag else t.before }

def Thread.nest (t : Thread) : Thread := { t with old := none, levels := t.levels + 1 }

/-- A step of the thread that runs on a processor. -/
inductive Move : Cpu → Thread → Cpu → Thread → Prop
  | read {cpu t} (next : t.old = none) : Move cpu t cpu (t.read cpu.intr)
  | off {cpu t old} (pending : t.old = some old) : Move cpu t (pushOff cpu old) t.nest
  | pop {cpu t cpu' levels} (next : t.old = none) (nested : t.levels = levels + 1)
      (popped : popOff cpu = some cpu') : Move cpu t cpu' { t with levels := levels }
  | trap {cpu t} (enabled : cpu.intr = true) :
      Move cpu t { cpu with intr := false } { t with
        old := none
        traps := ⟨t.old, t.before⟩ :: t.traps }
  | sret {cpu t frame rest} (next : t.old = none) (balanced : t.levels = 0)
      (suspended : t.traps = frame :: rest) :
      Move cpu t { cpu with intr := true } { t with
        old := frame.old
        before := frame.before
        traps := rest }

structure Fits (cpu : Cpu) (t : Thread) : Prop where
  levels : cpu.noff = t.levels
  inside : t.levels ≠ 0 → cpu.intr = false ∧ ∀ b, t.before = some b → cpu.intena = b
  pending : ∀ old, t.old = some old → t.levels = 0 → cpu.intr = old ∧ t.before = some old
  traps : ∀ frame ∈ t.traps, frame.old = none ∨ frame = ⟨some true, some true⟩

section Fits

variable {cpu cpu' : Cpu} {t t' : Thread}

theorem Fits.popOff_outermost (fits : Fits cpu t) (outermost : t.levels = 1) {b : Bool}
    (before : t.before = some b) : popOff cpu = some ⟨b, 0, b⟩ := by
  obtain ⟨off, kept⟩ := fits.inside (by omega)
  have one : cpu.noff = 1 := by rw [fits.levels, outermost]; rfl
  have flag := kept b before
  simp [popOff, off, one, flag]

theorem Move.fits (move : Move cpu t cpu' t') (fits : Fits cpu t) : Fits cpu' t' := by
  cases move with
  | read next =>
    refine ⟨fits.levels, fun nested => ?_, ?_, fits.traps⟩
    · have deeper : t.levels ≠ 0 := nested
      simp only [Thread.read, if_neg deeper]
      exact fits.inside deeper
    · intro old same none
      have outermost : t.levels = 0 := none
      simp only [Thread.read, if_pos outermost] at same ⊢
      exact ⟨Option.some.inj same, same⟩
  | @off old pending =>
    refine ⟨?_, fun _ => ⟨rfl, fun b before => ?_⟩, (by rintro _ ⟨⟩), fits.traps⟩
    · simp only [pushOff, Thread.nest, fits.levels]
      push_cast
      rfl
    · simp only [pushOff, Thread.nest] at before ⊢
      by_cases outermost : t.levels = 0
      · obtain ⟨-, flag⟩ := fits.pending old pending outermost
        rw [if_pos (by rw [fits.levels, outermost]; rfl)]
        exact Option.some.inj (flag.symm.trans before)
      · rw [if_neg (by rw [fits.levels]; exact_mod_cast outermost)]
        exact (fits.inside outermost).2 b before
  | @pop _ levels next nested popped =>
    obtain ⟨off, kept⟩ := fits.inside (by omega)
    have count : cpu.noff = levels + 1 := by rw [fits.levels, nested]; rfl
    have result : cpu' = ⟨decide (levels = 0) && cpu.intena, levels, cpu.intena⟩ := by
      have positive : ¬ cpu.noff < 1 := by omega
      simp only [popOff, off, Bool.false_eq_true, ↓reduceIte, positive, Option.some.injEq] at popped
      rw [← popped, count]
      simp
    subst result
    refine ⟨rfl, fun more => ⟨?_, kept⟩, ?_, fits.traps⟩
    · simp only at more
      simp [more]
    · intro old same
      rw [next] at same
      cases same
  | trap enabled =>
    have outside : t.levels = 0 := by
      by_contra nested
      rw [(fits.inside nested).1] at enabled
      cases enabled
    refine ⟨fits.levels, fun nested => absurd outside nested, (by simp), ?_⟩
    intro frame member
    rcases List.mem_cons.mp member with rfl | later
    · cases old : t.old with
      | none => exact Or.inl rfl
      | some value =>
        obtain ⟨flag, before⟩ := fits.pending value old outside
        rw [enabled] at flag
        subst flag
        rw [before]
        exact Or.inr rfl
    · exact fits.traps frame later
  | @sret frame rest next balanced suspended =>
    refine ⟨fits.levels, fun nested => absurd balanced nested, ?_, fun other member => ?_⟩
    · intro old same _
      rcases fits.traps frame (by rw [suspended]; exact List.mem_cons_self ..) with none | both
      · simp only [none] at same
        cases same
      · simp only [both] at same ⊢
        exact ⟨Option.some.inj same, same⟩
    · exact fits.traps other (by rw [suspended]; exact List.mem_cons_of_mem _ member)

theorem Fits.setFlag (fits : Fits cpu t) (outside : t.levels = 0) (next : t.old = none) (b : Bool) :
    Fits { cpu with intr := b } t := by
  refine ⟨fits.levels, fun nested => absurd outside nested, fun old pending => ?_, fits.traps⟩
  rw [next] at pending
  cases pending

end Fits

inductive SchedPc where
  | top
  | on
  | scan (found : Bool)
  | held (found : Bool)
  | away (found : Bool)

structure Scheduler where
  pc : SchedPc
  thread : Thread

inductive Standing where
  | fresh
  | running
  | out (intena : Bool)

structure Process where
  standing : Standing
  thread : Thread

structure Machine (C P : Type) where
  cpu : C → Cpu
  running : C → Option P
  scheduler : C → Scheduler
  proc : P → Process

variable {C P : Type} [DecidableEq C] [DecidableEq P]

def Machine.sched (m : Machine C P) (c : C) (cpu : Cpu) (scheduler : Scheduler) : Machine C P :=
  { m with
    cpu := update m.cpu c cpu
    scheduler := update m.scheduler c scheduler }

def Machine.act (m : Machine C P) (c : C) (p : P) (cpu : Cpu) (process : Process) :
    Machine C P :=
  { m with
    cpu := update m.cpu c cpu
    proc := update m.proc p process }

def Machine.swtch (m : Machine C P) (c : C) (p : P) (running : Option P) (cpu : Cpu)
    (scheduler : Scheduler) (process : Process) : Machine C P where
  cpu := update m.cpu c cpu
  running := update m.running c running
  scheduler := update m.scheduler c scheduler
  proc := update m.proc p process

def Thread.first : Thread := ⟨none, 1, none, []⟩

inductive Runs : Cpu → Scheduler → Cpu → Scheduler → Prop
  | intrOn {cpu t} (next : t.old = none) :
      Runs cpu ⟨.top, t⟩ { cpu with intr := true } ⟨.on, t⟩
  | intrOff {cpu t} (next : t.old = none) :
      Runs cpu ⟨.on, t⟩ { cpu with intr := false } ⟨.scan false, t⟩
  | read {cpu t found} (next : t.old = none) :
      Runs cpu ⟨.scan found, t⟩ cpu ⟨.scan found, t.read cpu.intr⟩
  | acquire {cpu t found old} (pending : t.old = some old) :
      Runs cpu ⟨.scan found, t⟩ (pushOff cpu old) ⟨.held found, t.nest⟩
  | release {cpu t cpu' levels found} (next : t.old = none) (nested : t.levels = levels + 1)
      (popped : popOff cpu = some cpu') :
      Runs cpu ⟨.held found, t⟩ cpu' ⟨.scan found, { t with levels := levels }⟩
  | again {cpu t} (next : t.old = none) : Runs cpu ⟨.scan true, t⟩ cpu ⟨.top, t⟩
  | wfi {cpu t} (next : t.old = none) : Runs cpu ⟨.scan false, t⟩ cpu ⟨.top, t⟩

/-- One step of a processor. -/
inductive Step : Machine C P → Machine C P → Prop
  | scheduler {m : Machine C P} {c : C} {cpu : Cpu} {scheduler : Scheduler}
      (here : m.running c = none) (quiet : (m.scheduler c).thread.traps = [])
      (runs : Runs (m.cpu c) (m.scheduler c) cpu scheduler) : Step m (m.sched c cpu scheduler)
  | handler {m : Machine C P} {c : C} {cpu : Cpu} {thread : Thread} (here : m.running c = none)
      (move : Move (m.cpu c) (m.scheduler c).thread cpu thread)
      (busy : (m.scheduler c).thread.traps ≠ [] ∨ thread.traps ≠ []) :
      Step m (m.sched c cpu ⟨(m.scheduler c).pc, thread⟩)
  | process {m : Machine C P} {c : C} {p : P} {cpu : Cpu} {thread : Thread}
      (here : m.running c = some p) (move : Move (m.cpu c) (m.proc p).thread cpu thread) :
      Step m (m.act c p cpu ⟨(m.proc p).standing, thread⟩)
  | flag {m : Machine C P} {c : C} {p : P} (b : Bool) (here : m.running c = some p)
      (outside : (m.proc p).thread.levels = 0) (next : (m.proc p).thread.old = none)
      (quiet : (m.proc p).thread.traps = []) :
      Step m (m.act c p { m.cpu c with intr := b } (m.proc p))
  | sched {m : Machine C P} {c : C} {p : P} {found : Bool} (here : m.running c = some p)
      (next : (m.proc p).thread.old = none) (locks : (m.cpu c).noff = 1)
      (interruptible : (m.cpu c).intr = false) (away : (m.scheduler c).pc = .away found) :
      Step m (m.swtch c p none (m.cpu c)
        ⟨.held true, { (m.scheduler c).thread with before := none }⟩
        ⟨.out (m.cpu c).intena, (m.proc p).thread⟩)
  | resume {m : Machine C P} {c : C} {p : P} {found intena : Bool} (here : m.running c = none)
      (held : (m.scheduler c).pc = .held found) (out : (m.proc p).standing = .out intena) :
      Step m (m.swtch c p (some p) { m.cpu c with intena := intena }
        ⟨.away found, (m.scheduler c).thread⟩ ⟨.running, (m.proc p).thread⟩)
  | start {m : Machine C P} {c : C} {p : P} {found : Bool} (here : m.running c = none)
      (held : (m.scheduler c).pc = .held found) (fresh : (m.proc p).standing = .fresh) :
      Step m (m.swtch c p (some p) (m.cpu c) ⟨.away found, (m.scheduler c).thread⟩
        ⟨.running, Thread.first⟩)
  | renew {m : Machine C P} {p : P} {intena : Bool} (out : (m.proc p).standing = .out intena) :
      Step m { m with proc := update m.proc p ⟨.fresh, (m.proc p).thread⟩ }

/-- What holds while the scheduler runs. -/
structure Scans (cpu : Cpu) (s : Scheduler) : Prop where
  fits : Fits cpu s.thread
  outside : (∀ found, s.pc ≠ .held found) → s.thread.traps = [] → s.thread.levels = 0
  off : s.pc = .scan false → s.thread.traps = [] ∧ cpu.intr = false
  held : ∀ found, s.pc = .held found → s.thread.traps = [] ∧ s.thread.levels = 1 ∧
    (found = false → cpu.intena = false)
  here : ∀ found, s.pc ≠ .away found

def Scheduler.Away (s : Scheduler) : Prop :=
  (∃ found, s.pc = .away found) ∧ s.thread.traps = [] ∧ s.thread.levels = 1

/-- What holds of a process that is in `swtch`. -/
structure Saved (t : Thread) (intena : Bool) : Prop where
  levels : t.levels = 1
  flag : ∀ b, t.before = some b → intena = b
  traps : ∀ frame ∈ t.traps, frame.old = none ∨ frame = ⟨some true, some true⟩

/-- What holds of the machine at any time. -/
structure Sound (m : Machine C P) : Prop where
  scheduler : ∀ c, m.running c = none → Scans (m.cpu c) (m.scheduler c)
  process : ∀ c p, m.running c = some p → Fits (m.cpu c) (m.proc p).thread ∧
    (m.proc p).standing = .running ∧ (m.scheduler c).Away
  saved : ∀ p intena, (m.proc p).standing = .out intena → Saved (m.proc p).thread intena
  single : ∀ c d p, m.running c = some p → m.running d = some p → c = d

/-- The program of `scheduler` keeps what holds while it runs. -/
theorem Runs.scans {cpu cpu' : Cpu} {s s' : Scheduler} (runs : Runs cpu s cpu' s')
    (scans : Scans cpu s) (quiet : s.thread.traps = []) : Scans cpu' s' := by
  cases runs with
  | intrOn next =>
    have outside := scans.outside (by simp) quiet
    exact ⟨scans.fits.setFlag outside next true, fun _ _ => outside, (by simp), (by simp), (by simp)⟩
  | intrOff next =>
    have outside := scans.outside (by simp) quiet
    exact ⟨scans.fits.setFlag outside next false, fun _ _ => outside, fun _ => ⟨quiet, rfl⟩, (by simp),
      (by simp)⟩
  | read next =>
    exact ⟨(Move.read next).fits scans.fits, fun _ _ => scans.outside (by simp) quiet, scans.off, (by simp),
      (by simp)⟩
  | @acquire _ found old pending =>
    have outside := scans.outside (by simp) quiet
    refine ⟨(Move.off pending).fits scans.fits, fun other => absurd rfl (other found), (by simp), ?_,
      (by simp)⟩
    intro found' same
    obtain rfl : found = found' := by simpa using same
    refine ⟨quiet, by simp only [Thread.nest] at outside ⊢; omega, fun none => ?_⟩
    subst none
    obtain ⟨-, off⟩ := scans.off rfl
    obtain ⟨flag, -⟩ := scans.fits.pending old pending outside
    simp only [pushOff, scans.fits.levels]
    rw [if_pos (by simp only at outside ⊢; omega), ← flag, off]
  | @release _ _ levels found next nested popped =>
    obtain ⟨-, one, kept⟩ := scans.held found rfl
    have fits := (Move.pop next nested popped).fits scans.fits
    have outside : levels = 0 := by simp only at one; omega
    refine ⟨fits, fun _ _ => outside, fun same => ⟨quiet, ?_⟩, (by simp), (by simp)⟩
    obtain rfl : found = false := by simpa using same
    obtain ⟨off, -⟩ := scans.fits.inside (by simp only at one ⊢; omega)
    have count : cpu.noff = 1 := by
      rw [scans.fits.levels]
      simp only at one
      rw [one]
      rfl
    simp only [popOff, off, count, kept rfl, Bool.false_eq_true, ↓reduceIte, Bool.and_false] at popped
    obtain rfl := Option.some.inj popped
    rfl
  | again next | wfi next =>
    exact ⟨scans.fits, fun _ _ => scans.outside (by simp) quiet, (by simp), (by simp), (by simp)⟩

variable {m : Machine C P} {s : Scheduler}

theorem Move.scans {cpu cpu' : Cpu} {t : Thread} (move : Move cpu s.thread cpu' t)
    (scans : Scans cpu s) (busy : s.thread.traps ≠ [] ∨ t.traps ≠ []) :
    Scans cpu' ⟨s.pc, t⟩ := by
  have enabled : s.thread.traps = [] → cpu.intr = true := by
    intro none
    cases move with
    | trap enabled => exact enabled
    | sret next balanced suspended =>
      rw [none] at suspended
      cases suspended
    | _ => exact absurd none (busy.elim id id)
  refine ⟨move.fits scans.fits, fun other quiet => ?_, fun scanning => ?_, fun found held => ?_,
    scans.here⟩
  · cases move with
    | trap enabled => cases quiet
    | sret next balanced suspended => exact balanced
    | _ => exact absurd quiet (busy.elim id id)
  · obtain ⟨none, off⟩ := scans.off scanning
    rw [enabled none] at off
    cases off
  · obtain ⟨none, one, -⟩ := scans.held found held
    obtain ⟨off, -⟩ := scans.fits.inside (by omega)
    rw [enabled none] at off
    cases off

omit [DecidableEq P] in
theorem Sound.of_sched {c : C} {cpu : Cpu} (sound : Sound m) (here : m.running c = none)
    (scans : Scans cpu s) : Sound (m.sched c cpu s) := by
  refine ⟨fun d idle => ?_, fun d p runs => ?_, sound.saved, sound.single⟩
  · by_cases same : d = c
    · subst same
      simpa only [Machine.sched, update_self] using scans
    · simpa only [Machine.sched, update_of_ne same] using sound.scheduler d idle
  · have other : d ≠ c := by
      rintro rfl
      rw [show (m.sched d cpu s).running d = m.running d from rfl, here] at runs
      cases runs
    simpa only [Machine.sched, update_of_ne other] using sound.process d p runs

theorem Sound.of_act {c : C} {p : P} {cpu : Cpu} {t : Thread} (sound : Sound m)
    (here : m.running c = some p) (fits : Fits cpu t) :
    Sound (m.act c p cpu ⟨(m.proc p).standing, t⟩) := by
  obtain ⟨-, standing, away⟩ := sound.process c p here
  refine ⟨fun d idle => ?_, fun d q runs => ?_, fun q intena out => ?_, sound.single⟩
  · have other : d ≠ c := by
      rintro rfl
      rw [show (m.act d p cpu _).running d = m.running d from rfl, here] at idle
      cases idle
    simpa only [Machine.act, update_of_ne other] using sound.scheduler d idle
  · have runs' : m.running d = some q := runs
    by_cases same : q = p
    · subst same
      obtain rfl := sound.single d c q runs' here
      simpa only [Machine.act, update_self] using ⟨fits, standing, away⟩
    · have other : d ≠ c := by
        rintro rfl
        rw [here] at runs'
        exact same (Option.some.inj runs').symm
      simpa only [Machine.act, update_of_ne other, update_of_ne same] using
        sound.process d q runs'
  · by_cases same : q = p
    · subst same
      simp only [Machine.act, update_self, standing] at out
      cases out
    · simp only [Machine.act, update_of_ne same] at out ⊢
      exact sound.saved q intena out

theorem Sound.of_enter {c : C} {p : P} {cpu : Cpu} {t : Thread} (sound : Sound m)
    (here : m.running c = none) (idle : (m.proc p).standing ≠ .running) (fits : Fits cpu t)
    (away : s.Away) : Sound (m.swtch c p (some p) cpu s ⟨.running, t⟩) := by
  have nowhere : ∀ d, m.running d ≠ some p := fun d runs => idle (sound.process d p runs).2.1
  refine ⟨fun d none => ?_, fun d q runs => ?_, fun q intena out => ?_, fun d e q first second => ?_⟩
  · have other : d ≠ c := by
      rintro rfl
      simp [Machine.swtch] at none
    simp only [Machine.swtch, update_of_ne other] at none ⊢
    exact sound.scheduler d none
  · by_cases same : d = c
    · subst same
      simp only [Machine.swtch, update_self, Option.some.injEq] at runs
      subst runs
      simpa only [Machine.swtch, update_self] using ⟨fits, trivial, away⟩
    · simp only [Machine.swtch, update_of_ne same] at runs ⊢
      have different : q ≠ p := by
        rintro rfl
        exact nowhere d runs
      rw [update_of_ne different]
      exact sound.process d q runs
  · by_cases same : q = p
    · subst same
      simp only [Machine.swtch, update_self] at out
      cases out
    · simp only [Machine.swtch, update_of_ne same] at out ⊢
      exact sound.saved q intena out
  · simp only [Machine.swtch, update_apply] at first second
    split at first <;> split at second
    · simp_all
    · obtain rfl := Option.some.inj first
      exact absurd second (nowhere e)
    · obtain rfl := Option.some.inj second
      exact absurd first (nowhere d)
    · exact sound.single d e q first second

/-- A process switches to the scheduler. -/
theorem Sound.of_leave {c : C} {p : P} {intena : Bool} (sound : Sound m)
    (here : m.running c = some p) (scans : Scans (m.cpu c) s)
    (saved : Saved (m.proc p).thread intena) :
    Sound (m.swtch c p none (m.cpu c) s ⟨.out intena, (m.proc p).thread⟩) := by
  refine ⟨fun d none => ?_, fun d q runs => ?_, fun q flag out => ?_, fun d e q first second => ?_⟩
  · by_cases same : d = c
    · subst same
      simpa only [Machine.swtch, update_self] using scans
    · simp only [Machine.swtch, update_of_ne same] at none ⊢
      exact sound.scheduler d none
  · have other : d ≠ c := by
      rintro rfl
      simp [Machine.swtch] at runs
    simp only [Machine.swtch, update_of_ne other] at runs ⊢
    have different : q ≠ p := by
      rintro rfl
      exact other (sound.single d c q runs here)
    rw [update_of_ne different]
    exact sound.process d q runs
  · by_cases same : q = p
    · subst same
      simp only [Machine.swtch, update_self, Standing.out.injEq] at out ⊢
      rw [← out]
      exact saved
    · simp only [Machine.swtch, update_of_ne same] at out ⊢
      exact sound.saved q flag out
  · simp only [Machine.swtch, update_apply] at first second
    split at first
    · cases first
    · split at second
      · cases second
      · exact sound.single d e q first second

/-- Every step keeps the machine sound. -/
theorem Step.sound {m m' : Machine C P} (step : Step m m') (sound : Sound m) : Sound m' := by
  cases step with
  | scheduler here quiet runs =>
    exact sound.of_sched here (runs.scans (sound.scheduler _ here) quiet)
  | handler here move busy =>
    exact sound.of_sched here (move.scans (sound.scheduler _ here) busy)
  | process here move => exact sound.of_act here (move.fits (sound.process _ _ here).1)
  | flag b here outside next quiet =>
    exact sound.of_act here ((sound.process _ _ here).1.setFlag outside next b)
  | @sched c p found here next locks interruptible away =>
    obtain ⟨fits, -, -, quiet, one⟩ := sound.process c p here
    have levels : (m.proc p).thread.levels = 1 := by
      have := fits.levels
      omega
    refine sound.of_leave here ⟨⟨?_, fun _ => ⟨interruptible, (by simp)⟩, fun _ _ none => ?_, ?_⟩,
      fun other => absurd rfl (other true), (by simp), fun found' same => ?_, (by simp)⟩
      ⟨levels, (fits.inside (by omega)).2, fits.traps⟩
    · rw [locks, one]
      rfl
    · simp only at none
      omega
    · simp only [quiet]
      nofun
    · obtain rfl : true = found' := by simpa using same
      exact ⟨quiet, one, (by simp)⟩
  | @resume c p found intena here held out =>
    have scans := sound.scheduler c here
    obtain ⟨quiet, one, -⟩ := scans.held found held
    have saved := sound.saved p intena out
    refine sound.of_enter here (by rw [out]; simp) ⟨?_, fun _ => ⟨?_, saved.flag⟩, ?_,
      saved.traps⟩ ⟨⟨found, rfl⟩, quiet, one⟩
    · rw [saved.levels]
      simp only [scans.fits.levels, one]
    · exact (scans.fits.inside (by omega)).1
    · intro _ _ none
      have := saved.levels
      omega
  | @start c p found here held fresh =>
    have scans := sound.scheduler c here
    obtain ⟨quiet, one, -⟩ := scans.held found held
    refine sound.of_enter here (by rw [fresh]; exact nofun) ⟨?_, fun _ => ⟨?_, nofun⟩, nofun, nofun⟩
      ⟨⟨found, rfl⟩, quiet, one⟩
    · rw [scans.fits.levels, one]
      rfl
    · exact (scans.fits.inside (by omega)).1
  | @renew p intena out =>
    refine ⟨sound.scheduler, fun c q runs => ?_, fun q flag isOut => ?_, sound.single⟩
    · have different : q ≠ p := by
        rintro rfl
        have standing := (sound.process c q runs).2.1
        rw [out] at standing
        cases standing
      simp only [update_of_ne different]
      exact sound.process c q runs
    · by_cases same : q = p
      · subst same
        simp only [update_self] at isOut
        cases isOut
      · simp only [update_of_ne same] at isOut ⊢
        exact sound.saved q flag isOut

structure Booted (m : Machine C P) : Prop where
  idle : ∀ c, m.running c = none
  start : ∀ c, m.scheduler c = ⟨.top, ⟨none, 0, none, []⟩⟩
  unlocked : ∀ c, (m.cpu c).noff = 0
  fresh : ∀ p, (m.proc p).standing = .fresh

omit [DecidableEq C] [DecidableEq P] in
theorem Booted.sound (booted : Booted m) : Sound m := by
  refine ⟨fun c _ => ?_, fun c p runs => ?_, fun p intena out => ?_, fun c d p runs => ?_⟩
  · rw [booted.start c]
    exact ⟨⟨booted.unlocked c, fun nested => absurd rfl nested, (by simp), (by simp)⟩, fun _ _ => rfl, (by simp),
      (by simp), (by simp)⟩
  · rw [booted.idle c] at runs
    cases runs
  · rw [booted.fresh p] at out
    cases out
  · rw [booted.idle c] at runs
    cases runs

def Machine.levels (m : Machine C P) (c : C) : Nat :=
  match m.running c with
  | none => (m.scheduler c).thread.levels
  | some p => (m.proc p).thread.levels

structure AtWfi (m : Machine C P) (c : C) : Prop where
  here : m.running c = none
  pc : (m.scheduler c).pc = .scan false
  quiet : (m.scheduler c).thread.traps = []
  next : (m.scheduler c).thread.old = none

/-- The interrupt flag belongs to the kernel thread: `noff` counts the levels of what runs
on a processor, the outermost `pop_off` leaves the flag as it was before the outermost
`push_off`, wherever the process runs now, and `wfi` is executed with interrupts off. -/
theorem flag_belongs_to_thread {first m : Machine C P} (booted : Booted first)
    (run : Reaches Step first m) :
    (∀ c, (m.cpu c).noff = m.levels c) ∧
    (∀ c p b, m.running c = some p → (m.proc p).thread.levels = 1 →
      (m.proc p).thread.before = some b →
      ∃ cpu, popOff (m.cpu c) = some cpu ∧ cpu.noff = 0 ∧ cpu.intr = b) ∧
    ∀ c, AtWfi m c → (m.cpu c).intr = false := by
  have sound := run.keeps Sound (fun _ _ before step => step.sound before) booted.sound
  refine ⟨fun c => ?_, fun c p b here outermost before => ?_, fun c waits => ?_⟩
  · unfold Machine.levels
    split
    · rename_i here
      exact (sound.scheduler c here).fits.levels
    · rename_i p here
      exact (sound.process c p here).1.levels
  · have fits := (sound.process c p here).1
    exact ⟨_, fits.popOff_outermost outermost before, rfl, rfl⟩
  · exact ((sound.scheduler c waits.here).off waits.pc).2

def twoCpus : Machine Bool Unit where
  cpu _ := ⟨false, 0, false⟩
  running _ := none
  scheduler _ := ⟨.top, ⟨none, 0, none, []⟩⟩
  proc _ := ⟨.fresh, Thread.first⟩

/-- The process turns interrupts on, acquires a lock on the first processor and goes on after
`sched` on the second, where releasing the lock turns them on. -/
theorem flag_belongs_to_migrated_thread :
    ∃ m, Reaches Step twoCpus m ∧ m.running true = some () ∧
      ∃ cpu, popOff (m.cpu true) = some cpu ∧ cpu.intr = true := by
  have booted : Booted twoCpus := ⟨fun _ => rfl, fun _ => rfl, fun _ => rfl, fun _ => rfl⟩
  obtain ⟨m, run, here, one, before⟩ : ∃ m, Reaches Step twoCpus m ∧ m.running true = some () ∧
      (m.proc ()).thread.levels = 1 ∧ (m.proc ()).thread.before = some true :=
    ⟨_, ((((((((((((((Relation.ReflTransGen.refl.tail
      (.scheduler (c := false) rfl rfl (.intrOn rfl))).tail
      (.scheduler (c := false) rfl rfl (.intrOff rfl))).tail
      (.scheduler (c := false) rfl rfl (.read rfl))).tail
      (.scheduler (c := false) rfl rfl (.acquire rfl))).tail
      (.start (c := false) (p := ()) rfl rfl rfl)).tail
      (.process (c := false) rfl (.pop rfl rfl rfl))).tail
      (.flag (c := false) true rfl rfl rfl rfl)).tail
      (.process (c := false) rfl (.read rfl))).tail
      (.process (c := false) rfl (.off rfl))).tail
      (.sched (c := false) rfl rfl rfl rfl rfl)).tail
      (.scheduler (c := true) rfl rfl (.intrOn rfl))).tail
      (.scheduler (c := true) rfl rfl (.intrOff rfl))).tail
      (.scheduler (c := true) rfl rfl (.read rfl))).tail
      (.scheduler (c := true) rfl rfl (.acquire rfl))).tail
      (.resume (c := true) (p := ()) rfl rfl rfl), rfl, rfl, rfl⟩
  obtain ⟨cpu, popped, -, flag⟩ := (flag_belongs_to_thread booted run).2.1 true () true here one before
  exact ⟨m, run, here, cpu, popped, flag⟩

end Xv6.Interrupts
