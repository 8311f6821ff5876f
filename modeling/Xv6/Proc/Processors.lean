import Mathlib.Logic.Function.Basic
import Xv6.Library.Transition
import Xv6.Vm.Paging

/-!
# Processors and kernel stacks

`scheduler` and `sched` on any number of processors, with `yield`, `sleep`, `wakeup`, `kexit`,
`kkill`, `kwait` and `kfork` as far as they change `p->state`.
-/

namespace Xv6.Processors

open Transition
open Function (update update_apply update_self update_of_ne update_eq_self update_eq_self_iff)
open Vm (ProcState)

/-- What a processor does with a process. -/
inductive Phase where
  | looking
  | choosing
  | entered
  | running
  | own
  | marked
  | off
  | back
  | leaving

namespace Phase

def proc : Phase → Bool
  | .looking | .leaving => false
  | _ => true

def owns : Phase → Bool
  | .looking | .running => false
  | _ => true

def stack : Phase → Bool
  | .entered | .running | .own | .marked | .off => true
  | _ => false

def runs : Phase → Bool
  | .choosing | .entered | .running | .own => true
  | _ => false

def stops : Phase → Bool
  | .marked | .off | .back | .leaving => true
  | _ => false

def live : Phase → Bool
  | .entered | .running | .own | .marked => true
  | _ => false

end Phase

structure Machine (C P Chan : Type) where
  state : P → ProcState
  chan : P → Option Chan
  lock : P → Option C
  saved : P → Bool
  forking : P → Option P
  proc : C → Option P
  pc : C → Option (Phase × P)

variable {C P Chan : Type}

namespace Machine

variable [DecidableEq C] [DecidableEq P] (s : Machine C P Chan)

def go (c : C) (pc : Option (Phase × P)) : Machine C P Chan :=
  { s with pc := update s.pc c pc }

/-- `c->proc`. -/
def setProc (c : C) (p : Option P) : Machine C P Chan := { s with proc := update s.proc c p }

def acquire (c : C) (p : P) : Machine C P Chan :=
  { s with lock := update s.lock p (some c) }

def release (p : P) : Machine C P Chan := { s with lock := update s.lock p none }

def setState (p : P) (state : ProcState) : Machine C P Chan :=
  { s with state := update s.state p state }

def setSaved (p : P) (saved : Bool) : Machine C P Chan :=
  { s with saved := update s.saved p saved }

def setChan (p : P) (chan : Option Chan) : Machine C P Chan :=
  { s with chan := update s.chan p chan }

def setForking (p : P) (np : Option P) : Machine C P Chan :=
  { s with forking := update s.forking p np }

def wake (p : P) : Machine C P Chan :=
  if s.state p = .SLEEPING then s.setState p .RUNNABLE else s

def OnStack (c : C) (p : P) : Prop := ∃ phase, s.pc c = some (phase, p) ∧ phase.stack = true

end Machine

open Machine

/-- One step of one processor. -/
inductive Step [DecidableEq C] [DecidableEq P] : Machine C P Chan → Machine C P Chan → Prop
  | look {s} (c : C) (p : P) (here : s.pc c = none) (free : s.lock p = none) :
      Step s ((s.acquire c p).go c (some (.looking, p)))
  | skip {s} (c : C) (p : P) (here : s.pc c = some (.looking, p)) (other : s.state p ≠ .RUNNABLE) :
      Step s ((s.release p).go c none)
  | choose {s} (c : C) (p : P) (here : s.pc c = some (.looking, p))
      (runnable : s.state p = .RUNNABLE) :
      Step s (((s.setState p .RUNNING).setProc c (some p)).go c (some (.choosing, p)))
  | swtch {s} (c : C) (p : P) (here : s.pc c = some (.choosing, p)) :
      Step s ((s.setSaved p false).go c (some (.entered, p)))
  | resume {s} (c : C) (p : P) (here : s.pc c = some (.entered, p)) :
      Step s (((s.release p).setChan p none).go c (some (.running, p)))
  | acquire {s} (c : C) (p : P) (here : s.pc c = some (.running, p)) (free : s.lock p = none) :
      Step s ((s.acquire c p).go c (some (.own, p)))
  | yield {s} (c : C) (p : P) (here : s.pc c = some (.own, p)) :
      Step s ((s.setState p .RUNNABLE).go c (some (.marked, p)))
  | sleep {s} (c : C) (p : P) (chan : Chan) (here : s.pc c = some (.own, p))
      (outside : s.forking p = none) :
      Step s (((s.setState p .SLEEPING).setChan p (some chan)).go c (some (.marked, p)))
  | kexit {s} (c : C) (p : P) (here : s.pc c = some (.own, p)) (outside : s.forking p = none) :
      Step s ((s.setState p .ZOMBIE).go c (some (.marked, p)))
  | save {s} (c : C) (p : P) (here : s.pc c = some (.marked, p)) :
      Step s ((s.setSaved p true).go c (some (.off, p)))
  | sched {s} (c : C) (p : P) (here : s.pc c = some (.off, p)) :
      Step s (s.go c (some (.back, p)))
  | clear {s} (c : C) (p : P) (here : s.pc c = some (.back, p)) :
      Step s ((s.setProc c none).go c (some (.leaving, p)))
  | leave {s} (c : C) (p : P) (here : s.pc c = some (.leaving, p)) :
      Step s ((s.release p).go c none)
  | wakeup {s} (c : C) (p : P) (chan : Chan)
      (here : s.pc c = none ∨ ∃ q, q ≠ p ∧ s.pc c = some (.running, q)) (free : s.lock p = none)
      (waits : s.chan p = some chan) : Step s (s.wake p)
  | kkill {s} (c : C) (p q : P) (here : s.pc c = some (.running, q)) (free : s.lock p = none) :
      Step s (s.wake p)
  | kwait {s} (c : C) (p q : P) (here : s.pc c = some (.running, q)) (outside : s.forking q = none)
      (free : s.lock p = none) (exited : s.state p = .ZOMBIE) :
      Step s ((s.setState p .UNUSED).setChan p none)
  | allocproc {s} (c : C) (np q : P) (here : s.pc c = some (.running, q))
      (outside : s.forking q = none) (free : s.lock np = none) (unused : s.state np = .UNUSED) :
      Step s (((s.setState np .USED).setSaved np true).setForking q (some np))
  | failed {s} (c : C) (np q : P) (saved : Bool) (here : s.pc c = some (.running, q))
      (outside : s.forking q = none) (free : s.lock np = none) (unused : s.state np = .UNUSED) :
      Step s ((s.setSaved np saved).setChan np none)
  | kfork {s} (c : C) (np q : P) (here : s.pc c = some (.running, q))
      (making : s.forking q = some np) (free : s.lock np = none) :
      Step s ((s.setState np .RUNNABLE).setForking q none)

def Stopped : ProcState → Prop
  | .RUNNABLE | .SLEEPING | .ZOMBIE => True
  | _ => False

def Attended (s : Machine C P Chan) (p : P) (attending : List (C × Phase)) : Prop :=
  ∀ c phase, s.pc c = some (phase, p) ↔ (c, phase) ∈ attending

/-- A processor has a process for itself. -/
structure Held (s : Machine C P Chan) (c : C) (p : P) (phase : Phase) : Prop where
  attended : Attended s p [(c, phase)]
  lock : s.lock p = some c
  runs : phase.runs = true → s.state p = .RUNNING
  stops : phase.stops = true → Stopped (s.state p)
  saved : phase.live = false → s.saved p = true

/-- Where the processors are with a process. -/
inductive Fits (s : Machine C P Chan) (p : P) : Prop
  | rests (locker : Option C) (lock : s.lock p = locker)
      (attended : Attended s p (locker.toList.map (·, .looking))) (state : s.state p ≠ .RUNNING)
      (saved : s.state p ≠ .UNUSED → s.saved p = true)
  | runs (locker : Option C) (d : C) (lock : s.lock p = locker)
      (attended : Attended s p (locker.toList.map (·, .looking) ++ [(d, .running)]))
      (state : s.state p = .RUNNING)
  | held (c : C) (phase : Phase) (held : Held s c p phase) (owns : phase.owns = true)

def Phase.procAt (at_ : Option (Phase × P)) : Option P :=
  (at_.filter fun x => x.1.proc).map Prod.snd

/-- Every process fits the places of the processors. -/
structure Scheduled (s : Machine C P Chan) : Prop where
  fits : ∀ p, Fits s p
  proc : ∀ c, s.proc c = Phase.procAt (s.pc c)
  forked : ∀ q np, s.forking q = some np → s.state np = .USED
  single : ∀ q r np, s.forking q = some np → s.forking r = some np → q = r

section Frames

variable {s t : Machine C P Chan} {c d : C} {p : P} {phase : Phase} {state : ProcState}

theorem Stopped.not_running (stopped : Stopped state) : state ≠ .RUNNING := by
  rintro rfl
  exact stopped

theorem mem_looking {lock : Option C} :
    (c, phase) ∈ lock.toList.map (·, Phase.looking) ↔ lock = some c ∧ phase = .looking := by
  cases lock <;> simp [eq_comm]

theorem mem_attending {locker : Option C} {d : C}
    (there : (c, phase) ∈ locker.toList.map (·, Phase.looking) ++ [(d, .running)]) :
    locker = some c ∧ phase = .looking ∨ c = d ∧ phase = .running := by
  rcases List.mem_append.mp there with looks | runs
  · exact Or.inl (mem_looking.mp looks)
  · cases List.mem_singleton.mp runs
    exact Or.inr ⟨rfl, rfl⟩

theorem Attended.apart {attending : List (C × Phase)} (attended : Attended s p attending)
    (runs : (d, .running) ∈ attending) (here : s.pc c ≠ some (.running, p)) (phase : Phase) :
    (c, phase) ∉ [(d, Phase.running)] := by
  intro member
  cases List.mem_singleton.mp member
  exact here ((attended c _).mpr runs)

theorem Fits.held_at (fits : Fits s p) (here : s.pc c = some (phase, p))
    (owns : phase.owns = true) : Held s c p phase := by
  cases fits with
  | rests locker lock attended =>
    obtain ⟨-, rfl⟩ := mem_looking.mp ((attended c phase).mp here)
    cases owns
  | runs locker d lock attended =>
    rcases mem_attending ((attended c phase).mp here) with ⟨-, rfl⟩ | ⟨-, rfl⟩
    · cases owns
    · cases owns
  | held d other held =>
    cases List.mem_singleton.mp ((held.attended c phase).mp here)
    exact held

theorem Fits.looked (fits : Fits s p) (here : s.pc c = some (.looking, p)) :
    s.lock p = some c ∧ ((Attended s p [(c, .looking)] ∧ s.state p ≠ .RUNNING ∧
      (s.state p ≠ .UNUSED → s.saved p = true)) ∨
      ∃ d, Attended s p [(c, .looking), (d, .running)] ∧ s.state p = .RUNNING) := by
  cases fits with
  | rests locker lock attended state saved =>
    obtain ⟨rfl, -⟩ := mem_looking.mp ((attended c _).mp here)
    exact ⟨lock, Or.inl ⟨attended, state, saved⟩⟩
  | runs locker d lock attended state =>
    rcases mem_attending ((attended c _).mp here) with ⟨rfl, -⟩ | ⟨-, other⟩
    · exact ⟨lock, Or.inr ⟨d, attended, state⟩⟩
    · cases other
  | held d other held owns =>
    cases List.mem_singleton.mp ((held.attended c _).mp here)
    cases owns

/-- An unlocked process rests or runs. -/
theorem Fits.unlocked (fits : Fits s p) (free : s.lock p = none) :
    (Attended s p [] ∧ s.state p ≠ .RUNNING ∧ (s.state p ≠ .UNUSED → s.saved p = true)) ∨
      ∃ d, Attended s p [(d, .running)] ∧ s.state p = .RUNNING := by
  cases fits with
  | rests locker lock attended state saved =>
    obtain rfl := lock.symm.trans free
    exact Or.inl ⟨attended, state, saved⟩
  | runs locker d lock attended state =>
    obtain rfl := lock.symm.trans free
    exact Or.inr ⟨d, attended, state⟩
  | held c phase held => exact absurd (free.symm.trans held.lock) (by simp)

theorem Fits.idle (fits : Fits s p) (free : s.lock p = none) (still : s.state p ≠ .RUNNING) :
    Attended s p [] ∧ (s.state p ≠ .UNUSED → s.saved p = true) := by
  rcases fits.unlocked free with ⟨attended, -, saved⟩ | ⟨d, -, running⟩
  · exact ⟨attended, saved⟩
  · exact absurd running still

theorem Fits.stack_once (fits : Fits s p) (first : s.OnStack c p) (second : s.OnStack d p) :
    c = d := by
  obtain ⟨phase, here, left⟩ := first
  obtain ⟨other, there, right⟩ := second
  cases fits with
  | rests locker lock attended =>
    obtain ⟨-, rfl⟩ := mem_looking.mp ((attended c phase).mp here)
    cases left
  | runs locker e lock attended =>
    have only : ∀ {c phase}, s.pc c = some (phase, p) → phase.stack = true → c = e := by
      intro c phase at_ stack
      rcases mem_attending ((attended c phase).mp at_) with ⟨-, rfl⟩ | ⟨same, -⟩
      · cases stack
      · exact same
    exact (only here left).trans (only there right).symm
  | held e phase held =>
    cases List.mem_singleton.mp ((held.attended c _).mp here)
    cases List.mem_singleton.mp ((held.attended d _).mp there)
    rfl

theorem Fits.congr (fits : Fits s p)
    (pcs : ∀ c phase, t.pc c = some (phase, p) ↔ s.pc c = some (phase, p))
    (state : t.state p = s.state p) (lock : t.lock p = s.lock p) (saved : t.saved p = s.saved p) :
    Fits t p := by
  have attended : ∀ {attending}, Attended s p attending → Attended t p attending :=
    fun before c phase => (pcs c phase).trans (before c phase)
  cases fits with
  | rests locker locked before still kept =>
    exact .rests locker (lock.trans locked) (attended before) (by rw [state]; exact still)
      (by rw [state, saved]; exact kept)
  | runs locker d locked before running =>
    exact .runs locker d (lock.trans locked) (attended before) (state.trans running)
  | held c phase held owns =>
    refine .held c phase ⟨attended held.attended, lock.trans held.lock, ?_, ?_, ?_⟩ owns
    · rw [state]
      exact held.runs
    · rw [state]
      exact held.stops
    · rw [saved]
      exact held.saved

structure AtBoot (s : Machine C P Chan) : Prop where
  pc : ∀ c, s.pc c = none
  proc : ∀ c, s.proc c = none
  lock : ∀ p, s.lock p = none
  forking : ∀ p, s.forking p = none
  state : ∀ p, s.state p = .UNUSED ∨ s.state p = .RUNNABLE ∧ s.saved p = true

theorem AtBoot.scheduled (boot : AtBoot s) : Scheduled s := by
  refine ⟨fun p => .rests none (boot.lock p) ?_ ?_ ?_, fun c => ?_, fun q np making => ?_,
    fun q r np making => ?_⟩
  · intro c phase
    simp [boot.pc]
  · rcases boot.state p with unused | ⟨runnable, -⟩
    · simp [unused]
    · simp [runnable]
  · rcases boot.state p with unused | ⟨-, saved⟩
    · exact absurd unused
    · exact fun _ => saved
  · rw [boot.proc, boot.pc]
    rfl
  · exact absurd ((boot.forking q).symm.trans making) (by simp)
  · exact absurd ((boot.forking q).symm.trans making) (by simp)

end Frames

section Turns

variable [DecidableEq C] {s t : Machine C P Chan} {c : C} {p : P}

theorem Attended.go {old : List (C × Phase)} (attended : Attended s p old)
    (rest : List (C × Phase)) (new : Option Phase)
    (split : ∀ d phase, d ≠ c → ((d, phase) ∈ old ↔ (d, phase) ∈ rest))
    (apart : ∀ phase, (c, phase) ∉ rest) (pcs : t.pc = update s.pc c (new.map (·, p))) :
    Attended t p (new.toList.map (c, ·) ++ rest) := by
  intro d phase
  rw [pcs]
  by_cases same : d = c
  · subst same
    cases new <;> simp [apart, eq_comm]
  · rw [update_of_ne same, attended, split d phase same]
    cases new <;> simp [same]

theorem Held.go {old : Phase} (held : Held s c p old) (new : Option Phase)
    (pcs : t.pc = update s.pc c (new.map (·, p))) :
    Attended t p (new.toList.map (c, ·)) := by
  have moved := held.attended.go [] new (by simp +contextual) (by simp) pcs
  rwa [List.append_nil] at moved

theorem Scheduled.turn (scheduled : Scheduled s) (old new : Option Phase)
    (here : s.pc c = old.map (·, p)) (pcs : t.pc = update s.pc c (new.map (·, p)))
    (others : ∀ q, q ≠ p → t.state q = s.state q ∧ t.lock q = s.lock q ∧ t.saved q = s.saved q)
    (forking : t.forking = s.forking)
    (procs : t.proc = update s.proc c (Phase.procAt (new.map (·, p))))
    (used : s.state p = .USED → t.state p = .USED) (fits : Fits t p) : Scheduled t := by
  refine ⟨fun q => ?_, fun d => ?_, fun q np making => ?_, by rw [forking]; exact scheduled.single⟩
  · by_cases hit : q = p
    · rw [hit]
      exact fits
    · obtain ⟨state, lock, saved⟩ := others q hit
      refine (scheduled.fits q).congr (fun d phase => ?_) state lock saved
      rw [pcs, update_apply]
      split
      · rename_i same
        rw [same, here]
        cases old <;> cases new <;> simp [Ne.symm hit]
      · rfl
  · rw [procs, pcs, update_apply, update_apply]
    split
    · rfl
    · exact scheduled.proc d
  · rw [forking] at making
    have before := scheduled.forked q np making
    by_cases hit : np = p
    · rw [hit] at before ⊢
      exact used before
    · rw [(others np hit).1]
      exact before

theorem Scheduled.proc_same (scheduled : Scheduled s) (old new : Option Phase)
    (here : s.pc c = old.map (·, p))
    (same : Phase.procAt (old.map (·, p)) = Phase.procAt (new.map (·, p))) :
    s.proc = update s.proc c (Phase.procAt (new.map (·, p))) := by
  rw [← same, ← here, ← scheduled.proc c, update_eq_self]

theorem Scheduled.keep (scheduled : Scheduled s) (old new : Phase)
    (here : s.pc c = some (old, p)) (was : old.owns = true) (owns : new.owns = true)
    (pcs : t.pc = update s.pc c (some (new, p)))
    (procs : t.proc = update s.proc c (Phase.procAt (some (new, p))))
    (forking : t.forking = s.forking) (lock : t.lock = s.lock)
    (others : ∀ q, q ≠ p → t.state q = s.state q ∧ t.saved q = s.saved q)
    (used : s.state p = .USED → t.state p = .USED)
    (runs : new.runs = true → t.state p = .RUNNING)
    (stops : new.stops = true → Stopped (t.state p))
    (saved : new.live = false → t.saved p = true) : Scheduled t := by
  have held := (scheduled.fits p).held_at here was
  refine scheduled.turn (some old) (some new) here pcs (fun q other => ?_) forking procs used
    (.held c new ⟨held.go (some new) pcs, by rw [lock]; exact held.lock, runs, stops, saved⟩ owns)
  rw [lock]
  exact ⟨(others q other).1, rfl, (others q other).2⟩

theorem Scheduled.goOn (scheduled : Scheduled s) (old new : Phase)
    (here : s.pc c = some (old, p)) (was : old.owns = true) (owns : new.owns = true)
    (pcs : t.pc = update s.pc c (some (new, p)))
    (procs : t.proc = update s.proc c (Phase.procAt (some (new, p))))
    (forking : t.forking = s.forking) (lock : t.lock = s.lock) (state : t.state = s.state)
    (saves : ∀ q, q ≠ p → t.saved q = s.saved q) (runs : new.runs = true → old.runs = true)
    (stops : new.stops = true → old.stops = true)
    (saved : new.live = false → t.saved p = true) : Scheduled t := by
  have held := (scheduled.fits p).held_at here was
  refine scheduled.keep old new here was owns pcs procs forking lock (fun q other => ?_) ?_ ?_ ?_
    saved
  · rw [state]
    exact ⟨rfl, saves q other⟩
  · rw [state]
    exact id
  · rw [state]
    exact fun yes => held.runs (runs yes)
  · rw [state]
    exact fun yes => held.stops (stops yes)

theorem stays_off {d e : C} (old new : Option (Phase × P)) (here : s.pc e = old)
    (pcs : t.pc = update s.pc e new)
    (quiet : ∀ phase q, new = some (phase, q) → phase.stack = true →
      ∃ was : Phase, old = some (was, q) ∧ was.stack = true)
    (before : ¬ s.OnStack d p) : ¬ t.OnStack d p := by
  rintro ⟨phase, there, stack⟩
  rw [pcs, update_apply] at there
  split at there
  · rename_i same
    subst same
    obtain ⟨was, value, yes⟩ := quiet phase p there stack
    exact before ⟨was, here.trans value, yes⟩
  · exact before ⟨phase, there, stack⟩

end Turns

section Steps

variable [DecidableEq P] {s t : Machine C P Chan} {c : C} {p : P}

theorem Scheduled.remote (scheduled : Scheduled s) (state : ProcState)
    (pcs : t.pc = s.pc) (procs : t.proc = s.proc) (locks : t.lock = s.lock)
    (states : t.state = update s.state p state)
    (saves : ∀ q, q ≠ p → t.saved q = s.saved q) (free : s.lock p = none)
    (idle : s.state p ≠ .RUNNING) (still : state ≠ .RUNNING)
    (saved : state ≠ .UNUSED → t.saved p = true)
    (forked : ∀ q np, t.forking q = some np → if np = p then state = .USED else s.forking q = some np)
    (single : ∀ q r np, t.forking q = some np → t.forking r = some np → q = r) : Scheduled t := by
  have here : t.state p = state := by rw [states, update_self]
  have others : ∀ q, q ≠ p → t.state q = s.state q := fun q other => by
    rw [states, update_of_ne other]
  refine ⟨fun q => ?_, by rw [pcs, procs]; exact scheduled.proc, fun q np making => ?_, single⟩
  · by_cases hit : q = p
    · subst hit
      have nobody := ((scheduled.fits q).idle free idle).1
      refine .rests none (by rw [locks]; exact free) (fun d phase => ?_) (by rw [here]; exact still)
        (by rw [here]; exact saved)
      rw [pcs]
      exact nobody d phase
    · exact (scheduled.fits q).congr (by simp [pcs]) (others q hit) (by rw [locks]) (saves q hit)
  · have was := forked q np making
    split at was
    · rename_i hit
      rw [hit, here]
      exact was
    · rename_i other
      rw [others np other]
      exact scheduled.forked q np was

theorem Scheduled.not_made (scheduled : Scheduled s) (other : s.state p ≠ .USED)
    (state : ProcState) (q np : P) (making : s.forking q = some np) :
    if np = p then state = .USED else s.forking q = some np := by
  split
  · rename_i hit
    exact absurd (hit ▸ scheduled.forked q np making) other
  · exact making

theorem Scheduled.wake (scheduled : Scheduled s) (free : s.lock p = none) : Scheduled (s.wake p) := by
  unfold Machine.wake
  split
  · rename_i asleep
    refine scheduled.remote .RUNNABLE rfl rfl rfl rfl (fun _ _ => rfl) free (by rw [asleep]; simp)
      (by simp) (fun _ => ?_) (scheduled.not_made (by rw [asleep]; simp) _) scheduled.single
    exact ((scheduled.fits p).idle free (by rw [asleep]; simp)).2 (by rw [asleep]; simp)
  · exact scheduled

theorem wake_cases (s : Machine C P Chan) (p : P) : (s.wake p).pc = s.pc ∧
    ((s.wake p).state = s.state ∨ (s.wake p).state = update s.state p .RUNNABLE) := by
  unfold Machine.wake
  split
  · exact ⟨rfl, Or.inr rfl⟩
  · exact ⟨rfl, Or.inl rfl⟩

theorem Scheduled.allocproc {np q : P} (scheduled : Scheduled s) (free : s.lock np = none)
    (unused : s.state np = .UNUSED) :
    Scheduled (((s.setState np .USED).setSaved np true).setForking q (some np)) := by
  have fresh : ∀ r, s.forking r ≠ some np := fun r making =>
    absurd (unused.symm.trans (scheduled.forked r np making)) (by simp)
  refine scheduled.remote .USED rfl rfl rfl rfl (fun _ other => update_of_ne other ..) free
    (by rw [unused]; simp) (by simp) (fun _ => update_self ..) ?_ ?_
  · intro r made making
    have making : update s.forking q (some np) r = some made := making
    split
    · rfl
    · rename_i other
      rw [update_apply] at making
      split at making
      · exact absurd (Option.some.inj making).symm other
      · exact making
  · intro r r' made first second
    have first : update s.forking q (some np) r = some made := first
    have second : update s.forking q (some np) r' = some made := second
    rw [update_apply] at first second
    split at first <;> split at second
    · simp_all
    · cases first
      exact absurd second (fresh r')
    · cases second
      exact absurd first (fresh r)
    · exact scheduled.single r r' made first second

theorem Scheduled.kfork {np q : P} (scheduled : Scheduled s) (making : s.forking q = some np)
    (free : s.lock np = none) : Scheduled ((s.setState np .RUNNABLE).setForking q none) := by
  have used := scheduled.forked q np making
  have fewer : ∀ r made, update s.forking q none r = some made → s.forking r = some made := by
    intro r made still
    rw [update_apply] at still
    split at still
    · cases still
    · exact still
  refine scheduled.remote .RUNNABLE rfl rfl rfl rfl (fun _ _ => rfl) free (by rw [used]; simp)
    (by simp) (fun _ => ?_) ?_ ?_
  · exact ((scheduled.fits np).idle free (by rw [used]; simp)).2 (by rw [used]; simp)
  · intro r made still
    have still : update s.forking q none r = some made := still
    split
    · rename_i hit
      subst hit
      obtain rfl := scheduled.single r q made (fewer r made still) making
      have cleared : update s.forking r none r = none := update_self ..
      cases cleared.symm.trans still
    · exact fewer r made still
  · exact fun r r' made first second =>
      scheduled.single r r' made (fewer r made first) (fewer r' made second)

variable [DecidableEq C]

/-- A process marks its state and is in `sched`. -/
theorem Scheduled.mark (scheduled : Scheduled s) (state : ProcState)
    (here : s.pc c = some (.own, p)) (stopped : Stopped state)
    (pcs : t.pc = update s.pc c (some (.marked, p))) (procs : t.proc = s.proc)
    (forking : t.forking = s.forking) (locks : t.lock = s.lock) (saves : t.saved = s.saved)
    (states : t.state = update s.state p state) : Scheduled t := by
  have held := (scheduled.fits p).held_at here rfl
  refine scheduled.keep .own .marked here rfl rfl pcs ?_ forking locks (fun q other => ?_)
    (fun used => ?_) (by rintro ⟨⟩) (fun _ => ?_) (by rintro ⟨⟩)
  · rw [procs]
    exact scheduled.proc_same (some .own) (some .marked) here rfl
  · rw [states, update_of_ne other, saves]
    exact ⟨rfl, rfl⟩
  · exact absurd (used.symm.trans (held.runs rfl)) (by simp)
  · rw [states, update_self]
    exact stopped

theorem Scheduled.look (scheduled : Scheduled s) (here : s.pc c = none) (free : s.lock p = none) :
    Scheduled ((s.acquire c p).go c (some (.looking, p))) := by
  refine scheduled.turn none (some .looking) here rfl
    (fun q other => ⟨rfl, update_of_ne other .., rfl⟩) rfl
    (scheduled.proc_same none (some .looking) here rfl) id ?_
  rcases (scheduled.fits p).unlocked free with ⟨attended, still, saved⟩ | ⟨d, attended, running⟩
  · exact .rests (some c) (update_self ..) (attended.go [] (some .looking) (by simp) (by simp) rfl)
      still saved
  · exact .runs (some c) d (update_self ..) (attended.go [(d, .running)] (some .looking) (by simp)
      (attended.apart (by simp) (by simp [here])) rfl) running

theorem Scheduled.skip (scheduled : Scheduled s) (here : s.pc c = some (.looking, p)) :
    Scheduled ((s.release p).go c none) := by
  refine scheduled.turn (some .looking) none here rfl
    (fun q other => ⟨rfl, update_of_ne other .., rfl⟩) rfl
    (scheduled.proc_same (some .looking) none here rfl) id ?_
  rcases ((scheduled.fits p).looked here).2 with ⟨attended, still, saved⟩ | ⟨d, attended, running⟩
  · exact .rests none (update_self ..) (attended.go [] none (by simp +contextual) (by simp) rfl)
      still saved
  · exact .runs none d (update_self ..) (attended.go [(d, .running)] none (by simp +contextual)
      (attended.apart (by simp) (by simp [here])) rfl) running

theorem Scheduled.choose (scheduled : Scheduled s) (here : s.pc c = some (.looking, p))
    (runnable : s.state p = .RUNNABLE) :
    Scheduled (((s.setState p .RUNNING).setProc c (some p)).go c (some (.choosing, p))) := by
  refine scheduled.turn (some .looking) (some .choosing) here rfl
    (fun q other => ⟨update_of_ne other .., rfl, rfl⟩) rfl rfl
    (fun used => absurd (runnable.symm.trans used) (by simp)) ?_
  rcases (scheduled.fits p).looked here with ⟨lock, ⟨attended, -, saved⟩ | ⟨d, -, running⟩⟩
  · refine .held c .choosing ⟨attended.go [] (some .choosing) (by simp +contextual) (by simp) rfl,
      lock, fun _ => update_self .., (by rintro ⟨⟩), fun _ => saved ?_⟩ rfl
    rw [runnable]
    simp
  · exact absurd (runnable.symm.trans running) (by simp)

theorem Scheduled.acquire (scheduled : Scheduled s) (here : s.pc c = some (.running, p))
    (free : s.lock p = none) : Scheduled ((s.acquire c p).go c (some (.own, p))) := by
  refine scheduled.turn (some .running) (some .own) here rfl
    (fun q other => ⟨rfl, update_of_ne other .., rfl⟩) rfl
    (scheduled.proc_same (some .running) (some .own) here rfl) id ?_
  rcases (scheduled.fits p).unlocked free with ⟨attended, -⟩ | ⟨d, attended, running⟩
  · cases (attended c _).mp here
  · cases List.mem_singleton.mp ((attended c _).mp here)
    exact .held c .own ⟨attended.go [] (some .own) (by simp +contextual) (by simp) rfl,
      update_self .., fun _ => running, (by rintro ⟨⟩), (by rintro ⟨⟩)⟩ rfl

theorem Scheduled.step (scheduled : Scheduled s) (step : Step s t) : Scheduled t := by
  cases step with
  | look c p here free => exact scheduled.look here free
  | skip c p here other => exact scheduled.skip here
  | choose c p here runnable => exact scheduled.choose here runnable
  | swtch c p here =>
    exact scheduled.goOn .choosing .entered here rfl rfl rfl
      (scheduled.proc_same (some .choosing) (some .entered) here rfl) rfl rfl rfl
      (fun q other => update_of_ne other ..) (fun _ => rfl) (by rintro ⟨⟩) (by rintro ⟨⟩)
  | resume c p here =>
    have held := (scheduled.fits p).held_at here rfl
    exact scheduled.turn (some .entered) (some .running) here rfl
      (fun q other => ⟨rfl, update_of_ne other .., rfl⟩) rfl
      (scheduled.proc_same (some .entered) (some .running) here rfl) id
      (.runs none c (update_self ..) (held.go (some .running) rfl) (held.runs rfl))
  | acquire c p here free => exact scheduled.acquire here free
  | yield c p here => exact scheduled.mark .RUNNABLE here trivial rfl rfl rfl rfl rfl rfl
  | sleep c p chan here outside => exact scheduled.mark .SLEEPING here trivial rfl rfl rfl rfl rfl rfl
  | kexit c p here outside => exact scheduled.mark .ZOMBIE here trivial rfl rfl rfl rfl rfl rfl
  | save c p here =>
    exact scheduled.goOn .marked .off here rfl rfl rfl
      (scheduled.proc_same (some .marked) (some .off) here rfl) rfl rfl rfl
      (fun q other => update_of_ne other ..) (by rintro ⟨⟩) (fun _ => rfl) (fun _ => update_self ..)
  | sched c p here =>
    exact scheduled.goOn .off .back here rfl rfl rfl
      (scheduled.proc_same (some .off) (some .back) here rfl) rfl rfl rfl (fun _ _ => rfl)
      (by rintro ⟨⟩) (fun _ => rfl) ((scheduled.fits p).held_at here rfl).saved
  | clear c p here =>
    exact scheduled.goOn .back .leaving here rfl rfl rfl rfl rfl rfl rfl (fun _ _ => rfl)
      (by rintro ⟨⟩) (fun _ => rfl) ((scheduled.fits p).held_at here rfl).saved
  | leave c p here =>
    have held := (scheduled.fits p).held_at here rfl
    exact scheduled.turn (some .leaving) none here rfl
      (fun q other => ⟨rfl, update_of_ne other .., rfl⟩) rfl
      (scheduled.proc_same (some .leaving) none here rfl) id
      (.rests none (update_self ..) (held.go none rfl) (held.stops rfl).not_running
        fun _ => held.saved rfl)
  | wakeup c p chan here free waits => exact scheduled.wake free
  | kkill c p q here free => exact scheduled.wake free
  | kwait c p q here outside free exited =>
    exact scheduled.remote .UNUSED rfl rfl rfl rfl (fun _ _ => rfl) free (by rw [exited]; simp)
      (by simp) (absurd rfl) (scheduled.not_made (by rw [exited]; simp) _) scheduled.single
  | allocproc c np q here outside free unused => exact scheduled.allocproc free unused
  | failed c np q saved here outside free unused =>
    refine scheduled.remote .UNUSED rfl rfl rfl ?_ (fun _ other => update_of_ne other ..) free
      (by rw [unused]; simp) (by simp) (absurd rfl)
      (scheduled.not_made (by rw [unused]; simp) _) scheduled.single
    exact (update_eq_self_iff.mpr unused.symm).symm
  | kfork c np q here making free => exact scheduled.kfork making free

theorem switches (step : Step s t) (before : ¬ s.OnStack c p) (after : t.OnStack c p) :
    s.pc c = some (.choosing, p) := by
  have still : t.pc = s.pc → False := by
    intro same
    obtain ⟨phase, there, stack⟩ := after
    exact before ⟨phase, by rw [← same]; exact there, stack⟩
  have off : ∀ e old new, s.pc e = old → t.pc = update s.pc e new →
      (∀ phase q, new = some (phase, q) → phase.stack = true →
        ∃ was : Phase, old = some (was, q) ∧ was.stack = true) → False :=
    fun e old new here pcs quiet => stays_off old new here pcs quiet before after
  cases step with
  | swtch e q here =>
    obtain ⟨phase, there, stack⟩ := after
    have there : update s.pc e (some (.entered, q)) c = some (phase, p) := there
    rw [update_apply] at there
    split at there
    · rename_i same
      cases there
      rw [same]
      exact here
    · exact absurd ⟨phase, there, stack⟩ before
  | look e q here | skip e q here | choose e q here | sched e q here | clear e q here
  | leave e q here =>
    refine (off e _ _ here rfl ?_).elim
    rintro _ _ ⟨⟩ ⟨⟩
  | resume e q here | acquire e q here | yield e q here | sleep e q chan here | kexit e q here
  | save e q here =>
    refine (off e _ _ here rfl ?_).elim
    rintro _ _ ⟨⟩ -
    exact ⟨_, rfl, rfl⟩
  | wakeup e q chan here free waits | kkill e q r here free => exact (still (wake_cases s q).1).elim
  | kwait | allocproc | failed | kfork => exact (still rfl).elim

theorem frees (step : Step s t) (exited : s.state p = .ZOMBIE) (freed : t.state p = .UNUSED) :
    s.lock p = none := by
  have kept : t.state = s.state → False := fun same =>
    absurd ((congrFun same p).symm.trans freed) (by rw [exited]; simp)
  have marked : ∀ q state, t.state = update s.state q state → state ≠ .UNUSED → False := by
    intro q state states inUse
    rw [states, update_apply] at freed
    split at freed
    · exact inUse freed
    · exact absurd (exited.symm.trans freed) (by simp)
  cases step with
  | kwait c q r here outside free other =>
    by_cases same : p = q
    · rw [same]
      exact free
    · have still : update s.state q .UNUSED p = .UNUSED := freed
      rw [update_of_ne same, exited] at still
      cases still
  | choose c q here runnable => exact (marked q .RUNNING rfl (by simp)).elim
  | yield c q here => exact (marked q .RUNNABLE rfl (by simp)).elim
  | sleep c q chan here outside => exact (marked q .SLEEPING rfl (by simp)).elim
  | kexit c q here outside => exact (marked q .ZOMBIE rfl (by simp)).elim
  | allocproc c np q here outside free unused => exact (marked np .USED rfl (by simp)).elim
  | kfork c np q here making free => exact (marked np .RUNNABLE rfl (by simp)).elim
  | wakeup c q chan here free waits | kkill c q r here free =>
    exact ((wake_cases s q).2.elim kept fun states => marked q .RUNNABLE states (by simp)).elim
  | look | skip | swtch | resume | acquire | save | sched | clear | leave | failed => exact (kept rfl).elim

end Steps

variable [DecidableEq C] [DecidableEq P]

/-- In every state that any interleaving reaches from boot, a process is `RUNNING` iff
exactly one processor runs it, no two processors are on one kernel stack, and neither a
switch to a process nor freeing it finds a processor on its stack. -/
theorem one_processor_per_process {boot s : Machine C P Chan} (initially : AtBoot boot)
    (run : Reaches Step boot s) :
    (∀ p, s.lock p = none → (s.state p = .RUNNING ↔ ∃! c, s.proc c = some p)) ∧
    (∀ c d p, s.OnStack c p → s.OnStack d p → c = d) ∧
    (∀ t c p, Step s t → ¬ s.OnStack c p → t.OnStack c p →
      s.saved p = true ∧ ∀ d, ¬ s.OnStack d p) ∧
    ∀ t p, Step s t → s.state p = .ZOMBIE → t.state p = .UNUSED → ∀ c, ¬ s.OnStack c p := by
  have scheduled : Scheduled s := run.keeps Scheduled (fun _ _ => Scheduled.step) initially.scheduled
  have onProc : ∀ c p, s.proc c = some p ↔ ∃ phase, s.pc c = some (phase, p) ∧ phase.proc = true := by
    intro c p
    rw [scheduled.proc, Phase.procAt]
    simp [Option.filter_eq_some_iff]
  refine ⟨fun p free => ?_, fun c d p => (scheduled.fits p).stack_once, fun t c p step before after => ?_,
    fun t p step exited freed => ?_⟩
  · rcases (scheduled.fits p).unlocked free with ⟨attended, still, -⟩ | ⟨d, attended, running⟩
    · refine ⟨fun running => absurd running still, ?_⟩
      rintro ⟨c, on, -⟩
      obtain ⟨phase, there, -⟩ := (onProc c p).mp on
      cases (attended c phase).mp there
    · refine ⟨fun _ => ⟨d, (onProc d p).mpr ⟨.running, (attended d _).mpr (by simp), rfl⟩, fun c on => ?_⟩,
        fun _ => running⟩
      obtain ⟨phase, there, -⟩ := (onProc c p).mp on
      exact congrArg Prod.fst (List.mem_singleton.mp ((attended c phase).mp there))
  · have held := (scheduled.fits p).held_at (switches step before after) rfl
    refine ⟨held.saved rfl, ?_⟩
    rintro d ⟨phase, there, stack⟩
    cases List.mem_singleton.mp ((held.attended d phase).mp there)
    cases stack
  · have idle := (scheduled.fits p).idle (frees step exited freed) (by rw [exited]; simp)
    rintro c ⟨phase, there, -⟩
    cases (idle.1 c phase).mp there

def twoProcessors : Machine (Fin 2) (Fin 2) Unit where
  state := fun p => if p.val = 0 then .RUNNABLE else .UNUSED
  chan := fun _ => none
  lock := fun _ => none
  saved := fun p => p.val = 0
  forking := fun _ => none
  proc := fun _ => none
  pc := fun _ => none

/-- The first process makes a second one, which exits on the other processor: it is a `ZOMBIE` while
its processor is on its stack still, and the first one runs alone on its own. -/
theorem exited_on_its_stack : ∃ s : Machine (Fin 2) (Fin 2) Unit, Reaches Step twoProcessors s ∧
    s.state 1 = .ZOMBIE ∧ s.OnStack 1 1 ∧ ∃! c, s.proc c = some 0 := by
  have boot : AtBoot twoProcessors := by
    refine ⟨fun _ => rfl, fun _ => rfl, fun _ => rfl, fun _ => rfl, fun p => ?_⟩
    by_cases first : p.val = 0
    · obtain rfl : p = 0 := Fin.ext first
      exact Or.inr ⟨rfl, rfl⟩
    · exact Or.inl (if_neg first)
  have run : Reaches Step twoProcessors _ :=
    (((((((((((Relation.ReflTransGen.refl.tail
      (.look 0 0 rfl rfl)).tail
      (.choose 0 0 rfl rfl)).tail
      (.swtch 0 0 rfl)).tail
      (.resume 0 0 rfl)).tail
      (.allocproc 0 1 0 rfl rfl rfl rfl)).tail
      (.kfork 0 1 0 rfl rfl rfl)).tail
      (.look 1 1 rfl rfl)).tail
      (.choose 1 1 rfl rfl)).tail
      (.swtch 1 1 rfl)).tail
      (.resume 1 1 rfl)).tail
      (.acquire 1 1 rfl rfl)).tail
      (.kexit 1 1 rfl rfl)
  exact ⟨_, run, rfl, ⟨.marked, rfl, rfl⟩, ((one_processor_per_process boot run).1 0 rfl).mp rfl⟩

end Xv6.Processors
