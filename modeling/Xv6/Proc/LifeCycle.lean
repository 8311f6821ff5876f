import Xv6.Proc.Family
import Xv6.Proc.Kill
import Xv6.Proc.Processors
import Xv6.Vm.Processes

/-!
# One life cycle

The models of sleeping, of families, of killing, of processors and of memory each keep a part
of the process table. In all of them a process goes through the same states.
-/

namespace Xv6.LifeCycle

open Transition
open Function (update update_self update_of_ne update_eq_self)
open Vm (ProcState)
open Proc (Moves)

inductive Changes : ProcState → ProcState → Prop
  | allocproc : Changes .UNUSED .USED
  | moves {old new} (moves : Moves old new) : Changes old new
  | kwait : Changes .ZOMBIE .UNUSED

section States

variable {P : Type} [DecidableEq P] {s t : P → ProcState} {p : P}

/-- One process changes its state. -/
inductive Step (s : P → ProcState) : (P → ProcState) → Prop
  | change (p : P) (new : ProcState) (changes : Changes (s p) new) : Step s (update s p new)

theorem exited_until_freed (run : Reaches Step s t) (exited : s p = .ZOMBIE) :
    t p = .ZOMBIE ∨ ∃ freed, Reaches Step s freed ∧ freed p = .UNUSED ∧ Reaches Step freed t := by
  induction run with
  | refl => exact Or.inl exited
  | @tail middle last run final ih =>
    rcases ih with still | ⟨freed, before, unused, after⟩
    · obtain ⟨q, new, changes⟩ := final
      by_cases same : p = q
      · subst same
        rw [still] at changes
        cases changes with
        | moves moves => cases moves
        | kwait => exact Or.inr ⟨_, run.tail (.change p _ (by rw [still]; exact .kwait)), update_self .., .refl⟩
      · exact Or.inl (by rwa [update_of_ne same])
    · exact Or.inr ⟨freed, before, unused, after.tail final⟩

theorem Step.to {old new : ProcState} (before : s p = old) (changes : Changes old new)
    (after : t = update s p new) : Reaches Step s t := by
  subst before after
  exact .single (.change p new changes)

/-- No state changes. -/
theorem Step.stays (after : t = s) : Reaches Step s t := after ▸ .refl

theorem Step.woken (after : t = update s p (if s p = .SLEEPING then .RUNNABLE else s p)) :
    Reaches Step s t := by
  subst after
  by_cases asleep : s p = .SLEEPING
  · rw [if_pos asleep]
    exact Step.to asleep (.moves .wakeup) rfl
  · exact Step.stays (by rw [if_neg asleep, update_eq_self])

end States

/-! ## Killing -/

section Kill

open Proc

variable {n : Nat} {Caller : Type} [DecidableEq Caller] {may : Int → Prop} {t u : ProcTable n Caller}

def states (t : ProcTable n Caller) (p : Fin n) : ProcState := (t.slot p).state

omit [DecidableEq Caller] in
theorem states_set (p : Fin n) (slot : Slot) :
    states (t.set p slot) = update (states t) p slot.state := by
  funext q
  by_cases same : q = p
  · simp [states, ProcTable.set, same]
  · simp [states, ProcTable.set, same]

/-- Every step of the model of killing follows the life cycle. -/
theorem killStep_shows (step : KillStep may t u) : Reaches Step (states t) (states u) := by
  cases step with
  | allocproc p unused => exact Step.to unused .allocproc (states_set p _)
  | failed p unused =>
    refine Step.stays ((states_set p _).trans ?_)
    rw [show Slot.freeproc.state = states t p from unused.symm]
    exact update_eq_self p (states t)
  | move p state moves => exact Step.to rfl (.moves moves) (states_set p _)
  | kwait p exited => exact Step.to exited .kwait (states_set p _)
  | setkilled p running =>
    exact Step.stays ((states_set p _).trans (update_eq_self p (states t)))
  | hit k pid p here same => exact Step.woken (states_set p _)
  | kkill | miss | none => exact .refl

end Kill

/-! ## Sleeping, waking and families -/

section Families

open Proc

variable {n : Nat} {Lock Chan L D : Type}

def statesOf (s : System n Lock Chan L D) (p : Fin n) : ProcState := (s.table p).state

inductive Orderly (v v' : View n D) : Prop
  | same (lives : v'.life = v.life)
  | allocates (p : Fin n) (old : v.life p = .unused) (lives : v'.life = update v.life p .used)
  | starts (p : Fin n) (old : v.life p = .used) (lives : v'.life = update v.life p .live)
  | frees (p : Fin n) (old : v.life p = .zombie) (lives : v'.life = update v.life p .unused)

/-- Client code that changes lives in order. -/
structure OrderlyClient (c : Client n Lock Chan L D) : Prop where
  outside : ∀ p free l v l' v', c.outside p free l v l' v' → Orderly v v'
  code : ∀ p free lk l v l' v', c.code p free lk l v (.go l' v') → Orderly v v'

variable {s t : System n Lock Chan L D}

theorem statesOf_set (p : Fin n) (entry : Entry Chan) :
    statesOf (s.set p entry) = update (statesOf s) p entry.state := by
  funext q
  by_cases same : q = p
  · simp [statesOf, System.set, same]
  · simp [statesOf, System.set, same]

theorem statesOf_change {v : View n D} {p : Fin n} {new : Life}
    (lives : v.life = update s.view.life p new) (other : new ≠ s.view.life p) :
    statesOf (s.change v) = update (statesOf s) p new.state := by
  funext q
  by_cases same : q = p
  · subst same
    have differs : v.life q ≠ life (s.table q).state := by
      rw [lives, update_self]
      exact other
    simp only [statesOf, System.change, if_neg differs]
    rw [lives, update_self, update_self]
  · have kept : v.life q = life (s.table q).state := by
      rw [lives, update_of_ne same]
      rfl
    simp only [statesOf, System.change, if_pos kept, update_of_ne same]

theorem state_of_life {state : ProcState} {l : Life} (is : life state = l) (dead : l ≠ .live) :
    state = l.state := by
  subst is
  cases state <;> first | rfl | exact absurd rfl dead

/-- Lives that change in order follow the life cycle. -/
theorem Orderly.shows {v : View n D} (orderly : Orderly s.view v) :
    Reaches Step (statesOf s) (statesOf (s.change v)) := by
  cases orderly with
  | same lives =>
    have kept : statesOf (s.change v) = statesOf s := by
      funext q
      have here : v.life q = life (s.table q).state := congrFun lives q
      simp only [statesOf, System.change, if_pos here]
    exact Step.stays kept
  | allocates p old lives =>
    exact Step.to (state_of_life old (by decide)) .allocproc
      (statesOf_change lives (by rw [old]; decide))
  | starts p old lives =>
    exact Step.to (state_of_life old (by decide)) (.moves .kfork)
      (statesOf_change lives (by rw [old]; decide))
  | frees p old lives =>
    exact Step.to (state_of_life old (by decide)) .kwait
      (statesOf_change lives (by rw [old]; decide))

/-- Every step of processes that sleep and wake follows the life cycle, whatever code calls
`sleep` and `wakeup`. -/
theorem step_shows [DecidableEq Lock] [DecidableEq Chan] {c : Client n Lock Chan L D}
    (orderly : OrderlyClient c) (coherent : Coherent s) (step : Proc.Step c s t) :
    Reaches Step (statesOf s) (statesOf t) := by
  cases step with
  | outside p l l' v here running act => exact (orderly.outside _ _ _ _ _ _ act).shows
  | go p lk l l' v here act => exact (orderly.code _ _ _ _ _ _ _ act).shows
  | suspend p lk chan l here =>
    have running := coherent.fits p
    rw [here] at running
    exact Step.to running (.moves .sleep) (statesOf_set p _)
  | resume p lk chan l here runnable =>
    exact Step.to runnable (.moves .scheduler) (statesOf_set p _)
  | look p q lk chan l here other free =>
    by_cases wakes : (s.table q).state = .SLEEPING ∧ (s.table q).chan = some chan
    · refine Step.to wakes.1 (.moves .wakeup) ((statesOf_set q _).trans ?_)
      rw [Entry.wake, if_pos wakes]
      rfl
    · refine Step.stays ((statesOf_set q _).trans ?_)
      rw [Entry.wake, if_neg wakes]
      exact update_eq_self ..
  | kill p free may => exact Step.woken (statesOf_set p _)
  | yield p running here => exact Step.to running (.moves .yield) (statesOf_set p _)
  | pick p runnable here => exact Step.to runnable (.moves .scheduler) (statesOf_set p _)
  | exit p lk l l' data here act =>
    have running := coherent.fits p
    rw [here] at running
    exact Step.to running (.moves .kexit) (statesOf_set p _)
  | acquire | release | sleep | unlock | reacquire | wakeup | skip | woke | leave | gone =>
    exact .refl

theorem families_orderly : OrderlyClient (families n) := by
  refine ⟨fun p free l v l' v' act => ?_, fun p free lk l v l' v' act => ?_⟩
  · cases act with
    | allocate np unlocked unused => exact .allocates np unused rfl
    | failed np unlocked unused =>
      refine .same ?_
      simp only [View.freeproc, View.wastePid, ← unused, update_eq_self]
    | finish unlocked used => exact .starts _ used rfl
  · cases act with
    | reap pp child unlocked dead => exact .frees pp dead rfl
    | adopt | keep | orphan | tellNobody | pass | running | badAddress | noChildren | killed =>
      exact .same rfl

/-- Every run of processes that fork, exit and wait follows the life cycle. -/
theorem families_show {first s : System n Unit (Fin n) (FamilyTask n) (Family n)}
    (initially : Coherent first) (run : Reaches (Proc.Step (families n)) first s) :
    Reaches Step (statesOf first) (statesOf s) :=
  run.shows statesOf Coherent (fun _ _ coherent step => coherent.step families_tame step)
    (fun _ _ coherent step => step_shows families_orderly coherent step) initially

end Families

/-! ## Memory -/

section Memory

open Vm Command

variable {pf : Platform} {h : Holdings} {s : Kernel} {p : Nat} {stop : Panic → Prop}

/-- A call of `allocproc` is one step of the life cycle, or nothing. -/
theorem allocproc_shows (sound : Sound pf h s) :
    wp (allocproc pf) (fun _ after => Reaches Step s.states after.states) stop s := by
  refine sound.wp_allocproc ?_ ?_
  · intro after _ _ same _
    exact Step.stays same
  · intro p after unused _ others used _ _ _
    refine Step.to unused .allocproc (funext fun q => ?_)
    by_cases same : q = p
    · rw [same, update_self]
      exact used
    · rw [update_of_ne same, Kernel.states, others q same, Kernel.states]

theorem kfork_shows (sound : Sound pf h s) (live : (s.proc p).pagetable ≠ 0) :
    wp (kfork pf p) (fun _ after => Reaches Step s.states after.states) stop s := by
  refine wp_post (sound.wp_kfork live) ?_
  rintro result after ⟨-, forked⟩
  cases result with
  | none => exact Step.stays forked
  | some np =>
    obtain ⟨unused, states⟩ := forked
    refine (Step.to unused .allocproc rfl).trans (Step.to (update_self ..) (.moves .kfork) ?_)
    rw [states, Function.update_idem]

theorem kexit_shows (sound : Sound pf h s) (status : Int)
    (active : s.states p = .RUNNING ∨ s.states p = .RUNNABLE) :
    wp (kexit p status) (fun _ after => Reaches Step s.states after.states) (fun _ => True) s := by
  refine wp_post (sound.wp_kexit p status fun _ => trivial) ?_
  rintro _ after ⟨-, states⟩
  rcases active with running | runnable
  · exact Step.to running (.moves .kexit) states
  · refine (Step.to runnable (.moves .scheduler) rfl).trans
      (Step.to (update_self ..) (.moves .kexit) ?_)
    rw [states, Function.update_idem]

theorem kwait_shows (sound : Sound pf h s) (live : (s.proc p).pagetable ≠ 0) (addr : Nat) :
    wp (kwait pf p addr) (fun _ after => Reaches Step s.states after.states) stop s := by
  refine wp_post (sound.wp_kwait live addr) ?_
  rintro result after ⟨-, waited⟩
  cases result with
  | none => exact Step.stays waited
  | some q => exact Step.to waited.1 .kwait waited.2

end Memory

/-! ## Processors -/

section Processors

open Processors (Machine Scheduled)

variable {C P Chan : Type} [DecidableEq P] {s t : Machine C P Chan} {p : P}

/-- Waking a process follows the life cycle. -/
theorem wake_shows (s : Machine C P Chan) (p : P) : Reaches Step s.state (s.wake p).state := by
  by_cases asleep : s.state p = .SLEEPING
  · simp only [Machine.wake, if_pos asleep]
    exact Step.to asleep (.moves .wakeup) rfl
  · simp only [Machine.wake, if_neg asleep]
    exact .refl

variable [DecidableEq C]

/-- Every step of the processors follows the life cycle. -/
theorem processors_show (scheduled : Scheduled s) (step : Processors.Step s t) :
    Reaches Step s.state t.state := by
  cases step with
  | choose c p here runnable => exact Step.to runnable (.moves .scheduler) rfl
  | yield c p here => exact Step.to (((scheduled.fits p).held_at here rfl).runs rfl) (.moves .yield) rfl
  | sleep c p chan here outside =>
    exact Step.to (((scheduled.fits p).held_at here rfl).runs rfl) (.moves .sleep) rfl
  | kexit c p here outside =>
    exact Step.to (((scheduled.fits p).held_at here rfl).runs rfl) (.moves .kexit) rfl
  | wakeup c p chan here free waits => exact wake_shows s p
  | kkill c p q here free => exact wake_shows s p
  | kwait c p q here outside free exited => exact Step.to exited .kwait rfl
  | allocproc c np q here outside free unused => exact Step.to unused .allocproc rfl
  | kfork c np q here making free => exact Step.to (scheduled.forked q np making) (.moves .kfork) rfl
  | look | skip | swtch | resume | acquire | save | sched | clear | leave | failed => exact .refl

theorem processors_exited (scheduled : Scheduled s) (run : Reaches Processors.Step s t)
    (exited : s.state p = .ZOMBIE) : t.state p = .ZOMBIE ∨
      ∃ freed, Reaches Step s.state freed ∧ freed p = .UNUSED ∧ Reaches Step freed t.state := by
  refine exited_until_freed (run.shows Machine.state Scheduled ?_ ?_ scheduled) exited
  · exact fun _ _ scheduled step => scheduled.step step
  · exact fun _ _ scheduled step => processors_show scheduled step

end Processors

end Xv6.LifeCycle
