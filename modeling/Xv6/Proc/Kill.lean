import Mathlib.Data.Fin.Basic
import Mathlib.Logic.Function.Basic
import Xv6.Library.Transition
import Xv6.Vm.Paging

/-!
# Killing processes

The process table as `allocproc`, `freeproc`, `kfork`, `kexit`, `kwait`, `kkill` and `setkilled`
use it, with any number of calls of `kkill` in progress.
-/

namespace Xv6.Proc

open Transition
open Vm (ProcState)

/-- The part of `struct proc` that killing uses. -/
structure Slot where
  state : ProcState
  pid : Int
  killed : Bool

def Slot.freeproc : Slot := ⟨.UNUSED, 0, false⟩

def Slot.kkill (slot : Slot) : Slot :=
  { slot with
    killed := true
    state := if slot.state = .SLEEPING then .RUNNABLE else slot.state }

inductive KillCall where
  | idle
  | looking (pid : Int) (i : Nat)
  | returned (result : Int)

inductive ProcEvent (n : Nat) where
  | allocproc (p : Fin n)
  | kkill (pid : Int) (p : Fin n)
  | setkilled (p : Fin n)
  deriving DecidableEq

structure ProcTable (n : Nat) (Caller : Type) where
  slot : Fin n → Slot
  nextpid : Int
  call : Caller → KillCall
  history : List (ProcEvent n)

inductive Moves : ProcState → ProcState → Prop
  | kfork : Moves .USED .RUNNABLE
  | scheduler : Moves .RUNNABLE .RUNNING
  | yield : Moves .RUNNING .RUNNABLE
  | sleep : Moves .RUNNING .SLEEPING
  | wakeup : Moves .SLEEPING .RUNNABLE
  | kexit : Moves .RUNNING .ZOMBIE

variable {n : Nat} {Caller : Type} [DecidableEq Caller]

namespace ProcTable

variable (t : ProcTable n Caller)

/-- Change one process. -/
def set (p : Fin n) (slot : Slot) : ProcTable n Caller :=
  { t with slot := Function.update t.slot p slot }

def goOn (k : Caller) (call : KillCall) : ProcTable n Caller :=
  { t with call := Function.update t.call k call }

/-- Remember an event. -/
def log (event : ProcEvent n) : ProcTable n Caller := { t with history := event :: t.history }

/-- `allocpid`. -/
def allocpid : ProcTable n Caller := { t with nextpid := t.nextpid + 1 }

end ProcTable

inductive KillStep (may : Int → Prop) : ProcTable n Caller → ProcTable n Caller → Prop
  | allocproc {t} (p : Fin n) (unused : (t.slot p).state = .UNUSED) :
      KillStep may t ((t.allocpid.set p ⟨.USED, t.nextpid, (t.slot p).killed⟩).log (.allocproc p))
  | failed {t} (p : Fin n) (unused : (t.slot p).state = .UNUSED) :
      KillStep may t (t.allocpid.set p .freeproc)
  | move {t} (p : Fin n) (state : ProcState) (moves : Moves (t.slot p).state state) :
      KillStep may t (t.set p { t.slot p with state := state })
  | kwait {t} (p : Fin n) (exited : (t.slot p).state = .ZOMBIE) :
      KillStep may t (t.set p .freeproc)
  | setkilled {t} (p : Fin n) (running : (t.slot p).state = .RUNNING) :
      KillStep may t ((t.set p { t.slot p with killed := true }).log (.setkilled p))
  | kkill {t} (k : Caller) (pid : Int) (allowed : may pid) :
      KillStep may t (t.goOn k (.looking pid 0))
  | miss {t} (k : Caller) (pid : Int) (p : Fin n) (here : t.call k = .looking pid p)
      (other : (t.slot p).pid ≠ pid) : KillStep may t (t.goOn k (.looking pid (p + 1)))
  | hit {t} (k : Caller) (pid : Int) (p : Fin n) (here : t.call k = .looking pid p)
      (same : (t.slot p).pid = pid) :
      KillStep may t (((t.set p (t.slot p).kkill).goOn k (.returned 0)).log (.kkill pid p))
  | none {t} (k : Caller) (pid : Int) (here : t.call k = .looking pid n) :
      KillStep may t (t.goOn k (.returned (-1)))

def Targeted (t : ProcTable n Caller) (p : Fin n) : Prop :=
  ∃ event ∈ t.history.takeWhile (· ≠ .allocproc p),
    event = .setkilled p ∨ event = .kkill (t.slot p).pid p

structure Slot.Sound (t : ProcTable n Caller) (p : Fin n) : Prop where
  unused : (t.slot p).state = .UNUSED → (t.slot p).pid = 0 ∧ (t.slot p).killed = false
  positive : (t.slot p).state ≠ .UNUSED → 0 < (t.slot p).pid
  targeted : (t.slot p).killed = true → Targeted t p

structure ProcTable.Sound (may : Int → Prop) (t : ProcTable n Caller) : Prop where
  nextpid : 0 < t.nextpid
  slots : ∀ p, Slot.Sound t p
  calls : ∀ k pid i, t.call k = .looking pid i → may pid

section Steps

variable {may : Int → Prop} {t u : ProcTable n Caller} {p q : Fin n} {event : ProcEvent n}

omit [DecidableEq Caller]

theorem mem_since (event : ProcEvent n) (history : u.history = event :: t.history)
    (other : event ≠ .allocproc p) {e : ProcEvent n} : e ∈ u.history.takeWhile (· ≠ .allocproc p) ↔
      e = event ∨ e ∈ t.history.takeWhile (· ≠ .allocproc p) := by
  rw [history, List.takeWhile_cons, if_pos (by simpa using other), List.mem_cons]

theorem Slot.Sound.frame (sound : Slot.Sound t p) (slot : u.slot p = t.slot p)
    (history : u.history = t.history ∨ ∃ event, event ≠ .allocproc p ∧
      u.history = event :: t.history) : Slot.Sound u p := by
  refine ⟨by rw [slot]; exact sound.unused, by rw [slot]; exact sound.positive, fun killed => ?_⟩
  rw [slot] at killed
  obtain ⟨e, found, which⟩ := sound.targeted killed
  refine ⟨e, ?_, by rwa [slot]⟩
  rcases history with same | ⟨event, other, more⟩
  · rwa [same]
  · exact (mem_since _ more other).mpr (Or.inr found)

theorem Slot.Sound.inUse (sound : Slot.Sound t p) (inUse : (t.slot p).state ≠ .UNUSED)
    (state : (u.slot p).state ≠ .UNUSED) (pid : (u.slot p).pid = (t.slot p).pid)
    (targeted : (u.slot p).killed = true → Targeted u p) : Slot.Sound u p :=
  ⟨fun unused => absurd unused state, fun _ => by rw [pid]; exact sound.positive inUse, targeted⟩

theorem Moves.inUse {old new : ProcState} (moves : Moves old new) : old ≠ .UNUSED ∧ new ≠ .UNUSED := by
  cases moves <;> exact ⟨(by simp), (by simp)⟩

theorem sound_freeproc (slot : u.slot p = .freeproc) : Slot.Sound u p := by
  refine ⟨?_, ?_, ?_⟩ <;> simp [slot, Slot.freeproc]

theorem ProcTable.Sound.onlyAt (sound : t.Sound may) (others : ∀ q, q ≠ p → u.slot q = t.slot q)
    (history : u.history = t.history ∨ ∃ event, (∀ q, q ≠ p → event ≠ .allocproc q) ∧
      u.history = event :: t.history) (own : Slot.Sound u p) : ∀ q, Slot.Sound u q := by
  intro q
  by_cases same : q = p
  · rw [same]
    exact own
  · refine (sound.slots q).frame (others q same) ?_
    exact history.imp_right fun ⟨event, other, more⟩ => ⟨event, other q same, more⟩

theorem set_other {slot : Slot} (other : q ≠ p) : (t.set p slot).slot q = t.slot q := by
  simp [ProcTable.set, other]

theorem ProcTable.Sound.hit (sound : t.Sound may) (positive : ¬ may 0) {k : Caller} {i : Nat}
    (here : t.call k = .looking (t.slot p).pid i) : (t.slot p).state ≠ .UNUSED := by
  intro unused
  have allowed := sound.calls _ _ _ here
  rw [((sound.slots p).unused unused).1] at allowed
  exact positive allowed

variable [DecidableEq Caller]

theorem ProcTable.Sound.goOn (sound : t.Sound may) {k : Caller} {call : KillCall}
    (allowed : ∀ pid i, call = .looking pid i → may pid) (k' : Caller) (pid : Int) (i : Nat)
    (here : (t.goOn k call).call k' = .looking pid i) : may pid := by
  by_cases same : k' = k
  · subst same
    exact allowed pid i (by simpa [ProcTable.goOn] using here)
  · exact sound.calls k' pid i (by simpa [ProcTable.goOn, same] using here)

theorem ProcTable.Sound.step (sound : t.Sound may) (positive : ¬ may 0) (step : KillStep may t u) :
    u.Sound may := by
  have nextpid := sound.nextpid
  cases step with
  | allocproc p unused =>
    refine ⟨Int.lt_trans nextpid (Int.lt_succ _), ?_, sound.calls⟩
    refine sound.onlyAt (p := p) (fun q other => set_other other)
      (Or.inr ⟨_, fun q other => by simpa using other.symm, rfl⟩) ?_
    have fresh := ((sound.slots p).unused unused).2
    refine ⟨?_, ?_, ?_⟩ <;> simp [ProcTable.log, ProcTable.set, ProcTable.allocpid, fresh, nextpid]
  | failed p unused =>
    refine ⟨Int.lt_trans nextpid (Int.lt_succ _), ?_, sound.calls⟩
    exact sound.onlyAt (fun q other => set_other other) (Or.inl rfl)
      (sound_freeproc (p := p) (by simp [ProcTable.set]))
  | move p state moves =>
    refine ⟨nextpid, sound.onlyAt (p := p) (fun q other => set_other other) (Or.inl rfl) ?_,
      sound.calls⟩
    refine (sound.slots p).inUse moves.inUse.1 (by simpa [ProcTable.set] using moves.inUse.2)
      (by simp [ProcTable.set]) fun killed => ?_
    obtain ⟨e, found, which⟩ := (sound.slots p).targeted (by simpa [ProcTable.set] using killed)
    exact ⟨e, found, by simpa [ProcTable.set] using which⟩
  | kwait p exited =>
    refine ⟨nextpid, ?_, sound.calls⟩
    exact sound.onlyAt (fun q other => set_other other) (Or.inl rfl)
      (sound_freeproc (p := p) (by simp [ProcTable.set]))
  | setkilled p running =>
    refine ⟨nextpid, sound.onlyAt (p := p) (fun q other => set_other other)
      (Or.inr ⟨.setkilled p, fun _ _ => (by simp), rfl⟩) ?_, sound.calls⟩
    refine (sound.slots p).inUse (by simp [running]) (by simp [ProcTable.set, ProcTable.log, running])
      (by simp [ProcTable.set, ProcTable.log]) fun _ => ?_
    exact ⟨.setkilled p, (mem_since (.setkilled p) rfl (by simp)).mpr (Or.inl rfl), Or.inl rfl⟩
  | kkill k pid allowed =>
    refine ⟨nextpid, fun q => (sound.slots q).frame rfl (Or.inl rfl), sound.goOn ?_⟩
    rintro _ _ ⟨⟩
    exact allowed
  | miss k pid p here other =>
    refine ⟨nextpid, fun q => (sound.slots q).frame rfl (Or.inl rfl), sound.goOn ?_⟩
    rintro _ _ ⟨⟩
    exact sound.calls k pid p here
  | hit k pid p here same =>
    subst same
    have inUse := sound.hit positive here
    refine ⟨nextpid, sound.onlyAt (p := p) (fun q other => set_other other)
      (Or.inr ⟨.kkill (t.slot p).pid p, fun _ _ => (by simp), rfl⟩) ?_, sound.goOn (by simp)⟩
    refine (sound.slots p).inUse inUse ?_ ?_ fun _ => ?_
    · simp only [ProcTable.set, ProcTable.goOn, ProcTable.log, Function.update_self, Slot.kkill]
      split
      · simp
      · exact inUse
    · simp [ProcTable.set, ProcTable.goOn, ProcTable.log, Slot.kkill]
    · refine ⟨.kkill (t.slot p).pid p,
        (mem_since (.kkill (t.slot p).pid p) rfl (by simp)).mpr (Or.inl rfl), Or.inr ?_⟩
      simp [ProcTable.set, ProcTable.goOn, ProcTable.log, Slot.kkill]
  | none k pid here =>
    exact ⟨nextpid, fun q => (sound.slots q).frame rfl (Or.inl rfl), sound.goOn (by simp)⟩

theorem ProcTable.Sound.fresh (sound : t.Sound may) (positive : ¬ may 0) (step : KillStep may t u)
    (unused : (t.slot p).state = .UNUSED) (used : (u.slot p).state = .USED) :
    (u.slot p).killed = false := by
  have changed : u.slot p ≠ t.slot p := by
    intro same
    rw [same, unused] at used
    cases used
  cases step with
  | allocproc q _ =>
    obtain rfl : p = q := by_contra fun other => changed (set_other other)
    simpa [ProcTable.set, ProcTable.log] using ((sound.slots p).unused unused).2
  | failed q _ | kwait q exited =>
    obtain rfl : p = q := by_contra fun other => changed (set_other other)
    simp [ProcTable.set, Slot.freeproc]
  | move q state moves =>
    obtain rfl : p = q := by_contra fun other => changed (set_other other)
    exact absurd unused moves.inUse.1
  | setkilled q running =>
    obtain rfl : p = q := by_contra fun other => changed (set_other other)
    rw [unused] at running
    cases running
  | hit k pid q here same =>
    obtain rfl : p = q := by_contra fun other => changed (set_other other)
    subst same
    exact absurd unused (sound.hit positive here)
  | kkill k pid allowed | miss k pid q here other | none k pid here => exact absurd rfl changed

theorem hit_of_returned {k : Caller} {pid : Int} {i : Nat} (step : KillStep may t u)
    (here : t.call k = .looking pid i) (returned : u.call k = .returned 0) :
    ∃ p : Fin n, i = p ∧ (t.slot p).pid = pid := by
  have changed : u.call k ≠ t.call k := by
    rw [here, returned]
    simp
  have kept : ∀ {k' : Caller} {call : KillCall}, k ≠ k' → (t.goOn k' call).call k = t.call k :=
    fun other => by simp [ProcTable.goOn, other]
  cases step with
  | kkill k' pid' allowed | miss k' pid' q there other | none k' pid' there =>
    obtain rfl : k = k' := by_contra fun other => changed (kept other)
    simp [ProcTable.goOn] at returned
  | hit k' pid' q there same =>
    obtain rfl : k = k' := by_contra fun other => changed (kept other)
    rw [here, KillCall.looking.injEq] at there
    exact ⟨q, there.2, by rw [same, there.1]⟩
  | _ => exact absurd rfl changed

end Steps

def emptyTable (n : Nat) (Caller : Type) : ProcTable n Caller where
  slot _ := .freeproc
  nextpid := 1
  call _ := .idle
  history := []

/-- In every run in which `kkill` is never called with 0: a process that is killed was
the target of `kkill` with its own number or of `setkilled` since its `allocproc`; a
process that `allocproc` returns is not killed; and `kkill` returns 0 only if a
process in use has the number. -/
theorem kills_are_targeted {t : ProcTable n Caller}
    (run : Reaches (KillStep (· ≠ 0)) (emptyTable n Caller) t) :
    (∀ p, (t.slot p).killed = true → (t.slot p).state ≠ .UNUSED ∧ Targeted t p) ∧
    (∀ u p, KillStep (· ≠ 0) t u → (t.slot p).state = .UNUSED → (u.slot p).state = .USED →
      (u.slot p).killed = false) ∧
    ∀ u k pid i, KillStep (· ≠ 0) t u → t.call k = .looking pid i → u.call k = .returned 0 →
      ∃ p, (t.slot p).state ≠ .UNUSED ∧ (t.slot p).pid = pid := by
  have start : (emptyTable n Caller).Sound (· ≠ 0) :=
    ⟨Int.one_pos, fun _ => sound_freeproc rfl, nofun⟩
  have sound : t.Sound (· ≠ 0) :=
    run.keeps (ProcTable.Sound (· ≠ 0)) (fun _ _ sound step => sound.step (by simp) step) start
  refine ⟨fun p killed => ⟨fun unused => ?_, (sound.slots p).targeted killed⟩, ?_, ?_⟩
  · rw [((sound.slots p).unused unused).2] at killed
    cases killed
  · exact fun u p step unused used => sound.fresh (by simp) step unused used
  · intro u k pid i step here returned
    obtain ⟨p, -, rfl⟩ := hit_of_returned step here returned
    exact ⟨p, sound.hit (by simp) here, rfl⟩

/-- The first process kills itself by its own number. -/
theorem first_process_killed :
    ∃ t, Reaches (KillStep (· ≠ 0)) (emptyTable 2 Unit) t ∧ (t.slot 0).killed = true ∧
      Targeted t 0 := by
  have run : Reaches (KillStep (· ≠ 0)) (emptyTable 2 Unit) _ :=
    ((((Relation.ReflTransGen.refl.tail
      (.allocproc 0 rfl)).tail
      (.move 0 .RUNNABLE .kfork)).tail
      (.move 0 .RUNNING .scheduler)).tail
      (.kkill () 1 (by decide))).tail
      (.hit () 1 0 rfl rfl)
  exact ⟨_, run, rfl, ((kills_are_targeted run).1 0 rfl).2⟩

/-- If `kkill` is called with 0, it marks an unused process and returns 0, and the next process that
is forked there starts killed, though nothing has targeted it. -/
theorem born_killed :
    ∃ t, Reaches (KillStep fun _ => True) (emptyTable 2 Unit) t ∧ t.call () = .returned 0 ∧
      (t.slot 1).state = .USED ∧ (t.slot 1).killed = true ∧ ¬ Targeted t 1 := by
  have run : Reaches (KillStep fun _ => True) (emptyTable 2 Unit) _ :=
    ((((((Relation.ReflTransGen.refl.tail
      (.allocproc 0 rfl)).tail
      (.move 0 .RUNNABLE .kfork)).tail
      (.move 0 .RUNNING .scheduler)).tail
      (.kkill () 0 trivial)).tail
      (.miss () 0 0 rfl (by decide))).tail
      (.hit () 0 1 rfl rfl)).tail
      (.allocproc 1 rfl)
  refine ⟨_, run, rfl, rfl, rfl, ?_⟩
  rintro ⟨e, found, -⟩
  simp [ProcTable.log] at found

end Xv6.Proc
