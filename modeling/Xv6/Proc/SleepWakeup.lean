import Mathlib.Data.Fin.Basic
import Mathlib.Logic.Function.Basic
import Xv6.Library.Transition
import Xv6.Vm.Paging

/-!
# Sleep and wakeup

The procedures `sleep`, `wakeup`, `kkill` and `yield`, the end of `kexit` and the choice of a
process by `scheduler`, at the granularity of spinlocks.
-/

namespace Xv6.Proc

open Transition
open Function (update update_of_ne update_self)
open Vm (ProcState)

structure Entry (Chan : Type) where
  state : ProcState
  chan : Option Chan
  killed : Bool

inductive Life where
  | unused
  | used
  | live
  | zombie
  deriving DecidableEq

def life : ProcState → Life
  | .UNUSED => .unused
  | .USED => .used
  | .SLEEPING | .RUNNABLE | .RUNNING => .live
  | .ZOMBIE => .zombie

def Life.state : Life → ProcState
  | .unused => .UNUSED
  | .used => .USED
  | .live => .RUNNABLE
  | .zombie => .ZOMBIE

structure View (n : Nat) (D : Type) where
  life : Fin n → Life
  killed : Fin n → Bool
  data : D

inductive Next (n : Nat) (Chan L D : Type) where
  | go (l : L) (v : View n D)
  | sleep (chan : Chan) (l : L)
  | wakeup (chan : Chan) (l : L)
  | release (l : L)
  | exit (l : L) (data : D)

/-- Code that sleeps and wakes under condition locks. -/
structure Client (n : Nat) (Lock Chan L D : Type) where
  outside : Fin n → (Fin n → Prop) → L → View n D → L → View n D → Prop
  enter : Fin n → L → View n D → Lock → L → Prop
  code : Fin n → (Fin n → Prop) → Lock → L → View n D → Next n Chan L D → Prop
  mayKill : Fin n → Option Lock → L → Prop

/-- Where a process is. -/
inductive Place (Lock Chan L : Type) where
  | outside (l : L)
  | inside (lk : Lock) (l : L)
  | waking (lk : Lock) (chan : Chan) (next : Nat) (l : L)
  | drowsy (lk : Lock) (chan : Chan) (l : L)
  | dozing (lk : Lock) (chan : Chan) (l : L)
  | sleeping (lk : Lock) (chan : Chan) (l : L)
  | returning (lk : Lock) (l : L)
  | exiting (lk : Lock) (l : L)
  | exited (l : L)

namespace Place

variable {Lock Chan L : Type}

def ownLock : Place Lock Chan L → Bool
  | .drowsy .. | .dozing .. | .exiting .. | .exited .. => true
  | _ => false

def holding : Place Lock Chan L → Option Lock
  | .inside lk _ | .waking lk _ _ _ | .drowsy lk _ _ | .exiting lk _ => some lk
  | _ => none

def inSleep : Place Lock Chan L → Bool
  | .drowsy .. | .dozing .. | .sleeping .. => true
  | _ => false

def local_ : Place Lock Chan L → L
  | .outside l | .inside _ l | .waking _ _ _ l | .drowsy _ _ l | .dozing _ _ l
  | .sleeping _ _ l | .returning _ l | .exiting _ l | .exited l => l

end Place

structure System (n : Nat) (Lock Chan L D : Type) where
  table : Fin n → Entry Chan
  place : Fin n → Place Lock Chan L
  holder : Lock → Option (Fin n)
  data : D

variable {n : Nat} {Lock Chan L D : Type}

namespace System

variable (s : System n Lock Chan L D)

def view : View n D := ⟨fun p => life (s.table p).state, fun p => (s.table p).killed, s.data⟩

def free (p : Fin n) : Prop := (s.place p).ownLock = false

def move (p : Fin n) (place : Place Lock Chan L) : System n Lock Chan L D :=
  { s with place := update s.place p place }

def set (p : Fin n) (entry : Entry Chan) : System n Lock Chan L D :=
  { s with table := update s.table p entry }

def hold [DecidableEq Lock] (lk : Lock) (p : Option (Fin n)) : System n Lock Chan L D :=
  { s with holder := update s.holder lk p }

def change (v : View n D) : System n Lock Chan L D :=
  { s with
    table := fun p =>
      if v.life p = life (s.table p).state then { s.table p with killed := v.killed p }
      else ⟨(v.life p).state, none, v.killed p⟩
    data := v.data }

end System

def Entry.wake [DecidableEq Chan] (entry : Entry Chan) (chan : Chan) : Entry Chan :=
  if entry.state = .SLEEPING ∧ entry.chan = some chan then { entry with state := .RUNNABLE } else entry

def Entry.kill (entry : Entry Chan) : Entry Chan :=
  { entry with
    killed := true
    state := if entry.state = .SLEEPING then .RUNNABLE else entry.state }

/-- One step of one process. -/
inductive Step [DecidableEq Lock] [DecidableEq Chan] (c : Client n Lock Chan L D) :
    System n Lock Chan L D → System n Lock Chan L D → Prop
  | outside {s} (p : Fin n) (l l' : L) (v : View n D) (here : s.place p = .outside l)
      (running : (s.table p).state = .RUNNING) (act : c.outside p s.free l s.view l' v) :
      Step c s ((s.change v).move p (.outside l'))
  | acquire {s} (p : Fin n) (lk : Lock) (l l' : L) (here : s.place p = .outside l)
      (running : (s.table p).state = .RUNNING) (act : c.enter p l s.view lk l')
      (unlocked : s.holder lk = none) : Step c s ((s.move p (.inside lk l')).hold lk (some p))
  | go {s} (p : Fin n) (lk : Lock) (l l' : L) (v : View n D) (here : s.place p = .inside lk l)
      (act : c.code p s.free lk l s.view (.go l' v)) :
      Step c s ((s.change v).move p (.inside lk l'))
  | release {s} (p : Fin n) (lk : Lock) (l l' : L) (here : s.place p = .inside lk l)
      (act : c.code p s.free lk l s.view (.release l')) :
      Step c s ((s.move p (.outside l')).hold lk none)
  | sleep {s} (p : Fin n) (lk : Lock) (chan : Chan) (l l' : L) (here : s.place p = .inside lk l)
      (act : c.code p s.free lk l s.view (.sleep chan l')) : Step c s (s.move p (.drowsy lk chan l'))
  | unlock {s} (p : Fin n) (lk : Lock) (chan : Chan) (l : L) (here : s.place p = .drowsy lk chan l) :
      Step c s ((s.move p (.dozing lk chan l)).hold lk none)
  | suspend {s} (p : Fin n) (lk : Lock) (chan : Chan) (l : L) (here : s.place p = .dozing lk chan l) :
      Step c s ((s.move p (.sleeping lk chan l)).set p
        { s.table p with state := .SLEEPING, chan := some chan })
  | resume {s} (p : Fin n) (lk : Lock) (chan : Chan) (l : L) (here : s.place p = .sleeping lk chan l)
      (runnable : (s.table p).state = .RUNNABLE) :
      Step c s ((s.move p (.returning lk l)).set p
        { s.table p with state := .RUNNING, chan := none })
  | reacquire {s} (p : Fin n) (lk : Lock) (l : L) (here : s.place p = .returning lk l)
      (running : (s.table p).state = .RUNNING) (unlocked : s.holder lk = none) :
      Step c s ((s.move p (.inside lk l)).hold lk (some p))
  | wakeup {s} (p : Fin n) (lk : Lock) (chan : Chan) (l l' : L) (here : s.place p = .inside lk l)
      (act : c.code p s.free lk l s.view (.wakeup chan l')) :
      Step c s (s.move p (.waking lk chan 0 l'))
  | skip {s} (p : Fin n) (lk : Lock) (chan : Chan) (l : L) (here : s.place p = .waking lk chan p l) :
      Step c s (s.move p (.waking lk chan (p + 1) l))
  | look {s} (p q : Fin n) (lk : Lock) (chan : Chan) (l : L) (here : s.place p = .waking lk chan q l)
      (other : q ≠ p) (free : s.free q) :
      Step c s ((s.move p (.waking lk chan (q + 1) l)).set q ((s.table q).wake chan))
  | woke {s} (p : Fin n) (lk : Lock) (chan : Chan) (l : L) (here : s.place p = .waking lk chan n l) :
      Step c s (s.move p (.inside lk l))
  | kill {s} (p : Fin n) (free : s.free p) (may : c.mayKill p (s.place p).holding (s.place p).local_) :
      Step c s (s.set p (s.table p).kill)
  | yield {s} (p : Fin n) (running : (s.table p).state = .RUNNING)
      (here : (∃ l, s.place p = .outside l) ∨ ∃ lk l, s.place p = .returning lk l) :
      Step c s (s.set p { s.table p with state := .RUNNABLE })
  | pick {s} (p : Fin n) (runnable : (s.table p).state = .RUNNABLE)
      (here : (∃ l, s.place p = .outside l) ∨ ∃ lk l, s.place p = .returning lk l) :
      Step c s (s.set p { s.table p with state := .RUNNING })
  | exit {s} (p : Fin n) (lk : Lock) (l l' : L) (data : D) (here : s.place p = .inside lk l)
      (act : c.code p s.free lk l s.view (.exit l' data)) :
      Step c s { (s.move p (.exiting lk l')).set p { s.table p with state := .ZOMBIE } with
        data := data }
  | leave {s} (p : Fin n) (lk : Lock) (l : L) (here : s.place p = .exiting lk l) :
      Step c s ((s.move p (.exited l)).hold lk none)
  | gone {s} (p : Fin n) (l : L) (here : s.place p = .exited l) : Step c s (s.move p (.outside l))

def Tame (free : Fin n → Prop) (v v' : View n D) : Prop :=
  ∀ p, v'.life p = v.life p ∨ free p ∧ v.life p ≠ .live ∧ v'.life p ≠ .zombie

/-- Client code that respects the process table. -/
structure Client.Tame (c : Client n Lock Chan L D) : Prop where
  outside : ∀ p free l v l' v', c.outside p free l v l' v' → Proc.Tame free v v'
  code : ∀ p free lk l v l' v', c.code p free lk l v (.go l' v') → Proc.Tame free v v'

def Fits : Place Lock Chan L → Entry Chan → Prop
  | .outside _, entry => entry.state ≠ .SLEEPING
  | .inside .., entry | .waking .., entry | .drowsy .., entry | .dozing .., entry =>
    entry.state = .RUNNING
  | .sleeping _ chan _, entry =>
    entry.state = .RUNNABLE ∨ entry.state = .SLEEPING ∧ entry.chan = some chan
  | .returning .., entry => entry.state = .RUNNING ∨ entry.state = .RUNNABLE
  | .exiting .., entry | .exited .., entry => entry.state = .ZOMBIE

def Waiting (s : System n Lock Chan L D) (p : Fin n) (lk : Lock) (chan : Chan) : Prop :=
  match s.place p with
  | .drowsy lk' chan' _ | .dozing lk' chan' _ => lk' = lk ∧ chan' = chan
  | .sleeping lk' chan' _ => lk' = lk ∧ chan' = chan ∧ (s.table p).state = .SLEEPING
  | _ => False

def Locked (holder : Lock → Option (Fin n)) (place : Fin n → Place Lock Chan L) : Prop :=
  ∀ lk p, holder lk = some p ↔ (place p).holding = some lk

structure Coherent (s : System n Lock Chan L D) : Prop where
  fits : ∀ p, Fits (s.place p) (s.table p)
  locks : Locked s.holder s.place
  passed : ∀ q lk chan i l, s.place q = .waking lk chan i l → ∀ p, p ≠ q → p.val < i →
    ¬ Waiting s p lk chan

section Coherence

variable {s t : System n Lock Chan L D} {p q : Fin n} {lk : Lock} {chan : Chan} {l : L}

theorem waiting_congr (place : t.place p = s.place p)
    (state : (t.table p).state = (s.table p).state) :
    Waiting t p lk chan ↔ Waiting s p lk chan := by
  rw [Waiting, Waiting, place, state]

theorem Coherent.waiting_live (coherent : Coherent s) (waiting : Waiting s p lk chan) :
    life (s.table p).state = .live := by
  have fits := coherent.fits p
  unfold Waiting at waiting
  split at waiting
  case h_1 here | h_2 here =>
    rw [here, Fits] at fits
    rw [fits]
    rfl
  · rw [waiting.2.2]
    rfl
  · exact waiting.elim

def Same (s t : System n Lock Chan L D) (p : Fin n) : Prop :=
  t.place p = s.place p ∧ t.table p = s.table p

theorem Same.waiting (same : Same s t p) : Waiting t p lk chan ↔ Waiting s p lk chan :=
  waiting_congr same.1 (by rw [same.2])

variable {place : Place Lock Chan L} {new : Place Lock Chan L} {entry : Entry Chan}
  {holder : Lock → Option (Fin n)} {v : View n D}

theorem same_move (other : q ≠ p) : Same s (s.move p place) q := by
  simp [Same, System.move, other]

theorem same_set (other : q ≠ p) : Same s (s.set p entry) q := by
  simp [Same, System.set, other]

theorem same_move_set (other : q ≠ p) :
    Same s ((s.move p place).set p entry) q := by
  simp [Same, System.move, System.set, other]

theorem fits_at (fits : ∀ q, Fits (s.place q) (s.table q)) (elsewhere : ∀ q, q ≠ p → Same s t q)
    (here : Fits (t.place p) (t.table p)) (q : Fin n) : Fits (t.place q) (t.table q) := by
  by_cases same : q = p
  · rw [same]
    exact here
  · rw [(elsewhere q same).1, (elsewhere q same).2]
    exact fits q

theorem change_state (same : v.life p = life (s.table p).state) :
    ((s.change v).table p).state = (s.table p).state := by
  simp [System.change, same]

theorem change_chan (same : v.life p = life (s.table p).state) :
    ((s.change v).table p).chan = (s.table p).chan := by
  simp [System.change, same]

theorem fits_state {entry entry' : Entry Chan} (state : entry'.state = entry.state)
    (chan : entry'.chan = entry.chan) (fits : Fits place entry) : Fits place entry' := by
  cases place <;> simpa only [Fits, state, chan] using fits

theorem outside_of_dead (fits : Fits (s.place p) (s.table p)) (free : s.free p)
    (dead : life (s.table p).state ≠ .live) : ∃ l, s.place p = .outside l := by
  unfold System.free at free
  cases here : s.place p with
  | outside l => exact ⟨l, rfl⟩
  | exiting lk l | exited l => simp [here, Place.ownLock] at free
  | sleeping lk chan l =>
    rw [here, Fits] at fits
    rcases fits with state | ⟨state, -⟩ <;> simp [state, life] at dead
  | returning lk l =>
    rw [here, Fits] at fits
    rcases fits with state | state <;> simp [state, life] at dead
  | _ =>
    rw [here, Fits] at fits
    simp [fits, life] at dead

theorem fits_change (fits : ∀ q, Fits (s.place q) (s.table q)) (tame : Tame s.free s.view v)
    (q : Fin n) : Fits (s.place q) ((s.change v).table q) := by
  by_cases same : v.life q = life (s.table q).state
  · exact fits_state (change_state same) (change_chan same) (fits q)
  · obtain ⟨free, dead, alive⟩ := (tame q).resolve_left same
    obtain ⟨l, here⟩ := outside_of_dead (fits q) free dead
    rw [here, Fits, System.change]
    simp only [if_neg same]
    cases new : v.life q <;> simp [Life.state, new] at alive ⊢

variable [DecidableEq Lock] [DecidableEq Chan] {c : Client n Lock Chan L D}

omit [DecidableEq Lock] in
theorem fits_wake (fits : Fits place entry) :
    Fits place (entry.wake chan) := by
  unfold Entry.wake
  split
  · rename_i asleep
    cases place <;> simp_all [Fits]
  · exact fits

omit [DecidableEq Lock] [DecidableEq Chan] in
theorem fits_kill (fits : Fits place entry) :
    Fits place entry.kill := by
  cases place <;> simp only [Fits, Entry.kill] at fits ⊢ <;> simp_all
  all_goals split <;> simp_all

theorem fits_step (tame : c.Tame) (fits : ∀ q, Fits (s.place q) (s.table q)) (step : Step c s t) :
    ∀ q, Fits (t.place q) (t.table q) := by
  cases step with
  | outside p l l' v here running act =>
    have changed := fits_change fits (tame.outside _ _ _ _ _ _ act)
    refine fits_at (s := s.change v) (p := p) changed (fun q other => same_move other) ?_
    have own := changed p
    rw [here] at own
    simpa [System.move, Fits] using own
  | go p lk l l' v here act =>
    have changed := fits_change fits (tame.code _ _ _ _ _ _ _ act)
    refine fits_at (s := s.change v) (p := p) changed (fun q other => same_move other) ?_
    have own := changed p
    rw [here] at own
    simpa [System.move, Fits] using own
  | acquire p lk l l' here running act unlocked | reacquire p lk l here running unlocked =>
    refine fits_at (p := p) fits (fun q other => same_move other) ?_
    simpa [System.move, System.hold, Fits] using running
  | release p lk l l' here act | gone p l here =>
    refine fits_at (p := p) fits (fun q other => same_move other) ?_
    have own := fits p
    rw [here, Fits] at own
    simp [System.move, System.hold, Fits, own]
  | sleep p lk chan l l' here act | wakeup p lk chan l l' here act | skip p lk chan l here
  | woke p lk chan l here | unlock p lk chan l here | leave p lk l here =>
    refine fits_at (p := p) fits (fun q other => same_move other) ?_
    have own := fits p
    rw [here, Fits] at own
    simpa [System.move, System.hold, Fits] using own
  | suspend p lk chan l here | resume p lk chan l here runnable | exit p lk l l' data here act =>
    refine fits_at (p := p) fits (fun q other => same_move_set other) ?_
    simp [System.move, System.set, Fits]
  | look p q lk chan l here other free =>
    have moved : ∀ r, Fits ((s.move p (.waking lk chan (q + 1) l)).place r) (s.table r) := by
      refine fits_at (p := p) fits (fun r other => same_move other) ?_
      have own := fits p
      rw [here, Fits] at own
      simpa [System.move, Fits] using own
    refine fits_at (s := s.move p (.waking lk chan (q + 1) l)) (p := q) moved
      (fun r other => same_set other) ?_
    have seen := fits q
    simp only [System.set, System.move, update_of_ne other, update_self]
    exact fits_wake seen
  | kill p free may =>
    refine fits_at (p := p) fits (fun q other => same_set other) ?_
    simp only [System.set, update_self]
    exact fits_kill (fits p)
  | yield p running here | pick p runnable here =>
    refine fits_at (p := p) fits (fun q other => same_set other) ?_
    rcases here with ⟨l, here⟩ | ⟨lk, l, here⟩ <;> simp [System.set, here, Fits]

omit [DecidableEq Lock] [DecidableEq Chan] in
theorem Locked.move {place : Fin n → Place Lock Chan L} (locks : Locked holder place)
    (same : new.holding = (place p).holding) : Locked holder (update place p new) := by
  intro lk q
  by_cases own : q = p
  · subst own
    rw [update_self, same]
    exact locks lk q
  · rw [update_of_ne own]
    exact locks lk q

omit [DecidableEq Chan] in
theorem Locked.release {place : Fin n → Place Lock Chan L} (locks : Locked holder place)
    (held : (place p).holding = some lk) (released : new.holding = none) :
    Locked (update holder lk none) (update place p new) := by
  intro lk' q
  have holder : holder lk = some p := (locks lk p).mpr held
  by_cases own : q = p
  · subst own
    rw [update_self, released]
    by_cases same : lk' = lk
    · subst same
      simp
    · rw [update_of_ne same, locks lk' q, held, Option.some.injEq]
      exact iff_of_false (Ne.symm same) (by simp)
  · rw [update_of_ne own]
    by_cases same : lk' = lk
    · subst same
      rw [update_self, ← locks lk' q, holder, Option.some.injEq]
      exact iff_of_false (by simp) (Ne.symm own)
    · rw [update_of_ne same]
      exact locks lk' q

omit [DecidableEq Chan] in
theorem Locked.acquire {place : Fin n → Place Lock Chan L} (locks : Locked holder place)
    (without : (place p).holding = none) (unlocked : holder lk = none)
    (acquired : new.holding = some lk) :
    Locked (update holder lk (some p)) (update place p new) := by
  intro lk' q
  by_cases own : q = p
  · subst own
    rw [update_self, acquired, Option.some.injEq]
    by_cases same : lk' = lk
    · subst same
      simp
    · rw [update_of_ne same, locks lk' q, without]
      exact iff_of_false (by simp) (Ne.symm same)
  · rw [update_of_ne own]
    by_cases same : lk' = lk
    · subst same
      rw [update_self, ← locks lk' q, unlocked, Option.some.injEq]
      exact iff_of_false (Ne.symm own) (by simp)
    · rw [update_of_ne same]
      exact locks lk' q

theorem locks_step (locks : Locked s.holder s.place) (step : Step c s t) :
    Locked t.holder t.place := by
  cases step with
  | outside p l l' v here running act | go p lk l l' v here act | sleep p lk chan l l' here act
  | suspend p lk chan l here | resume p lk chan l here runnable | wakeup p lk chan l l' here act
  | skip p lk chan l here | look p q lk chan l here other free | woke p lk chan l here
  | exit p lk l l' data here act | gone p l here => exact locks.move (by rw [here]; rfl)
  | acquire p lk l l' here running act unlocked | reacquire p lk l here running unlocked =>
    exact locks.acquire (by rw [here]; rfl) unlocked rfl
  | release p lk l l' here act | unlock p lk chan l here | leave p lk l here =>
    exact locks.release (by rw [here]; rfl) rfl
  | kill p free may => exact locks
  | yield p running here => exact locks
  | pick p runnable here => exact locks

omit [DecidableEq Lock] [DecidableEq Chan] in
theorem waiting_weaken (waiting : Waiting t p lk chan) (place : t.place p = s.place p)
    (asleep : (t.table p).state = .SLEEPING → (s.table p).state = .SLEEPING) :
    Waiting s p lk chan := by
  unfold Waiting at waiting ⊢
  rw [place] at waiting
  split at waiting
  · exact waiting
  · exact waiting
  · exact ⟨waiting.1, waiting.2.1, asleep waiting.2.2⟩
  · exact waiting

omit [DecidableEq Lock] [DecidableEq Chan] in
theorem waiting_moved (waiting : Waiting t p lk chan) (elsewhere : ∀ r, r ≠ q → Same s t r)
    (awake : ¬ Waiting t q lk chan) : Waiting s p lk chan := by
  by_cases own : p = q
  · subst own
    exact absurd waiting awake
  · exact (elsewhere p own).waiting.mp waiting

omit [DecidableEq Lock] [DecidableEq Chan] in
theorem asleep_of_change (asleep : ((s.change v).table p).state = .SLEEPING) :
    (s.table p).state = .SLEEPING := by
  by_cases same : v.life p = life (s.table p).state
  · rwa [change_state same] at asleep
  · simp only [System.change, if_neg same] at asleep
    cases new : v.life p <;> simp [new, Life.state] at asleep

omit [DecidableEq Lock] in
theorem asleep_of_wake (asleep : (entry.wake chan).state = .SLEEPING) :
    entry.state = .SLEEPING := by
  unfold Entry.wake at asleep
  split at asleep
  · simp at asleep
  · exact asleep

omit [DecidableEq Lock] [DecidableEq Chan] in
theorem not_asleep_kill (entry : Entry Chan) : entry.kill.state ≠ .SLEEPING := by
  unfold Entry.kill
  dsimp only
  split
  · simp
  · assumption

theorem waiting_step (step : Step c s t) (waiting : Waiting t p lk chan) :
    Waiting s p lk chan ∨ ∃ l l', s.place p = .inside lk l ∧ t.place p = .drowsy lk chan l' ∧
      c.code p s.free lk l s.view (.sleep chan l') := by
  cases step with
  | outside a l l' v here running act | go a lk' l l' v here act =>
    have before : Waiting (s.change v) p lk chan :=
      waiting_moved waiting (fun _ => same_move) (by simp [Waiting, System.move])
    exact Or.inl (waiting_weaken before rfl asleep_of_change)
  | sleep a lk' chan' l l' here act =>
    by_cases own : p = a
    · subst own
      simp only [Waiting, System.move, update_self] at waiting
      obtain ⟨rfl, rfl⟩ := waiting
      exact Or.inr ⟨l, l', here, by simp [System.move], act⟩
    · exact Or.inl ((same_move own).waiting.mp waiting)
  | unlock a lk' chan' l here =>
    by_cases own : p = a
    · subst own
      simp only [Waiting, System.move, System.hold, update_self] at waiting
      exact Or.inl (by simpa [Waiting, here] using waiting)
    · exact Or.inl ((same_move own).waiting.mp waiting)
  | suspend a lk' chan' l here =>
    by_cases own : p = a
    · subst own
      simp only [Waiting, System.move, System.set, update_self] at waiting
      exact Or.inl (by simpa [Waiting, here] using And.intro waiting.1 waiting.2.1)
    · exact Or.inl ((same_move_set own).waiting.mp waiting)
  | look a q lk' chan' l here other free =>
    have before : Waiting (s.move a (.waking lk' chan' (q + 1) l)) p lk chan := by
      refine waiting_weaken waiting rfl fun asleep => ?_
      by_cases seen : p = q
      · subst seen
        simp only [System.set, update_self] at asleep
        exact asleep_of_wake asleep
      · simpa [System.set, seen] using asleep
    exact Or.inl (waiting_moved before (fun _ => same_move) (by simp [Waiting, System.move]))
  | kill a free may =>
    refine Or.inl (waiting_weaken waiting rfl fun asleep => ?_)
    by_cases own : p = a
    · subst own
      simp only [System.set, update_self] at asleep
      exact absurd asleep (not_asleep_kill _)
    · simpa [System.set, own] using asleep
  | yield a running here | pick a runnable here =>
    refine Or.inl (waiting_weaken waiting rfl fun asleep => ?_)
    by_cases own : p = a
    · subst own
      simp [System.set] at asleep
    · simpa [System.set, own] using asleep
  | exit a lk' l l' data here act | resume a lk' chan' l here runnable =>
    exact Or.inl (waiting_moved waiting (fun _ => same_move_set)
      (by simp [Waiting, System.move, System.set]))
  | acquire a lk' l l' here running act unlocked | release a lk' l l' here act
  | reacquire a lk' l here running unlocked | leave a lk' l here
  | wakeup a lk' chan' l l' here act | skip a lk' chan' l here | woke a lk' chan' l here
  | gone a l here =>
    exact Or.inl (waiting_moved waiting (fun _ => same_move)
      (by simp [Waiting, System.move, System.hold]))

omit [DecidableEq Lock] [DecidableEq Chan] in
theorem waking_moved {i : Nat} (here : update s.place p new q = .waking lk chan i l)
    (away : new ≠ .waking lk chan i l) : s.place q = .waking lk chan i l := by
  by_cases own : q = p
  · subst own
    rw [update_self] at here
    exact absurd here away
  · rwa [update_of_ne own] at here

omit [DecidableEq Lock] in
theorem not_waiting_look (coherent : Coherent s) (other : q ≠ p) (free : s.free q) :
    ¬ Waiting ((s.move p new).set q ((s.table q).wake chan)) q lk chan := by
  have fits := coherent.fits q
  unfold System.free at free
  simp only [Waiting, System.set, System.move, update_of_ne other, update_self]
  cases here : s.place q with
  | drowsy lk' chan' l | dozing lk' chan' l => simp [here, Place.ownLock] at free
  | sleeping lk' chan' l =>
    rintro ⟨-, rfl, asleep⟩
    have before := asleep_of_wake asleep
    rw [here, Fits] at fits
    have on : (s.table q).chan = some chan' := by
      rcases fits with runnable | ⟨-, on⟩
      · rw [runnable] at before
        cases before
      · exact on
    simp [Entry.wake, before, on] at asleep
  | _ => simp

theorem waking_step (coherent : Coherent s) {i : Nat} (step : Step c s t)
    (here : t.place q = .waking lk chan i l) :
    s.place q = .waking lk chan i l ∨ i = 0 ∨ ∃ j, i = j + 1 ∧ s.place q = .waking lk chan j l ∧
      ∀ p, p ≠ q → p.val = j → ¬ Waiting t p lk chan := by
  cases step with
  | wakeup a lk' chan' l₁ l' at_ act =>
    by_cases own : q = a
    · subst own
      simp only [System.move, update_self, Place.waking.injEq] at here
      exact Or.inr (Or.inl here.2.2.1.symm)
    · exact Or.inl (by simpa [System.move, own] using here)
  | skip a lk' chan' l' at_ =>
    by_cases own : q = a
    · subst own
      simp only [System.move, update_self, Place.waking.injEq] at here
      obtain ⟨rfl, rfl, rfl, rfl⟩ := here
      exact Or.inr (Or.inr ⟨q, rfl, at_, fun p other same => absurd (Fin.ext same) other⟩)
    · exact Or.inl (by simpa [System.move, own] using here)
  | look a r lk' chan' l' at_ other free =>
    by_cases own : q = a
    · subst own
      simp only [System.set, System.move, update_self, Place.waking.injEq] at here
      obtain ⟨rfl, rfl, rfl, rfl⟩ := here
      refine Or.inr (Or.inr ⟨r, rfl, at_, fun p different same => ?_⟩)
      obtain rfl : p = r := Fin.ext same
      exact not_waiting_look coherent other free
    · exact Or.inl (by simpa [System.set, System.move, own] using here)
  | kill a free may | yield a running at_ | pick a runnable at_ => exact Or.inl here
  | _ => exact Or.inl (waking_moved here (by simp))

theorem Coherent.step (coherent : Coherent s) (tame : c.Tame) (step : Step c s t) :
    Coherent t := by
  refine ⟨fits_step tame coherent.fits step, locks_step coherent.locks step, ?_⟩
  intro q lk chan i l here p other before waiting
  have scan := waking_step coherent step here
  have holds : (s.place q).holding = some lk := by
    rcases scan with at_ | rfl | ⟨j, -, at_, -⟩
    · rw [at_]
      rfl
    · exact absurd before (Nat.not_lt_zero _)
    · rw [at_]
      rfl
  -- The scanning process holds the lock, so no other has called `sleep` since.
  have waited : Waiting s p lk chan := by
    refine (waiting_step step waiting).resolve_right ?_
    rintro ⟨l, l', inside, -, -⟩
    refine other ?_
    have first := (coherent.locks lk p).mpr (by rw [inside]; rfl)
    have second := (coherent.locks lk q).mpr holds
    exact Option.some.inj (first.symm.trans second)
  rcases scan with at_ | rfl | ⟨j, rfl, at_, looked⟩
  · exact coherent.passed q lk chan i l at_ p other before waited
  · exact absurd before (Nat.not_lt_zero _)
  · rcases Nat.lt_succ_iff_lt_or_eq.mp before with earlier | last
    · exact coherent.passed q lk chan j l at_ p other earlier waited
    · exact looked p other last waiting

omit [DecidableEq Lock] [DecidableEq Chan] in
theorem Waiting.ne (waiting : Waiting s p lk chan) (here : (s.place q).inSleep = false) : p ≠ q := by
  rintro rfl
  unfold Waiting at waiting
  split at waiting <;> simp_all [Place.inSleep]

omit [DecidableEq Lock] [DecidableEq Chan] in
theorem Waiting.stay (waiting : Waiting s p lk chan) (place : t.place p = s.place p)
    (asleep : (s.table p).state = .SLEEPING → (t.table p).state = .SLEEPING) :
    Waiting t p lk chan :=
  waiting_weaken waiting place.symm asleep

omit [DecidableEq Lock] in
theorem asleep_or_runnable (chan : Chan) (entry : Entry Chan) :
    (entry.state = .SLEEPING → (entry.wake chan).state = .SLEEPING) ∨
      (entry.wake chan).state = .RUNNABLE := by
  unfold Entry.wake
  split
  · exact Or.inr rfl
  · exact Or.inl id

/-- A process stops waiting only by being made `RUNNABLE`. -/
theorem waiting_ends (coherent : Coherent s) (tame : c.Tame) (step : Step c s t)
    (waiting : Waiting s p lk chan) :
    Waiting t p lk chan ∨ (t.table p).state = .RUNNABLE := by
  have live := coherent.waiting_live waiting
  have kept : ∀ v : View n D, Tame s.free s.view v → Waiting (s.change v) p lk chan := by
    intro v tamed
    refine waiting.stay rfl fun asleep => ?_
    rw [change_state ((tamed p).resolve_right fun dead => dead.2.1 live), asleep]
  cases step with
  | outside a l l' v here running act =>
    have other := waiting.ne (q := a) (by rw [here]; rfl)
    exact Or.inl ((same_move other).waiting.mpr (kept v (tame.outside _ _ _ _ _ _ act)))
  | go a lk' l l' v here act =>
    have other := waiting.ne (q := a) (by rw [here]; rfl)
    exact Or.inl ((same_move other).waiting.mpr (kept v (tame.code _ _ _ _ _ _ _ act)))
  | unlock a lk' chan' l here =>
    by_cases own : p = a
    · subst own
      exact Or.inl (by simpa [Waiting, System.move, System.hold, here] using waiting)
    · exact Or.inl ((same_move own).waiting.mpr waiting)
  | suspend a lk' chan' l here =>
    by_cases own : p = a
    · subst own
      exact Or.inl (by simpa [Waiting, System.move, System.set, here] using waiting)
    · exact Or.inl ((same_move_set own).waiting.mpr waiting)
  | resume a lk' chan' l here runnable =>
    by_cases own : p = a
    · subst own
      simp [Waiting, here, runnable] at waiting
    · exact Or.inl ((same_move_set own).waiting.mpr waiting)
  | look a q lk' chan' l here other free =>
    have away := waiting.ne (q := a) (by rw [here]; rfl)
    have moved : Waiting (s.move a (.waking lk' chan' (q + 1) l)) p lk chan :=
      (same_move away).waiting.mpr waiting
    by_cases seen : p = q
    · subst seen
      rcases asleep_or_runnable chan' (s.table p) with asleep | runnable
      · exact Or.inl (moved.stay rfl (by simpa [System.set, System.move] using asleep))
      · exact Or.inr (by simpa [System.set, System.move] using runnable)
    · exact Or.inl ((same_set seen).waiting.mpr moved)
  | kill a free may =>
    by_cases own : p = a
    · subst own
      by_cases asleep : (s.table p).state = .SLEEPING
      · exact Or.inr (by simp [System.set, Entry.kill, asleep])
      · exact Or.inl (waiting.stay rfl fun also => absurd also asleep)
    · exact Or.inl ((same_set own).waiting.mpr waiting)
  | yield a running here | pick a runnable here =>
    have other : p ≠ a := waiting.ne (by rcases here with ⟨l, here⟩ | ⟨lk, l, here⟩ <;> rw [here] <;> rfl)
    exact Or.inl ((same_set other).waiting.mpr waiting)
  | exit a lk' l l' data here act =>
    have other := waiting.ne (q := a) (by rw [here]; rfl)
    exact Or.inl ((same_move_set other).waiting.mpr waiting)
  | acquire a lk' l l' here running act unlocked | release a lk' l l' here act
  | sleep a lk' chan' l l' here act | reacquire a lk' l here running unlocked
  | wakeup a lk' chan' l l' here act | skip a lk' chan' l here | woke a lk' chan' l here
  | leave a lk' l here | gone a l here =>
    have other := waiting.ne (q := a) (by rw [here]; rfl)
    exact Or.inl ((same_move other).waiting.mpr waiting)

end Coherence

structure AtRest (s : System n Lock Chan L D) : Prop where
  outside : ∀ p, ∃ l, s.place p = .outside l
  awake : ∀ p, (s.table p).state ≠ .SLEEPING
  unlocked : ∀ lk, s.holder lk = none

theorem AtRest.coherent {s : System n Lock Chan L D} (rest : AtRest s) : Coherent s := by
  refine ⟨?_, ?_, ?_⟩
  · intro p
    obtain ⟨l, here⟩ := rest.outside p
    rw [here]
    exact rest.awake p
  · intro lk p
    obtain ⟨l, here⟩ := rest.outside p
    rw [here, rest.unlocked lk]
    exact iff_of_false (by rintro ⟨⟩) (by rintro ⟨⟩)
  · intro q lk chan i l waking
    obtain ⟨l', here⟩ := rest.outside q
    rw [here] at waking
    cases waking

variable {s t : System n Lock Chan L D} {c : Client n Lock Chan L D}

theorem coherent_run [DecidableEq Lock] [DecidableEq Chan] (tame : c.Tame) (rest : AtRest s)
    (run : Reaches (Step c) s t) :
    Coherent t :=
  run.keeps Coherent (fun _ _ coherent step => coherent.step tame step) rest.coherent

theorem waiting_paired [DecidableEq Lock] [DecidableEq Chan] (pairs : Fin n → Lock → Chan → Prop)
    (paired : ∀ p free lk l v chan l', c.code p free lk l v (.sleep chan l') → pairs p lk chan)
    (rest : AtRest s) (run : Reaches (Step c) s t) {p : Fin n} {lk : Lock} {chan : Chan}
    (waiting : Waiting t p lk chan) : pairs p lk chan := by
  refine run.keeps (fun s => ∀ p lk chan, Waiting s p lk chan → pairs p lk chan) ?_ ?_ p lk chan
    waiting
  · intro before after sofar step p lk chan waiting
    rcases waiting_step step waiting with waited | ⟨l, l', -, -, act⟩
    · exact sofar p lk chan waited
    · exact paired _ _ _ _ _ _ _ act
  · intro p lk chan waiting
    obtain ⟨l, here⟩ := rest.outside p
    simp [Waiting, here] at waiting

theorem Coherent.waiting_of_asleep {s : System n Lock Chan L D} (coherent : Coherent s) {p : Fin n}
    (asleep : (s.table p).state = .SLEEPING) :
    ∃ lk chan, (s.table p).chan = some chan ∧ Waiting s p lk chan := by
  have fits := coherent.fits p
  cases here : s.place p with
  | sleeping lk chan l =>
    rw [here, Fits, asleep] at fits
    obtain ⟨-, there⟩ := fits.resolve_left (by simp)
    exact ⟨lk, chan, there, by simp [Waiting, here, asleep]⟩
  | _ =>
    rw [here, Fits, asleep] at fits
    simp at fits

theorem waits_or_woken [DecidableEq Lock] [DecidableEq Chan] (tame : c.Tame) (coherent : Coherent s)
    (run : Reaches (Step c) s t) {p : Fin n} {lk : Lock} {chan : Chan}
    (waiting : Waiting s p lk chan) :
    Waiting t p lk chan ∨
      ∃ u, Reaches (Step c) s u ∧ Reaches (Step c) u t ∧ (u.table p).state = .RUNNABLE := by
  have both : Coherent t ∧ (Waiting t p lk chan ∨
      ∃ u, Reaches (Step c) s u ∧ Reaches (Step c) u t ∧ (u.table p).state = .RUNNABLE) := by
    induction run with
    | refl => exact ⟨coherent, Or.inl waiting⟩
    | @tail u t run step ih =>
      refine ⟨ih.1.step tame step, ?_⟩
      rcases ih.2 with waits | ⟨w, before, after, runnable⟩
      · rcases waiting_ends ih.1 tame step waits with still | runnable
        · exact Or.inl still
        · exact Or.inr ⟨t, run.tail step, .refl, runnable⟩
      · exact Or.inr ⟨w, before, after.tail step, runnable⟩
  exact both.2

theorem Coherent.none_waiting {s : System n Lock Chan L D}
    (coherent : Coherent s) {p q : Fin n} {lk : Lock} {chan : Chan} {l : L}
    (finished : s.place q = .waking lk chan n l) : ¬ Waiting s p lk chan := by
  intro waiting
  have other := waiting.ne (q := q) (by rw [finished]; rfl)
  exact coherent.passed q lk chan n l finished p other p.isLt waiting

end Xv6.Proc
