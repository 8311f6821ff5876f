import Xv6.Proc.Conditions

/-!
# Sleep-locks

The procedures of `sleeplock.c` over any number of sleep-locks and processes.
-/

namespace Xv6.Proc

open Transition
open Function (update)
open Vm (ProcState)

structure SleepLock (n : Nat) where
  locked : Bool
  pid : Option (Fin n)

/-- What a process is doing with a sleep-lock. -/
inductive LockTask where
  | idle
  | acquiring
  | acquired
  | releasing
  | unlocked
  | woken
  | checking
  deriving DecidableEq

structure LockUser (Lock : Type) where
  held : Lock → Bool
  task : LockTask

variable {n : Nat} {Lock : Type} [DecidableEq Lock]

/-- The calls start by taking the inner spinlock. -/
inductive LockCallStarts (p : Fin n) (lk : Lock) : LockUser Lock → LockUser Lock → Prop
  | acquiresleep {held} : LockCallStarts p lk ⟨held, .idle⟩ ⟨held, .acquiring⟩
  | releasesleep {held} (mine : held lk = true) :
      LockCallStarts p lk ⟨held, .idle⟩ ⟨held, .releasing⟩
  | holdingsleep {held} : LockCallStarts p lk ⟨held, .idle⟩ ⟨held, .checking⟩

def lockCode (p : Fin n) (lk : Lock) (l : LockUser Lock) (v : View n (Lock → SleepLock n)) :
    Option (Next n Lock (LockUser Lock) (Lock → SleepLock n)) :=
  match l.task with
  | .idle => none
  | .acquiring =>
    if (v.data lk).locked then some (.sleep lk l)
    else some (.go ⟨update l.held lk true, .acquired⟩
      { v with data := update v.data lk ⟨true, some p⟩ })
  | .acquired => some (.release { l with task := .idle })
  | .releasing => some (.go ⟨update l.held lk false, .unlocked⟩
      { v with data := update v.data lk ⟨false, none⟩ })
  | .unlocked => some (.wakeup lk { l with task := .woken })
  | .woken => some (.release { l with task := .idle })
  | .checking => some (.release { l with task := .idle })

def sleepLocks (n : Nat) (Lock : Type) [DecidableEq Lock] :
    Client n Lock Lock (LockUser Lock) (Lock → SleepLock n) where
  outside _ _ _ _ _ _ := False
  enter p l _ lk l' := LockCallStarts p lk l l'
  code p _ lk l v next := lockCode p lk l v = some next
  mayKill _ _ _ := True

theorem lockCode_go {p : Fin n} {lk : Lock} {l l' : LockUser Lock}
    {v v' : View n (Lock → SleepLock n)} (act : lockCode p lk l v = some (.go l' v')) :
    (l.task = .acquiring ∧ (v.data lk).locked = false ∧
        l' = ⟨update l.held lk true, .acquired⟩ ∧
        v' = { v with data := update v.data lk ⟨true, some p⟩ }) ∨
      l.task = .releasing ∧ l' = ⟨update l.held lk false, .unlocked⟩ ∧
        v' = { v with data := update v.data lk ⟨false, none⟩ } := by
  unfold lockCode at act
  split at act
  · cases act
  · rename_i task
    split at act
    · cases act
    · rename_i unlocked
      cases act
      exact Or.inl ⟨task, by simpa using unlocked, rfl, rfl⟩
  · cases act
  · rename_i task
    cases act
    exact Or.inr ⟨task, rfl, rfl⟩
  · cases act
  · cases act
  · cases act

theorem lockCode_ne_exit {p : Fin n} {lk : Lock} {l l' : LockUser Lock}
    {v : View n (Lock → SleepLock n)} {data : Lock → SleepLock n} :
    lockCode p lk l v ≠ some (.exit l' data) := by
  intro act
  unfold lockCode at act
  split at act
  · cases act
  · split at act <;> cases act
  all_goals cases act

theorem sleepLocks_tame : (sleepLocks n Lock).Tame := by
  refine ⟨fun _ _ _ _ _ _ act => act.elim, ?_⟩
  intro p free lk l v l' v' act q
  rcases lockCode_go act with ⟨-, -, -, rfl⟩ | ⟨-, -, rfl⟩ <;> exact Or.inl rfl

structure LockLocal (p : Fin n) (o : Option Lock) (l : LockUser Lock)
    (v : View n (Lock → SleepLock n)) : Prop where
  mine : ∀ lk, l.held lk = true → (v.data lk).locked = true ∧ (v.data lk).pid = some p
  releasing : ∀ lk, o = some lk → l.task = .releasing → l.held lk = true

def lockAllows (lk : Lock) (l : LockUser Lock) (v : View n (Lock → SleepLock n)) (chan : Lock) :
    Prop :=
  match l.task with
  | .unlocked => chan = lk
  | .woken => False
  | _ => chan = lk ∧ (v.data lk).locked = true

theorem lock_effect {p : Fin n} {o : Option Lock} {l : LockUser Lock}
    {v v' : View n (Lock → SleepLock n)} (effect : (sleepLocks n Lock).Effect p o l v v') :
    ∃ lk, o = some lk ∧
      ((l.task = .acquiring ∧ (v.data lk).locked = false ∧
        v' = { v with data := update v.data lk ⟨true, some p⟩ }) ∨
      l.task = .releasing ∧ v' = { v with data := update v.data lk ⟨false, none⟩ }) := by
  cases effect with
  | outside alive act => exact act.elim
  | @go free lk l v l' v' alive act =>
    refine ⟨lk, rfl, ?_⟩
    rcases lockCode_go act with ⟨task, unlocked, -, same⟩ | ⟨task, -, same⟩
    · exact Or.inl ⟨task, unlocked, same⟩
    · exact Or.inr ⟨task, same⟩
  | @exit free lk l v l' data alive act =>
    exact absurd act lockCode_ne_exit

theorem lockCode_other {p : Fin n} {lk : Lock} {l : LockUser Lock}
    {v : View n (Lock → SleepLock n)} {next : Next n Lock (LockUser Lock) (Lock → SleepLock n)}
    (act : lockCode p lk l v = some next) :
    (∀ chan l', next = .sleep chan l' → chan = lk ∧ l' = l ∧ l.task = .acquiring ∧
        (v.data lk).locked = true) ∧
      (∀ chan l', next = .wakeup chan l' → chan = lk ∧ l.task = .unlocked ∧
        l' = { l with task := .woken }) ∧
      ∀ l', next = .release l' → l' = { l with task := .idle } ∧ l.task ≠ .unlocked := by
  unfold lockCode at act
  split at act
  · cases act
  · rename_i task
    split at act
    · rename_i locked
      cases act
      refine ⟨?_, (by simp), (by simp)⟩
      rintro chan l' ⟨⟩
      exact ⟨rfl, rfl, task, locked⟩
    · cases act
      exact ⟨(by simp), (by simp), (by simp)⟩
  · rename_i task
    cases act
    refine ⟨(by simp), (by simp), ?_⟩
    rintro l' ⟨⟩
    exact ⟨rfl, by simp [task]⟩
  · cases act
    exact ⟨(by simp), (by simp), (by simp)⟩
  · rename_i task
    cases act
    refine ⟨(by simp), ?_, (by simp)⟩
    rintro chan l' ⟨⟩
    exact ⟨rfl, task, rfl⟩
  · rename_i task
    cases act
    refine ⟨(by simp), (by simp), ?_⟩
    rintro l' ⟨⟩
    exact ⟨rfl, by simp [task]⟩
  · rename_i task
    cases act
    refine ⟨(by simp), (by simp), ?_⟩
    rintro l' ⟨⟩
    exact ⟨rfl, by simp [task]⟩

def sleepLockContract (n : Nat) (Lock : Type) [DecidableEq Lock] :
    Contract (sleepLocks n Lock) where
  Inv _ := True
  Local := LockLocal
  Waits lk chan v := chan = lk ∧ (v.data lk).locked = true
  Allows := lockAllows
  effect_inv _ _ _ := trivial
  effect_local := by
    intro p o l v v' q o' l' effect _ own other _ known
    refine ⟨fun lk' holds => ?_, known.releasing⟩
    have before := known.mine lk' holds
    obtain ⟨lk, rfl, ⟨-, unlocked, rfl⟩ | ⟨releasing, rfl⟩⟩ := lock_effect effect
    · have different : lk' ≠ lk := by
        rintro rfl
        rw [unlocked] at before
        exact nomatch before.1
      simpa [different] using before
    · have different : lk' ≠ lk := by
        rintro rfl
        have mine := (own.mine lk' (own.releasing lk' rfl releasing)).2
        rw [before.2, Option.some.injEq] at mine
        exact other mine
      simpa [different] using before
  effect_waits := by
    intro p o l v v' lk chan effect _ _ other waits
    obtain ⟨lk', rfl, ⟨-, -, rfl⟩ | ⟨-, rfl⟩⟩ := lock_effect effect
    all_goals
      have different : lk ≠ lk' := fun same => other (by rw [same])
      simpa [different] using waits
  effect_allows := by
    intro p o l v v' lk l' chan effect _ _ other allows
    unfold lockAllows at allows ⊢
    obtain ⟨lk', rfl, ⟨-, -, rfl⟩ | ⟨-, rfl⟩⟩ := lock_effect effect
    all_goals
      have different : lk ≠ lk' := fun same => other (by rw [same])
      simpa [different] using allows
  kill_inv _ := trivial
  kill_own _ known := ⟨known.mine, known.releasing⟩
  kill_local _ known := ⟨known.mine, known.releasing⟩
  kill_waits waits := waits
  kill_allows allows := allows
  outside act := act.elim
  enter := by
    intro p l v lk l' act _ known
    cases act with
    | acquiresleep | holdingsleep => exact ⟨⟨known.mine, (by simp)⟩, fun _ waits => waits⟩
    | releasesleep mine =>
      refine ⟨⟨known.mine, ?_⟩, fun _ waits => waits⟩
      rintro lk' ⟨⟩ _
      exact mine
  go := by
    intro p free lk l v l' v' act _ known
    rcases lockCode_go act with ⟨task, unlocked, rfl, rfl⟩ | ⟨task, rfl, rfl⟩
    · refine ⟨⟨fun lk' holds => ?_, (by simp)⟩, fun chan allows => ?_⟩
      · by_cases same : lk' = lk
        · subst same
          simp
        · simpa [same] using known.mine lk' (by simpa [same] using holds)
      · simp [lockAllows, task, unlocked] at allows
    · refine ⟨⟨fun lk' holds => ?_, (by simp)⟩, fun chan allows => ?_⟩
      · by_cases same : lk' = lk
        · subst same
          simp at holds
        · simpa [same] using known.mine lk' (by simpa [same] using holds)
      · simp only [lockAllows, task] at allows
        exact allows.1
  wakeup := by
    intro p free lk l v chan l' act _ known
    obtain ⟨rfl, task, rfl⟩ := (lockCode_other act).2.1 chan l' rfl
    refine ⟨⟨known.mine, (by simp)⟩, fun other different allows => ?_⟩
    simp only [lockAllows, task] at allows
    exact absurd allows different
  sleep := by
    intro p free lk l v chan l' act _ known
    obtain ⟨rfl, rfl, task, locked⟩ := (lockCode_other act).1 chan l' rfl
    refine ⟨⟨known.mine, (by simp)⟩, ⟨rfl, locked⟩, fun other allows => ?_, fun v' _ known' => ?_⟩
    · simpa [lockAllows, task] using allows
    · refine ⟨⟨known'.mine, fun _ _ releasing => ?_⟩, fun other waits => ?_⟩
      · rw [task] at releasing
        cases releasing
      · simpa [lockAllows, task] using waits
  release := by
    intro p free lk l v l' act _ known
    obtain ⟨rfl, task⟩ := (lockCode_other act).2.2 l' rfl
    refine ⟨⟨known.mine, (by simp)⟩, fun chan allows => ?_⟩
    unfold lockAllows at allows
    split at allows
    · contradiction
    · exact allows.elim
    · exact allows
  exit act := absurd act lockCode_ne_exit

structure LocksAtRest (s : System n Lock Lock (LockUser Lock) (Lock → SleepLock n)) : Prop where
  rest : AtRest s
  idle : ∀ p, s.place p = .outside ⟨fun _ => false, .idle⟩
  unlocked : ∀ lk, s.data lk = ⟨false, none⟩

/-- At most one process has a sleep-lock, and none is asleep on one that is not locked. For
any code under condition locks, a process that has called `sleep(chan, lk)` is made
`RUNNABLE` before any `wakeup(chan)` by a holder of `lk` ends. -/
theorem sleep_locks_safe {s t : System n Lock Lock (LockUser Lock) (Lock → SleepLock n)}
    (start : LocksAtRest s) (run : Reaches (Step (sleepLocks n Lock)) s t) :
    (∀ p q lk, (t.place p).local_.held lk = true → (t.place q).local_.held lk = true → p = q) ∧
    (∀ p lk, t.holder lk = none → (t.table p).state = .SLEEPING → (t.table p).chan = some lk →
      (t.data lk).locked = true) ∧
    ∀ (Chan L D : Type) [DecidableEq Chan] (c : Client n Lock Chan L D), c.Tame →
      ∀ a b e : System n Lock Chan L D, AtRest a → Reaches (Step c) a b → Reaches (Step c) b e →
        ∀ p q lk chan l, Waiting b p lk chan → e.place q = .waking lk chan n l →
          ∃ u, Reaches (Step c) b u ∧ Reaches (Step c) u e ∧ (u.table p).state = .RUNNABLE := by
  have idle : ∀ p l, s.place p = .outside l → LockLocal p none l s.view := by
    intro p l here
    rw [start.idle p, Place.outside.injEq] at here
    subst here
    exact ⟨(by simp), (by simp)⟩
  obtain ⟨coherent, kept⟩ :=
    (sleepLockContract n Lock).run_kept sleepLocks_tame start.rest trivial idle run
  refine ⟨?_, ?_, ?_⟩
  · have mine : ∀ p lk, (t.place p).local_.held lk = true → (t.data lk).pid = some p := by
      intro p lk holds
      have known := kept.locals p
      cases here : t.place p <;> rw [here] at known holds
      case drowsy | dozing | sleeping | returning => exact (known.1.mine lk holds).2
      all_goals exact (known.mine lk holds).2
    intro p q lk first second
    exact Option.some.inj ((mine p lk first).symm.trans (mine q lk second))
  · intro p lk unlocked asleep on
    obtain ⟨lk', chan, there, waiting⟩ := coherent.waiting_of_asleep asleep
    have paired : chan = lk' := waiting_paired (fun _ lk chan => chan = lk)
      (fun _ _ _ _ _ _ _ act => ((lockCode_other act).1 _ _ rfl).1) start.rest run waiting
    obtain rfl : lk = chan := Option.some.inj (on.symm.trans there)
    subst paired
    exact (kept.free unlocked waiting).2
  · intro Chan L D _ c tame a b e rest first second p q lk chan l waiting finished
    have coherentB := coherent_run tame rest first
    have coherentE := coherent_run tame rest (first.trans second)
    exact (waits_or_woken tame coherentB second waiting).resolve_left
      (coherentE.none_waiting finished)

def twoProcesses : System 2 Unit Unit (LockUser Unit) (Unit → SleepLock 2) where
  table _ := ⟨.RUNNING, none, false⟩
  place _ := .outside ⟨fun _ => false, .idle⟩
  holder _ := none
  data _ := ⟨false, none⟩

/-- The second process to acquire the lock sleeps while it is locked. -/
theorem second_process_sleeps :
    ∃ t, Reaches (Step (sleepLocks 2 Unit)) twoProcesses t ∧ t.holder () = none ∧
      (t.table 1).state = .SLEEPING ∧ (t.data ()).locked = true := by
  have start : LocksAtRest twoProcesses := ⟨⟨fun _ => ⟨_, rfl⟩, (by rintro _ ⟨⟩), fun _ => rfl⟩, fun _ => rfl,
    fun _ => rfl⟩
  have run : Reaches (Step (sleepLocks 2 Unit)) twoProcesses _ :=
    ((((((Relation.ReflTransGen.refl.tail
      (.acquire 0 () _ _ rfl rfl .acquiresleep rfl)).tail
      (.go 0 () _ _ _ rfl rfl)).tail
      (.release 0 () _ _ rfl rfl)).tail
      (.acquire 1 () _ _ rfl rfl .acquiresleep rfl)).tail
      (.sleep 1 () () _ _ rfl rfl)).tail
      (.unlock 1 () () _ rfl)).tail
      (.suspend 1 () () _ rfl)
  exact ⟨_, run, rfl, rfl, (sleep_locks_safe start run).2.1 1 () rfl rfl rfl⟩

end Xv6.Proc
