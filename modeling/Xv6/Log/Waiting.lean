import Mathlib.Data.Finset.Card
import Xv6.Log.GroupCommit
import Xv6.Proc.Conditions

/-!
# Waiting for the log

`begin_op`, `log_write`, `end_op` and `commit` as code that sleeps and wakes under `log.lock`,
for any number of processes.
-/

namespace Xv6.GroupCommit

open Transition
open Proc (View Next Client Contract AtRest)

/-- Where a process is in the code of the log. -/
inductive LogTask where
  | idle
  | beginning
  | begun
  | operating
  | logging (number : Nat)
  | logged
  | ending
  | leaving
  | left
  | closing
  | committing
  | committed
  | finishing
  | reopened
  | woken

structure LogUse (n : Nat) where
  log : Log
  ops : Finset (Fin n)
  committer : Option (Fin n)

variable {n : Nat}

/-- The steps that change the log. -/
inductive Change (p : Fin n) : LogTask → LogUse n → LogTask → LogUse n → Prop
  | enter {d : LogUse n} {log : Log} (room : beginOp d.log = some log) :
      Change p .beginning d .begun { d with log := log, ops := insert p d.ops }
  | write {d : LogUse n} {log : Log} {number : Nat} (wrote : logWrite d.log number = .ok log) :
      Change p (.logging number) d .logged { d with log := log }
  | leave {d : LogUse n} {log : Log} (ended : endOp d.log = .ok (log, false)) :
      Change p .ending d .leaving { d with log := log, ops := d.ops.erase p }
  | last {d : LogUse n} {log : Log} (ended : endOp d.log = .ok (log, true)) :
      Change p .ending d .closing ⟨log, d.ops.erase p, some p⟩
  | reopen {d : LogUse n} :
      Change p .finishing d .reopened
        { d with log := { d.log with committing := false }, committer := none }

/-- `commit` erases the transaction. -/
inductive Commits : LogTask → LogUse n → LogTask → LogUse n → Prop
  | erase {d : LogUse n} :
      Commits .committing d .committed { d with log := { d.log with blocks := [] } }

inductive LogCallStarts : LogTask → LogTask → Prop
  | begin_op : LogCallStarts .idle .beginning
  | log_write (number : Nat) : LogCallStarts .operating (.logging number)
  | end_op : LogCallStarts .operating .ending
  | again : LogCallStarts .committed .finishing

/-- The bodies of the calls under `log.lock`. -/
inductive LogCode (p : Fin n) (v : View n (LogUse n)) :
    LogTask → Next n Unit LogTask (LogUse n) → Prop
  | change {l l' d} (change : Change p l v.data l' d) : LogCode p v l (.go l' { v with data := d })
  | wait (full : beginOp v.data.log = none) : LogCode p v .beginning (.sleep () .beginning)
  | begun : LogCode p v .begun (.release .operating)
  | logged : LogCode p v .logged (.release .operating)
  | wake : LogCode p v .leaving (.wakeup () .left)
  | left : LogCode p v .left (.release .idle)
  | closing : LogCode p v .closing (.release .committing)
  | wakeAll : LogCode p v .reopened (.wakeup () .woken)
  | woken : LogCode p v .woken (.release .idle)

def logUsers (n : Nat) : Client n Unit Unit LogTask (LogUse n) where
  outside _ _ l v l' v' := ∃ d, Commits l v.data l' d ∧ v' = { v with data := d }
  enter _ l _ _ l' := LogCallStarts l l'
  code p _ _ l v next := LogCode p v l next
  mayKill _ _ _ := True

theorem logUsers_tame : (logUsers n).Tame := by
  refine ⟨fun p free l v l' v' act q => ?_, fun p free lk l v l' v' act q => ?_⟩
  · obtain ⟨d, -, rfl⟩ := act
    exact Or.inl rfl
  · cases act
    exact Or.inl rfl

def LogTask.Operates : LogTask → Prop
  | .begun | .operating | .logging _ | .logged | .ending => True
  | _ => False

def LogTask.Closes : LogTask → Prop
  | .closing | .committing | .committed | .finishing => True
  | _ => False

def LogTask.Cleared : LogTask → Prop
  | .committed | .finishing => True
  | _ => False

/-- What holds of the log at any time. -/
structure Balanced (d : LogUse n) : Prop where
  counted : d.log.outstanding = d.ops.card
  closing : d.log.committing = true ↔ d.committer.isSome
  alone : d.log.committing = true → d.ops = ∅
  empty : d.ops = ∅ → d.log.committing = false → d.log.blocks = []

/-- What holds of a process. -/
structure Role (p : Fin n) (l : LogTask) (d : LogUse n) : Prop where
  operates : l.Operates ↔ p ∈ d.ops
  closes : l.Closes ↔ d.committer = some p
  cleared : l.Cleared → d.log.blocks = []

def Alters (p : Fin n) (l : LogTask) (d : LogUse n) (l' : LogTask) (d' : LogUse n) : Prop :=
  Change p l d l' d' ∨ Commits l d l' d'

section Alters

variable {p q : Fin n} {l l' other : LogTask} {d d' : LogUse n}

theorem Role.closed (role : Role p l d) (balanced : Balanced d) (closes : l.Closes) :
    d.log.committing = true ∧ d.ops = ∅ := by
  have on : d.log.committing = true := by
    rw [balanced.closing, role.closes.mp closes]
    rfl
  exact ⟨on, balanced.alone on⟩

theorem Role.opened (role : Role p l d) (balanced : Balanced d) (operates : l.Operates) :
    d.log.committing = false ∧ d.committer = none ∧ p ∈ d.ops := by
  have member := role.operates.mp operates
  have off : d.log.committing = false := by
    rw [← Bool.not_eq_true]
    intro on
    rw [balanced.alone on] at member
    exact absurd member (Finset.notMem_empty p)
  refine ⟨off, ?_, member⟩
  cases committer : d.committer with
  | none => rfl
  | some r =>
    have on := balanced.closing.mpr (by rw [committer]; rfl)
    rw [off] at on
    cases on

theorem Alters.balanced (alters : Alters p l d l' d') (balanced : Balanced d) (role : Role p l d) :
    Balanced d' := by
  rcases alters with change | commits
  · cases change with
    | enter room =>
      obtain ⟨off, rfl⟩ := beginOp_some room
      have fresh : p ∉ d.ops := fun member => role.operates.mpr member
      refine ⟨?_, balanced.closing, fun on => ?_, fun none => ?_⟩
      · simp only [Finset.card_insert_of_notMem fresh, balanced.counted]
        push_cast
        rfl
      · simp only [off] at on
        cases on
      · exact absurd none (Finset.insert_ne_empty p d.ops)
    | write wrote =>
      obtain ⟨-, -, rfl⟩ := logWrite_ok wrote
      obtain ⟨off, -, member⟩ := role.opened balanced trivial
      exact ⟨balanced.counted, balanced.closing, balanced.alone, fun none =>
        absurd member (by simp only at none; rw [none]; exact Finset.notMem_empty p)⟩
    | leave ended =>
      obtain ⟨off, verdict, rfl⟩ := endOp_ok ended
      obtain ⟨-, committer, member⟩ := role.opened balanced trivial
      have counted := balanced.counted
      have card := Finset.card_erase_add_one member
      refine ⟨by simp only; omega, ?_, (by simp), fun none => ?_⟩
      · simp only [committer]
        exact ⟨(by simp), (by simp)⟩
      · simp only at none
        rw [none, Finset.card_empty] at card
        exact absurd (verdict.mpr (by omega)) (by simp)
    | last ended =>
      obtain ⟨off, verdict, rfl⟩ := endOp_ok ended
      obtain ⟨-, -, member⟩ := role.opened balanced trivial
      have counted := balanced.counted
      have card := Finset.card_erase_add_one member
      have zero := verdict.mp rfl
      refine ⟨by simp only; omega, ⟨fun _ => rfl, fun _ => rfl⟩, fun _ => ?_, fun _ => (by simp)⟩
      have none : (d.ops.erase p).card = 0 := by omega
      exact Finset.card_eq_zero.mp none
    | reopen =>
      obtain ⟨-, none⟩ := role.closed balanced trivial
      exact ⟨balanced.counted, ⟨(by simp), (by simp)⟩, (by simp), fun _ _ => role.cleared trivial⟩
  · cases commits with
    | erase => exact ⟨balanced.counted, balanced.closing, balanced.alone, fun _ _ => rfl⟩

theorem Alters.own (alters : Alters p l d l' d') (role : Role p l d) : Role p l' d' := by
  rcases alters with change | commits
  · cases change with
    | enter room =>
      obtain ⟨off, rfl⟩ := beginOp_some room
      exact ⟨⟨fun _ => Finset.mem_insert_self .., fun _ => trivial⟩, role.closes, (by rintro ⟨⟩)⟩
    | write wrote =>
      obtain ⟨-, -, rfl⟩ := logWrite_ok wrote
      exact ⟨role.operates, role.closes, (by rintro ⟨⟩)⟩
    | leave ended => exact ⟨⟨(by rintro ⟨⟩), fun member => absurd member (Finset.notMem_erase p _)⟩,
        role.closes, (by rintro ⟨⟩)⟩
    | last ended => exact ⟨⟨(by rintro ⟨⟩), fun member => absurd member (Finset.notMem_erase p _)⟩,
        ⟨fun _ => rfl, fun _ => trivial⟩, (by rintro ⟨⟩)⟩
    | reopen => exact ⟨role.operates, ⟨(by rintro ⟨⟩), (by rintro ⟨⟩)⟩, (by rintro ⟨⟩)⟩
  · cases commits with
    | erase => exact ⟨role.operates, role.closes, fun _ => rfl⟩

theorem Alters.others (alters : Alters p l d l' d') (balanced : Balanced d) (role : Role p l d)
    (different : q ≠ p) (known : Role q other d) : Role q other d' := by
  rcases alters with change | commits
  · cases change with
    | enter room =>
      obtain ⟨off, rfl⟩ := beginOp_some room
      refine ⟨?_, known.closes, known.cleared⟩
      rw [Finset.mem_insert, or_iff_right different]
      exact known.operates
    | write wrote =>
      obtain ⟨-, -, rfl⟩ := logWrite_ok wrote
      obtain ⟨-, -, member⟩ := role.opened balanced trivial
      refine ⟨known.operates, known.closes, fun cleared => ?_⟩
      have closes : other.Closes := by
        cases other <;> trivial
      obtain ⟨-, none⟩ := known.closed balanced closes
      rw [none] at member
      exact absurd member (Finset.notMem_empty p)
    | leave ended =>
      obtain ⟨off, -, rfl⟩ := endOp_ok ended
      refine ⟨?_, known.closes, known.cleared⟩
      rw [Finset.mem_erase, and_iff_right different]
      exact known.operates
    | last ended =>
      obtain ⟨off, -, rfl⟩ := endOp_ok ended
      obtain ⟨-, committer, -⟩ := role.opened balanced trivial
      refine ⟨?_, ?_, known.cleared⟩
      · rw [Finset.mem_erase, and_iff_right different]
        exact known.operates
      · rw [known.closes, committer, Option.some.injEq]
        exact ⟨(by simp), fun same => absurd same.symm different⟩
    | reopen =>
      refine ⟨known.operates, ?_, known.cleared⟩
      rw [known.closes, role.closes.mp trivial, Option.some.injEq]
      exact ⟨fun same => absurd same.symm different, (by simp)⟩
  · cases commits with
    | erase => exact ⟨known.operates, known.closes, fun _ => rfl⟩

end Alters

def LogAllows (l : LogTask) (d : LogUse n) : Prop :=
  match l with
  | .leaving | .reopened => True
  | .left | .woken => False
  | _ => beginOp d.log = none

theorem beginOp_committing {log : Log} (on : log.committing = true) : beginOp log = none := by
  simp only [beginOp, on, ↓reduceIte]

theorem beginOp_none {log : Log} : beginOp log = none ↔ log.committing = true ∨
    (log.blocks.length : Int) + (log.outstanding + 1) * MAXOPBLOCKS > LOGBLOCKS := by
  unfold beginOp
  split
  · rename_i on
    exact ⟨fun _ => Or.inl on, fun _ => rfl⟩
  · rename_i off
    rw [or_iff_right off]
    split <;> simp_all

theorem length_le_absorb (number : Nat) (blocks : List Nat) :
    blocks.length ≤ (absorb number blocks).length := by
  induction blocks with
  | nil => exact Nat.zero_le _
  | cons entry rest ih =>
    unfold absorb
    split
    · exact Nat.le_refl _
    · exact Nat.succ_le_succ ih

theorem Change.allows {p : Fin n} {l l' : LogTask} {d d' : LogUse n} (change : Change p l d l' d')
    (before : LogAllows l d) : LogAllows l' d' := by
  cases change with
  | enter room =>
    have full : beginOp d.log = none := before
    rw [full] at room
    cases room
  | @write _ _ number wrote =>
    obtain ⟨-, -, rfl⟩ := logWrite_ok wrote
    have full : beginOp d.log = none := before
    refine beginOp_none.mpr ((beginOp_none.mp full).imp_right fun tight => ?_)
    have longer := length_le_absorb number d.log.blocks
    simp only [MAXOPBLOCKS, LOGBLOCKS] at tight ⊢
    omega
  | leave ended => trivial
  | last ended =>
    obtain ⟨-, -, rfl⟩ := endOp_ok ended
    exact beginOp_committing rfl
  | reopen => trivial

theorem log_effect {p : Fin n} {o : Option Unit} {l : LogTask} {v v' : View n (LogUse n)}
    (effect : (logUsers n).Effect p o l v v') : ∃ l' d, Alters p l v.data l' d ∧
      v' = { v with data := d } ∧ (o = none → Commits l v.data l' d) := by
  cases effect with
  | outside alive act =>
    obtain ⟨d, commits, rfl⟩ := act
    exact ⟨_, d, Or.inr commits, rfl, fun _ => commits⟩
  | go alive act =>
    cases act with
    | change change => exact ⟨_, _, Or.inl change, rfl, (by simp)⟩
  | exit alive act => cases act

theorem Commits.full {p : Fin n} {l l' : LogTask} {d d' : LogUse n} (commits : Commits l d l' d')
    (balanced : Balanced d) (role : Role p l d) : beginOp d'.log = none := by
  cases commits with
  | erase => exact beginOp_committing (role.closed balanced trivial).1

def logContract (n : Nat) : Contract (logUsers n) where
  Inv v := Balanced v.data
  Local p _ l v := Role p l v.data
  Waits _ _ v := beginOp v.data.log = none
  Allows _ l v _ := LogAllows l v.data
  effect_inv := by
    intro p o l v v' effect balanced role
    obtain ⟨l', d, alters, rfl, -⟩ := log_effect effect
    exact alters.balanced balanced role
  effect_local := by
    intro p o l v v' q o' other effect balanced role different _ known
    obtain ⟨l', d, alters, rfl, -⟩ := log_effect effect
    exact alters.others balanced role different known
  effect_waits := by
    intro p o l v v' lk chan effect balanced role apart _
    obtain ⟨l', d, -, rfl, outside⟩ := log_effect effect
    have none : o = none := Option.eq_none_iff_forall_ne_some.mpr fun _ => apart
    exact (outside none).full balanced role
  effect_allows := by
    intro p o l v v' lk other chan effect balanced role apart before
    obtain ⟨l', d, -, rfl, outside⟩ := log_effect effect
    have none : o = none := Option.eq_none_iff_forall_ne_some.mpr fun _ => apart
    have full := (outside none).full balanced role
    cases other <;> first | exact full | exact before
  kill_inv balanced := balanced
  kill_own _ role := role
  kill_local _ known := known
  kill_waits waits := waits
  kill_allows allows := allows
  outside := by
    intro p free l v l' v' act balanced role
    obtain ⟨d, commits, rfl⟩ := act
    exact (Alters.own (Or.inr commits) role)
  enter := by
    intro p l v lk l' act balanced role
    cases act with
    | begin_op | log_write number | end_op =>
      exact ⟨⟨role.operates, role.closes, (by rintro ⟨⟩)⟩, fun _ waits => waits⟩
    | again => exact ⟨⟨role.operates, role.closes, role.cleared⟩, fun _ waits => waits⟩
  go := by
    intro p free lk l v l' v' act balanced role
    cases act with
    | change change => exact ⟨Alters.own (Or.inl change) role, fun _ => change.allows⟩
  wakeup := by
    intro p free lk l v chan l' act balanced role
    cases act with
    | wake | wakeAll =>
      exact ⟨⟨role.operates, role.closes, (by rintro ⟨⟩)⟩, fun _ different => absurd rfl different⟩
  sleep := by
    intro p free lk l v chan l' act balanced role
    cases act with
    | wait full =>
      exact ⟨role, full, fun _ allows => allows, fun v' _ role' => ⟨role', fun _ waits => waits⟩⟩
  release := by
    intro p free lk l v l' act balanced role
    cases act with
    | begun | logged | closing =>
      exact ⟨⟨role.operates, role.closes, (by rintro ⟨⟩)⟩, fun _ allows => allows⟩
    | left | woken =>
      exact ⟨⟨role.operates, role.closes, (by rintro ⟨⟩)⟩, fun _ allows => allows.elim⟩
  exit := by
    intro p free lk l v l' data act
    cases act

/-- The log after boot, with no process in its code. -/
structure LogAtRest (s : Proc.System n Unit Unit LogTask (LogUse n)) : Prop where
  rest : AtRest s
  idle : ∀ p, s.place p = .outside .idle
  booted : s.data = ⟨⟨0, false, []⟩, ∅, none⟩

/-- No process waits for an idle log. In every run from boot, in every state in
which `log.lock` is free: while a process is asleep in `begin_op`, there is an
operation or a commit, and if there is no commit then one more operation might not
fit. -/
theorem begin_op_waits_for_busy_log {s t : Proc.System n Unit Unit LogTask (LogUse n)}
    (start : LogAtRest s) (run : Reaches (Proc.Step (logUsers n)) s t) (free : t.holder () = none)
    (p : Fin n) (asleep : (t.table p).state = .SLEEPING) :
    (0 < t.data.log.outstanding ∨ t.data.log.committing = true) ∧
    (t.data.log.committing = false →
      (t.data.log.blocks.length : Int) + (t.data.log.outstanding + 1) * MAXOPBLOCKS >
        LOGBLOCKS) := by
  have balanced : Balanced s.data := by
    rw [start.booted]
    exact ⟨rfl, ⟨(by simp), (by simp)⟩, (by simp), fun _ _ => rfl⟩
  have idle : ∀ p l, s.place p = .outside l → Role p l s.data := by
    intro p l here
    rw [start.idle p, Proc.Place.outside.injEq] at here
    subst here
    rw [start.booted]
    exact ⟨⟨(by rintro ⟨⟩), fun member => absurd member (Finset.notMem_empty p)⟩, ⟨(by rintro ⟨⟩), (by rintro ⟨⟩)⟩, (by rintro ⟨⟩)⟩
  obtain ⟨coherent, kept⟩ :=
    (logContract n).run_kept logUsers_tame start.rest balanced idle run
  have later : Balanced t.data := kept.inv
  obtain ⟨lk, chan, -, waiting⟩ := coherent.waiting_of_asleep asleep
  have full : beginOp t.data.log = none := kept.free free waiting
  have tight : t.data.log.committing = false →
      (t.data.log.blocks.length : Int) + (t.data.log.outstanding + 1) * MAXOPBLOCKS >
        LOGBLOCKS := by
    intro off
    exact (beginOp_none.mp full).resolve_left (by rw [off]; simp)
  refine ⟨?_, tight⟩
  by_contra nobody
  obtain ⟨noOp, off⟩ := not_or.mp nobody
  rw [Bool.not_eq_true] at off
  have counted := later.counted
  have none : t.data.ops = ∅ := Finset.card_eq_zero.mp (by omega)
  have short := tight off
  rw [later.empty none off, counted, none] at short
  simp [MAXOPBLOCKS, LOGBLOCKS] at short

def fourProcesses : Proc.System 4 Unit Unit LogTask (LogUse 4) where
  table _ := ⟨.RUNNING, none, false⟩
  place _ := .outside .idle
  holder _ := none
  data := ⟨⟨0, false, []⟩, ∅, none⟩

/-- Three operations are under way, and the fourth process sleeps in `begin_op`. -/
theorem fourth_waits_for_busy_log :
    ∃ s, Reaches (Proc.Step (logUsers 4)) fourProcesses s ∧ (s.table 3).state = .SLEEPING ∧
      (0 < s.data.log.outstanding ∨ s.data.log.committing = true) := by
  have start : LogAtRest fourProcesses :=
    ⟨⟨fun _ => ⟨_, rfl⟩, (by rintro _ ⟨⟩), fun _ => rfl⟩, fun _ => rfl, rfl⟩
  obtain ⟨s, run, free, asleep⟩ : ∃ s, Reaches (Proc.Step (logUsers 4)) fourProcesses s ∧
      s.holder () = none ∧ (s.table 3).state = .SLEEPING :=
    ⟨_, ((((((((((((Relation.ReflTransGen.refl.tail
      (.acquire 0 () _ _ rfl rfl .begin_op rfl)).tail
      (.go 0 () .beginning .begun _ rfl (by exact .change (.enter rfl)))).tail
      (.release 0 () .begun .operating rfl (by exact .begun))).tail
      (.acquire 1 () _ _ rfl rfl .begin_op rfl)).tail
      (.go 1 () .beginning .begun _ rfl (by exact .change (.enter rfl)))).tail
      (.release 1 () .begun .operating rfl (by exact .begun))).tail
      (.acquire 2 () _ _ rfl rfl .begin_op rfl)).tail
      (.go 2 () .beginning .begun _ rfl (by exact .change (.enter rfl)))).tail
      (.release 2 () .begun .operating rfl (by exact .begun))).tail
      (.acquire 3 () _ _ rfl rfl .begin_op rfl)).tail
      (.sleep 3 () () .beginning .beginning rfl (by exact .wait rfl))).tail
      (.unlock 3 () () _ rfl)).tail
      (.suspend 3 () () _ rfl), rfl, rfl⟩
  exact ⟨s, run, asleep, (begin_op_waits_for_busy_log start run free 3 asleep).1⟩

end Xv6.GroupCommit
