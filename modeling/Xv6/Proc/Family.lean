import Xv6.Proc.Conditions

/-!
# Parents and children

The procedures `kfork`, `kexit` with `reparent`, and `kwait` under `wait_lock`, with the parts
of `allocproc` and `freeproc` that they rely on.
-/

namespace Xv6.Proc

open Transition Function
open Vm (ProcState)

structure Family (n : Nat) where
  initproc : Fin n
  parent : Fin n → Option (Fin n)
  pid : Fin n → Nat
  xstate : Fin n → Int
  nextpid : Nat
  creator : Fin n → Option (Fin n)
  exits : List (Nat × Int)
  waits : List (Nat × Int)

/-- Why `kwait` returns. -/
inductive WaitResult where
  | child (pid : Nat)
  | badAddress
  | noChildren
  | killed
  deriving DecidableEq

/-- Where a process is in `kfork`, `kexit` or `kwait`. -/
inductive FamilyTask (n : Nat) where
  | user
  | forked (np : Fin n)
  | adopting (np : Fin n)
  | adopted (np : Fin n)
  | parented (np : Fin n)
  | reparenting (status : Int) (pp : Nat)
  | orphaning (status : Int) (pp : Fin n)
  | ending (status : Int) (parent : Option (Fin n))
  | scanning (pp : Nat) (havekids : Bool)
  | returning (result : WaitResult)

variable {n : Nat}

namespace View

variable (v : View n (Family n))

def allocproc (np : Fin n) : View n (Family n) where
  life := update v.life np .used
  killed := v.killed
  data := { v.data with
    pid := update v.data.pid np v.data.nextpid
    nextpid := v.data.nextpid + 1 }

def freeproc (np : Fin n) : View n (Family n) where
  life := update v.life np .unused
  killed := update v.killed np false
  data := { v.data with
    parent := update v.data.parent np none
    pid := update v.data.pid np 0
    xstate := update v.data.xstate np 0 }

def wastePid : View n (Family n) :=
  { v with data := { v.data with nextpid := v.data.nextpid + 1 } }

/-- `np->state = RUNNABLE`. -/
def start (np : Fin n) : View n (Family n) := { v with life := update v.life np .live }

/-- `np->parent = p`. -/
def setParent (np p : Fin n) : View n (Family n) :=
  { v with data := { v.data with parent := update v.data.parent np (some p) } }

def noteCreator (np : Fin n) (creator : Option (Fin n)) : View n (Family n) :=
  { v with data := { v.data with creator := update v.data.creator np creator } }

def noteWait (delivered : Nat × Int) : View n (Family n) :=
  { v with data := { v.data with waits := v.data.waits ++ [delivered] } }

end View

/-- `p->xstate = status`. -/
def Family.exit (d : Family n) (p : Fin n) (status : Int) : Family n :=
  { d with xstate := update d.xstate p status }

def Family.noteExit (d : Family n) (left : Nat × Int) : Family n :=
  { d with exits := d.exits ++ [left] }

inductive FamilyOutside (p : Fin n) (free : Fin n → Prop) :
    FamilyTask n → View n (Family n) → FamilyTask n → View n (Family n) → Prop
  | allocate {v} (np : Fin n) (unlocked : free np) (unused : v.life np = .unused) :
      FamilyOutside p free .user v (.forked np) ((v.allocproc np).noteCreator np (some p))
  | failed {v} (np : Fin n) (unlocked : free np) (unused : v.life np = .unused) :
      FamilyOutside p free .user v .user (v.wastePid.freeproc np)
  | finish {v np} (unlocked : free np) (used : v.life np = .used) :
      FamilyOutside p free (.parented np) v .user ((v.start np).noteCreator np none)

/-- `acquire(&wait_lock)`. -/
inductive FamilyEnter (p : Fin n) (v : View n (Family n)) : FamilyTask n → FamilyTask n → Prop
  | kfork {np} : FamilyEnter p v (.forked np) (.adopting np)
  | kexit (status : Int) (notInit : p ≠ v.data.initproc) :
      FamilyEnter p v .user (.reparenting status 0)
  | kwait : FamilyEnter p v .user (.scanning 0 false)

/-- The code under `wait_lock`. -/
inductive FamilyCode (p : Fin n) (free : Fin n → Prop) :
    FamilyTask n → View n (Family n) → Next n (Fin n) (FamilyTask n) (Family n) → Prop
  | adopt {v np} : FamilyCode p free (.adopting np) v (.go (.adopted np) (v.setParent np p))
  | adopted {v np} : FamilyCode p free (.adopted np) v (.release (.parented np))
  | keep {v status} (pp : Fin n) (other : v.data.parent pp ≠ some p) :
      FamilyCode p free (.reparenting status pp) v (.go (.reparenting status (pp + 1)) v)
  | orphan {v status} (pp : Fin n) (child : v.data.parent pp = some p) :
      FamilyCode p free (.reparenting status pp) v
        (.go (.orphaning status pp) (v.setParent pp v.data.initproc))
  | tellInit {v status pp} :
      FamilyCode p free (.orphaning status pp) v
        (.wakeup v.data.initproc (.reparenting status (pp + 1)))
  | tellParent {v status} (parent : Fin n) (child : v.data.parent p = some parent) :
      FamilyCode p free (.reparenting status n) v (.wakeup parent (.ending status (some parent)))
  | tellNobody {v status} (alone : v.data.parent p = none) :
      FamilyCode p free (.reparenting status n) v (.go (.ending status none) v)
  | exit {v status parent} :
      FamilyCode p free (.ending status parent) v (.exit .user
        ((v.data.exit p status).noteExit (v.data.pid p, status)))
  | pass {v havekids} (pp : Fin n) (other : v.data.parent pp ≠ some p) :
      FamilyCode p free (.scanning pp havekids) v (.go (.scanning (pp + 1) havekids) v)
  | running {v havekids} (pp : Fin n) (child : v.data.parent pp = some p) (unlocked : free pp)
      (alive : v.life pp ≠ .zombie) :
      FamilyCode p free (.scanning pp havekids) v (.go (.scanning (pp + 1) true) v)
  | reap {v havekids} (pp : Fin n) (child : v.data.parent pp = some p) (unlocked : free pp)
      (dead : v.life pp = .zombie) :
      FamilyCode p free (.scanning pp havekids) v
        (.go (.returning (.child (v.data.pid pp)))
          ((v.freeproc pp).noteWait (v.data.pid pp, v.data.xstate pp)))
  | badAddress {v havekids} (pp : Fin n) (child : v.data.parent pp = some p) (unlocked : free pp)
      (dead : v.life pp = .zombie) :
      FamilyCode p free (.scanning pp havekids) v (.go (.returning .badAddress) v)
  | noChildren {v} : FamilyCode p free (.scanning n false) v (.go (.returning .noChildren) v)
  | killed {v} (flag : v.killed p = true) :
      FamilyCode p free (.scanning n true) v (.go (.returning .killed) v)
  | sleep {v} (flag : v.killed p = false) :
      FamilyCode p free (.scanning n true) v (.sleep p (.scanning 0 false))
  | done {v result} : FamilyCode p free (.returning result) v (.release .user)

def families (n : Nat) : Client n Unit (Fin n) (FamilyTask n) (Family n) where
  outside := FamilyOutside
  enter p l v _ l' := FamilyEnter p v l l'
  code p free _ l v next := FamilyCode p free l v next
  mayKill _ _ _ := True

theorem tame_update {free : Fin n → Prop} {v v' : View n (Family n)} {np : Fin n} {new : Life}
    (lives : v'.life = update v.life np new) (unlocked : free np)
    (dead : v.life np ≠ .live) (kept : new ≠ .zombie) : Tame free v v' := by
  intro q
  by_cases same : q = np
  · subst same
    exact Or.inr ⟨unlocked, dead, by simpa [lives] using kept⟩
  · exact Or.inl (by simp [lives, same])

structure Tree (v : View n (Family n)) : Prop where
  init_live : v.life v.data.initproc = .live
  parent_live : ∀ q r, v.data.parent q = some r → v.life r = .live
  has_parent : ∀ q, q ≠ v.data.initproc → v.life q = .live ∨ v.life q = .zombie →
    v.data.parent q ≠ none
  unused_parent : ∀ q, v.life q = .unused → v.data.parent q = none

structure Ledger (v : View n (Family n)) : Prop where
  pid_lt : ∀ q, v.life q ≠ .unused → v.data.pid q < v.data.nextpid
  pid_inj : ∀ q r, v.life q ≠ .unused → v.life r ≠ .unused → v.data.pid q = v.data.pid r → q = r
  exits_lt : ∀ e ∈ v.data.exits, e.1 < v.data.nextpid
  alive : ∀ q, v.life q = .used ∨ v.life q = .live → ∀ e ∈ v.data.exits, e.1 ≠ v.data.pid q
  exits_nodup : (v.data.exits.map Prod.fst).Nodup
  owed : ∀ q, v.life q = .zombie → (v.data.pid q, v.data.xstate q) ∈ v.data.exits
  paid : ∀ e ∈ v.data.waits, ∀ q, v.life q ≠ .unused → v.data.pid q ≠ e.1
  waits_exits : ∀ e ∈ v.data.waits, e ∈ v.data.exits
  waits_nodup : (v.data.waits.map Prod.fst).Nodup
  settled : ∀ e ∈ v.data.exits, e ∈ v.data.waits ∨
    ∃ q, v.life q = .zombie ∧ e = (v.data.pid q, v.data.xstate q)

/-- A process is making another. -/
structure Making (v : View n (Family n)) (p np : Fin n) : Prop where
  used : v.life np = .used
  mine : v.data.creator np = some p

def NoChildBelow (v : View n (Family n)) (p : Fin n) (i : Nat) : Prop :=
  ∀ q : Fin n, q.val < i → v.data.parent q ≠ some p

def NoZombieBelow (v : View n (Family n)) (p : Fin n) (i : Nat) : Prop :=
  ∀ q : Fin n, q.val < i → v.data.parent q = some p → v.life q ≠ .zombie

def familyLocal (p : Fin n) (o : Option Unit) (l : FamilyTask n) (v : View n (Family n)) : Prop :=
  match l with
  | .user => True
  | .forked np | .adopting np => Making v p np
  | .adopted np | .parented np => Making v p np ∧ v.data.parent np = some p
  | .reparenting _ pp => o = some () → p ≠ v.data.initproc ∧ NoChildBelow v p pp
  | .orphaning _ pp => o = some () → p ≠ v.data.initproc ∧ NoChildBelow v p (pp + 1)
  | .ending _ parent => o = some () →
    p ≠ v.data.initproc ∧ NoChildBelow v p n ∧ v.data.parent p = parent
  | .scanning pp havekids => o = some () →
    NoZombieBelow v p pp ∧ (havekids = false → NoChildBelow v p pp)
  | .returning result => o = some () → (result = .noChildren → NoChildBelow v p n) ∧
    ∀ pid, result = .child pid → ∃ status, (pid, status) ∈ v.data.waits

/-- What one step of a process changes. -/
inductive FamilyChange (p : Fin n) :
    Option Unit → FamilyTask n → View n (Family n) → View n (Family n) → Prop
  | same {o l v} : FamilyChange p o l v v
  | allocate {v} (np : Fin n) (unused : v.life np = .unused) :
      FamilyChange p none .user v ((v.allocproc np).noteCreator np (some p))
  | failed {v} (np : Fin n) (unused : v.life np = .unused) :
      FamilyChange p none .user v (v.wastePid.freeproc np)
  | finish {v np} (used : v.life np = .used) : FamilyChange p none (.parented np) v ((v.start np).noteCreator np none)
  | adopt {v np} (alive : v.life p = .live) :
      FamilyChange p (some ()) (.adopting np) v (v.setParent np p)
  | orphan {v status} (pp : Fin n) (child : v.data.parent pp = some p) :
      FamilyChange p (some ()) (.reparenting status pp) v (v.setParent pp v.data.initproc)
  | reap {v havekids} (pp : Fin n) (child : v.data.parent pp = some p) (dead : v.life pp = .zombie) :
      FamilyChange p (some ()) (.scanning pp havekids) v
        ((v.freeproc pp).noteWait (v.data.pid pp, v.data.xstate pp))
  | exit {v status parent} (alive : v.life p = .live) :
      FamilyChange p (some ()) (.ending status parent) v
        (v.exit p ((v.data.exit p status).noteExit (v.data.pid p, status)))

theorem family_change {p : Fin n} {o : Option Unit} {l : FamilyTask n} {v v' : View n (Family n)}
    (effect : (families n).Effect p o l v v') : FamilyChange p o l v v' := by
  cases effect with
  | outside alive act =>
    cases act with
    | allocate np unlocked unused => exact .allocate np unused
    | failed np unlocked unused => exact .failed np unused
    | finish unlocked used => exact .finish used
  | go alive act =>
    cases act with
    | adopt => exact .adopt alive
    | orphan pp child => exact .orphan pp child
    | reap pp child unlocked dead => exact .reap pp child dead
    | _ => exact .same
  | exit alive act =>
    cases act with
    | exit => exact .exit alive

theorem families_tame : (families n).Tame := by
  refine ⟨fun p free l v l' v' act => ?_, fun p free lk l v l' v' act => ?_⟩
  · cases act with
    | allocate np unlocked unused | failed np unlocked unused =>
      exact tame_update rfl unlocked (by simp [unused]) (by simp)
    | finish unlocked used => exact tame_update rfl unlocked (by simp [used]) (by simp)
  · cases act with
    | reap pp child unlocked dead => exact tame_update rfl unlocked (by simp [dead]) (by simp)
    | _ => exact fun q => Or.inl rfl

section Changes

variable {v v' : View n (Family n)} {p q np nq : Fin n} {o o' : Option Unit} {l l' : FamilyTask n}

structure OnlyAt (v v' : View n (Family n)) (np : Fin n) : Prop where
  initproc : v'.data.initproc = v.data.initproc
  life : ∀ q, q ≠ np → v'.life q = v.life q
  parent : ∀ q, q ≠ np → v'.data.parent q = v.data.parent q

theorem Tree.onlyAt (tree : Tree v) (only : OnlyAt v v' np)
    (stops : v.life np = .live → v'.life np = .live ∨
      np ≠ v.data.initproc ∧ ∀ q, v.data.parent q ≠ some np)
    (runs : ∀ r, v'.data.parent np = some r → v'.life r = .live)
    (started : np ≠ v.data.initproc → v'.life np = .live ∨ v'.life np = .zombie →
      v'.data.parent np ≠ none)
    (unused : v'.life np = .unused → v'.data.parent np = none) : Tree v' := by
  have alive : ∀ r, v.life r = .live → (r = v.data.initproc ∨ ∃ q, v.data.parent q = some r) →
      v'.life r = .live := by
    intro r live needed
    by_cases same : r = np
    · subst same
      refine (stops live).resolve_right fun ⟨notInit, childless⟩ => ?_
      rcases needed with init | ⟨q, child⟩
      · exact notInit init
      · exact childless q child
    · rw [only.life r same]
      exact live
  refine ⟨?_, fun q r child => ?_, fun q other => ?_, fun q free => ?_⟩
  · rw [only.initproc]
    exact alive _ tree.init_live (Or.inl rfl)
  · by_cases same : q = np
    · subst same
      exact runs r child
    · rw [only.parent q same] at child
      exact alive r (tree.parent_live q r child) (Or.inr ⟨q, child⟩)
  · rw [only.initproc] at other
    by_cases same : q = np
    · subst same
      exact started other
    · rw [only.life q same, only.parent q same]
      exact tree.has_parent q other
  · by_cases same : q = np
    · subst same
      exact unused free
    · rw [only.life q same] at free
      rw [only.parent q same]
      exact tree.unused_parent q free

theorem onlyAt_freeproc (np : Fin n) : OnlyAt v (v.freeproc np) np :=
  ⟨rfl, fun q other => by simp [View.freeproc, other], fun q other => by simp [View.freeproc, other]⟩

theorem Tree.freeproc (tree : Tree v) (dead : v.life np ≠ .live) : Tree (v.freeproc np) := by
  refine tree.onlyAt (onlyAt_freeproc np) (fun live => absurd live dead) ?_ ?_ ?_ <;>
    simp [View.freeproc]

theorem Tree.setParent (tree : Tree v) (alive : v.life p = .live) (inUse : v.life np ≠ .unused) :
    Tree (v.setParent np p) := by
  have only : OnlyAt v (v.setParent np p) np :=
    ⟨rfl, fun _ _ => rfl, fun q other => by simp [View.setParent, other]⟩
  refine tree.onlyAt only Or.inl ?_ ?_ fun unused => absurd unused inUse
  · intro r child
    simp only [View.setParent, update_self, Option.some.injEq] at child
    rw [← child]
    exact alive
  · simp [View.setParent]

/-- Every change keeps the family a tree under `init`. -/
theorem Tree.change (tree : Tree v) (known : familyLocal p o l v) (change : FamilyChange p o l v v') :
    Tree v' := by
  cases change with
  | same => exact tree
  | allocate np unused =>
    have only : OnlyAt v ((v.allocproc np).noteCreator np (some p)) np :=
      ⟨rfl, fun q other => by simp [View.allocproc, View.noteCreator, other], fun _ _ => rfl⟩
    have none : v.data.parent np = none := tree.unused_parent np unused
    refine tree.onlyAt only (by simp [unused]) ?_ ?_ ?_ <;> simp [View.allocproc, View.noteCreator, none]
  | failed np unused =>
    have wasted : Tree v.wastePid :=
      ⟨tree.init_live, tree.parent_live, tree.has_parent, tree.unused_parent⟩
    exact wasted.freeproc (by simp [View.wastePid, unused])
  | @finish v np used =>
    have only : OnlyAt v ((v.start np).noteCreator np none) np :=
      ⟨rfl, fun q other => by simp [View.start, View.noteCreator, other], fun _ _ => rfl⟩
    refine tree.onlyAt only (by simp [used]) ?_ ?_ ?_
    · intro r child
      have live := tree.parent_live np r child
      by_cases same : r = np <;> simp [View.start, View.noteCreator, same, live]
    · simp [View.start, View.noteCreator, known.2]
    · simp [View.start, View.noteCreator]
  | adopt alive => exact tree.setParent alive (by rw [known.used]; simp)
  | orphan pp child =>
    refine tree.setParent tree.init_live fun unused => ?_
    rw [tree.unused_parent pp unused] at child
    cases child
  | reap pp child dead =>
    have freed : Tree (v.freeproc pp) := tree.freeproc (by simp [dead])
    exact ⟨freed.init_live, freed.parent_live, freed.has_parent, freed.unused_parent⟩
  | @exit v status parent alive =>
    obtain ⟨notInit, childless, -⟩ := known rfl
    have only : OnlyAt v
        (v.exit p ((v.data.exit p status).noteExit (v.data.pid p, status))) p :=
      ⟨rfl, fun q other => by simp [View.exit, other], fun _ _ => rfl⟩
    refine tree.onlyAt only (fun _ => Or.inr ⟨notInit, fun q => childless q q.isLt⟩) ?_ ?_ ?_
    · intro r child
      have live := tree.parent_live p r child
      have other : r ≠ p := by
        rintro rfl
        exact childless r r.isLt child
      simpa [View.exit, other] using live
    · exact fun other _ => tree.has_parent p other (Or.inl alive)
    · simp [View.exit]

theorem Ledger.congr (ledger : Ledger v) (life : ∀ q, v'.life q = v.life q ∨
      v.life q = .used ∧ v'.life q = .live)
    (pid : v'.data.pid = v.data.pid) (xstate : v'.data.xstate = v.data.xstate)
    (nextpid : v'.data.nextpid = v.data.nextpid) (exits : v'.data.exits = v.data.exits)
    (waits : v'.data.waits = v.data.waits) : Ledger v' := by
  have zombie : ∀ q, v'.life q = .zombie ↔ v.life q = .zombie := by
    intro q
    rcases life q with same | ⟨used, live⟩
    · rw [same]
    · simp [used, live]
  have unused : ∀ q, v'.life q = .unused ↔ v.life q = .unused := by
    intro q
    rcases life q with same | ⟨used, live⟩
    · rw [same]
    · simp [used, live]
  have alive : ∀ q, v'.life q = .used ∨ v'.life q = .live → v.life q = .used ∨ v.life q = .live := by
    intro q
    rcases life q with same | ⟨used, live⟩
    · rw [same]
      exact id
    · exact fun _ => Or.inl used
  constructor <;> simp only [pid, xstate, nextpid, exits, waits, zombie, ne_eq, unused]
  · exact ledger.pid_lt
  · exact ledger.pid_inj
  · exact ledger.exits_lt
  · exact fun q living => ledger.alive q (alive q living)
  · exact ledger.exits_nodup
  · exact ledger.owed
  · exact ledger.paid
  · exact ledger.waits_exits
  · exact ledger.waits_nodup
  · exact ledger.settled

theorem Ledger.allocproc (ledger : Ledger v) (unused : v.life np = .unused) :
    Ledger ((v.allocproc np).noteCreator np (some p)) := by
  obtain ⟨pid_lt, pid_inj, exits_lt, alive, exits_nodup, owed, paid, waits_exits, waits_nodup,
    settled⟩ := ledger
  constructor <;> simp only [View.allocproc, View.noteCreator, update_apply] <;> grind

theorem Ledger.failed (ledger : Ledger v) (unused : v.life np = .unused) :
    Ledger (v.wastePid.freeproc np) := by
  obtain ⟨pid_lt, pid_inj, exits_lt, alive, exits_nodup, owed, paid, waits_exits, waits_nodup,
    settled⟩ := ledger
  constructor <;> simp only [View.wastePid, View.freeproc, update_apply] <;> grind

theorem Ledger.exit (ledger : Ledger v) {status : Int} (live : v.life p = .live) :
    Ledger (v.exit p ((v.data.exit p status).noteExit (v.data.pid p, status))) := by
  obtain ⟨pid_lt, pid_inj, exits_lt, alive, exits_nodup, owed, paid, waits_exits, waits_nodup,
    settled⟩ := ledger
  constructor <;> simp only [View.exit, Family.exit, Family.noteExit, update_apply] <;> grind

theorem Ledger.reap (ledger : Ledger v) (dead : v.life np = .zombie) :
    Ledger ((v.freeproc np).noteWait (v.data.pid np, v.data.xstate np)) := by
  obtain ⟨pid_lt, pid_inj, exits_lt, alive, exits_nodup, owed, paid, waits_exits, waits_nodup,
    settled⟩ := ledger
  constructor <;> simp only [View.noteWait, View.freeproc, update_apply] <;> grind

theorem Ledger.change (ledger : Ledger v) (change : FamilyChange p o l v v') : Ledger v' := by
  cases change with
  | same => exact ledger
  | allocate np unused => exact ledger.allocproc unused
  | failed np unused => exact ledger.failed unused
  | @finish v np used =>
    refine ledger.congr (fun q => ?_) rfl rfl rfl rfl rfl
    by_cases same : q = np
    · subst same
      exact Or.inr ⟨used, by simp [View.start, View.noteCreator]⟩
    · exact Or.inl (by simp [View.start, View.noteCreator, same])
  | adopt alive | orphan pp child => exact ledger.congr (fun _ => Or.inl rfl) rfl rfl rfl rfl rfl
  | reap pp child dead => exact ledger.reap dead
  | exit alive => exact ledger.exit alive

end Changes

end Xv6.Proc
