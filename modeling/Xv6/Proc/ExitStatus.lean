import Xv6.Proc.Family

/-!
# Exit statuses

Processes that fork, exit and wait keep the contract of `kwait`'s channel, and every exit status
is delivered once, to the parent at that time.
-/

namespace Xv6.Proc

open Transition
open Vm (ProcState)

variable {n : Nat}

section Frames

variable {v v' : View n (Family n)} {p q np nq : Fin n} {o o' : Option Unit} {l l' : FamilyTask n}

theorem Making.frame (making : Making v q nq) (other : q ≠ p) (known : familyLocal p o l v)
    (change : FamilyChange p o l v v') : Making v' q nq := by
  obtain ⟨used, mine⟩ := making
  cases change with
  | same | adopt alive | orphan pp child => exact ⟨used, mine⟩
  | allocate np unused =>
    have apart : nq ≠ np := fun same => by simp [same, unused] at used
    exact ⟨by simpa [View.allocproc, View.noteCreator, apart] using used, by simpa [View.allocproc, View.noteCreator, apart] using mine⟩
  | failed np unused =>
    have apart : nq ≠ np := fun same => by simp [same, unused] at used
    exact ⟨by simpa [View.freeproc, View.wastePid, apart] using used, mine⟩
  | @finish v np _ =>
    have apart : nq ≠ np := by
      rintro rfl
      rw [known.1.mine, Option.some.injEq] at mine
      exact other mine.symm
    exact ⟨by simpa [View.start, View.noteCreator, apart] using used, by simpa [View.start, View.noteCreator, apart] using mine⟩
  | reap pp child dead =>
    have apart : nq ≠ pp := fun same => by simp [same, dead] at used
    exact ⟨by simpa [View.noteWait, View.freeproc, apart] using used, mine⟩
  | exit alive =>
    have apart : nq ≠ p := fun same => by simp [same, alive] at used
    exact ⟨by simpa [View.exit, apart] using used, mine⟩

theorem Making.frame_parent (making : Making v q nq) (child : v.data.parent nq = some q)
    (other : q ≠ p) (known : familyLocal p o l v) (change : FamilyChange p o l v v') :
    v'.data.parent nq = some q := by
  cases change with
  | failed np unused =>
    have apart : nq ≠ np := fun same => by simpa [same, unused] using making.used
    simpa [View.freeproc, View.wastePid, apart] using child
  | @adopt v np alive =>
    have apart : nq ≠ np := by
      rintro rfl
      have mine := known.mine
      rw [making.mine, Option.some.injEq] at mine
      exact other mine
    simpa [View.setParent, apart] using child
  | orphan pp was =>
    have apart : nq ≠ pp := by
      rintro rfl
      rw [child, Option.some.injEq] at was
      exact other was
    simpa [View.setParent, apart] using child
  | reap pp was dead =>
    have apart : nq ≠ pp := fun same => by simpa [same, dead] using making.used
    simpa [View.noteWait, View.freeproc, apart] using child
  | _ => exact child

structure SameFamily (v v' : View n (Family n)) : Prop where
  initproc : v'.data.initproc = v.data.initproc
  parent : v'.data.parent = v.data.parent
  waits_eq : v'.data.waits = v.data.waits
  zombie : ∀ q, v'.life q = .zombie → v.life q = .zombie

theorem sameFamily (tree : Tree v) (change : FamilyChange p none l v v') : SameFamily v v' := by
  cases change with
  | same => exact ⟨rfl, rfl, rfl, fun _ => id⟩
  | allocate np unused =>
    refine ⟨rfl, rfl, rfl, fun q dead => ?_⟩
    by_cases same : q = np <;> simp [View.allocproc, View.noteCreator, same] at dead
    exact dead
  | failed np unused =>
    refine ⟨rfl, ?_, rfl, fun q dead => ?_⟩
    · rw [← Function.update_eq_self np v.data.parent, tree.unused_parent np unused]
      simp [View.freeproc, View.wastePid]
    · by_cases same : q = np <;> simp [View.freeproc, View.wastePid, same] at dead
      exact dead
  | @finish v np used =>
    refine ⟨rfl, rfl, rfl, fun q dead => ?_⟩
    by_cases same : q = np <;> simp [View.start, View.noteCreator, same] at dead
    exact dead

def familyWaits (chan : Fin n) (v : View n (Family n)) : Prop :=
  ∀ q, v.data.parent q = some chan → v.life q ≠ .zombie

def familyAllows (l : FamilyTask n) (v : View n (Family n)) (chan : Fin n) : Prop :=
  match l with
  | .orphaning _ _ => chan = v.data.initproc ∨ familyWaits chan v
  | .ending _ parent => parent ≠ some chan ∧ familyWaits chan v
  | _ => familyWaits chan v

theorem SameFamily.childless (same : SameFamily v v') {i : Nat} (before : NoChildBelow v q i) :
    NoChildBelow v' q i := by
  intro r below
  rw [same.parent]
  exact before r below

theorem SameFamily.waits (same : SameFamily v v') (before : familyWaits q v) : familyWaits q v' := by
  intro r child dead
  rw [same.parent] at child
  exact before r child (same.zombie r dead)

theorem SameFamily.allows (same : SameFamily v v') (before : familyAllows l v q) :
    familyAllows l v' q := by
  unfold familyAllows at before ⊢
  split at before
  · rw [same.initproc]
    exact before.imp_right same.waits
  · exact ⟨before.1, same.waits before.2⟩
  · exact same.waits before

/-- What a process knows is kept by the others. -/
theorem familyLocal_frame (tree : Tree v) (known : familyLocal p o l v)
    (change : FamilyChange p o l v v') (other : q ≠ p) (apart : ∀ lk, o' = some lk → o ≠ some lk)
    (also : familyLocal q o' l' v) : familyLocal q o' l' v' := by
  have outside : o' = some () → SameFamily v v' := by
    rintro rfl
    cases o with
    | none => exact sameFamily tree change
    | some _ => exact absurd rfl (apart () rfl)
  cases l' with
  | user => trivial
  | forked np | adopting np => exact Making.frame also other known change
  | adopted np | parented np =>
    exact ⟨also.1.frame other known change, also.1.frame_parent also.2 other known change⟩
  | reparenting status pp | orphaning status pp =>
    intro holds
    have same := outside holds
    exact ⟨by rw [same.initproc]; exact (also holds).1, same.childless (also holds).2⟩
  | ending status parent =>
    intro holds
    have same := outside holds
    exact ⟨by rw [same.initproc]; exact (also holds).1, same.childless (also holds).2.1,
      by rw [same.parent]; exact (also holds).2.2⟩
  | scanning pp havekids =>
    intro holds
    have same := outside holds
    refine ⟨fun r below child dead => ?_, fun none => same.childless ((also holds).2 none)⟩
    rw [same.parent] at child
    exact (also holds).1 r below child (same.zombie r dead)
  | returning result =>
    intro holds
    have same := outside holds
    obtain ⟨none, delivered⟩ := also holds
    refine ⟨fun result => same.childless (none result), ?_⟩
    rw [same.waits_eq]
    exact delivered

theorem NoChildBelow.step {pp : Fin n} (before : NoChildBelow v p pp)
    (here : v.data.parent pp ≠ some p) : NoChildBelow v p (pp + 1) := by
  intro q below
  by_cases same : q = pp
  · rw [same]
    exact here
  · exact before q (Nat.lt_of_le_of_ne (Nat.le_of_lt_succ below) fun eq => same (Fin.ext eq))

theorem NoZombieBelow.step {pp : Fin n} (before : NoZombieBelow v p pp)
    (here : v.data.parent pp = some p → v.life pp ≠ .zombie) : NoZombieBelow v p (pp + 1) := by
  intro q below
  by_cases same : q = pp
  · rw [same]
    exact here
  · exact before q (Nat.lt_of_le_of_ne (Nat.le_of_lt_succ below) fun eq => same (Fin.ext eq))

theorem waits_setParent {chan : Fin n} (waits : familyWaits chan v)
    (fine : chan ≠ p ∨ v.life np ≠ .zombie) : familyWaits chan (v.setParent np p) := by
  intro q child
  by_cases same : q = np
  · subst same
    simp only [View.setParent, Function.update_self, Option.some.injEq] at child
    exact fine.resolve_left fun different => different child.symm
  · exact waits q (by simpa [View.setParent, same] using child)

theorem family_go {free : Fin n → Prop} (act : FamilyCode p free l v (.go l' v'))
    (known : familyLocal p (some ()) l v) :
    familyLocal p (some ()) l' v' ∧ ∀ chan, familyAllows l v chan → familyAllows l' v' chan := by
  cases act with
  | @adopt v np =>
    refine ⟨⟨⟨known.used, known.mine⟩, by simp [View.setParent]⟩, fun chan waits => ?_⟩
    exact waits_setParent waits (Or.inr (by rw [known.used]; simp))
  | keep pp other =>
    exact ⟨fun _ => ⟨(known rfl).1, (known rfl).2.step other⟩, fun chan waits => waits⟩
  | @orphan v status pp child =>
    obtain ⟨notInit, below⟩ := known rfl
    refine ⟨fun _ => ⟨notInit, ?_⟩, fun chan waits => ?_⟩
    · have others : NoChildBelow (v.setParent pp v.data.initproc) p pp := by
        intro q lower
        have other : q ≠ pp := fun same => absurd lower (by simp [same])
        simpa [View.setParent, other] using below q lower
      exact others.step (by simpa [View.setParent] using notInit.symm)
    · by_cases init : chan = v.data.initproc
      · exact Or.inl init
      · exact Or.inr (waits_setParent waits (Or.inl init))
  | tellNobody alone =>
    exact ⟨fun _ => ⟨(known rfl).1, (known rfl).2, alone⟩, fun chan waits => ⟨(by simp), waits⟩⟩
  | pass pp other =>
    refine ⟨fun _ => ⟨(known rfl).1.step fun child => absurd child other, fun none => ?_⟩,
      fun chan waits => waits⟩
    exact ((known rfl).2 none).step other
  | running pp child unlocked alive =>
    exact ⟨fun _ => ⟨(known rfl).1.step fun _ => alive, (by simp)⟩, fun chan waits => waits⟩
  | @reap v havekids pp child unlocked dead =>
    refine ⟨fun _ => ⟨(by simp), ?_⟩, fun chan waits q child => ?_⟩
    · rintro _ ⟨⟩
      exact ⟨v.data.xstate pp, by simp [View.noteWait]⟩
    by_cases same : q = pp
    · simp [View.noteWait, View.freeproc, same]
    · simp only [View.noteWait, View.freeproc, Function.update_of_ne same] at child ⊢
      exact waits q child
  | badAddress pp child unlocked dead | killed flag =>
    exact ⟨fun _ => ⟨(by simp), (by simp)⟩, fun chan waits => waits⟩
  | noChildren =>
    exact ⟨fun _ => ⟨fun _ => (known rfl).2 rfl, (by simp)⟩, fun chan waits => waits⟩

theorem familyLocal_kill {r : Fin n} (known : familyLocal p o l v) : familyLocal p o l (v.kill r) := by
  cases l with
  | forked np | adopting np => exact ⟨known.used, known.mine⟩
  | adopted np | parented np => exact ⟨⟨known.1.used, known.1.mine⟩, known.2⟩
  | _ => exact known

end Frames

def familyContract (n : Nat) : Contract (families n) where
  Inv v := Tree v ∧ Ledger v
  Local := familyLocal
  Waits _ chan v := familyWaits chan v
  Allows _ l v chan := familyAllows l v chan
  effect_inv effect inv known :=
    ⟨inv.1.change known (family_change effect), inv.2.change (family_change effect)⟩
  effect_local effect inv known other apart also :=
    familyLocal_frame inv.1 known (family_change effect) other apart also
  effect_waits := by
    intro p o l v v' lk chan effect inv known other waits
    cases o with
    | none => exact (sameFamily inv.1 (family_change effect)).waits waits
    | some _ => exact absurd rfl other
  effect_allows := by
    intro p o l v v' lk l' chan effect inv known other allows
    cases o with
    | none => exact (sameFamily inv.1 (family_change effect)).allows allows
    | some _ => exact absurd rfl other
  kill_inv inv :=
    ⟨⟨inv.1.init_live, inv.1.parent_live, inv.1.has_parent, inv.1.unused_parent⟩,
      inv.2.congr (fun _ => Or.inl rfl) rfl rfl rfl rfl rfl⟩
  kill_own _ known := familyLocal_kill known
  kill_local _ known := familyLocal_kill known
  kill_waits waits := waits
  kill_allows allows := allows
  outside := by
    intro p free l v l' v' act inv known
    cases act with
    | allocate np unlocked unused =>
      exact ⟨by simp [View.allocproc, View.noteCreator], by simp [View.allocproc, View.noteCreator]⟩
    | failed np unlocked unused => trivial
    | finish unlocked used => trivial
  enter := by
    intro p l v lk l' act inv known
    cases act with
    | kfork => exact ⟨known, fun chan waits => waits⟩
    | kexit status notInit => exact ⟨fun _ => ⟨notInit, (by rintro _ ⟨⟩)⟩, fun chan waits => waits⟩
    | kwait => exact ⟨fun _ => ⟨(by rintro _ ⟨⟩), fun _ => (by rintro _ ⟨⟩)⟩, fun chan waits => waits⟩
  go act inv known := family_go act known
  wakeup := by
    intro p free lk l v chan l' act inv known
    cases act with
    | tellInit =>
      exact ⟨fun _ => known rfl, fun other different allows => allows.resolve_left different⟩
    | tellParent parent child =>
      refine ⟨fun _ => ⟨(known rfl).1, (known rfl).2, child⟩, fun other different waits => ⟨?_, waits⟩⟩
      simpa using different.symm
  sleep := by
    intro p free lk l v chan l' act inv known
    cases act with
    | sleep flag =>
      refine ⟨(by rintro ⟨⟩), fun q => (known rfl).1 q q.isLt, fun other waits => waits, fun v' _ _ => ?_⟩
      exact ⟨fun _ => ⟨(by rintro _ ⟨⟩), fun _ => (by rintro _ ⟨⟩)⟩, fun other waits => waits⟩
  release := by
    intro p free lk l v l' act inv known
    cases act with
    | adopted => exact ⟨known, fun chan waits => waits⟩
    | done => exact ⟨trivial, fun chan waits => waits⟩
  exit := by
    intro p free lk l v l' data act inv known
    cases act with
    | exit =>
      refine ⟨trivial, fun chan allows q child => ?_⟩
      obtain ⟨woken, waits⟩ := allows
      by_cases same : q = p
      · subst same
        exact absurd ((known rfl).2.2.symm.trans child) woken
      · simpa [View.exit, same] using waits q child

structure FamilyAtRest (s : System n Unit (Fin n) (FamilyTask n) (Family n)) : Prop where
  rest : AtRest s
  idle : ∀ p, s.place p = .outside .user
  init : life (s.table s.data.initproc).state = .live
  unused : ∀ p, p ≠ s.data.initproc → (s.table p).state = .UNUSED
  parent : ∀ p, s.data.parent p = none
  pid : s.data.pid s.data.initproc < s.data.nextpid
  exits : s.data.exits = []
  waits : s.data.waits = []

theorem FamilyAtRest.inv {s : System n Unit (Fin n) (FamilyTask n) (Family n)}
    (start : FamilyAtRest s) : Tree s.view ∧ Ledger s.view := by
  have only : ∀ q, s.view.life q ≠ .unused → q = s.data.initproc := by
    intro q inUse
    by_contra other
    exact inUse (by simp [System.view, start.unused q other, life])
  have alive : s.view.life s.data.initproc = .live := start.init
  have data : s.view.data = s.data := rfl
  refine ⟨⟨alive, ?_, ?_, ?_⟩, ?_⟩
  · intro q r child
    rw [data, start.parent q] at child
    cases child
  · intro q other started
    refine absurd (only q ?_) other
    rcases started with live | dead <;> simp_all
  · exact fun q _ => start.parent q
  · constructor <;> simp only [data, start.exits, start.waits, List.not_mem_nil, List.map_nil,
      List.nodup_nil, false_imp_iff, implies_true]
    · intro q inUse
      rw [only q inUse]
      exact start.pid
    · intro q r first second _
      rw [only q first, only r second]
    · intro q dead
      have init := only q (by simp [dead])
      rw [init, alive] at dead
      cases dead

theorem life_zombie {state : ProcState} : life state = .zombie ↔ state = .ZOMBIE := by
  cases state <;> simp [life]

theorem life_unused {state : ProcState} : life state = .unused ↔ state = .UNUSED := by
  cases state <;> simp [life]

variable {s t : System n Unit (Fin n) (FamilyTask n) (Family n)}

theorem zombie_step {q : Fin n} (coherent : Coherent s) (step : Step (families n) s t)
    (dead : s.view.life q = .zombie) :
    (t.view.life q = .zombie ∧ t.data.xstate q = s.data.xstate q ∧ t.data.pid q = s.data.pid q) ∨
      ∃ p havekids, s.data.parent q = some p ∧ s.place p = .inside () (.scanning q havekids) ∧
        t.place p = .inside () (.returning (.child (s.data.pid q))) ∧
        t.view.life q = .unused ∧
        t.data.waits = s.data.waits ++ [(s.data.pid q, s.data.xstate q)] := by
  have data : t.view.data = t.data := rfl
  rw [← data]
  cases Contract.view_step coherent step with
  | same view | kill p view =>
    rw [view]
    exact Or.inl ⟨dead, rfl, rfl⟩
  | outside p l l' here act =>
    left
    generalize t.view = v at act ⊢
    cases act with
    | allocate np unlocked unused =>
      have apart : q ≠ np := fun same => by simp [same, unused] at dead
      simpa [View.allocproc, View.noteCreator, apart] using ⟨dead, rfl, rfl⟩
    | failed np unlocked unused =>
      have apart : q ≠ np := fun same => by simp [same, unused] at dead
      simpa [View.freeproc, View.wastePid, apart] using ⟨dead, rfl, rfl⟩
    | @finish v np unlocked used =>
      have apart : q ≠ np := fun same => by simp [same, used] at dead
      simpa [View.start, View.noteCreator, apart] using ⟨dead, rfl, rfl⟩
  | go p lk l l' here there act =>
    generalize t.view = v at act ⊢
    cases act with
    | @reap v havekids pp child unlocked gone =>
      by_cases same : q = pp
      · subst same
        refine Or.inr ⟨p, havekids, child, here, there, ?_, rfl⟩
        simp [View.noteWait, View.freeproc]
      · exact Or.inl (by simpa [View.noteWait, View.freeproc, same] using ⟨dead, rfl, rfl⟩)
    | _ => exact Or.inl ⟨dead, rfl, rfl⟩
  | exit p lk l l' data here act view =>
    rw [view]
    cases act with
    | exit =>
      have apart : q ≠ p := by
        rintro rfl
        rw [coherent.alive_inside here] at dead
        cases dead
      exact Or.inl (by simpa [View.exit, Family.exit, Family.noteExit, apart] using ⟨dead, rfl, rfl⟩)

def Prompt : Place Unit (Fin n) (FamilyTask n) → Prop
  | .waking _ _ _ l | .drowsy _ _ l | .dozing _ _ l | .sleeping _ _ l | .returning _ l =>
    ∀ result, l ≠ .returning result
  | _ => True

theorem prompt_step (prompt : ∀ p, Prompt (s.place p)) (step : Step (families n) s t) (p : Fin n) :
    Prompt (t.place p) := by
  have at_ : ∀ (r : Fin n) (place : Place Unit (Fin n) (FamilyTask n)), Prompt place →
      Prompt (Function.update s.place r place p) := by
    intro r place fine
    by_cases same : p = r
    · rw [same, Function.update_self]
      exact fine
    · rw [Function.update_of_ne same]
      exact prompt p
  cases step with
  | outside r | acquire r | go r | release r | reacquire r | woke r | exit r | leave r | gone r =>
    exact at_ r _ trivial
  | sleep r lk chan l l' here act =>
    cases act with
    | sleep flag => exact at_ r _ (by simp [Prompt])
  | wakeup r lk chan l l' here act =>
    cases act with
    | tellInit | tellParent parent child => exact at_ r _ (by simp [Prompt])
  | unlock r lk chan l here | suspend r lk chan l here | resume r lk chan l here
  | skip r lk chan l here | look r q lk chan l here =>
    have before := prompt r
    rw [here] at before
    exact at_ r _ before
  | kill | yield | pick => exact prompt p

theorem returning_step {p : Fin n} {pid : Nat} (prompt : ∀ p, Prompt (s.place p))
    (step : Step (families n) s t) (moved : t.place p ≠ s.place p)
    (returns : t.place p = .inside () (.returning (.child pid))) :
    ∃ q : Fin n, s.data.parent q = some p ∧ s.view.life q = .zombie ∧ s.data.pid q = pid ∧
      t.view.life q = .unused ∧ t.data.waits = s.data.waits ++ [(pid, s.data.xstate q)] := by
  have own : ∀ {r : Fin n} {place : Place Unit (Fin n) (FamilyTask n)},
      t.place = Function.update s.place r place → r = p ∧ t.place p = place := by
    intro r place places
    by_cases same : p = r
    · subst same
      exact ⟨rfl, by rw [places, Function.update_self]⟩
    · exact absurd (by rw [places, Function.update_of_ne same]) moved
  cases step with
  | go r lk l l' v here act =>
    obtain ⟨rfl, there⟩ := own rfl
    rw [returns, Place.inside.injEq] at there
    obtain ⟨-, rfl⟩ := there
    cases act with
    | @reap _ havekids q child unlocked dead =>
      refine ⟨q, child, dead, rfl, ?_, rfl⟩
      change (System.view (System.change s _)).life q = .unused
      rw [Contract.view_change]
      simp [View.noteWait, View.freeproc]
  | reacquire r lk l here | woke r lk chan l here =>
    obtain ⟨rfl, there⟩ := own rfl
    rw [returns, Place.inside.injEq] at there
    obtain ⟨-, rfl⟩ := there
    have before := prompt r
    rw [here] at before
    exact absurd rfl (before _)
  | acquire r lk l l' here running act unlocked =>
    obtain ⟨rfl, there⟩ := own rfl
    rw [returns, Place.inside.injEq] at there
    obtain ⟨-, rfl⟩ := there
    cases act
  | kill | yield | pick => exact absurd rfl moved
  | outside r | release r | sleep r | unlock r | suspend r | resume r | wakeup r | skip r | look r
  | exit r | leave r | gone r =>
    obtain ⟨rfl, there⟩ := own rfl
    rw [returns] at there
    cases there

/-- In every run of processes that fork, exit and wait, every started process but `init` has
a living parent, every exit status is delivered once, to a `kwait` of the parent, which
frees the process, and no process sleeps in `kwait` that has an exited child. -/
theorem exit_status_delivered_once {s t : System n Unit (Fin n) (FamilyTask n) (Family n)}
    (start : FamilyAtRest s) (run : Reaches (Step (families n)) s t) :
    (∀ q, q ≠ t.data.initproc → life (t.table q).state = .live ∨ (t.table q).state = .ZOMBIE →
      ∃ r, t.data.parent q = some r ∧ (t.table r).state ≠ .UNUSED ∧ (t.table r).state ≠ .ZOMBIE) ∧
    (∀ u q, Step (families n) t u → (t.table q).state = .ZOMBIE →
      ((u.table q).state = .ZOMBIE ∧ u.data.xstate q = t.data.xstate q ∧
        u.data.pid q = t.data.pid q) ∨
      ∃ p havekids, t.data.parent q = some p ∧ t.place p = .inside () (.scanning q havekids) ∧
        u.place p = .inside () (.returning (.child (t.data.pid q))) ∧
        (u.table q).state = .UNUSED ∧
        u.data.waits = t.data.waits ++ [(t.data.pid q, t.data.xstate q)]) ∧
    ((∀ u p pid, Step (families n) t u → u.place p ≠ t.place p →
        u.place p = .inside () (.returning (.child pid)) →
        ∃ q, t.data.parent q = some p ∧ (t.table q).state = .ZOMBIE ∧ t.data.pid q = pid ∧
          (u.table q).state = .UNUSED ∧ u.data.waits = t.data.waits ++ [(pid, t.data.xstate q)]) ∧
      ∀ p pid, t.place p = .inside () (.returning (.child pid)) →
        ∃ status, (pid, status) ∈ t.data.waits) ∧
    ((t.data.exits.map Prod.fst).Nodup ∧ (t.data.waits.map Prod.fst).Nodup ∧
      (∀ e ∈ t.data.waits, e ∈ t.data.exits ∧
        ∀ q, (t.table q).state ≠ .UNUSED → t.data.pid q ≠ e.1) ∧
      (∀ e ∈ t.data.exits, e ∈ t.data.waits ∨
        ∃ q, (t.table q).state = .ZOMBIE ∧ e = (t.data.pid q, t.data.xstate q)) ∧
      ∀ q, (t.table q).state = .ZOMBIE → (t.data.pid q, t.data.xstate q) ∈ t.data.exits ∧
        ∀ e ∈ t.data.waits, e.1 ≠ t.data.pid q) ∧
    (∀ p, t.place p = .inside () (.returning .noChildren) → ∀ q, t.data.parent q ≠ some p) ∧
    (t.holder () = none → ∀ p q, (t.table p).state = .SLEEPING → t.data.parent q = some p →
      (t.table q).state ≠ .ZOMBIE) := by
  obtain ⟨coherent, kept⟩ :=
    (familyContract n).run_kept families_tame start.rest start.inv
      (fun p l here => by
        rw [start.idle p, Place.outside.injEq] at here
        subst here
        trivial) run
  have prompt : ∀ p, Prompt (t.place p) :=
    run.keeps (fun s => ∀ p, Prompt (s.place p)) (fun _ _ before step p => prompt_step before step p)
      fun p => by rw [start.idle p]; trivial
  obtain ⟨tree, ledger⟩ := kept.inv
  have zombie : ∀ q, t.view.life q = .zombie ↔ (t.table q).state = .ZOMBIE := fun q => life_zombie
  refine ⟨?_, ?_, ⟨?_, ?_⟩, ?_, ?_, ?_⟩
  · intro q other started
    have parent := tree.has_parent q other (started.imp_right (zombie q).mpr)
    obtain ⟨r, child⟩ := Option.ne_none_iff_exists'.mp parent
    have alive : life (t.table r).state = .live := tree.parent_live q r child
    refine ⟨r, child, ?_, ?_⟩ <;> intro state <;> simp [state, life] at alive
  · intro u q step dead
    rcases zombie_step coherent step ((zombie q).mpr dead) with ⟨still, same⟩ | reaped
    · exact Or.inl ⟨life_zombie.mp still, same⟩
    · obtain ⟨p, havekids, child, scans, returns, free, waits⟩ := reaped
      exact Or.inr ⟨p, havekids, child, scans, returns, life_unused.mp free, waits⟩
  · intro u p pid step moved returns
    obtain ⟨q, child, dead, number, free, waits⟩ := returning_step prompt step moved returns
    exact ⟨q, child, (zombie q).mp dead, number, life_unused.mp free, waits⟩
  · intro p pid here
    have known := kept.locals p
    rw [here] at known
    exact (known rfl).2 pid rfl
  · have inUse : ∀ q, (t.table q).state ≠ .UNUSED → t.view.life q ≠ .unused :=
      fun q used free => used (life_unused.mp free)
    refine ⟨ledger.exits_nodup, ledger.waits_nodup,
      fun e waited => ⟨ledger.waits_exits e waited, fun q used => ledger.paid e waited q (inUse q used)⟩,
      fun e out => ?_, fun q dead => ⟨ledger.owed q ((zombie q).mpr dead), fun e waited same => ?_⟩⟩
    · refine (ledger.settled e out).imp_right ?_
      rintro ⟨q, dead, same⟩
      exact ⟨q, (zombie q).mp dead, same⟩
    · exact ledger.paid e waited q (inUse q (by simp [dead])) same.symm
  · intro p here q
    have known := kept.locals p
    rw [here] at known
    exact (known rfl).1 rfl q q.isLt
  · intro unlocked p q asleep child dead
    obtain ⟨lk, chan, -, waiting⟩ := coherent.waiting_of_asleep asleep
    have own : chan = p := waiting_paired (fun p _ chan => chan = p)
      (fun _ _ _ _ _ _ _ act => by cases act; rfl) start.rest run waiting
    subst own
    exact kept.free unlocked waiting q child ((zombie q).mpr dead)

def initAlone : System 2 Unit (Fin 2) (FamilyTask 2) (Family 2) where
  table p := ⟨if p.val = 0 then .RUNNING else .UNUSED, none, false⟩
  place _ := .outside .user
  holder _ := none
  data := ⟨⟨0, Nat.two_pos⟩, fun _ => none, fun p => if p.val = 0 then 1 else 0, fun _ => 0, 2, fun _ => none, [], []⟩

/-- `init` forks, its child exits with status 7, and a `kwait` of `init` returns the number of the
child, whose process is free again. -/
theorem child_waited_for :
    ∃ t, Reaches (Step (families 2)) initAlone t ∧ t.data.exits = [(2, 7)] ∧
      t.place 0 = .inside () (.returning (.child 2)) ∧ (t.table 1).state = .UNUSED ∧
      t.data.waits = [(2, 7)] ∧ ∀ q, (t.table q).state ≠ .UNUSED → t.data.pid q ≠ 2 := by
  have start : FamilyAtRest initAlone :=
    ⟨⟨fun _ => ⟨_, rfl⟩, by decide, fun _ => rfl⟩, fun _ => rfl, rfl, by decide, fun _ => rfl,
      by decide, rfl, rfl⟩
  have exits : Reaches (Step (families 2)) initAlone _ :=
    ((((((((((((((((Relation.ReflTransGen.refl.tail
      (.outside 0 _ _ _ rfl rfl (.allocate 1 rfl rfl))).tail
      (.acquire 0 () _ _ rfl rfl .kfork rfl)).tail
      (.go 0 () _ _ _ rfl .adopt)).tail
      (.release 0 () _ _ rfl .adopted)).tail
      (.outside 0 _ _ _ rfl rfl (.finish rfl rfl))).tail
      (.pick 1 rfl (.inl ⟨_, rfl⟩))).tail
      (.acquire 1 () _ _ rfl rfl (.kexit 7 (by decide)) rfl)).tail
      (.go 1 () _ _ _ rfl (.keep 0 (by decide)))).tail
      (.go 1 () _ _ _ rfl (.keep 1 (by decide)))).tail
      (.wakeup 1 () 0 _ _ rfl (.tellParent 0 rfl))).tail
      (.look 1 0 () 0 _ rfl (by decide) rfl)).tail
      (.skip 1 () 0 _ rfl)).tail
      (.woke 1 () 0 _ rfl)).tail
      (.exit 1 () _ _ _ rfl .exit)).tail
      (.leave 1 () _ rfl)).tail
      (.gone 1 _ rfl))
  have waits : Reaches (Step (families 2)) initAlone _ :=
    ((exits.tail
      (.acquire 0 () _ _ rfl rfl .kwait rfl)).tail
      (.go 0 () _ _ _ rfl (.pass 0 (by decide)))).tail
      (.go 0 () _ _ _ rfl (.reap 1 rfl rfl rfl))
  have delivered := (exit_status_delivered_once start waits).2.2.2.1.2.2.1 (2, 7) (by decide)
  exact ⟨_, waits, rfl, rfl, rfl, rfl, delivered.2⟩

end Xv6.Proc
