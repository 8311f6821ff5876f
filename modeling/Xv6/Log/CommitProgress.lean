import Xv6.Log.BufferCache
import Xv6.Log.Reservation

/-!
# The progress of a commit

How the place of the committing process, the counters of its progress and the in-memory log
header fit together, whatever the buffers hold.
-/

namespace Xv6.BufferCache

open Transition
open GroupCommit (InCommit Exclusive beginOp_some endOp_ok mem_absorb length_absorb_le)

inductive Stage where
  | user
  | writing (copied written : Nat)
  | installing (installed : Nat)
  | committed

namespace Work

variable {B : Type}

def stage : Work B → Stage
  | .user => .user
  | .start => .writing 0 0
  | .toLog tail | .fromCache tail _ | .copyLog tail _ _ => .writing tail tail
  | .bwriteLog tail _ _ => .writing (tail + 1) tail
  | .relFrom tail _ _ | .relTo tail _ => .writing (tail + 1) (tail + 1)
  | .head erase | .fillHead erase _ | .bwriteHead erase _ | .relHead erase _ =>
    if erase then .committed else .installing 0
  | .fromLog tail | .toHome tail _ | .copyHome tail _ _ | .bwriteHome tail _ _
  | .unpin tail _ _ => .installing tail
  | .relLbuf tail _ _ | .relDbuf tail _ => .installing (tail + 1)
  | .finished => .committed

def index : Work B → Option Nat
  | .fromCache tail _ | .copyLog tail _ _ | .toHome tail _ | .copyHome tail _ _
  | .bwriteHome tail _ _ | .unpin tail _ _ => some tail
  | _ => none

theorem stage_got (work : Work B) (b : B) : (work.got b).stage = work.stage := by
  cases work <;> rfl

theorem stage_releases {work work' : Work B} {b : B} (releases : work.releases = some (b, work')) :
    work'.stage = work.stage ∧ work'.index = none := by
  cases work <;> simp only [Work.releases, Option.some.injEq, Prod.mk.injEq, reduceCtorEq] at releases
  case relHead erase buf =>
    obtain ⟨-, rfl⟩ := releases
    cases erase <;> exact ⟨rfl, rfl⟩
  all_goals
    obtain ⟨-, rfl⟩ := releases
    exact ⟨rfl, rfl⟩

theorem index_got {start number : Nat} {blocks : List Nat} {work : Work B} {b : B} {tail : Nat}
    (asks : work = .user ∨ work.asks start blocks = some number)
    (before : ∀ tail, work.index = some tail → tail < blocks.length)
    (index : (work.got b).index = some tail) : tail < blocks.length := by
  cases work with
  | toLog t | fromLog t =>
    simp only [got, Work.index, Option.some.injEq] at index
    subst index
    by_contra beyond
    simp [Work.asks, beyond] at asks
  | fromCache t toBuf | toHome t lbuf => exact before tail index
  | head erase => cases index
  | _ => exact before tail index

end Work

variable {P B : Type} {start : Nat}

def StageOk (s : System P B) (p : P) : Stage → Prop
  | .user => ¬ InCommit (s.group.pc p)
  | .writing c w => (∃ copied, s.group.pc p = .copying copied ∧ copied.length = c) ∧
    c ≤ s.blocks.length ∧ w ≤ c ∧ s.written = w ∧ s.installed = 0
  | .installing i => (∃ copied, s.group.pc p = .copying copied ∧ copied.length = s.blocks.length) ∧
    i ≤ s.blocks.length ∧ s.written = s.blocks.length ∧ s.installed = i
  | .committed => s.group.pc p = .committed ∧ s.blocks = [] ∧ s.written = 0 ∧ s.installed = 0

def Asked (start : Nat) (blocks : List Nat) : Place B → Prop
  | .locking _ number work | .filling _ number work =>
    work = .user ∨ work.asks start blocks = some number
  | _ => True

/-- What holds of one process. -/
structure ProcessInStep (start : Nat) (s : System P B) (p : P) : Prop where
  stage : StageOk s p (s.place p).work.stage
  index : ∀ tail, (s.place p).work.index = some tail → tail < s.blocks.length
  asked : Asked start s.blocks (s.place p)

structure InStep (start : Nat) (s : System P B) : Prop where
  exclusive : Exclusive s.group
  process : ∀ p, ProcessInStep start s p
  home : ∀ number ∈ s.blocks, Home start number
  length : s.blocks.length ≤ LOGBLOCKS
  idle : s.group.log.committing = false → s.written = 0 ∧ s.installed = 0

section Progress

variable {s t : System P B} {p q : P} {work : Work B}

theorem StageOk.inCommit (ok : StageOk s p work.stage) (other : work ≠ .user) :
    InCommit (s.group.pc p) := by
  have copying : (∃ copied, s.group.pc p = .copying copied) → InCommit (s.group.pc p) := by
    rintro ⟨copied, here⟩
    rw [here]
    trivial
  cases found : work.stage with
  | user =>
    cases work <;> first | exact absurd rfl other | simp [Work.stage] at found
    all_goals split at found <;> cases found
  | writing c w | installing i =>
    rw [found] at ok
    exact copying (ok.1.imp fun _ => And.left)
  | committed =>
    rw [found] at ok
    rw [ok.1]
    trivial

theorem ProcessInStep.work_user (process : ProcessInStep start s p)
    (out : ¬ InCommit (s.group.pc p)) : (s.place p).work = .user :=
  by_contra fun other => out (process.stage.inCommit other)

theorem processInStep_iff {place : Place B} (here : s.place p = place) :
    ProcessInStep start s p ↔ StageOk s p place.work.stage ∧
      (∀ tail, place.work.index = some tail → tail < s.blocks.length) ∧
      Asked start s.blocks place := by
  subst here
  exact ⟨fun process => ⟨process.stage, process.index, process.asked⟩,
    fun ⟨stage, index, asked⟩ => ⟨stage, index, asked⟩⟩

variable {pc : GroupCommit.Pc}

theorem processInStep_user {place : Place B} (here : t.place q = place) (user : place.work = .user)
    (there : t.group.pc q = pc) (out : ¬ InCommit pc) :
    ProcessInStep start t q := by
  refine (processInStep_iff here).mpr ⟨?_, ?_, ?_⟩
  · rw [user]
    rwa [← there] at out
  · rw [user]
    rintro _ ⟨⟩
  · cases place with
    | locking b number work | filling b number work => exact Or.inl user
    | _ => trivial

theorem ProcessInStep.frame (process : ProcessInStep start s q) (place : t.place q = s.place q)
    (pc : t.group.pc q = s.group.pc q) (still : InCommit (s.group.pc q) →
      t.blocks = s.blocks ∧ t.written = s.written ∧ t.installed = s.installed) :
    ProcessInStep start t q := by
  by_cases committing : InCommit (s.group.pc q)
  · obtain ⟨blocks, written, installed⟩ := still committing
    obtain ⟨stage, index, asked⟩ := process
    refine ⟨?_, by rwa [place, blocks], by rwa [place, blocks]⟩
    rw [place]
    generalize (s.place q).work.stage = found at stage
    cases found <;> simpa only [StageOk, pc, blocks, written, installed] using stage
  · exact processInStep_user place (process.work_user committing) pc committing

theorem InStep.none_commits (inStep : InStep start s) (idle : s.group.log.committing = false) (q : P) :
    ¬ InCommit (s.group.pc q) := by
  intro committing
  rw [inStep.exclusive.flagged q committing] at idle
  cases idle

theorem InStep.idle_of_operating (inStep : InStep start s) {op : Nat}
    (operating : s.group.pc p = .operating op) : s.group.log.committing = false := by
  by_contra committing
  exact inStep.exclusive.quiet (by simpa using committing) p op operating

variable [DecidableEq P] [DecidableEq B]

theorem InStep.group_step (inStep : InStep start s) (step : Step start s t) :
    t.group = s.group ∨ GroupCommit.Step s.group t.group := by
  cases step with
  | beginOp p log here entering room => exact Or.inr (.enter p log entering room)
  | wait p here entering full => exact Or.inr (.sleep p entering full)
  | endOp p op log here operating others => exact Or.inr (.leave p op log operating others)
  | lastOp p op log here operating alone => exact Or.inr (.last p op log operating alone)
  | clear p here done => exact Or.inr (.clear p done)
  | logWrite p op b log buf here operating holds home wrote =>
    exact Or.inr (.write p op _ _ log operating (logWrite_group wrote))
  | empty p copied here copying none =>
    have stage := (inStep.process p).stage
    rw [here] at stage
    obtain ⟨⟨copied', same, length⟩, -⟩ := stage
    rw [copying, GroupCommit.Pc.copying.injEq] at same
    subst same
    exact Or.inr (.finish p copied copying (by rw [length]; exact (congrArg List.length none).symm))
  | copyLog p tail toBuf fromBuf copied number here copying next =>
    exact Or.inr (.copy p copied number copying next)
  | erase p tail copied here copying all =>
    have stage := (inStep.process p).stage
    rw [here] at stage
    obtain ⟨⟨copied', same, length⟩, -⟩ := stage
    rw [copying, GroupCommit.Pc.copying.injEq] at same
    subst same
    exact Or.inr (.finish p copied copying length)
  | bget p number work b t here asks found =>
    rcases (bget_some found).2 with ⟨-, rfl⟩ | ⟨-, -, rfl⟩ <;> exact Or.inl rfl
  | _ => exact Or.inl rfl

theorem InStep.advance (inStep : InStep start s) (step : Step start s t) (p : P)
    (places : ∀ q, q ≠ p → t.place q = s.place q)
    (pcs : ∀ q, q ≠ p → t.group.pc q = s.group.pc q)
    (still : ∀ q, q ≠ p → InCommit (s.group.pc q) →
      t.blocks = s.blocks ∧ t.written = s.written ∧ t.installed = s.installed)
    (own : ProcessInStep start t p) (home : ∀ number ∈ t.blocks, Home start number)
    (length : t.blocks.length ≤ LOGBLOCKS)
    (idle : t.group.log.committing = false → t.written = 0 ∧ t.installed = 0) : InStep start t := by
  refine ⟨?_, fun q => ?_, home, length, idle⟩
  · rcases inStep.group_step step with same | moved
    · rw [same]
      exact inStep.exclusive
    · exact inStep.exclusive.step moved
  · by_cases same : q = p
    · rw [same]
      exact own
    · exact (inStep.process q).frame (places q same) (pcs q same) (still q same)

theorem InStep.quiet (inStep : InStep start s) (step : Step start s t) {old new : Place B}
    (places : ∀ q, q ≠ p → t.place q = s.place q) (group : t.group = s.group)
    (written : t.written = s.written) (installed : t.installed = s.installed)
    (here : s.place p = old) (there : t.place p = new) (stage : new.work.stage = old.work.stage)
    (index : (∀ tail, old.work.index = some tail → tail < s.blocks.length) → Asked start s.blocks old →
      ∀ tail, new.work.index = some tail → tail < s.blocks.length)
    (asked : Asked start s.blocks old → Asked start s.blocks new) : InStep start t := by
  have blocks : t.blocks = s.blocks := by rw [System.blocks, group, System.blocks]
  obtain ⟨oldStage, oldIndex, oldAsked⟩ := (processInStep_iff here).mp (inStep.process p)
  refine inStep.advance step p places (fun q _ => by rw [group])
    (fun _ _ _ => ⟨blocks, written, installed⟩) ((processInStep_iff there).mpr ⟨?_, ?_, ?_⟩) ?_ ?_ ?_
  · rw [stage]
    generalize old.work.stage = found at oldStage
    cases found <;> simpa only [StageOk, group, blocks, written, installed] using oldStage
  · rw [blocks]
    exact index oldIndex oldAsked
  · rw [blocks]
    exact asked oldAsked
  · rw [blocks]
    exact inStep.home
  · rw [blocks]
    exact inStep.length
  · rw [group, written, installed]
    exact inStep.idle

/-- A step of the committing process. -/
theorem InStep.commit (inStep : InStep start s) (step : Step start s t)
    (places : ∀ q, q ≠ p → t.place q = s.place q)
    (pcs : ∀ q, q ≠ p → t.group.pc q = s.group.pc q) (commits : InCommit (s.group.pc p))
    (committing : t.group.log.committing = s.group.log.committing)
    (blocks : t.blocks = s.blocks ∨ t.blocks = []) (own : ProcessInStep start t p) :
    InStep start t := by
  refine inStep.advance step p places pcs ?_ own ?_ ?_ ?_
  · intro q other also
    exact absurd (inStep.exclusive.unique q p also commits) other
  · rcases blocks with same | none
    · rw [same]
      exact inStep.home
    · rw [none]
      simp
  · rcases blocks with same | none
    · rw [same]
      exact inStep.length
    · rw [none]
      exact Nat.zero_le _
  · intro idle
    rw [committing, inStep.exclusive.flagged p commits] at idle
    cases idle

theorem InStep.operate (inStep : InStep start s) (step : Step start s t) (p : P)
    (idle : s.group.log.committing = false) (places : ∀ q, q ≠ p → t.place q = s.place q)
    (pcs : ∀ q, q ≠ p → t.group.pc q = s.group.pc q) (own : ProcessInStep start t p)
    (home : ∀ number ∈ t.blocks, Home start number) (length : t.blocks.length ≤ LOGBLOCKS)
    (written : t.written = s.written) (installed : t.installed = s.installed) : InStep start t := by
  refine inStep.advance step p places pcs ?_ own home length fun _ => ?_
  · exact fun q _ committing => absurd committing (inStep.none_commits idle q)
  · rw [written, installed]
    exact inStep.idle idle

omit [DecidableEq B] in
theorem group_pc_other (other : q ≠ p) :
    (s.group.move p pc).pc q = s.group.pc q := by
  simp [GroupCommit.System.move, other]

omit [DecidableEq B] in
theorem group_pc_own : (s.group.move p pc).pc p = pc := by
  simp [GroupCommit.System.move]

theorem InStep.lastOp (inStep : InStep start s) {op : Nat} {log : GroupCommit.Log}
    (here : s.place p = .doing .user) (operating : s.group.pc p = .operating op)
    (alone : GroupCommit.endOp s.group.log = .ok (log, true)) :
    InStep start ({ s with group := { s.group.move p (.copying []) with log := log } }.move p
      (.doing .start)) := by
  have step : Step start s _ := .lastOp p op log here operating alone
  obtain ⟨idle, -, rfl⟩ := endOp_ok alone
  obtain ⟨written, installed⟩ := inStep.idle idle
  refine inStep.operate step p idle (fun _ other => place_other other)
    (fun q other => group_pc_other other)
    ((processInStep_iff place_move).mpr ⟨?_, (by rintro _ ⟨⟩), trivial⟩) inStep.home inStep.length
    rfl rfl
  exact ⟨⟨[], group_pc_own, rfl⟩, Nat.zero_le _, Nat.le_refl 0, written, installed⟩

theorem InStep.clear (inStep : InStep start s) (here : s.place p = .doing .finished)
    (done : s.group.pc p = .committed) :
    InStep start ({ s with group := { s.group.move p .outside with
      log := { s.group.log with committing := false } } }.move p (.doing .user)) := by
  have commits : InCommit (s.group.pc p) := by rw [done]; trivial
  obtain ⟨stage, -⟩ := (processInStep_iff here).mp (inStep.process p)
  refine inStep.advance (.clear p here done) p (fun _ other => place_other other)
    (fun q other => group_pc_other other) ?_ (processInStep_user place_move rfl group_pc_own id)
    inStep.home inStep.length fun _ => stage.2.2
  exact fun q other also => absurd (inStep.exclusive.unique q p also commits) other

theorem InStep.logWrite (inStep : InStep start s) {op : Nat} {b : B} {log : GroupCommit.Log}
    {buf : Buf P} (here : s.place p = .doing .user) (operating : s.group.pc p = .operating op)
    (holds : (s.buf b).lock = some p) (home : Home start (s.buf b).blockno)
    (wrote : BufferCache.logWrite s.group.log (s.buf b) = .ok (log, buf)) :
    InStep start (s.note op b log buf) := by
  have step := Step.logWrite p op b log buf here operating holds home wrote
  obtain ⟨room, -, rfl, rfl⟩ := logWrite_ok wrote
  refine inStep.operate step p (inStep.idle_of_operating operating) (fun _ _ => rfl)
    (fun _ _ => rfl) (processInStep_user here rfl operating id) ?_ ?_ rfl rfl
  · intro number listed
    rcases (mem_absorb _ _ _).mp listed with old | rfl
    · exact inStep.home number old
    · exact home
  · exact Nat.le_trans (length_absorb_le _ _) room

theorem InStep.copyLog (inStep : InStep start s) {tail number : Nat} {toBuf fromBuf : B}
    {copied : List (Nat × Block)} (here : s.place p = .doing (.copyLog tail toBuf fromBuf))
    (copying : s.group.pc p = .copying copied) (next : s.blocks[copied.length]? = some number) :
    InStep start ({ s.set toBuf { s.buf toBuf with data := (s.buf fromBuf).data, dirty := true } with
      group := s.group.move p (.copying (copied ++ [(number, s.group.cache number)])) }.move p
        (.doing (.bwriteLog tail toBuf fromBuf))) := by
  obtain ⟨⟨⟨copied', same, length⟩, -, -, written, installed⟩, index, -⟩ :=
    (processInStep_iff here).mp (inStep.process p)
  have bound := index tail rfl
  rw [copying, GroupCommit.Pc.copying.injEq] at same
  subst same
  refine inStep.commit (.copyLog p tail toBuf fromBuf copied number here copying next)
    (fun _ other => place_other other) (fun q other => group_pc_other other)
    (by rw [copying]; trivial) rfl (Or.inl rfl)
    ((processInStep_iff place_move).mpr ⟨?_, (by rintro _ ⟨⟩), trivial⟩)
  exact ⟨⟨_, group_pc_own, by simp [length]⟩, bound, Nat.le_succ _, written, installed⟩

/-- `bget` changes buffers only. -/
theorem InStep.bget (inStep : InStep start s) {number : Nat} {b : B} (here : s.place p = .doing work)
    (asks : work = .user ∨ work.asks start s.blocks = some number)
    (found : s.bget number = some (b, t)) : InStep start (t.move p (.locking b number work)) := by
  have stay : t.group = s.group ∧ t.written = s.written ∧ t.installed = s.installed ∧
      t.place = s.place := by
    rcases (bget_some found).2 with ⟨-, rfl⟩ | ⟨-, -, rfl⟩ <;> exact ⟨rfl, rfl, rfl, rfl⟩
  obtain ⟨group, written, installed, places⟩ := stay
  exact inStep.quiet (.bget p number work b t here asks found)
    (fun _ other => by rw [place_other other, places]) group written installed here place_move rfl
    (fun index _ => index) fun _ => asks

theorem InStep.brelse (inStep : InStep start s) {b : B} {work' : Work B}
    (here : s.place p = .doing work) (holds : (s.buf b).lock = some p)
    (asks : (work = .user ∧ work' = .user ∧ (s.buf b).dirty = false) ∨
      work.releases = some (b, work')) :
    InStep start ((s.set b { s.buf b with lock := none }).move p (.releasing b work')) := by
  have stage : work'.stage = work.stage ∧ work'.index = none := by
    rcases asks with ⟨rfl, rfl, -⟩ | releases
    · exact ⟨rfl, rfl⟩
    · exact Work.stage_releases releases
  refine inStep.quiet (.brelse p b work work' here holds asks) (fun _ other => place_other other) rfl
    rfl rfl here place_move stage.1 (fun _ _ tail index => ?_) fun _ => trivial
  exact absurd (stage.2.symm.trans index) (by simp)

theorem InStep.logged (inStep : InStep start s) {tail : Nat}
    (here : s.place p = .doing (.toLog tail)) (all : tail = s.blocks.length) :
    InStep start (s.move p (.doing (.head false))) := by
  obtain ⟨⟨⟨copied, copying, length⟩, -, -, written, installed⟩, -⟩ :=
    (processInStep_iff here).mp (inStep.process p)
  refine inStep.commit (.logged p tail here all) (fun _ other => place_other other)
    (fun _ _ => rfl) (by rw [copying]; trivial) rfl (Or.inl rfl)
    ((processInStep_iff place_move).mpr ⟨?_, (by rintro _ ⟨⟩), trivial⟩)
  exact ⟨⟨copied, copying, length.trans all⟩, Nat.zero_le _, written.trans all, installed⟩

theorem InStep.bwrite (inStep : InStep start s) {b : B} {work' : Work B}
    (here : s.place p = .doing work) (holds : (s.buf b).lock = some p)
    (asks : work.writes = some (b, work')) :
    InStep start ({ s.bwrite b with
      written := match work with
        | .bwriteLog tail _ _ => tail + 1
        | _ => s.written }.move p (.doing work')) := by
  have step : Step start s _ := .bwrite p b work work' here holds asks
  cases work with
  | bwriteLog tail toBuf fromBuf =>
    cases asks
    obtain ⟨⟨⟨copied, copying, length⟩, bound, -, -, installed⟩, -⟩ :=
      (processInStep_iff here).mp (inStep.process p)
    refine inStep.commit step (fun _ other => place_other other) (fun _ _ => rfl)
      (by rw [copying]; trivial) rfl (Or.inl rfl)
      ((processInStep_iff place_move).mpr ⟨?_, (by rintro _ ⟨⟩), trivial⟩)
    exact ⟨⟨copied, copying, length⟩, bound, Nat.le_refl _, rfl, installed⟩
  | bwriteHead erase buf | bwriteHome tail lbuf dbuf =>
    cases asks
    exact inStep.quiet step (fun _ other => place_other other) rfl rfl rfl here place_move rfl
      (fun index _ => index) fun _ => trivial
  | _ => cases asks

theorem InStep.unpin (inStep : InStep start s) {tail : Nat} {lbuf dbuf : B}
    (here : s.place p = .doing (.unpin tail lbuf dbuf)) :
    InStep start ((s.bunpin tail dbuf).move p (.doing (.relLbuf tail lbuf dbuf))) := by
  obtain ⟨⟨⟨copied, copying, length⟩, -, written, -⟩, index, -⟩ :=
    (processInStep_iff here).mp (inStep.process p)
  refine inStep.commit (.unpin p tail lbuf dbuf here) (fun _ other => place_other other)
    (fun _ _ => rfl) (by rw [copying]; trivial) rfl (Or.inl rfl)
    ((processInStep_iff place_move).mpr ⟨?_, (by rintro _ ⟨⟩), trivial⟩)
  exact ⟨⟨copied, copying, length⟩, index tail rfl, written, rfl⟩

theorem InStep.step (inStep : InStep start s) (step : Step start s t) : InStep start t := by
  have whole := step
  cases step with
  | beginOp p log here entering room =>
    obtain ⟨idle, rfl⟩ := beginOp_some room
    exact inStep.operate whole p idle (fun _ _ => rfl) (fun q other => group_pc_other other)
      (processInStep_user here rfl group_pc_own id) inStep.home inStep.length rfl rfl
  | wait p here entering full =>
    exact inStep.advance whole p (fun _ _ => rfl) (fun q other => group_pc_other other)
      (fun _ _ _ => ⟨rfl, rfl, rfl⟩) (processInStep_user here rfl group_pc_own id) inStep.home
      inStep.length inStep.idle
  | endOp p op log here operating others =>
    obtain ⟨idle, -, rfl⟩ := endOp_ok others
    exact inStep.operate whole p idle (fun _ _ => rfl) (fun q other => group_pc_other other)
      (processInStep_user here rfl group_pc_own id) inStep.home inStep.length rfl rfl
  | lastOp p op log here operating alone => exact inStep.lastOp here operating alone
  | clear p here done => exact inStep.clear here done
  | logWrite p op b log buf here operating holds home wrote =>
    exact inStep.logWrite here operating holds home wrote
  | empty p copied here copying none =>
    obtain ⟨stage, -⟩ := (processInStep_iff here).mp (inStep.process p)
    exact inStep.commit whole (p := p) (fun _ other => place_other other)
      (fun q other => group_pc_other other) (by rw [copying]; trivial) rfl (Or.inr rfl)
      ((processInStep_iff place_move).mpr
        ⟨⟨group_pc_own, rfl, stage.2.2.2⟩, (by rintro _ ⟨⟩), trivial⟩)
  | copyLog p tail toBuf fromBuf copied number here copying next =>
    exact inStep.copyLog here copying next
  | erase p tail copied here copying all =>
    exact inStep.commit whole (p := p) (fun _ other => place_other other)
      (fun q other => group_pc_other other) (by rw [copying]; trivial) rfl (Or.inr rfl)
      ((processInStep_iff place_move).mpr ⟨⟨group_pc_own, rfl, rfl, rfl⟩, (by rintro _ ⟨⟩), trivial⟩)
  | bget p number work b t here asks found => exact inStep.bget here asks found
  | lock p b number work here free =>
    exact inStep.quiet whole (fun _ other => place_other other) rfl rfl rfl here place_move rfl
      (fun index _ => index) id
  | fill p b number work here =>
    exact inStep.quiet whole (fun _ other => place_other other) rfl rfl rfl here place_move
      (work.stage_got b) (fun index asked tail => Work.index_got asked index) fun _ => trivial
  | modify p b data here holds home =>
    exact inStep.quiet whole (p := p) (fun _ _ => rfl) rfl rfl rfl here here rfl (fun index _ => index) id
  | brelse p b work work' here holds asks => exact inStep.brelse here holds asks
  | unref p b work here | begin p here some | fillHead p erase buf here
  | copyHome p tail lbuf dbuf here =>
    exact inStep.quiet whole (fun _ other => place_other other) rfl rfl rfl here place_move rfl
      (fun index _ => index) fun _ => trivial
  | logged p tail here all => exact inStep.logged here all
  | bwrite p b work work' here holds asks => exact inStep.bwrite here holds asks
  | unpin p tail lbuf dbuf here => exact inStep.unpin here

end Progress

end Xv6.BufferCache
