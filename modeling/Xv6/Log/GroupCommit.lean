import Mathlib.Data.Finset.Card
import Mathlib.Data.List.Nodup
import Xv6.Library.Transition
import Xv6.Param

/-!
# Group commit under concurrent operations

The critical sections of `log.lock` in `begin_op`, `log_write` and `end_op`, and `commit`
between them, which runs without the lock and copies the listed blocks one at a time.
-/

namespace Xv6.GroupCommit

open Transition Function

structure Log where
  outstanding : Int
  committing : Bool
  blocks : List Nat

inductive Panic where
  | logCommitting
  | tooBigTransaction
  | logWriteOutside

def beginOp (log : Log) : Option Log :=
  if log.committing then none
  else if (log.blocks.length : Int) + (log.outstanding + 1) * MAXOPBLOCKS > LOGBLOCKS then none
  else some { log with outstanding := log.outstanding + 1 }

def absorb (number : Nat) : List Nat → List Nat
  | [] => [number]
  | entry :: rest => if entry = number then number :: rest else entry :: absorb number rest

def logWrite (log : Log) (number : Nat) : Except Panic Log :=
  if log.blocks.length ≥ LOGBLOCKS then .error .tooBigTransaction
  else if log.outstanding < 1 then .error .logWriteOutside
  else .ok { log with blocks := absorb number log.blocks }

def endOp (log : Log) : Except Panic (Log × Bool) :=
  let outstanding := log.outstanding - 1
  if log.committing then .error .logCommitting
  else if outstanding = 0 then .ok ({ log with outstanding := outstanding, committing := true }, true)
  else .ok ({ log with outstanding := outstanding }, false)

structure Entry where
  op : Nat
  block : Nat
  contents : Block

structure Commit where
  logged : List Entry
  copied : List (Nat × Block)

/-- Where a process is with respect to the log. -/
inductive Pc where
  | outside
  | waiting
  | operating (op : Nat)
  | copying (copied : List (Nat × Block))
  | committed

structure System (P : Type) where
  log : Log
  cache : Nat → Block
  pc : P → Pc
  nextOp : Nat
  logged : List Entry
  commits : List Commit
  history : List Entry

variable {P : Type} [DecidableEq P]

namespace System

/-- Move one process. -/
def move (s : System P) (p : P) (pc : Pc) : System P := { s with pc := update s.pc p pc }

end System

def initial (cache : Nat → Block) : System P :=
  ⟨⟨0, false, []⟩, cache, fun _ => .outside, 0, [], [], []⟩

def Entering (pc : Pc) : Prop := pc = .outside ∨ pc = .waiting

inductive Step : System P → System P → Prop
  | enter {s : System P} (p : P) (log : Log) (entering : Entering (s.pc p))
      (room : beginOp s.log = some log) :
      Step s { s.move p (.operating s.nextOp) with log := log, nextOp := s.nextOp + 1 }
  | sleep {s : System P} (p : P) (entering : Entering (s.pc p)) (full : beginOp s.log = none) :
      Step s (s.move p .waiting)
  | write {s : System P} (p : P) (op number : Nat) (contents : Block) (log : Log)
      (operating : s.pc p = .operating op) (wrote : logWrite s.log number = .ok log) :
      Step s { s with
        log := log
        cache := update s.cache number contents
        logged := s.logged ++ [⟨op, number, contents⟩]
        history := s.history ++ [⟨op, number, contents⟩] }
  | leave {s : System P} (p : P) (op : Nat) (log : Log) (operating : s.pc p = .operating op)
      (others : endOp s.log = .ok (log, false)) :
      Step s { s.move p .outside with log := log }
  | last {s : System P} (p : P) (op : Nat) (log : Log) (operating : s.pc p = .operating op)
      (alone : endOp s.log = .ok (log, true)) :
      Step s { s.move p (.copying []) with log := log }
  | copy {s : System P} (p : P) (copied : List (Nat × Block)) (number : Nat)
      (copying : s.pc p = .copying copied) (next : s.log.blocks[copied.length]? = some number) :
      Step s (s.move p (.copying (copied ++ [(number, s.cache number)])))
  | finish {s : System P} (p : P) (copied : List (Nat × Block))
      (copying : s.pc p = .copying copied) (all : copied.length = s.log.blocks.length) :
      Step s { s.move p .committed with
        log := { s.log with blocks := [] }
        logged := []
        commits := s.commits ++ [⟨s.logged, copied⟩] }
  | clear {s : System P} (p : P) (done : s.pc p = .committed) :
      Step s { s.move p .outside with log := { s.log with committing := false } }

def lastLogged (entries : List Entry) (number : Nat) : Option Block :=
  entries.foldl (fun found entry => if entry.block = number then some entry.contents else found)
    none

def InCommit : Pc → Prop
  | .copying _ | .committed => True
  | _ => False

theorem beginOp_some {log after : Log} (room : beginOp log = some after) :
    log.committing = false ∧ after = { log with outstanding := log.outstanding + 1 } := by
  unfold beginOp at room
  split at room
  · cases room
  · rename_i idle
    split at room
    · cases room
    · exact ⟨by simpa using idle, (Option.some.inj room).symm⟩

theorem logWrite_ok {log after : Log} {number : Nat} (wrote : logWrite log number = .ok after) :
    log.blocks.length < LOGBLOCKS ∧ 1 ≤ log.outstanding ∧
      after = { log with blocks := absorb number log.blocks } := by
  unfold logWrite at wrote
  split at wrote
  · cases wrote
  · split at wrote
    · cases wrote
    · exact ⟨by omega, by omega, (Except.ok.inj wrote).symm⟩

theorem endOp_ok {log after : Log} {commits : Bool} (ended : endOp log = .ok (after, commits)) :
    log.committing = false ∧ (commits = true ↔ log.outstanding - 1 = 0) ∧
      after = ⟨log.outstanding - 1, commits, log.blocks⟩ := by
  unfold endOp at ended
  split at ended
  · cases ended
  · rename_i idle
    have off : log.committing = false := by simpa using idle
    dsimp only at ended
    split at ended
    · rename_i none
      cases ended
      exact ⟨off, by simp [none], rfl⟩
    · rename_i some
      cases ended
      exact ⟨off, by simp [some], by simp [off]⟩

theorem mem_absorb (number tested : Nat) (blocks : List Nat) :
    tested ∈ absorb number blocks ↔ tested ∈ blocks ∨ tested = number := by
  induction blocks with
  | nil => simp [absorb]
  | cons entry rest ih =>
    by_cases same : entry = number
    · subst same
      simp only [absorb, if_true, List.mem_cons]
      tauto
    · simp only [absorb, same, if_false, List.mem_cons, ih]
      tauto

theorem absorb_eq (number : Nat) (blocks : List Nat) :
    absorb number blocks = if number ∈ blocks then blocks else blocks ++ [number] := by
  induction blocks with
  | nil => rfl
  | cons entry rest ih =>
    by_cases same : entry = number
    · simp [absorb, same]
    · have other : number ≠ entry := Ne.symm same
      by_cases listed : number ∈ rest
      · simp [absorb, same, ih, listed]
      · simp [absorb, same, other, ih, listed]

theorem lastLogged_snoc (entries : List Entry) (entry : Entry) (number : Nat) :
    lastLogged (entries ++ [entry]) number =
      if entry.block = number then some entry.contents else lastLogged entries number := by
  simp [lastLogged]

structure Exclusive (s : System P) : Prop where
  operators : ∃ ops : Finset P, (∀ p, p ∈ ops ↔ ∃ op, s.pc p = .operating op) ∧
    (ops.card : Int) = s.log.outstanding
  alone : s.log.committing = true → s.log.outstanding = 0
  flagged : ∀ p, InCommit (s.pc p) → s.log.committing = true
  unique : ∀ p q, InCommit (s.pc p) → InCommit (s.pc q) → p = q

omit [DecidableEq P] in
theorem Exclusive.quiet {s : System P} (exclusive : Exclusive s)
    (committing : s.log.committing = true) (p : P) (op : Nat) : s.pc p ≠ .operating op := by
  intro operating
  obtain ⟨ops, members, count⟩ := exclusive.operators
  have empty : ops = ∅ := by
    rw [exclusive.alone committing] at count
    exact Finset.card_eq_zero.mp (by omega)
  have member : p ∈ ops := (members p).mpr ⟨op, operating⟩
  simp [empty] at member

variable {pc : P → Pc} {target : Pc}

theorem inCommit_move {p q : P} (away : ¬ InCommit target) (held : InCommit (update pc p target q)) :
    q ≠ p ∧ InCommit (pc q) := by
  by_cases same : q = p
  · subst same
    simp only [update_self] at held
    exact (away held).elim
  · exact ⟨same, by simpa [same] using held⟩

theorem operators_move {p : P} {ops : Finset P}
    (members : ∀ q, q ∈ ops ↔ ∃ op, pc q = .operating op) (before : ∀ op, pc p ≠ .operating op)
    (after : ∀ op, target ≠ .operating op) (q : P) :
    q ∈ ops ↔ ∃ op, update pc p target q = .operating op := by
  by_cases same : q = p
  · subst same
    simp [members, before, after]
  · simp [members, same]

theorem operators_leave (target : Pc) {p : P} {ops : Finset P} {op : Nat}
    (members : ∀ q, q ∈ ops ↔ ∃ op, pc q = .operating op) (before : pc p = .operating op)
    (after : ∀ op, target ≠ .operating op) :
    (∀ q, q ∈ ops.erase p ↔ ∃ op, update pc p target q = .operating op) ∧
      ((ops.erase p).card : Int) = ops.card - 1 := by
  have member : p ∈ ops := (members p).mpr ⟨op, before⟩
  have positive : 0 < ops.card := Finset.card_pos.mpr ⟨p, member⟩
  refine ⟨fun q => ?_, by rw [Finset.card_erase_of_mem member]; omega⟩
  by_cases same : q = p
  · subst same
    simp [after]
  · simp [members, same]

theorem Exclusive.step {s t : System P} (exclusive : Exclusive s) (step : Step s t) :
    Exclusive t := by
  obtain ⟨ops, members, count⟩ := exclusive.operators
  cases step with
  | enter p log entering room =>
    obtain ⟨idle, rfl⟩ := beginOp_some room
    have fresh : p ∉ ops := by
      rw [members]
      rintro ⟨op, operating⟩
      rcases entering with out | out <;> simp [out] at operating
    refine ⟨⟨insert p ops, fun q => ?_, ?_⟩, ?_, ?_, ?_⟩
    · by_cases same : q = p
      · subst same
        simp [System.move]
      · simp [System.move, members, same]
    · rw [Finset.card_insert_of_notMem fresh]
      push_cast
      omega
    · intro committing
      simp [idle] at committing
    · intro q held
      exact exclusive.flagged q (inCommit_move (by simp [InCommit]) held).2
    · intro q r first second
      exact exclusive.unique q r (inCommit_move (by simp [InCommit]) first).2
        (inCommit_move (by simp [InCommit]) second).2
  | sleep p entering full =>
    have out : ∀ op, s.pc p ≠ .operating op := by
      intro op operating
      rcases entering with out | out <;> simp [out] at operating
    refine ⟨⟨ops, operators_move members out (by simp), count⟩, exclusive.alone, ?_, ?_⟩
    · intro q held
      exact exclusive.flagged q (inCommit_move (by simp [InCommit]) held).2
    · intro q r first second
      exact exclusive.unique q r (inCommit_move (by simp [InCommit]) first).2
        (inCommit_move (by simp [InCommit]) second).2
  | write p op number contents log operating wrote =>
    obtain ⟨-, -, rfl⟩ := logWrite_ok wrote
    exact ⟨⟨ops, members, count⟩, exclusive.alone, exclusive.flagged, exclusive.unique⟩
  | leave p op log operating others =>
    obtain ⟨idle, -, rfl⟩ := endOp_ok others
    obtain ⟨left, fewer⟩ := operators_leave .outside members operating (by simp)
    have none : ∀ q, ¬ InCommit (s.pc q) := by
      intro q held
      simpa [idle] using exclusive.flagged q held
    refine ⟨⟨ops.erase p, left, by rw [fewer, count]⟩, by simp, ?_, ?_⟩
    · intro q held
      exact (none q (inCommit_move (by simp [InCommit]) held).2).elim
    · intro q r first
      exact (none q (inCommit_move (by simp [InCommit]) first).2).elim
  | last p op log operating alone =>
    obtain ⟨idle, verdict, rfl⟩ := endOp_ok alone
    obtain ⟨left, fewer⟩ := operators_leave (.copying []) members operating (by simp)
    have none : ∀ q, ¬ InCommit (s.pc q) := by
      intro q held
      simpa [idle] using exclusive.flagged q held
    have only : ∀ q, InCommit (update s.pc p (.copying []) q) → q = p := by
      intro q held
      by_contra other
      exact none q (by simpa [other] using held)
    refine ⟨⟨ops.erase p, left, by rw [fewer, count]⟩, ?_, ?_, ?_⟩
    · intro _
      exact verdict.mp rfl
    · intro q _
      rfl
    · intro q r first second
      exact (only q first).trans (only r second).symm
  | copy p copied number copying next =>
    have out : ∀ op, s.pc p ≠ .operating op := by simp [copying]
    have held : InCommit (s.pc p) := by simp [copying, InCommit]
    have same : ∀ q, InCommit (update s.pc p
        (.copying (copied ++ [(number, s.cache number)])) q) → InCommit (s.pc q) := by
      intro q inside
      by_cases here : q = p
      · exact here ▸ held
      · simpa [here] using inside
    exact ⟨⟨ops, operators_move members out (by simp), count⟩, exclusive.alone,
      fun q inside => exclusive.flagged q (same q inside),
      fun q r first second => exclusive.unique q r (same q first) (same r second)⟩
  | finish p copied copying all =>
    have out : ∀ op, s.pc p ≠ .operating op := by simp [copying]
    have held : InCommit (s.pc p) := by simp [copying, InCommit]
    have same : ∀ q, InCommit (update s.pc p .committed q) → InCommit (s.pc q) := by
      intro q inside
      by_cases here : q = p
      · exact here ▸ held
      · simpa [here] using inside
    exact ⟨⟨ops, operators_move members out (by simp), count⟩, exclusive.alone,
      fun q inside => exclusive.flagged q (same q inside),
      fun q r first second => exclusive.unique q r (same q first) (same r second)⟩
  | clear p done =>
    have out : ∀ op, s.pc p ≠ .operating op := by simp [done]
    have held : InCommit (s.pc p) := by simp [done, InCommit]
    have none : ∀ q, ¬ InCommit (update s.pc p .outside q) := by
      intro q inside
      obtain ⟨other, still⟩ := inCommit_move (by simp [InCommit]) inside
      exact other (exclusive.unique q p still held)
    exact ⟨⟨ops, operators_move members out (by simp), count⟩, by simp,
      fun q inside => (none q inside).elim, fun q _ first => (none q first).elim⟩

structure Buffered (s : System P) : Prop where
  listed : ∀ number, number ∈ s.log.blocks ↔ ∃ entry ∈ s.logged, entry.block = number
  newest : ∀ number ∈ s.log.blocks, lastLogged s.logged number = some (s.cache number)
  copied : ∀ p copied, s.pc p = .copying copied →
    copied = (s.log.blocks.take copied.length).map fun number => (number, s.cache number)

theorem copying_move {p q : P} {copied : List (Nat × Block)}
    (away : ∀ copied, target ≠ .copying copied) (held : update pc p target q = .copying copied) :
    pc q = .copying copied := by
  by_cases same : q = p
  · subst same
    simp [away] at held
  · simpa [same] using held

/-- Every step keeps the list and the buffers in agreement. -/
theorem Buffered.step {s t : System P} (buffered : Buffered s) (exclusive : Exclusive s)
    (step : Step s t) : Buffered t := by
  cases step with
  | enter p log entering room =>
    obtain ⟨-, rfl⟩ := beginOp_some room
    exact ⟨buffered.listed, buffered.newest,
      fun q copied held => buffered.copied q copied (copying_move (by simp) held)⟩
  | sleep p entering full | clear p done =>
    exact ⟨buffered.listed, buffered.newest,
      fun q copied held => buffered.copied q copied (copying_move (by simp) held)⟩
  | write p op number contents log operating wrote =>
    obtain ⟨-, -, rfl⟩ := logWrite_ok wrote
    refine ⟨?_, ?_, ?_⟩
    · intro tested
      simp only [mem_absorb, buffered.listed, List.mem_append, List.mem_singleton]
      constructor
      · rintro (⟨entry, member, same⟩ | rfl)
        · exact ⟨entry, Or.inl member, same⟩
        · exact ⟨_, Or.inr rfl, rfl⟩
      · rintro ⟨entry, member | rfl, same⟩
        · exact Or.inl ⟨entry, member, same⟩
        · exact Or.inr same.symm
    · intro tested member
      rw [lastLogged_snoc]
      by_cases same : number = tested
      · subst same
        simp
      · have old : tested ∈ s.log.blocks := by
          rcases (mem_absorb number tested s.log.blocks).mp member with old | new
          · exact old
          · exact (same new.symm).elim
        simpa [same, Ne.symm same] using buffered.newest tested old
    · intro q copied held
      have busy : InCommit (s.pc q) := by
        have place : s.pc q = .copying copied := held
        simp [place, InCommit]
      exact (exclusive.quiet (exclusive.flagged q busy) p op operating).elim
  | leave p op log operating others =>
    obtain ⟨-, -, rfl⟩ := endOp_ok others
    exact ⟨buffered.listed, buffered.newest,
      fun q copied held => buffered.copied q copied (copying_move (by simp) held)⟩
  | last p op log operating alone =>
    obtain ⟨-, -, rfl⟩ := endOp_ok alone
    refine ⟨buffered.listed, buffered.newest, ?_⟩
    intro q copied held
    by_cases same : q = p
    · subst same
      have start : copied = [] := by simpa [System.move] using held.symm
      simp [start]
    · exact buffered.copied q copied (by simpa [System.move, same] using held)
  | copy p copied number copying next =>
    refine ⟨buffered.listed, buffered.newest, ?_⟩
    intro q later held
    by_cases same : q = p
    · subst same
      have extended : later = copied ++ [(number, s.cache number)] := by
        simpa [System.move] using held.symm
      have before := buffered.copied q copied copying
      have taken : s.log.blocks.take (copied.length + 1) =
          s.log.blocks.take copied.length ++ [number] := by
        rw [List.take_add_one, next, Option.toList_some]
      have mapped : (s.log.blocks.take (copied.length + 1)).map
          (fun number => (number, s.cache number)) = copied ++ [(number, s.cache number)] := by
        rw [taken, List.map_append, ← before, List.map_singleton]
      subst extended
      simpa [System.move] using mapped.symm
    · exact buffered.copied q later (by simpa [System.move, same] using held)
  | finish p copied copying all =>
    refine ⟨by simp, by simp, ?_⟩
    intro q later held
    have old := copying_move (by simp) held
    have only : q = p := exclusive.unique q p (by simp [old, InCommit]) (by simp [copying, InCommit])
    subst only
    simp [System.move] at held

def Covers (commit : Commit) : Prop :=
  (∀ entry ∈ commit.logged, ∃ contents, (entry.block, contents) ∈ commit.copied) ∧
    ∀ pair ∈ commit.copied, lastLogged commit.logged pair.1 = some pair.2

omit [DecidableEq P] in
theorem Buffered.covers {s : System P} (buffered : Buffered s) {p : P}
    {copied : List (Nat × Block)} (copying : s.pc p = .copying copied)
    (all : copied.length = s.log.blocks.length) : Covers ⟨s.logged, copied⟩ := by
  have every : copied = s.log.blocks.map fun number => (number, s.cache number) := by
    have part := buffered.copied p copied copying
    rwa [all, List.take_length] at part
  constructor
  · intro entry member
    refine ⟨s.cache entry.block, ?_⟩
    have listed : entry.block ∈ s.log.blocks := (buffered.listed _).mpr ⟨entry, member, rfl⟩
    simpa [every] using listed
  · intro pair member
    simp only [every, List.mem_map] at member
    obtain ⟨number, listed, rfl⟩ := member
    exact buffered.newest number listed

structure Recorded (s : System P) : Prop where
  covers : ∀ commit ∈ s.commits, Covers commit
  ordered : s.commits.Pairwise fun earlier later =>
    ∀ first ∈ earlier.logged, ∀ second ∈ later.logged, first.op < second.op
  epoch : ∃ bound, (∀ commit ∈ s.commits, ∀ entry ∈ commit.logged, entry.op < bound) ∧
    (∀ entry ∈ s.logged, bound ≤ entry.op ∧ entry.op < s.nextOp) ∧
    (∀ p op, s.pc p = .operating op → bound ≤ op ∧ op < s.nextOp) ∧ bound ≤ s.nextOp
  complete : s.history = s.commits.flatMap Commit.logged ++ s.logged

theorem operating_move {p q : P} {op : Nat} (away : ∀ op, target ≠ .operating op)
    (held : update pc p target q = .operating op) : pc q = .operating op := by
  by_cases same : q = p
  · subst same
    simp [away] at held
  · simpa [same] using held

/-- Every step keeps the record. -/
theorem Recorded.step {s t : System P} (recorded : Recorded s) (exclusive : Exclusive s)
    (buffered : Buffered s) (step : Step s t) : Recorded t := by
  obtain ⟨bound, earlier, waiting, running, low⟩ := recorded.epoch
  cases step with
  | enter p log entering room =>
    refine ⟨recorded.covers, recorded.ordered, ⟨bound, earlier, ?_, ?_, ?_⟩, recorded.complete⟩
    · intro entry member
      have old := waiting entry member
      exact ⟨old.1, Nat.lt_succ_of_lt old.2⟩
    · intro q op held
      by_cases same : q = p
      · subst same
        have new : s.nextOp = op := by simpa [System.move] using held
        exact ⟨new ▸ low, by simp [← new]⟩
      · have old := running q op (by simpa [System.move, same] using held)
        exact ⟨old.1, Nat.lt_succ_of_lt old.2⟩
    · exact Nat.le_succ_of_le low
  | sleep p entering full | leave p op log operating others | last p op log operating alone
  | copy p copied number copying next | clear p done =>
    exact ⟨recorded.covers, recorded.ordered, ⟨bound, earlier, waiting,
      fun q op held => running q op (operating_move (by simp) held), low⟩, recorded.complete⟩
  | write p op number contents log operating wrote =>
    refine ⟨recorded.covers, recorded.ordered, ⟨bound, earlier, ?_, running, low⟩, ?_⟩
    · intro entry member
      rcases List.mem_append.mp member with old | new
      · exact waiting entry old
      · rw [List.mem_singleton.mp new]
        exact running p op operating
    · simp [recorded.complete]
  | finish p copied copying all =>
    have committing : s.log.committing = true :=
      exclusive.flagged p (by simp [copying, InCommit])
    refine ⟨?_, ?_, ⟨s.nextOp, ?_, by simp, ?_, Nat.le_refl _⟩, ?_⟩
    · intro commit member
      rcases List.mem_append.mp member with old | new
      · exact recorded.covers commit old
      · rw [List.mem_singleton.mp new]
        exact buffered.covers copying all
    · refine List.pairwise_append.mpr ⟨recorded.ordered, List.pairwise_singleton _ _, ?_⟩
      intro commit old newest member first inFirst second inSecond
      rw [List.mem_singleton.mp member] at inSecond
      exact Nat.lt_of_lt_of_le (earlier commit old first inFirst) (waiting second inSecond).1
    · intro commit member entry inside
      rcases List.mem_append.mp member with old | new
      · exact Nat.lt_of_lt_of_le (earlier commit old entry inside) low
      · rw [List.mem_singleton.mp new] at inside
        exact (waiting entry inside).2
    · intro q op held
      exact (exclusive.quiet committing q op (operating_move (by simp) held)).elim
    · simpa [System.move] using recorded.complete

theorem reached {cache : Nat → Block} {s : System P} (run : Reaches Step (initial cache) s) :
    Exclusive s ∧ Buffered s ∧ Recorded s := by
  refine run.keeps (fun s => Exclusive s ∧ Buffered s ∧ Recorded s) ?_ ?_
  · rintro before after ⟨exclusive, buffered, recorded⟩ step
    exact ⟨exclusive.step step, buffered.step exclusive step,
      recorded.step exclusive buffered step⟩
  · refine ⟨⟨⟨∅, by simp [initial], rfl⟩, by simp [initial], by simp [initial, InCommit],
      by simp [initial, InCommit]⟩, ⟨by simp [initial], by simp [initial], by simp [initial]⟩,
      ⟨by simp [initial], by simp [initial], ⟨0, by simp [initial], by simp [initial],
        by simp [initial], Nat.le_refl _⟩, rfl⟩⟩

/-- A group commit never splits an operation. In every reachable state each logged block is
in one commit or waits for the next, those of one operation never in two; `committing`
excludes operations and other commits; and a commit copies what was last logged. -/
theorem group_commit_atomic {cache : Nat → Block} {s : System P}
    (run : Reaches Step (initial cache) s) :
    (s.history = s.commits.flatMap Commit.logged ++ s.logged ∧
      (s.commits.Pairwise fun earlier later =>
        ∀ first ∈ earlier.logged, ∀ second ∈ later.logged, first.op ≠ second.op) ∧
      (∀ commit ∈ s.commits, ∀ entry ∈ commit.logged,
        (∀ pending ∈ s.logged, pending.op ≠ entry.op) ∧ (∀ p, s.pc p ≠ .operating entry.op) ∧
          ∃ contents, (entry.block, contents) ∈ commit.copied)) ∧
    (s.log.committing = true →
      s.log.outstanding = 0 ∧ (∀ p op, s.pc p ≠ .operating op) ∧ beginOp s.log = none) ∧
    (∀ p, InCommit (s.pc p) → s.log.committing = true) ∧
    (∀ p q, InCommit (s.pc p) → InCommit (s.pc q) → p = q) ∧
    (∀ commit ∈ s.commits, ∀ pair ∈ commit.copied,
      lastLogged commit.logged pair.1 = some pair.2) ∧
    (∀ p copied, s.pc p = .copying copied → ∀ pair ∈ copied,
      lastLogged s.logged pair.1 = some pair.2) := by
  obtain ⟨exclusive, buffered, recorded⟩ := reached run
  obtain ⟨bound, earlier, waiting, running, -⟩ := recorded.epoch
  refine ⟨⟨recorded.complete, ?_, ?_⟩, ?_, exclusive.flagged, exclusive.unique, ?_, ?_⟩
  · exact recorded.ordered.imp fun apart first inFirst second inSecond =>
      Nat.ne_of_lt (apart first inFirst second inSecond)
  · intro commit member entry inside
    have old := earlier commit member entry inside
    refine ⟨fun pending wait same => ?_, fun p operating => ?_,
      (recorded.covers commit member).1 entry inside⟩
    · have new := (waiting pending wait).1
      omega
    · have new := (running p entry.op operating).1
      omega
  · intro committing
    exact ⟨exclusive.alone committing, exclusive.quiet committing, by simp [beginOp, committing]⟩
  · intro commit member
    exact (recorded.covers commit member).2
  · intro p copied copying pair member
    rw [buffered.copied p copied copying] at member
    obtain ⟨number, inside, rfl⟩ := List.mem_map.mp member
    exact buffered.newest number (List.mem_of_mem_take inside)

/-- Two overlapping operations log the same block; one commit serves both and copies what the second
one logged. -/
theorem overlapping_group_commit :
    ∃ s : System Bool, Reaches Step (initial fun _ _ => 0) s ∧
      s.commits.map Commit.copied = [[(40, fun _ => 2)]] ∧
      ∀ commit ∈ s.commits, ∀ pair ∈ commit.copied,
        lastLogged commit.logged pair.1 = some pair.2 := by
  have run : Reaches Step (initial fun _ _ => 0 : System Bool) _ :=
    ((((((((Relation.ReflTransGen.refl.tail
      (.enter true _ (Or.inl rfl) rfl)).tail
      (.enter false _ (Or.inl rfl) rfl)).tail
      (.write true 0 40 (fun _ => 1) _ rfl rfl)).tail
      (.leave true 0 _ rfl rfl)).tail
      (.write false 1 40 (fun _ => 2) _ rfl rfl)).tail
      (.last false 1 _ rfl rfl)).tail
      (.copy false [] 40 rfl rfl)).tail
      (.finish false [(40, fun _ => 2)] rfl rfl))
  exact ⟨_, run, rfl, (group_commit_atomic run).2.2.2.2.1⟩

end Xv6.GroupCommit
