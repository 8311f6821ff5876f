import Mathlib.Algebra.Order.BigOperators.Group.Finset
import Xv6.Log.GroupCommit

/-!
# The log space that an operation reserves

`begin_op` admits an operation only if `MAXOPBLOCKS` blocks for it and for every other open
operation fit into the log beside the listed ones.
-/

namespace Xv6.GroupCommit

open Transition Function

variable {P : Type}

def blocksOf (history : List Entry) (op : Nat) : Finset Nat :=
  ((history.filter fun entry => entry.op = op).map Entry.block).toFinset

def remaining (history : List Entry) : Pc → Nat
  | .operating op => MAXOPBLOCKS - (blocksOf history op).card
  | _ => 0

theorem mem_blocksOf {history : List Entry} {op number : Nat} :
    number ∈ blocksOf history op ↔ ∃ entry ∈ history, entry.op = op ∧ entry.block = number := by
  simp [blocksOf, and_assoc]

theorem blocksOf_snoc (history : List Entry) (entry : Entry) (op : Nat) :
    blocksOf (history ++ [entry]) op =
      if entry.op = op then insert entry.block (blocksOf history op) else blocksOf history op := by
  ext number
  by_cases same : entry.op = op
  · simp only [mem_blocksOf, same, if_true, Finset.mem_insert, List.mem_append,
      List.mem_singleton]
    constructor
    · rintro ⟨found, old | rfl, isOp, isBlock⟩
      · exact Or.inr ⟨found, old, isOp, isBlock⟩
      · exact Or.inl isBlock.symm
    · rintro (rfl | ⟨found, old, isOp, isBlock⟩)
      · exact ⟨entry, Or.inr rfl, same, rfl⟩
      · exact ⟨found, Or.inl old, isOp, isBlock⟩
  · simp only [mem_blocksOf, same, if_false, List.mem_append, List.mem_singleton]
    constructor
    · rintro ⟨found, old | rfl, isOp, isBlock⟩
      · exact ⟨found, old, isOp, isBlock⟩
      · exact absurd isOp same
    · rintro ⟨found, old, isOp, isBlock⟩
      exact ⟨found, Or.inl old, isOp, isBlock⟩

theorem length_absorb_of_mem {number : Nat} {blocks : List Nat} (listed : number ∈ blocks) :
    (absorb number blocks).length = blocks.length := by
  induction blocks with
  | nil => simp at listed
  | cons entry rest ih =>
    by_cases same : entry = number
    · simp [absorb, same]
    · have later : number ∈ rest := by
        rcases List.mem_cons.mp listed with here | later
        · exact absurd here.symm same
        · exact later
      simp [absorb, same, ih later]

theorem length_absorb_le (number : Nat) (blocks : List Nat) :
    (absorb number blocks).length ≤ blocks.length + 1 := by
  induction blocks with
  | nil => simp [absorb]
  | cons entry rest ih =>
    by_cases same : entry = number
    · simp [absorb, same]
    · simpa [absorb, same] using ih

structure Reserved (s : System P) : Prop where
  own : ∀ p q op, s.pc p = .operating op → s.pc q = .operating op → p = q
  room : ∃ ops : Finset P, (∀ p, p ∈ ops ↔ ∃ op, s.pc p = .operating op) ∧
    s.log.blocks.length + ∑ p ∈ ops, remaining s.history (s.pc p) ≤ LOGBLOCKS

theorem remaining_le (history : List Entry) (pc : Pc) : remaining history pc ≤ MAXOPBLOCKS := by
  cases pc <;> simp [remaining]

theorem Reserved.keep {s t : System P} (reserved : Reserved s)
    (fewer : ∀ p op, t.pc p = .operating op → s.pc p = .operating op)
    (history : t.history = s.history) (blocks : t.log.blocks.length ≤ s.log.blocks.length) :
    Reserved t := by
  classical
  obtain ⟨ops, members, room⟩ := reserved.room
  refine ⟨fun p q op first second => reserved.own p q op (fewer p op first) (fewer q op second),
    ops.filter fun p => ∃ op, t.pc p = .operating op, ?_, ?_⟩
  · intro p
    simp only [Finset.mem_filter, and_iff_right_iff_imp, forall_exists_index]
    intro op operating
    exact (members p).mpr ⟨op, fewer p op operating⟩
  · have same : ∑ p ∈ ops.filter fun p => ∃ op, t.pc p = .operating op,
        remaining t.history (t.pc p) ≤ ∑ p ∈ ops, remaining s.history (s.pc p) := by
      refine le_trans (Finset.sum_le_sum fun p member => ?_)
        (Finset.sum_le_sum_of_subset (Finset.filter_subset _ _))
      obtain ⟨op, operating⟩ := (Finset.mem_filter.mp member).2
      rw [operating, fewer p op operating, history]
    omega

variable [DecidableEq P]

def Frugal (s t : System P) : Prop :=
  Step s t ∧ ∀ entry, t.history = s.history ++ [entry] →
    (blocksOf s.history entry.op).card < MAXOPBLOCKS

variable {s : System P}

omit [DecidableEq P] in
/-- A new operation has logged nothing. -/
theorem Recorded.blocksOf_next (recorded : Recorded s) :
    blocksOf s.history s.nextOp = ∅ := by
  obtain ⟨bound, earlier, waiting, -, low⟩ := recorded.epoch
  refine Finset.eq_empty_iff_forall_notMem.mpr fun number member => ?_
  obtain ⟨entry, inside, isOp, -⟩ := mem_blocksOf.mp member
  rw [recorded.complete, List.mem_append, List.mem_flatMap] at inside
  rcases inside with ⟨commit, isCommit, logged⟩ | pending
  · have old := earlier commit isCommit entry logged
    omega
  · have old := (waiting entry pending).2
    omega

omit [DecidableEq P] in
theorem listed_of_logged (buffered : Buffered s) (recorded : Recorded s) {p : P} {op number : Nat}
    (operating : s.pc p = .operating op) (logged : number ∈ blocksOf s.history op) :
    number ∈ s.log.blocks := by
  obtain ⟨bound, earlier, -, running, -⟩ := recorded.epoch
  obtain ⟨entry, inside, isOp, isBlock⟩ := mem_blocksOf.mp logged
  rw [recorded.complete, List.mem_append, List.mem_flatMap] at inside
  rcases inside with ⟨commit, isCommit, old⟩ | pending
  · have before := earlier commit isCommit entry old
    have after := (running p op operating).1
    omega
  · exact (buffered.listed number).mpr ⟨entry, pending, isBlock⟩

/-- An admitted operation finds its reservation. -/
theorem Reserved.enter (reserved : Reserved s) (exclusive : Exclusive s) (recorded : Recorded s)
    {p : P} {log : Log} (entering : Entering (s.pc p)) (room : beginOp s.log = some log) :
    Reserved { s.move p (.operating s.nextOp) with log := log, nextOp := s.nextOp + 1 } := by
  obtain ⟨ops, members, space⟩ := reserved.room
  obtain ⟨ops', members', count⟩ := exclusive.operators
  obtain rfl : ops' = ops := by
    ext q
    rw [members, members']
  obtain ⟨bound, -, -, running, -⟩ := recorded.epoch
  have fresh : p ∉ ops' := by
    rw [members]
    rintro ⟨op, operating⟩
    rcases entering with out | out <;> simp [out] at operating
  have others : ∀ q, q ≠ p → (s.move p (.operating s.nextOp)).pc q = s.pc q := fun q other => by
    simp [System.move, other]
  have here : (s.move p (.operating s.nextOp)).pc p = .operating s.nextOp := by simp [System.move]
  refine ⟨?_, insert p ops', ?_, ?_⟩
  · intro q r op first second
    by_cases isQ : q = p
    · by_cases isR : r = p
      · rw [isQ, isR]
      · subst isQ
        obtain rfl : s.nextOp = op := by simpa [here] using first
        have old := (running r _ ((others r isR).symm.trans second)).2
        omega
    · by_cases isR : r = p
      · subst isR
        obtain rfl : s.nextOp = op := by simpa [here] using second
        have old := (running q _ ((others q isQ).symm.trans first)).2
        omega
      · exact reserved.own q r op ((others q isQ).symm.trans first)
          ((others r isR).symm.trans second)
  · intro q
    by_cases same : q = p
    · subst same
      simp [System.move]
    · simp [System.move, members, same]
  · have unchanged : ∑ q ∈ ops', remaining s.history ((s.move p (.operating s.nextOp)).pc q) =
        ∑ q ∈ ops', remaining s.history (s.pc q) := by
      refine Finset.sum_congr rfl fun q member => ?_
      rw [others q fun same => fresh (same ▸ member)]
    have atMost : ∑ q ∈ ops', remaining s.history (s.pc q) ≤ ops'.card * MAXOPBLOCKS := by
      simpa using Finset.sum_le_card_nsmul ops' _ MAXOPBLOCKS fun q _ => remaining_le s.history _
    have granted : (s.log.blocks.length : Int) + (s.log.outstanding + 1) * MAXOPBLOCKS ≤ LOGBLOCKS := by
      unfold beginOp at room
      split at room
      · cases room
      · split at room
        · cases room
        · omega
    obtain ⟨-, rfl⟩ := beginOp_some room
    change s.log.blocks.length + ∑ q ∈ insert p ops', remaining s.history
      ((s.move p (.operating s.nextOp)).pc q) ≤ LOGBLOCKS
    rw [Finset.sum_insert fresh, unchanged, here, remaining, recorded.blocksOf_next]
    simp only [Finset.card_empty, MAXOPBLOCKS, LOGBLOCKS] at *
    omega

theorem Reserved.write (reserved : Reserved s) (buffered : Buffered s) (recorded : Recorded s)
    {p : P} {op number : Nat} {contents : Block} {log : Log} (operating : s.pc p = .operating op)
    (wrote : logWrite s.log number = .ok log) (left : (blocksOf s.history op).card < MAXOPBLOCKS) :
    Reserved { s with
      log := log
      cache := update s.cache number contents
      logged := s.logged ++ [⟨op, number, contents⟩]
      history := s.history ++ [⟨op, number, contents⟩] } := by
  obtain ⟨-, -, rfl⟩ := logWrite_ok wrote
  obtain ⟨ops, members, space⟩ := reserved.room
  refine ⟨reserved.own, ops, members, ?_⟩
  have others : ∀ q ∈ ops, q ≠ p →
      remaining (s.history ++ [⟨op, number, contents⟩]) (s.pc q) = remaining s.history (s.pc q) := by
    intro q member other
    obtain ⟨op', operating'⟩ := (members q).mp member
    have different : op ≠ op' := by
      rintro rfl
      exact other (reserved.own q p op operating' operating)
    rw [operating', remaining, remaining, blocksOf_snoc, if_neg different]
  have member : p ∈ ops := (members p).mpr ⟨op, operating⟩
  have rest : ∑ q ∈ ops.erase p, remaining (s.history ++ [⟨op, number, contents⟩]) (s.pc q) =
      ∑ q ∈ ops.erase p, remaining s.history (s.pc q) :=
    Finset.sum_congr rfl fun q inside =>
      others q (Finset.mem_of_mem_erase inside) (Finset.ne_of_mem_erase inside)
  rw [← Finset.add_sum_erase _ _ member] at space ⊢
  rw [rest, operating, remaining, blocksOf_snoc, if_pos rfl]
  rw [operating, remaining] at space
  by_cases known : number ∈ blocksOf s.history op
  · have listed := listed_of_logged buffered recorded operating known
    rw [Finset.insert_eq_of_mem known]
    simp only [length_absorb_of_mem listed]
    exact space
  · have longer := length_absorb_le number s.log.blocks
    rw [Finset.card_insert_of_notMem known]
    dsimp only
    omega

theorem Reserved.step {s t : System P} (reserved : Reserved s) (exclusive : Exclusive s)
    (buffered : Buffered s) (recorded : Recorded s) (step : Frugal s t) : Reserved t := by
  obtain ⟨step, frugal⟩ := step
  cases step with
  | enter p log entering room => exact reserved.enter exclusive recorded entering room
  | sleep p entering full | copy p copied number copying next | clear p done =>
    exact reserved.keep (fun q op => operating_move (by simp)) rfl (Nat.le_refl _)
  | write p op number contents log operating wrote =>
    exact reserved.write buffered recorded operating wrote (frugal _ rfl)
  | leave p op log operating others =>
    obtain ⟨-, -, rfl⟩ := endOp_ok others
    exact reserved.keep (fun q op => operating_move (by simp)) rfl (Nat.le_refl _)
  | last p op log operating alone =>
    obtain ⟨-, -, rfl⟩ := endOp_ok alone
    exact reserved.keep (fun q op => operating_move (by simp)) rfl (Nat.le_refl _)
  | finish p copied copying all =>
    exact reserved.keep (fun q op => operating_move (by simp)) rfl (Nat.zero_le _)

theorem reserved_of_frugal {cache : Nat → Block} (run : Reaches Frugal (initial cache) s) :
    (Exclusive s ∧ Buffered s ∧ Recorded s) ∧ Reserved s := by
  have start : (Exclusive (initial cache : System P) ∧ Buffered (initial cache : System P) ∧
      Recorded (initial cache : System P)) ∧ Reserved (initial cache : System P) :=
    ⟨reached .refl, by simp [initial], ∅, by simp [initial], by simp [initial]⟩
  refine run.keeps (fun s => (Exclusive s ∧ Buffered s ∧ Recorded s) ∧ Reserved s) ?_ start
  rintro before after ⟨⟨exclusive, buffered, recorded⟩, reserved⟩ step
  exact ⟨⟨exclusive.step step.1, buffered.step exclusive step.1,
    recorded.step exclusive buffered step.1⟩, reserved.step exclusive buffered recorded step⟩

/-- In every run in which an operation that has logged `MAXOPBLOCKS` distinct
blocks logs no more, `log_write` by any operation that may still log succeeds. -/
theorem reservation_suffices {cache : Nat → Block} {s : System P}
    (run : Reaches Frugal (initial cache) s) {p : P} {op : Nat}
    (operating : s.pc p = .operating op) (left : (blocksOf s.history op).card < MAXOPBLOCKS)
    (number : Nat) : ∃ log, logWrite s.log number = .ok log := by
  obtain ⟨⟨exclusive, -, -⟩, reserved⟩ := reserved_of_frugal run
  obtain ⟨ops, members, space⟩ := reserved.room
  obtain ⟨ops', members', count⟩ := exclusive.operators
  have member : p ∈ ops := (members p).mpr ⟨op, operating⟩
  have open_ : 0 < ops'.card := Finset.card_pos.mpr ⟨p, (members' p).mpr ⟨op, operating⟩⟩
  have mine : remaining s.history (s.pc p) ≤ ∑ q ∈ ops, remaining s.history (s.pc q) :=
    Finset.single_le_sum (f := fun q => remaining s.history (s.pc q)) (fun _ _ => Nat.zero_le _) member
  rw [operating, remaining] at mine
  have notFull : ¬ s.log.blocks.length ≥ LOGBLOCKS := by omega
  have inside : ¬ s.log.outstanding < 1 := by omega
  exact ⟨_, by rw [logWrite, if_neg notFull, if_neg inside]⟩

def writes (op : Nat) (numbers : List Nat) (s : System P) : System P :=
  numbers.foldl (fun s number => { s with
    log := { s.log with blocks := absorb number s.log.blocks }
    cache := update s.cache number fun _ => 0
    logged := s.logged ++ [⟨op, number, fun _ => 0⟩]
    history := s.history ++ [⟨op, number, fun _ => 0⟩] }) s

theorem reaches_writes (p : P) (op : Nat) (numbers : List Nat) (operating : s.pc p = .operating op)
    (started : 1 ≤ s.log.outstanding) (room : s.log.blocks.length + numbers.length ≤ LOGBLOCKS)
    (left : (blocksOf s.history op).card + numbers.length ≤ MAXOPBLOCKS) :
    Reaches Frugal s (writes op numbers s) := by
  induction numbers generalizing s with
  | nil => exact .refl
  | cons number rest ih =>
    rw [List.length_cons] at room left
    have wrote : logWrite s.log number = .ok { s.log with blocks := absorb number s.log.blocks } := by
      rw [logWrite, if_neg (by omega), if_neg (by omega)]
    refine Relation.ReflTransGen.head
      ⟨.write p op number (fun _ => 0) _ operating wrote, fun entry same => ?_⟩
      (ih operating started ?_ ?_)
    · obtain rfl : ⟨op, number, fun _ => 0⟩ = entry := by simpa using same
      dsimp only
      omega
    · have longer := length_absorb_le number s.log.blocks
      dsimp only
      omega
    · have more := Finset.card_insert_le number (blocksOf s.history op)
      rw [blocksOf_snoc, if_pos rfl]
      dsimp only
      omega

/-- Three open operations. -/
def threeOperations : System (Fin 3) :=
  ⟨⟨3, false, []⟩, fun _ _ => 0, fun p => .operating p, 3, [], [], []⟩

theorem reaches_threeOperations : Reaches Frugal (initial fun _ _ => 0) threeOperations := by
  have run : Reaches Frugal (initial fun _ _ => 0 : System (Fin 3)) _ :=
    ((Relation.ReflTransGen.refl.tail
      ⟨.enter 0 _ (Or.inl rfl) rfl, by simp [initial, System.move]⟩).tail
      ⟨.enter 1 _ (Or.inl rfl) rfl, by simp [initial, System.move]⟩).tail
      ⟨.enter 2 _ (Or.inl rfl) rfl, by simp [initial, System.move]⟩
  have places : (fun p : Fin 3 => Pc.operating p) = update (update
      (update (fun _ => .outside) 0 (.operating 0)) 1 (.operating 1)) 2 (.operating 2) := by
    funext p
    obtain rfl | rfl | rfl : p = 0 ∨ p = 1 ∨ p = 2 := by
      revert p
      decide
    all_goals rfl
  rw [threeOperations, places]
  exact run

def almostFull : System (Fin 3) :=
  writes 2 (List.range' 20 9) (writes 1 (List.range' 10 10) (writes 0 (List.range' 0 10)
    threeOperations))

theorem reaches_almostFull : Reaches Frugal (initial fun _ _ => 0) almostFull := by
  have first := reaches_writes (s := threeOperations) 0 0 (List.range' 0 10) rfl
    (by decide) (by decide) (by decide)
  have second := reaches_writes (s := writes 0 (List.range' 0 10) threeOperations) 1 1
    (List.range' 10 10) rfl (by decide) (by decide) (by decide)
  have third := reaches_writes (s := writes 1 (List.range' 10 10)
    (writes 0 (List.range' 0 10) threeOperations)) 2 2 (List.range' 20 9) rfl
    (by decide) (by decide) (by decide)
  exact ((reaches_threeOperations.trans first).trans second).trans third

/-- The last block of the log is logged. -/
theorem last_block_logged : almostFull.log.blocks.length = 29 ∧
    ∃ log, logWrite almostFull.log 29 = .ok log := by
  have operating : almostFull.pc 2 = .operating 2 := rfl
  exact ⟨by decide, reservation_suffices reaches_almostFull operating (by decide) 29⟩

/-- With thirty blocks logged by three operations, ten by each, logging one of them once more stops
the kernel. -/
theorem relogging_stops : ∃ s : System (Fin 3), Reaches Step (initial fun _ _ => 0) s ∧
    (∀ op, (blocksOf s.history op).card ≤ MAXOPBLOCKS) ∧
    s.pc 0 = .operating 0 ∧ 5 ∈ blocksOf s.history 0 ∧
    logWrite s.log 5 = .error .tooBigTransaction := by
  have last := reaches_writes (s := almostFull) 2 2 [29] rfl (by decide) (by decide) (by decide)
  have run : Reaches Step (initial fun _ _ => 0) (writes 2 [29] almostFull) :=
    (reaches_almostFull.trans last).lift id fun _ _ step => step.1
  refine ⟨_, run, ?_, rfl, by decide, rfl⟩
  intro op
  match op with
  | 0 | 1 | 2 => decide
  | op + 3 => exact Nat.zero_le _

end Xv6.GroupCommit
