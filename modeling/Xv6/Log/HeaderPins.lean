import Xv6.Log.GroupCommit

/-!
# The log header and the pins

The header in memory as the array that `log.c` keeps, the header on disk and the references that
`bpin` takes, along `log_write`, `end_op` with `commit`, power failures and recovery.
-/

namespace Xv6.LogHeader

open Transition Function
open GroupCommit (Log Panic absorb)

/-- The `struct logheader` in memory or on disk. -/
structure Header where
  n : Nat
  block : Nat → Nat

def Header.blocks (lh : Header) : List Nat := (List.range lh.n).map lh.block

/-- Where `end_op` or `recover_from_log` is. -/
inductive Phase
  | running
  | commit
  | writing
  | install (recovering : Bool) (tail : Nat)
  | erase (recovering : Bool)
  | finished
  | boot

structure State where
  lh : Header
  outstanding : Int
  committing : Bool
  pins : Nat → Int
  disk : Header
  phase : Phase
  logged : List Nat

def State.log (s : State) : Log := ⟨s.outstanding, s.committing, s.lh.blocks⟩

def scan (block : Nat → Nat) (blockno : Nat) : Nat → Nat → Nat
  | 0, i => i
  | left + 1, i => if block i = blockno then i else scan block blockno left (i + 1)

def State.bpin (s : State) (blockno : Nat) : State :=
  { s with pins := update s.pins blockno (s.pins blockno + 1) }

def State.bunpin (s : State) (blockno : Nat) : State :=
  { s with pins := update s.pins blockno (s.pins blockno - 1) }

def logWrite (s : State) (blockno : Nat) : Except Panic State :=
  if s.lh.n ≥ LOGBLOCKS then .error .tooBigTransaction
  else if s.outstanding < 1 then .error .logWriteOutside
  else
    let i := scan s.lh.block blockno s.lh.n 0
    let block := update s.lh.block i blockno
    if i = s.lh.n then .ok { s.bpin blockno with lh := ⟨s.lh.n + 1, block⟩ }
    else .ok { s with lh := ⟨s.lh.n, block⟩ }

def copyHead (source target : Header) : Header :=
  ⟨source.n, fun i => if i < source.n then source.block i else target.block i⟩

/-- What can happen next. A panic is not a step. -/
inductive Step : State → State → Prop
  | beginOp (s log) : s.phase = .running → GroupCommit.beginOp s.log = some log →
      Step s { s with outstanding := log.outstanding }
  | logWrite (s t blockno) : s.phase = .running → logWrite s blockno = .ok t →
      Step s { t with logged := blockno :: s.logged }
  | endOp (s log) : s.phase = .running → GroupCommit.endOp s.log = .ok (log, false) →
      Step s { s with outstanding := log.outstanding }
  | lastEndOp (s log) : s.phase = .running → GroupCommit.endOp s.log = .ok (log, true) →
      Step s { s with
        outstanding := log.outstanding, committing := log.committing, phase := .commit }
  | commitNothing (s) : s.phase = .commit → ¬ s.lh.n > 0 → Step s { s with phase := .finished }
  | writeLog (s) : s.phase = .commit → s.lh.n > 0 → Step s { s with phase := .writing }
  | writeHead (s) : s.phase = .writing →
      Step s { s with disk := copyHead s.lh s.disk, phase := .install false 0 }
  | installBlock (s recovering tail) : s.phase = .install recovering tail → tail < s.lh.n →
      Step s { (if recovering then s else s.bunpin (s.lh.block tail)) with
        phase := .install recovering (tail + 1) }
  | clear (s recovering tail) : s.phase = .install recovering tail → ¬ tail < s.lh.n →
      Step s { s with lh := { s.lh with n := 0 }, phase := .erase recovering, logged := [] }
  | eraseHead (s recovering) : s.phase = .erase recovering →
      Step s { s with
        disk := copyHead s.lh s.disk, phase := if recovering then .running else .finished }
  | finish (s) : s.phase = .finished → Step s { s with committing := false, phase := .running }
  | crash (s) : Step s ⟨⟨0, fun _ => 0⟩, 0, false, fun _ => 0, s.disk, .boot, []⟩
  | readHead (s) : s.phase = .boot →
      Step s { s with lh := copyHead s.disk s.lh, phase := .install true 0 }

def initial : State := ⟨⟨0, fun _ => 0⟩, 0, false, fun _ => 0, ⟨0, fun _ => 0⟩, .boot, []⟩

def State.pinned (s : State) : List Nat :=
  match s.phase with
  | .running | .commit | .writing => s.lh.blocks
  | .install false tail => s.lh.blocks.drop tail
  | _ => []

def Phase.current : Phase → Prop
  | .install true _ => False
  | _ => True

def Phase.cleared : Phase → Prop
  | .erase _ | .finished => True
  | _ => False

structure HeaderOk (s : State) : Prop where
  distinct : s.lh.blocks.Nodup
  bound : s.lh.n ≤ LOGBLOCKS
  logged : s.phase.current → ∀ b, b ∈ s.lh.blocks ↔ b ∈ s.logged
  pins : ∀ b, s.pins b = if b ∈ s.pinned then 1 else 0
  erased : s.phase.cleared → s.lh.n = 0 ∧ ∀ b, s.pins b = 0

structure Invariant (s : State) : Prop extends HeaderOk s where
  diskDistinct : s.disk.blocks.Nodup
  diskBound : s.disk.n ≤ LOGBLOCKS
  empty : s.phase = .boot → s.lh.n = 0 ∧ s.logged = []

section Headers

variable {lh target : Header}

@[simp] theorem length_blocks : lh.blocks.length = lh.n := by
  simp [Header.blocks]

theorem mem_blocks {b : Nat} : b ∈ lh.blocks ↔ ∃ i, i < lh.n ∧ lh.block i = b := by
  simp [Header.blocks]

theorem blocks_congr {other : Header} (count : other.n = lh.n)
    (same : ∀ i, i < lh.n → other.block i = lh.block i) : other.blocks = lh.blocks := by
  rw [Header.blocks, Header.blocks, count]
  exact List.map_congr_left fun i member => same i (List.mem_range.mp member)

theorem blocks_copyHead : (copyHead lh target).blocks = lh.blocks :=
  blocks_congr rfl fun _ inside => if_pos inside

theorem scan_spec (block : Nat → Nat) (blockno left i : Nat) :
    i ≤ scan block blockno left i ∧ scan block blockno left i ≤ i + left ∧
      (∀ j, i ≤ j → j < scan block blockno left i → block j ≠ blockno) ∧
      (scan block blockno left i < i + left → block (scan block blockno left i) = blockno) := by
  induction left generalizing i with
  | zero =>
    rw [scan]
    exact ⟨Nat.le_refl _, Nat.le_refl _, fun j _ _ => by omega, fun _ => by omega⟩
  | succ left ih =>
    rw [scan]
    split
    · rename_i found
      exact ⟨Nat.le_refl _, by omega, fun j _ _ => by omega, fun _ => found⟩
    · rename_i other
      obtain ⟨lower, upper, before, here⟩ := ih (i + 1)
      refine ⟨by omega, by omega, fun j atLeast below => ?_, fun _ => here (by omega)⟩
      by_cases first : j = i
      · rw [first]
        exact other
      · exact before j (by omega) below

theorem blocks_store (lh : Header) (blockno : Nat) :
    (scan lh.block blockno lh.n 0 = lh.n ∧ blockno ∉ lh.blocks ∧
        Header.blocks ⟨lh.n + 1, update lh.block (scan lh.block blockno lh.n 0) blockno⟩ =
          lh.blocks ++ [blockno]) ∨
      (scan lh.block blockno lh.n 0 ≠ lh.n ∧ blockno ∈ lh.blocks ∧
        Header.blocks ⟨lh.n, update lh.block (scan lh.block blockno lh.n 0) blockno⟩ =
          lh.blocks) := by
  obtain ⟨-, upper, before, here⟩ := scan_spec lh.block blockno lh.n 0
  rw [Nat.zero_add] at upper here
  by_cases past : scan lh.block blockno lh.n 0 = lh.n
  · refine Or.inl ⟨past, fun listed => ?_, ?_⟩
    · obtain ⟨i, inside, same⟩ := mem_blocks.mp listed
      exact before i (Nat.zero_le i) (by omega) same
    · simp only [past, Header.blocks, List.range_succ, List.map_append, List.map_singleton,
        update_self]
      refine congrArg (· ++ [blockno]) (List.map_congr_left fun i member => ?_)
      exact update_of_ne (Nat.ne_of_lt (List.mem_range.mp member)) ..
  · have less : scan lh.block blockno lh.n 0 < lh.n := by omega
    refine Or.inr ⟨past, mem_blocks.mpr ⟨_, less, here less⟩, blocks_congr rfl fun i _ => ?_⟩
    by_cases same : i = scan lh.block blockno lh.n 0
    · rw [same, here less]
      exact update_self ..
    · exact update_of_ne same ..

end Headers

structure Wrote (s : State) (blockno : Nat) (t : State) : Prop where
  room : s.lh.n < LOGBLOCKS
  inside : 1 ≤ s.outstanding
  blocks : t.lh.blocks = if blockno ∈ s.lh.blocks then s.lh.blocks else s.lh.blocks ++ [blockno]
  pins : t.pins = if blockno ∈ s.lh.blocks then s.pins else
    update s.pins blockno (s.pins blockno + 1)
  outstanding : t.outstanding = s.outstanding
  committing : t.committing = s.committing
  phase : t.phase = s.phase
  disk : t.disk = s.disk

theorem logWrite_wrote {s t : State} {blockno : Nat} (wrote : logWrite s blockno = .ok t) :
    Wrote s blockno t := by
  unfold logWrite at wrote
  split at wrote
  · cases wrote
  · split at wrote
    · cases wrote
    · rename_i room inside
      dsimp only at wrote
      rcases blocks_store s.lh blockno with ⟨past, new, blocks⟩ | ⟨found, listed, blocks⟩
      · rw [if_pos past] at wrote
        cases wrote
        exact ⟨by omega, by omega, by rw [if_neg new]; exact blocks, by rw [if_neg new]; rfl,
          rfl, rfl, rfl, rfl⟩
      · rw [if_neg found] at wrote
        cases wrote
        exact ⟨by omega, by omega, by rw [if_pos listed]; exact blocks, by rw [if_pos listed],
          rfl, rfl, rfl, rfl⟩

theorem logWrite_refines (s : State) (blockno : Nat) :
    (logWrite s blockno).map State.log = GroupCommit.logWrite s.log blockno := by
  cases wrote : logWrite s blockno with
  | ok t =>
    obtain ⟨room, inside, blocks, -, outstanding, committing, -, -⟩ := logWrite_wrote wrote
    have listed : t.log = { s.log with blocks := absorb blockno s.log.blocks } := by
      simp only [State.log, outstanding, committing, GroupCommit.absorb_eq, blocks]
    rw [GroupCommit.logWrite, if_neg, if_neg, Except.map, listed]
    · simp only [State.log]
      omega
    · simp only [State.log, length_blocks]
      omega
  | error reason =>
    have length : s.log.blocks.length = s.lh.n := length_blocks
    unfold logWrite at wrote
    rw [GroupCommit.logWrite, length]
    split at wrote
    · rename_i full
      cases wrote
      rw [if_pos full, Except.map]
    · rename_i room
      rw [if_neg room]
      split at wrote
      · rename_i outside
        have none : s.log.outstanding < 1 := outside
        cases wrote
        rw [if_pos none, Except.map]
      · dsimp only at wrote
        split at wrote <;> cases wrote

theorem initial_ok : Invariant initial := by
  constructor
  · constructor <;> simp [initial, Header.blocks, State.pinned]
  all_goals simp [initial, Header.blocks]

section Steps

variable {s t : State}

theorem Invariant.logWrite (inv : Invariant s) (running : s.phase = .running) {blockno : Nat}
    (wrote : Wrote s blockno t) : Invariant { t with logged := blockno :: s.logged } := by
  obtain ⟨room, -, blocks, pins, -, -, phase, disk⟩ := wrote
  have count : t.lh.n = s.lh.n + if blockno ∈ s.lh.blocks then 0 else 1 := by
    rw [← length_blocks, blocks]
    split <;> simp
  have before := inv.logged (by rw [running]; trivial)
  have pinned := inv.pins
  simp only [State.pinned, running] at pinned
  refine ⟨⟨?_, ?_, fun _ b => ?_, fun b => ?_, ?_⟩, ?_, ?_, ?_⟩
  · rw [blocks]
    split
    · exact inv.distinct
    · rw [← List.concat_eq_append]
      exact inv.distinct.concat ‹_›
  · simp only [count]
    split <;> omega
  · rw [blocks, List.mem_cons, ← before]
    split
    · rename_i listed
      refine ⟨Or.inr, ?_⟩
      rintro (rfl | member)
      · exact listed
      · exact member
    · simp [or_comm]
  · simp only [State.pinned, phase, running, pins, blocks]
    split
    · exact pinned b
    · rename_i new
      by_cases same : b = blockno
      · subst same
        simp [pinned, new]
      · simp [pinned, same]
  · intro cleared
    simp only [phase, running] at cleared
    exact cleared.elim
  · simp only [disk]
    exact inv.diskDistinct
  · simp only [disk]
    exact inv.diskBound
  · intro booting
    simp only [phase, running] at booting
    cases booting

theorem Invariant.operate (inv : Invariant s) {outstanding : Int} {committing : Bool} {phase : Phase}
    (before : s.phase = .running ∨ s.phase = .commit)
    (after : phase = .running ∨ phase = .commit ∨ phase = .writing) :
    Invariant { s with outstanding := outstanding, committing := committing, phase := phase } := by
  have current := inv.logged (by rcases before with here | here <;> rw [here] <;> trivial)
  have pins := inv.pins
  have listed : s.pinned = s.lh.blocks := by
    rcases before with here | here <;> simp only [State.pinned, here]
  rw [listed] at pins
  refine ⟨⟨inv.distinct, inv.bound, fun _ => current, fun b => ?_, ?_⟩, inv.diskDistinct,
    inv.diskBound, ?_⟩
  · rcases after with rfl | rfl | rfl <;> exact pins b
  · rcases after with rfl | rfl | rfl <;> exact False.elim
  · rcases after with rfl | rfl | rfl <;> rintro ⟨⟩

theorem Invariant.idle (inv : Invariant s) (cleared : s.phase.cleared) {committing : Bool}
    {phase : Phase} {disk : Header} (boots : phase ≠ .boot)
    (written : disk = s.disk ∨ disk = copyHead s.lh s.disk) :
    Invariant { s with committing := committing, phase := phase, disk := disk } := by
  obtain ⟨zero, none⟩ := inv.erased cleared
  have current := inv.logged (by cases here : s.phase <;> rw [here] at cleared <;>
    first | exact cleared.elim | trivial)
  have empty : s.lh.blocks = [] := by simp [Header.blocks, zero]
  refine ⟨⟨inv.distinct, inv.bound, fun _ => current, fun b => ?_, fun _ => ⟨zero, none⟩⟩, ?_, ?_,
    fun booting => absurd booting boots⟩
  · have nothing : State.pinned { s with committing, phase, disk } = [] := by
      simp only [State.pinned, empty]
      split <;> simp
    simp [nothing, none]
  · rcases written with rfl | rfl
    · exact inv.diskDistinct
    · simp only [blocks_copyHead]
      exact inv.distinct
  · rcases written with rfl | rfl
    · exact inv.diskBound
    · exact inv.bound

theorem Invariant.writeHead (inv : Invariant s) (writing : s.phase = .writing) :
    Invariant { s with disk := copyHead s.lh s.disk, phase := .install false 0 } := by
  have current := inv.logged (by rw [writing]; trivial)
  have pins := inv.pins
  simp only [State.pinned, writing] at pins
  refine ⟨⟨inv.distinct, inv.bound, fun _ => current, pins, False.elim⟩, ?_, inv.bound, by simp⟩
  simp only [blocks_copyHead]
  exact inv.distinct

theorem Invariant.installRecovering (inv : Invariant s) {tail : Nat}
    (installing : s.phase = .install true tail) :
    Invariant { s with phase := .install true (tail + 1) } := by
  have pins := inv.pins
  simp only [State.pinned, installing] at pins
  exact ⟨⟨inv.distinct, inv.bound, False.elim, pins, False.elim⟩, inv.diskDistinct, inv.diskBound,
    by simp⟩

theorem Invariant.installPinned (inv : Invariant s) {tail : Nat}
    (installing : s.phase = .install false tail) (inside : tail < s.lh.n) :
    Invariant { s.bunpin (s.lh.block tail) with phase := .install false (tail + 1) } := by
  have current := inv.logged (by rw [installing]; trivial)
  have pins := inv.pins
  simp only [State.pinned, installing] at pins
  have entry : s.lh.blocks.drop tail = s.lh.block tail :: s.lh.blocks.drop (tail + 1) := by
    rw [List.drop_eq_getElem_cons (by rw [length_blocks]; exact inside)]
    simp [Header.blocks]
  have once := inv.distinct.sublist (List.drop_sublist tail _)
  rw [entry, List.nodup_cons] at once
  refine ⟨⟨inv.distinct, inv.bound, fun _ => current, fun b => ?_, False.elim⟩, inv.diskDistinct,
    inv.diskBound, by simp⟩
  simp only [State.pinned, State.bunpin]
  rw [entry] at pins
  by_cases same : b = s.lh.block tail
  · subst same
    simp [pins, once.1]
  · by_cases later : b ∈ s.lh.blocks.drop (tail + 1) <;> simp [pins, same, later]

theorem Invariant.clear (inv : Invariant s) {recovering : Bool} {tail : Nat}
    (installing : s.phase = .install recovering tail) (done : ¬ tail < s.lh.n) :
    Invariant { s with lh := { s.lh with n := 0 }, phase := .erase recovering, logged := [] } := by
  have none : ∀ b, s.pins b = 0 := by
    intro b
    cases recovering with
    | true => simp [inv.pins, State.pinned, installing]
    | false =>
      have all : s.lh.blocks.drop tail = [] :=
        List.drop_of_length_le (by rw [length_blocks]; omega)
      simp [inv.pins, State.pinned, installing, all]
  refine ⟨⟨?_, Nat.zero_le _, fun _ b => ?_, fun b => ?_, fun _ => ⟨rfl, none⟩⟩,
    inv.diskDistinct, inv.diskBound, by simp⟩
  · simp [Header.blocks]
  · simp [Header.blocks]
  · simp [State.pinned, none]

theorem Invariant.readHead (inv : Invariant s) (booting : s.phase = .boot) :
    Invariant { s with lh := copyHead s.disk s.lh, phase := .install true 0 } := by
  have pins := inv.pins
  simp only [State.pinned, booting] at pins
  refine ⟨⟨?_, inv.diskBound, False.elim, pins, False.elim⟩, inv.diskDistinct, inv.diskBound,
    by simp⟩
  simp only [blocks_copyHead]
  exact inv.diskDistinct

theorem Invariant.step (inv : Invariant s) (step : Step s t) : Invariant t := by
  cases step with
  | beginOp log running _ | endOp log running _ =>
    have kept : Invariant { s with
        outstanding := log.outstanding, committing := s.committing, phase := .running } :=
      inv.operate (Or.inl running) (Or.inl rfl)
    rwa [← running] at kept
  | logWrite t blockno running wrote => exact inv.logWrite running (logWrite_wrote wrote)
  | lastEndOp log running _ => exact inv.operate (Or.inl running) (Or.inr (Or.inl rfl))
  | commitNothing committing nothing =>
    have zero : s.lh.n = 0 := by omega
    have pins := inv.pins
    have empty : s.lh.blocks = [] := by simp [Header.blocks, zero]
    simp only [State.pinned, committing, empty, List.not_mem_nil, if_false] at pins
    exact ⟨⟨inv.distinct, inv.bound, fun _ => inv.logged (by rw [committing]; trivial), pins,
      fun _ => ⟨zero, pins⟩⟩, inv.diskDistinct, inv.diskBound, by simp⟩
  | writeLog committing _ => exact inv.operate (Or.inr committing) (Or.inr (Or.inr rfl))
  | writeHead writing => exact inv.writeHead writing
  | installBlock recovering tail installing inside =>
    cases recovering with
    | true => exact inv.installRecovering installing
    | false => exact inv.installPinned installing inside
  | clear recovering tail installing done => exact inv.clear installing done
  | eraseHead recovering erasing =>
    refine inv.idle (by rw [erasing]; trivial) ?_ (Or.inr rfl)
    cases recovering <;> simp
  | finish finished => exact inv.idle (by rw [finished]; trivial) (by simp) (Or.inl rfl)
  | crash =>
    refine ⟨⟨?_, Nat.zero_le _, ?_, ?_, ?_⟩, inv.diskDistinct, inv.diskBound,
      fun _ => ⟨rfl, rfl⟩⟩ <;> simp [Header.blocks, State.pinned, Phase.cleared]
  | readHead booting => exact inv.readHead booting

end Steps

/-- In every state of every run the header lists the blocks logged since the last commit,
each once and each pinned once until it is installed; when a commit or recovery has
cleared the header, no pin is left. -/
theorem log_header_and_pins {s : State} (run : Reaches Step initial s) : HeaderOk s :=
  (run.keeps Invariant (fun _ _ => Invariant.step) initial_ok).toHeaderOk

/-- An operation logs two blocks, the first of them twice, and commits; the power fails when one of
them is installed, and recovery reads both from the header on disk, installs them without pins and
clears it. -/
theorem log_header_and_pins_recovery :
    ∃ logged torn recovered : State,
      (Reaches Step initial logged ∧ logged.phase = .running ∧ logged.lh.blocks = [40, 41] ∧
        logged.logged = [40, 41, 40] ∧ logged.pins 40 = 1 ∧ logged.pins 41 = 1 ∧
        HeaderOk logged) ∧
      (Reaches Step logged torn ∧ torn.phase = .install false 1 ∧ torn.pins 40 = 0 ∧
        torn.pins 41 = 1 ∧ HeaderOk torn) ∧
      Reaches Step torn recovered ∧ recovered.phase = .erase true ∧ recovered.lh.n = 0 ∧
        recovered.disk.blocks = [40, 41] ∧ HeaderOk recovered := by
  -- the states are kept closed by what later steps need to know of them
  obtain ⟨logged, first, running, blocks, log, entry, history, pin, pin'⟩ :
      ∃ logged, Reaches Step initial logged ∧ logged.phase = .running ∧
        logged.lh.blocks = [40, 41] ∧ logged.log = ⟨1, false, [40, 41]⟩ ∧
        (logged.lh.n = 2 ∧ logged.lh.block 0 = 40 ∧ logged.lh.block 1 = 41) ∧
        logged.logged = [40, 41, 40] ∧ logged.pins 40 = 1 ∧ logged.pins 41 = 1 :=
    ⟨_, (((((((Relation.ReflTransGen.refl.tail
      (.readHead _ rfl)).tail
      (.clear _ true 0 rfl (by decide))).tail
      (.eraseHead _ true rfl)).tail
      (.beginOp _ _ rfl rfl)).tail
      (.logWrite _ _ 40 rfl rfl)).tail
      (.logWrite _ _ 41 rfl rfl)).tail
      (.logWrite _ _ 40 rfl rfl)), rfl, rfl, rfl, ⟨rfl, rfl, rfl⟩, rfl, rfl, rfl⟩
  obtain ⟨torn, second, installing, unpinned, pinned, disk⟩ :
      ∃ torn, Reaches Step logged torn ∧ torn.phase = .install false 1 ∧ torn.pins 40 = 0 ∧
        torn.pins 41 = 1 ∧ torn.disk.n = 2 ∧ torn.disk.block 0 = 40 ∧ torn.disk.block 1 = 41 := by
    refine ⟨_, (((Relation.ReflTransGen.refl.tail
      (Step.lastEndOp logged ⟨0, true, [40, 41]⟩ running (by rw [log]; rfl))).tail
      (.writeLog _ rfl (by simp [entry.1]))).tail
      (.writeHead _ rfl)).tail
      (.installBlock _ false 0 rfl (by simp [entry.1])), rfl, ?_, ?_, entry.1, ?_, ?_⟩
    · simp [State.bunpin, entry.2.1, pin]
    · simp [State.bunpin, entry.2.1, pin']
    · simp [State.bunpin, copyHead, entry.1, entry.2.1]
    · simp [State.bunpin, copyHead, entry.1, entry.2.2]
  obtain ⟨recovered, third, erasing, zero, same⟩ :
      ∃ recovered, Reaches Step torn recovered ∧ recovered.phase = .erase true ∧
        recovered.lh.n = 0 ∧ recovered.disk = torn.disk :=
    ⟨_, ((((Relation.ReflTransGen.refl.tail
      (Step.crash torn)).tail
      (.readHead _ rfl)).tail
      (.installBlock _ true 0 rfl (by simp [copyHead, disk.1]))).tail
      (.installBlock _ true 1 rfl (by simp [copyHead, disk.1]))).tail
      (.clear _ true 2 rfl (by simp [copyHead, disk.1])), rfl, rfl, rfl⟩
  have list : recovered.disk.blocks = [40, 41] := by
    simp [same, Header.blocks, disk, List.range_succ]
  exact ⟨logged, torn, recovered,
    ⟨first, running, blocks, history, pin, pin', log_header_and_pins first⟩,
    ⟨second, installing, unpinned, pinned, log_header_and_pins (first.trans second)⟩,
    third, erasing, zero, list, log_header_and_pins ((first.trans second).trans third)⟩

end Xv6.LogHeader
