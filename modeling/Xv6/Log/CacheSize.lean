import Mathlib.Data.Fintype.Card
import Mathlib.Order.Interval.Finset.Nat
import Mathlib.Tactic.FinCases
import Xv6.Log.CoherentStore

/-!
# The size of the buffer cache

Every logged block pins a buffer until `commit` has installed it, and `commit` needs one more
buffer for the log area.
-/

namespace Xv6.BufferCache

open Transition
open GroupCommit (blocksOf)

section Room

variable {P B : Type} {start : Nat} {disk : Disk} [DecidableEq B] {s : System P B}

theorem bget_none {number : Nat} (failed : s.bget number = none) :
    (∀ b ∈ s.order, (s.buf b).block ≠ some number) ∧ ∀ b ∈ s.order, (s.buf b).refcnt ≠ 0 := by
  unfold System.bget at failed
  split at failed
  · cases failed
  · rename_i miss
    split at failed
    · cases failed
    · rename_i full
      refine ⟨by simpa using List.find?_eq_none.mp miss, fun b listed => ?_⟩
      simpa using List.find?_eq_none.mp full b (List.mem_reverse.mpr listed)

omit [DecidableEq B] in
theorem Access.card_le [Fintype B] (access : Access start s) (all : ∀ b, s.pins b ≠ 0) :
    Fintype.card B ≤ s.blocks.length := by
  have pinned : ∀ b, (s.buf b).block ∈ s.pinned.map some := fun b =>
    List.count_pos_iff.mp (Nat.pos_of_ne_zero (all b))
  have injective : Set.InjOn (fun b => (s.buf b).block) (Finset.univ : Finset B) := by
    intro b _ c _ same
    obtain ⟨number, -, block⟩ := List.mem_map.mp (pinned b)
    exact access.unique b c number block.symm (same.symm.trans block.symm)
  calc Fintype.card B
      ≤ (s.pinned.map some).toFinset.card :=
        Finset.card_le_card_of_injOn _ (fun b _ => List.mem_toFinset.mpr (pinned b)) injective
    _ ≤ s.pinned.length := (List.toFinset_card_le _).trans_eq (List.length_map _)
    _ ≤ s.blocks.length := by
      rw [System.pinned, List.length_drop]
      exact Nat.sub_le _ _

structure Alone (start : Nat) (s : System P B) (work : Work B) : Prop where
  locked : ∀ b p, (s.buf b).lock = some p → ∃ number, (b, number) ∈ work.holds start s.blocks
  idle : ∀ p b, ¬ (s.place p).Counts b

omit [DecidableEq B] in
theorem InStep.asks (inStep : InStep start s) {p : P} {work : Work B} {number : Nat}
    (here : s.place p = .doing work) (asks : work.asks start s.blocks = some number) :
    work.holds start s.blocks = [] ∨ number ∈ s.pinned := by
  obtain ⟨stage, -, -⟩ := (processInStep_iff here).mp (inStep.process p)
  cases work with
  | fromCache tail toBuf =>
    have none : s.installed = 0 := stage.2.2.2.2
    rw [System.pinned, none]
    exact Or.inr (List.mem_of_getElem? asks)
  | toHome tail lbuf =>
    have before : s.installed = tail := stage.2.2.2
    rw [System.pinned, before]
    refine Or.inr (List.mem_of_getElem? (i := 0) ?_)
    rw [List.getElem?_drop]
    exact asks
  | toLog tail | fromLog tail | head erase => exact Or.inl rfl
  | _ => cases asks

end Room

/-- In every run from a cache of `NBUF` buffers at rest: whenever `commit` reads a
block while the header lists fewer than `NBUF` blocks and no process uses a buffer
that `commit` has not locked, `bget` finds a buffer. -/
theorem commit_finds_buffer {P : Type} [DecidableEq P] {start : Nat} {disk : Disk}
    {boot s : System P (Fin NBUF)} (rest : AtRest disk boot) (run : Reaches (Step start) boot s)
    {p : P} {work : Work (Fin NBUF)} {number : Nat} (here : s.place p = .doing work)
    (asks : work.asks start s.blocks = some number) (alone : Alone start s work)
    (fewer : s.blocks.length < NBUF) : ∃ b t, s.bget number = some (b, t) := by
  obtain ⟨inStep, access, -, -⟩ := reached rest run
  by_contra fails
  have failed : s.bget number = none := by
    by_contra found
    obtain ⟨⟨b, t⟩, found⟩ := Option.ne_none_iff_exists'.mp found
    exact fails ⟨b, t, found⟩
  obtain ⟨missing, used⟩ := bget_none failed
  rcases inStep.asks here asks with empty | pinned
  · -- Every buffer is in use and none is locked, so all are pinned.
    refine absurd (access.card_le fun b unpinned => ?_) (by simpa using fewer)
    obtain ⟨waiting, counts, total⟩ := access.counted b
    have idle : waiting = 0 := counts.zero fun q => alone.idle q b
    have unlocked : (s.buf b).lock = none := by
      by_contra locked
      obtain ⟨q, holder⟩ := Option.ne_none_iff_exists'.mp locked
      obtain ⟨k, held⟩ := alone.locked b q holder
      rw [empty] at held
      cases held
    rw [idle, unlocked, unpinned] at total
    exact used b (access.listed b) total
  · obtain ⟨b, block, -⟩ := access.pinned number pinned
    exact missing b (access.listed b) block

def emptyCache (P : Type) : System P (Fin NBUF) where
  group := GroupCommit.initial fun _ _ => 0
  buf := fun _ => ⟨none, false, 0, none, fun _ => 0, false⟩
  order := (List.finRange NBUF).reverse
  disk := fun _ _ => 0
  place := fun _ => .doing .user
  written := 0
  installed := 0

theorem emptyCache_atRest (P : Type) : AtRest (fun _ _ => 0) (emptyCache P) :=
  ⟨rfl, rfl, by simp [emptyCache], nofun, fun _ => ⟨rfl, rfl, rfl⟩, nofun, fun _ => rfl, rfl, rfl⟩

/-- The commit of one logged block finds a buffer for it in the log area. -/
theorem commit_of_one_block : ∃ s : System Unit (Fin NBUF), Reaches (Step 2) (emptyCache Unit) s ∧
    s.blocks = [100] ∧ s.place () = .doing (.toLog 0) ∧ ∃ b t, s.bget 3 = some (b, t) := by
  have run : Reaches (Step 2) (emptyCache Unit) _ :=
    ((((((((Relation.ReflTransGen.refl.tail
      (.beginOp () _ rfl (Or.inl rfl) rfl)).tail
      (.bget () 100 .user 0 _ rfl (Or.inl rfl) rfl)).tail
      (.lock () 0 100 .user rfl rfl)).tail
      (.fill () 0 100 .user rfl)).tail
      (.logWrite () 0 0 _ _ rfl rfl rfl (by decide) rfl)).tail
      (.brelse () 0 .user .user rfl rfl (Or.inl ⟨rfl, rfl, rfl⟩))).tail
      (.unref () 0 .user rfl)).tail
      (.lastOp () 0 _ rfl rfl rfl)).tail
      (.begin () rfl (by decide))
  obtain ⟨s, run, blocks, place, unlocked⟩ : ∃ s, Reaches (Step 2) (emptyCache Unit) s ∧
      s.blocks = [100] ∧ s.place () = .doing (.toLog 0) ∧ ∀ b, (s.buf b).lock = none := by
    refine ⟨_, run, rfl, rfl, fun b => ?_⟩
    fin_cases b <;> rfl
  have alone : Alone 2 s (.toLog 0) := by
    refine ⟨fun b p locked => ?_, fun p b => ?_⟩
    · rw [unlocked b] at locked
      cases locked
    · rw [place]
      exact id
  exact ⟨s, run, blocks, place, commit_finds_buffer (emptyCache_atRest Unit) run place
    (by rw [blocks]; rfl) alone (by rw [blocks]; decide)⟩

section Full

variable {P B : Type} {start : Nat} [DecidableEq P] [DecidableEq B] {s : System P B}

theorem reaches_read {p : P} {number : Nat} {b : B} (here : s.place p = .doing .user)
    (found : s.bget number = some (b, s.set b ((s.buf b).recycle number)))
    (unlocked : (s.buf b).lock = none) :
    Reaches (Step start) s
      (s.set b ⟨some number, true, 1, some p, s.disk number, (s.buf b).dirty⟩) := by
  have run : Reaches (Step start) s _ :=
    ((Relation.ReflTransGen.refl.tail
      (.bget p number .user b _ here (Or.inl rfl) found)).tail
      (.lock p b number .user place_move (by rw [buf_move, buf_set]; exact unlocked))).tail
      (.fill p b number .user place_move)
  refine (congrArg (Reaches (Step start) s) ?_).mp run
  simp [System.fill, System.set, System.move, Buf.recycle, Buf.fill, Buf.blockno, Work.got, ← here]

theorem reaches_released {p : P} {b : B} (here : s.place p = .doing .user)
    (locked : (s.buf b).lock = some p) (clean : (s.buf b).dirty = false)
    (pinned : (s.buf b).refcnt = 2) :
    Reaches (Step start) s (s.set b { s.buf b with lock := none, refcnt := 1 }) := by
  have run : Reaches (Step start) s _ :=
    (Relation.ReflTransGen.refl.tail
      (.brelse p b .user .user here locked (Or.inl ⟨rfl, rfl, clean⟩))).tail
      (.unref p b .user place_move)
  refine (congrArg (Reaches (Step start) s) ?_).mp run
  simp [System.unref, System.set, System.move, pinned, ← here]

theorem reaches_logged (start : Nat) {p : P} {op number : Nat} {b : B} {log : GroupCommit.Log}
    (here : s.place p = .doing .user) (operating : s.group.pc p = .operating op)
    (found : s.bget number = some (b, s.set b ((s.buf b).recycle number)))
    (unlocked : (s.buf b).lock = none) (home : Home start number)
    (wrote : GroupCommit.logWrite s.group.log number = .ok log) (fresh : number ∉ s.blocks) :
    ∃ t data, Reaches (Step start) s t ∧ t.place = s.place ∧ t.order = s.order ∧
      (∀ c, c ≠ b → t.buf c = s.buf c) ∧ (t.buf b).block = some number ∧
      (t.buf b).refcnt = 1 ∧ (t.buf b).lock = none ∧ t.group.log = log ∧
      t.group.pc = s.group.pc ∧ t.group.history = s.group.history ++ [⟨op, number, data⟩] := by
  have read : Reaches (Step start) s _ := reaches_read here found unlocked
  have logged : Reaches (Step start) s _ :=
    read.tail (.logWrite p op b log _ here operating (by rw [buf_set]) (by rw [buf_set]; exact home)
      (by rw [buf_set]; exact logWrite_of_group wrote))
  have new : number ∉ s.group.log.blocks := fresh
  have released := logged.trans (reaches_released (p := p) (b := b) here
    (by simp [System.note, Buf.bpinNew]) (by simp [System.note])
    (by simp [System.note, Buf.bpinNew, Buf.blockno, System.set, new]))
  refine ⟨_, s.disk number, released, rfl, rfl, fun c other => ?_, ?_, ?_, ?_, rfl, rfl, ?_⟩
  · rw [buf_other other]
    simp [System.note, Buf.bpinNew, System.set, other]
  · simp [System.note, Buf.bpinNew, System.set]
  · rw [buf_set]
  · rw [buf_set]
  · simp [System.note, Buf.bpinNew, System.set, Buf.blockno]

end Full

structure Filled (count : Nat) (s : System (Fin 3) (Fin NBUF)) : Prop where
  place : ∀ p, s.place p = .doing .user
  operating : ∀ p, s.group.pc p = .operating p
  log : s.group.log = ⟨3, false, (List.range count).map (100 + ·)⟩
  order : s.order = (List.finRange NBUF).reverse
  used : ∀ b : Fin NBUF, b < count → (s.buf b).block = some (100 + b.val) ∧ (s.buf b).refcnt = 1
  free : ∀ b : Fin NBUF, count ≤ b → (s.buf b).block = none ∧ (s.buf b).refcnt = 0
  unlocked : ∀ b, (s.buf b).lock = none
  history : ∀ entry ∈ s.group.history, entry.block / 10 = 10 + entry.op

variable {s : System (Fin 3) (Fin NBUF)}

/-- The next buffer that `bget` recycles. -/
theorem Filled.bget {count : Nat} (filled : Filled count s) (more : count < NBUF) :
    s.bget (100 + count) = some (⟨count, more⟩,
      s.set ⟨count, more⟩ ((s.buf ⟨count, more⟩).recycle (100 + count))) := by
  have missing : s.order.find? (fun b => (s.buf b).block = some (100 + count)) = none := by
    refine List.find?_eq_none.mpr fun b _ => ?_
    rcases Nat.lt_or_ge b.val count with used | free
    · rw [(filled.used b used).1]
      simp only [Option.some.injEq, decide_eq_true_eq]
      omega
    · simp [(filled.free b free).1]
  have next : s.order.reverse.find? (fun b => (s.buf b).refcnt = 0) = some ⟨count, more⟩ := by
    rw [filled.order, List.reverse_reverse]
    refine List.find?_eq_some_iff_getElem.mpr ⟨?_, count, by simpa using more, by simp, ?_⟩
    · simpa using (filled.free ⟨count, more⟩ (Nat.le_refl _)).2
    · intro earlier before
      simp [(filled.used ⟨earlier, by omega⟩ before).2]
  unfold System.bget
  rw [missing, next]

theorem Filled.next {count : Nat} (filled : Filled count s) (more : count < NBUF) :
    ∃ t, Reaches (Step 2) s t ∧ Filled (count + 1) t := by
  have who : count / 10 < 3 := Nat.div_lt_of_lt_mul more
  have home : Home 2 (100 + count) := Or.inr (Nat.lt_of_lt_of_le (by decide) (Nat.le_add_right 100 _))
  have fresh : 100 + count ∉ (List.range count).map (100 + ·) := by
    simp
  have wrote : GroupCommit.logWrite s.group.log (100 + count) =
      .ok ⟨3, false, (List.range (count + 1)).map (100 + ·)⟩ := by
    rw [filled.log, GroupCommit.logWrite, GroupCommit.absorb_eq, if_neg fresh, if_neg, if_neg]
    · simp [List.range_succ]
    · exact fun none : (3 : Int) < 1 => absurd none (by decide)
    · simpa using more
  obtain ⟨t, data, run, place, order, others, block, refcnt, unlocked, log, pc, history⟩ :=
    reaches_logged 2 (filled.place ⟨count / 10, who⟩) (filled.operating ⟨count / 10, who⟩)
      (filled.bget more) (filled.unlocked _) home wrote
      (by rw [System.blocks, filled.log]; exact fresh)
  have apart : ∀ b : Fin NBUF, b.val ≠ count → b ≠ ⟨count, more⟩ := fun b other same =>
    other (congrArg Fin.val same)
  refine ⟨t, run, fun p => ?_, fun p => ?_, log, order.trans filled.order, fun b used => ?_,
    fun b free => ?_, fun b => ?_, fun entry logged => ?_⟩
  · rw [place]
    exact filled.place p
  · rw [pc]
    exact filled.operating p
  · by_cases last : b.val = count
    · obtain rfl : b = ⟨count, more⟩ := Fin.ext last
      exact ⟨block, refcnt⟩
    · rw [others b (apart b last)]
      exact filled.used b (by omega)
  · rw [others b (apart b (by omega))]
    exact filled.free b (by omega)
  · by_cases last : b = ⟨count, more⟩
    · rw [last]
      exact unlocked
    · rw [others b last]
      exact filled.unlocked b
  · rw [history, List.mem_append, List.mem_singleton] at logged
    rcases logged with old | rfl
    · exact filled.history entry old
    · change (100 + count) / 10 = 10 + count / 10
      omega

theorem reaches_filled (count : Nat) (bound : count ≤ NBUF) :
    ∃ s, Reaches (Step 2) (emptyCache (Fin 3)) s ∧ Filled count s := by
  induction count with
  | zero =>
    have run : Reaches (Step 2) (emptyCache (Fin 3)) _ :=
      ((Relation.ReflTransGen.refl.tail
        (.beginOp 0 _ rfl (Or.inl rfl) rfl)).tail
        (.beginOp 1 _ rfl (Or.inl rfl) rfl)).tail
        (.beginOp 2 _ rfl (Or.inl rfl) rfl)
    refine ⟨_, run, fun _ => rfl, fun p => ?_, rfl, rfl, (by simp), fun _ _ => ⟨rfl, rfl⟩,
      fun _ => rfl, (by rintro _ ⟨⟩)⟩
    fin_cases p <;> rfl
  | succ count ih =>
    obtain ⟨s, run, filled⟩ := ih (Nat.le_of_succ_le bound)
    obtain ⟨t, more, next⟩ := filled.next bound
    exact ⟨t, run.trans more, next⟩

/-- The last operation of a full log ends. -/
theorem Filled.ends (filled : Filled NBUF s) :
    ∃ t, Reaches (Step 2) s t ∧ t.buf = s.buf ∧ t.order = s.order ∧ t.group.history = s.group.history ∧
      t.blocks = (List.range NBUF).map (100 + ·) ∧
      t.place = Function.update s.place 2 (.doing (.toLog 0)) := by
  have blocks : s.blocks = (List.range NBUF).map (100 + ·) := by rw [System.blocks, filled.log]
  have run : Reaches (Step 2) s _ :=
    (((Relation.ReflTransGen.refl.tail
      (.endOp 0 0 ⟨2, false, s.blocks⟩ (filled.place 0) (filled.operating 0)
        (by rw [blocks, filled.log]; rfl))).tail
      (.endOp 1 1 ⟨1, false, s.blocks⟩ (filled.place 1) (filled.operating 1) rfl)).tail
      (.lastOp 2 2 ⟨0, true, s.blocks⟩ (filled.place 2) (filled.operating 2) rfl)).tail
      (.begin 2 rfl (by change s.blocks ≠ []; rw [blocks]; decide))
  refine ⟨_, run, rfl, rfl, rfl, blocks, ?_⟩
  simp [System.move]

/-- The log fills up and the last operation ends: `commit` finds no buffer for the first block of
the log area, although no process holds one and no operation has logged more than `MAXOPBLOCKS`
blocks. -/
theorem commit_finds_no_buffer : AtRest (fun _ _ => 0) (emptyCache (Fin 3)) ∧
    ∃ s : System (Fin 3) (Fin NBUF), Reaches (Step 2) (emptyCache (Fin 3)) s ∧
      (∀ op, (blocksOf s.group.history op).card ≤ MAXOPBLOCKS) ∧ Alone 2 s (.toLog 0) ∧
      s.place 2 = .doing (.toLog 0) ∧ (Work.toLog 0 : Work (Fin NBUF)).asks 2 s.blocks = some 3 ∧
      s.bget 3 = none := by
  refine ⟨emptyCache_atRest _, ?_⟩
  obtain ⟨s, run, filled⟩ := reaches_filled NBUF (Nat.le_refl _)
  obtain ⟨t, ends, bufs, order, history, blocks, place⟩ := filled.ends
  refine ⟨t, run.trans ends, fun op => ?_, ⟨fun b p locked => ?_, fun p b => ?_⟩, ?_, ?_, ?_⟩
  · have within : blocksOf t.group.history op ⊆ Finset.Ico (100 + 10 * op) (110 + 10 * op) := by
      intro number logged
      obtain ⟨entry, member, rfl, rfl⟩ := GroupCommit.mem_blocksOf.mp logged
      have := filled.history entry (by rwa [history] at member)
      rw [Finset.mem_Ico]
      omega
    refine (Finset.card_le_card within).trans ?_
    rw [Nat.card_Ico]
    change 110 + 10 * op - (100 + 10 * op) ≤ 10
    omega
  · rw [bufs, filled.unlocked b] at locked
    cases locked
  · rw [place]
    by_cases last : p = 2
    · rw [last, Function.update_self]
      exact id
    · rw [Function.update_of_ne last, filled.place p]
      exact id
  · rw [place, Function.update_self]
  · rw [blocks]
    decide
  · have missing : t.order.find? (fun b => (t.buf b).block = some 3) = none := by
      refine List.find?_eq_none.mpr fun b _ => ?_
      rw [bufs, (filled.used b b.isLt).1]
      simp only [Option.some.injEq, decide_eq_true_eq]
      omega
    have full : t.order.reverse.find? (fun b => (t.buf b).refcnt = 0) = none := by
      refine List.find?_eq_none.mpr fun b _ => ?_
      rw [bufs, (filled.used b b.isLt).2]
      decide
    unfold System.bget
    rw [missing, full]

end Xv6.BufferCache
