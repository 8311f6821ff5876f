import Xv6.Log.CacheContents

/-!
# The cache and the log as one store of blocks

Whatever the interleaving of reads, changes, commits and evictions, a read returns what was last
logged for its block.
-/

namespace Xv6.BufferCache

open Transition
open GroupCommit (lastLogged lastLogged_snoc mem_absorb)

variable {P B : Type} {start : Nat} {disk : Disk}

structure AtRest (disk : Disk) (s : System P B) : Prop where
  group : s.group = GroupCommit.initial disk
  unwritten : s.disk = disk
  listed : ∀ b, b ∈ s.order
  unique : ∀ b c number, (s.buf b).block = some number → (s.buf c).block = some number → b = c
  unused : ∀ b, (s.buf b).refcnt = 0 ∧ (s.buf b).lock = none ∧ (s.buf b).dirty = false
  filled : ∀ b number, (s.buf b).block = some number →
    (s.buf b).valid = true ∧ (s.buf b).data = disk number
  place : ∀ p, s.place p = .doing .user
  counters : s.written = 0 ∧ s.installed = 0

/-- What the log remembers of each block. -/
structure Remembered (start : Nat) (disk : Disk) (s : System P B) : Prop where
  cache : ∀ number, s.group.cache number = (lastLogged s.group.history number).getD (disk number)
  home : ∀ number, ¬ Home start number → lastLogged s.group.history number = none
  listed : ∀ number ∈ s.blocks, lastLogged s.group.history number ≠ none

structure Coherent (start : Nat) (disk : Disk) (s : System P B) : Prop where
  inStep : InStep start s
  access : Access start s
  contents : Contents start s
  remembered : Remembered start disk s

section Boot

variable {s : System P B}

theorem AtRest.blocks (rest : AtRest disk s) : s.blocks = [] := by
  rw [System.blocks, rest.group]
  rfl

/-- At rest no block is pinned. -/
theorem AtRest.pinned (rest : AtRest disk s) : s.pinned = [] := by
  rw [System.pinned, rest.blocks, List.drop_nil]

theorem AtRest.inStep (rest : AtRest disk s) : InStep start s := by
  refine ⟨?_, fun p => ?_, ?_, ?_, fun _ => rest.counters⟩
  · rw [rest.group]
    exact ⟨⟨∅, by simp [GroupCommit.initial], rfl⟩, (by rintro ⟨⟩), fun _ => False.elim,
      fun _ _ => False.elim⟩
  · have outside : s.group.pc p = .outside := by
      rw [rest.group]
      rfl
    exact processInStep_user (rest.place p) rfl outside id
  · rw [rest.blocks]
    simp
  · rw [rest.blocks]
    exact Nat.zero_le _

theorem AtRest.access (rest : AtRest disk s) : Access start s := by
  refine ⟨rest.unique, rest.listed, fun b => ⟨0, Tally.counts_none fun p => ?_, ?_⟩,
    fun b _ used => ?_, fun b p locked => ?_, fun p => ?_, fun p b number held => ?_, ?_⟩
  · rw [rest.place p]
    exact id
  · obtain ⟨refcnt, lock, -⟩ := rest.unused b
    simp [refcnt, lock, System.pins, rest.pinned]
  · obtain ⟨number, block⟩ := Option.ne_none_iff_exists'.mp used
    exact (rest.filled b number block).1
  · exact absurd ((rest.unused b).2.1.symm.trans locked) (by simp)
  · rw [rest.place p]
    trivial
  · rw [rest.place p] at held
    cases held
  · rw [rest.pinned]
    simp

theorem AtRest.contents (rest : AtRest disk s) : Contents start s := by
  have cache : s.group.cache = disk := by rw [rest.group]; rfl
  refine ⟨fun b _ => (rest.unused b).2.2, fun p b number work _ => (rest.unused b).2.2,
    fun p b number _ dirty => ?_, fun b number block _ _ => ?_, fun number _ _ => ?_,
    fun tail before => ?_, fun p => ?_⟩
  · exact absurd ((rest.unused b).2.2.symm.trans dirty) (by simp)
  · rw [System.expected, cache, rest.unwritten, ite_self]
    exact (rest.filled b number block).2
  · rw [rest.unwritten, cache]
  · rw [rest.counters.1] at before
    cases before
  · rw [rest.place p]
    trivial

/-- At rest all is coherent. -/
theorem AtRest.coherent (rest : AtRest disk s) : Coherent start disk s := by
  refine ⟨rest.inStep, rest.access, rest.contents, ?_, ?_, ?_⟩
  · rw [rest.group]
    exact fun _ => rfl
  · rw [rest.group]
    exact fun _ _ => rfl
  · rw [rest.blocks]
    simp

end Boot

section Steps

variable [DecidableEq P] [DecidableEq B] {s t : System P B}

omit [DecidableEq P] [DecidableEq B] in
/-- A step that logs nothing. -/
theorem Remembered.quiet (remembered : Remembered start disk s)
    (cache : t.group.cache = s.group.cache) (history : t.group.history = s.group.history)
    (blocks : ∀ number ∈ t.blocks, number ∈ s.blocks) : Remembered start disk t := by
  refine ⟨?_, ?_, fun number listed => ?_⟩
  · rw [cache, history]
    exact remembered.cache
  · rw [history]
    exact remembered.home
  · rw [history]
    exact remembered.listed number (blocks number listed)

/-- Every step remembers what was last logged for each block. -/
theorem Remembered.step (remembered : Remembered start disk s) (step : Step start s t) :
    Remembered start disk t := by
  cases step with
  | logWrite p op b log buf here operating holds home wrote =>
    obtain ⟨-, -, rfl, rfl⟩ := logWrite_ok wrote
    refine ⟨fun number => ?_, fun number away => ?_, fun number listed => ?_⟩
    · change Function.update s.group.cache (s.buf b).blockno (s.buf b).data number =
        (lastLogged (s.group.history ++ [⟨op, (s.buf b).blockno, (s.buf b).data⟩]) number).getD _
      rw [lastLogged_snoc]
      by_cases same : (s.buf b).blockno = number
      · simp [same]
      · simpa [same, Ne.symm same] using remembered.cache number
    · change lastLogged (s.group.history ++ [⟨op, (s.buf b).blockno, (s.buf b).data⟩]) number = none
      rw [lastLogged_snoc, if_neg fun same : (s.buf b).blockno = number => away (same ▸ home)]
      exact remembered.home number away
    · change lastLogged (s.group.history ++ [⟨op, (s.buf b).blockno, (s.buf b).data⟩]) number ≠ none
      rw [lastLogged_snoc]
      split
      · simp
      · rename_i other
        refine remembered.listed number ?_
        exact ((mem_absorb _ number s.blocks).mp listed).resolve_right (Ne.symm other)
  | beginOp p log here entering room =>
    obtain ⟨-, rfl⟩ := GroupCommit.beginOp_some room
    exact remembered.quiet rfl rfl fun _ => id
  | endOp p op log here operating others =>
    obtain ⟨-, -, rfl⟩ := GroupCommit.endOp_ok others
    exact remembered.quiet rfl rfl fun _ => id
  | lastOp p op log here operating alone =>
    obtain ⟨-, -, rfl⟩ := GroupCommit.endOp_ok alone
    exact remembered.quiet rfl rfl fun _ => id
  | bget p number work b t here asks found =>
    rcases (bget_some found).2 with ⟨-, rfl⟩ | ⟨-, -, rfl⟩ <;>
      exact remembered.quiet rfl rfl fun _ => id
  | empty p copied here copying none | erase p tail copied here copying all =>
    exact remembered.quiet rfl rfl (by rintro _ ⟨⟩)
  | _ => exact remembered.quiet rfl rfl fun _ => id

theorem Coherent.step (coherent : Coherent start disk s) (step : Step start s t) :
    Coherent start disk t := by
  obtain ⟨inStep, access, contents, remembered⟩ := coherent
  exact ⟨inStep.step step, access.step inStep step, contents.step access inStep step,
    remembered.step step⟩

theorem reached {boot : System P B} (rest : AtRest disk boot) (run : Reaches (Step start) boot s) :
    Coherent start disk s :=
  run.keeps _ (fun _ _ coherent step => coherent.step step) rest.coherent

omit [DecidableEq P] [DecidableEq B] in
theorem Coherent.expected (coherent : Coherent start disk s) (number : Nat) :
    s.expected start number = (lastLogged s.group.history number).getD (s.disk number) := by
  unfold System.expected
  split
  · rename_i home
    rw [coherent.remembered.cache]
    cases logged : lastLogged s.group.history number with
    | some contents => rfl
    | none =>
      -- A block that was never logged is not listed, so the disk was never written there.
      have unlisted : number ∉ s.pinned := fun pinned =>
        coherent.remembered.listed number (List.mem_of_mem_drop pinned) logged
      rw [coherent.contents.disk number home unlisted, coherent.remembered.cache, logged]
      rfl
  · rename_i away
    rw [coherent.remembered.home number away]
    rfl

omit [DecidableEq P] [DecidableEq B] in
theorem Access.unpinned (access : Access start s) {b : B} {number : Nat}
    (block : (s.buf b).block = some number) (free : (s.buf b).refcnt = 0) : number ∉ s.pinned := by
  intro pinned
  have none := List.count_eq_zero.mp ((access.counted b).unused free).2.2
  rw [block] at none
  exact none (List.mem_map_of_mem pinned)

omit [DecidableEq P] in
theorem block_set {b c : B} {x : Buf P} (block : x.block = (s.buf b).block) :
    ((s.set b x).buf c).block = (s.buf c).block := by
  by_cases same : c = b
  · rw [same, buf_set, block]
  · rw [buf_other same]

theorem step_keeps_block {c : B} (used : (s.buf c).refcnt ≠ 0) (step : Step start s t) :
    (t.buf c).block = (s.buf c).block := by
  cases step with
  | bget p number work b t here asks found =>
    rcases (bget_some found).2 with ⟨-, rfl⟩ | ⟨-, free, rfl⟩
    · exact block_set rfl
    · rw [buf_move, buf_other]
      rintro rfl
      exact used free
  | fill p b number work here =>
    refine block_set ?_
    unfold Buf.fill
    split <;> rfl
  | logWrite p op b log buf here operating holds home wrote =>
    obtain ⟨-, -, -, rfl⟩ := logWrite_ok wrote
    exact block_set rfl
  | lock | modify | brelse | unref | copyLog | fillHead | copyHome | bwrite | unpin =>
    exact block_set rfl
  | _ => rfl

end Steps

variable [DecidableEq P] [DecidableEq B]

/-- The cache and the log are one coherent store. In every state that any interleaving
reaches from rest, a `bread` returns what was last logged for its block, a valid buffer
that is not in use holds what the disk holds, and no step evicts a block that is logged
and not installed. -/
theorem one_coherent_store {boot s : System P B} (rest : AtRest disk boot)
    (run : Reaches (Step start) boot s) :
    (∀ p b number work, s.place p = .filling b number work →
      ((s.fill b).buf b).block = some number ∧ ((s.fill b).buf b).valid = true ∧
        ((s.fill b).buf b).data = (lastLogged s.group.history number).getD (s.disk number)) ∧
    (∀ b number, (s.buf b).block = some number → (s.buf b).valid = true → (s.buf b).refcnt = 0 →
      (s.buf b).data = s.disk number) ∧
    ∀ number ∈ s.pinned, ∃ b, (s.buf b).block = some number ∧ (s.buf b).valid = true ∧
      0 < (s.buf b).refcnt ∧ ∀ t, Step start s t → (t.buf b).block = some number := by
  have coherent := reached rest run
  have expected := coherent.expected
  obtain ⟨-, access, contents, -⟩ := coherent
  refine ⟨fun p b number work here => ?_, fun b number block valid free => ?_, fun number pinned => ?_⟩
  · have data := contents.filled access here
    have ok := access.place p
    rw [here] at ok
    rw [expected] at data
    rw [System.fill, buf_set]
    refine ⟨?_, ?_, data⟩
    · unfold Buf.fill
      split <;> exact ok.2
    · unfold Buf.fill
      split
      · assumption
      · rfl
  · obtain ⟨-, unlocked, -⟩ := (access.counted b).unused free
    rw [contents.contents b number block valid (contents.clean b unlocked), System.expected]
    split
    · rename_i home
      exact (contents.disk number home (access.unpinned block free)).symm
    · rfl
  · obtain ⟨b, block, valid⟩ := access.pinned number pinned
    have used : (s.buf b).refcnt ≠ 0 := fun free => access.unpinned block free pinned
    refine ⟨b, block, valid, Nat.pos_of_ne_zero used, fun t step => ?_⟩
    rw [step_keeps_block used step, block]

def twoBuffers : System Unit (Fin 2) where
  group := GroupCommit.initial fun _ _ => 0
  buf := fun _ => ⟨none, false, 0, none, fun _ => 0, false⟩
  order := [0, 1]
  disk := fun _ _ => 0
  place := fun _ => .doing .user
  written := 0
  installed := 0

/-- A process logs a change of a block and reads the block again before the commit. -/
theorem reads_logged_block : ∃ s : System Unit (Fin 2), Reaches (Step 2) twoBuffers s ∧
    s.place () = .filling 1 50 .user ∧ s.disk 50 = (fun _ => 0) ∧
      ((s.fill 1).buf 1).data = fun _ => 7 := by
  have rest : AtRest (fun _ _ => 0) twoBuffers :=
    ⟨rfl, rfl, by decide, nofun, fun _ => ⟨rfl, rfl, rfl⟩, nofun, fun _ => rfl, rfl, rfl⟩
  have run : Reaches (Step 2) twoBuffers _ :=
    (((((((((Relation.ReflTransGen.refl.tail
      (.beginOp () _ rfl (Or.inl rfl) rfl)).tail
      (.bget () 50 .user 1 _ rfl (Or.inl rfl) rfl)).tail
      (.lock () 1 50 .user rfl rfl)).tail
      (.fill () 1 50 .user rfl)).tail
      (.modify () 1 (fun _ => 7) rfl rfl (by decide))).tail
      (.logWrite () 0 1 _ _ rfl rfl rfl (by decide) rfl)).tail
      (.brelse () 1 .user .user rfl rfl (Or.inl ⟨rfl, rfl, rfl⟩))).tail
      (.unref () 1 .user rfl)).tail
      (.bget () 50 .user 1 _ rfl (Or.inl rfl) rfl)).tail
      (.lock () 1 50 .user rfl rfl)
  exact ⟨_, run, rfl, rfl, ((one_coherent_store rest run).1 () 1 50 .user rfl).2.2.trans rfl⟩

end Xv6.BufferCache
