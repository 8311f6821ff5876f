import Xv6.Log.RedoLog

/-!
# A commit cut by power failures is all or nothing

A transaction names at most `LOGBLOCKS` distinct home blocks outside the log area and their new
contents.
-/

namespace Xv6.RedoLog

open Command Bytes Function

def InLog (start number : Nat) : Prop := start ≤ number ∧ number ≤ start + LOGBLOCKS

structure Transaction (start : Nat) where
  blocks : List Nat
  contents : Nat → Block
  distinct : blocks.Nodup
  fits : blocks.length ≤ LOGBLOCKS
  home : ∀ number ∈ blocks, ¬ InLog start number
  word : ∀ number ∈ blocks, number < 2 ^ 32

variable {start : Nat}

namespace Transaction

def header (t : Transaction start) : LogHeader := ⟨t.blocks.length, fun index => t.blocks.getD index 0⟩

def memory (t : Transaction start) : Memory :=
  ⟨t.header, fun number => if number ∈ t.blocks then some (t.contents number) else none⟩

def applied (t : Transaction start) (old : Disk) : Disk := fun number =>
  if number ∈ t.blocks then t.contents number else old number

end Transaction

theorem headCount_small {block : Block} {count : Nat} (stored : load block 0 4 = count)
    (small : count ≤ LOGBLOCKS) : headCount block = count := by
  have bounded : count ≤ 30 := small
  unfold headCount
  rw [stored, Int.bmod_def]
  push_cast
  split <;> omega

theorem storeHead_read (lh : LogHeader) (block : Block)
    (lower : 0 ≤ lh.n) (upper : lh.n ≤ LOGBLOCKS) :
    headCount (storeHead lh block) = lh.n ∧
      ∀ index < lh.n.toNat, headBlock (storeHead lh block) index = lh.block index % 2 ^ 32 := by
  have bounded : lh.n ≤ 30 := upper
  have count : load (storeHead lh block) 0 4 = lh.n.toNat := by
    rw [storeHead, load_storeWords_outside _ _ (Or.inl (by omega)), load_store_same]
    omega
  have decoded := headCount_small count (by omega : lh.n.toNat ≤ 30)
  refine ⟨decoded.trans (Int.toNat_of_nonneg lower), ?_⟩
  intro index inside
  exact load_storeWords_inside _ 4 4 _ inside

def Idle (start : Nat) (image disk : Disk) : Prop :=
  headCount (disk start) = 0 ∧ ∀ number, ¬ InLog start number → disk number = image number

structure Logged (t : Transaction start) (old disk : Disk) : Prop where
  count : headCount (disk start) = t.blocks.length
  numbers : ∀ index (inside : index < t.blocks.length),
    headBlock (disk start) index = t.blocks[index]
  copies : ∀ index (inside : index < t.blocks.length),
    disk (start + index + 1) = t.contents t.blocks[index]
  either : ∀ number, ¬ InLog start number →
    disk number = old number ∨ disk number = t.applied old number

def Recoverable (t : Transaction start) (old disk : Disk) : Prop :=
  Idle start old disk ∨ Logged t old disk ∨ Idle start (t.applied old) disk

@[simp] theorem wp_bread (number : Nat) (post : Block → Machine → Prop) (stop : Disk → Prop)
    (machine : Machine) :
    wp (bread number) post stop machine ↔
      post ((machine.memory.pinned number).getD (machine.durable number)) machine := by
  simp only [bread, wp_bind, wp_get, wp_pure]

@[simp] theorem wp_setHeader (lh : LogHeader) (post : PUnit → Machine → Prop)
    (stop : Disk → Prop) (machine : Machine) :
    wp (setHeader lh) post stop machine ↔
      post ⟨⟩ { machine with memory := { machine.memory with lh := lh } } := by
  simp [setHeader, Crash.remember]

@[simp] theorem wp_bunpin (number : Nat) (post : PUnit → Machine → Prop)
    (stop : Disk → Prop) (machine : Machine) :
    wp (bunpin number) post stop machine ↔
      post ⟨⟩ { machine with memory := { machine.memory with
        pinned := update machine.memory.pinned number none } } := by
  simp [bunpin, Crash.remember]

/-- A run with unlimited power keeps it. -/
def Powered (supply : Option Nat) (machine : Machine) : Prop :=
  supply = none → machine.power = none

theorem wp_bwrite {supply : Option Nat} {machine : Machine} (powered : Powered supply machine)
    (number : Nat) (contents : Block) (post : PUnit → Machine → Prop) (stop : Disk → Prop)
    (failed : supply ≠ none → stop machine.durable)
    (wrote : ∀ power, Powered supply { machine with power := power } →
      post ⟨⟩ ⟨update machine.durable number contents, machine.memory, power⟩) :
    wp (bwrite number contents) post stop machine := by
  apply Crash.wp_write
  · intro limited
    exact failed fun unlimited => limited (powered unlimited)
  · intro power kept
    exact wrote power fun unlimited => kept (powered unlimited)

theorem writeHead_idle (supply : Option Nat) {machine : Machine} {image : Disk}
    (powered : Powered supply machine) (stop : Disk → Prop)
    (cleared : machine.memory.lh.n = 0) (shown : ∀ number, ¬ InLog start number →
      machine.durable number = image number)
    (failed : supply ≠ none → stop machine.durable) :
    wp (writeHead start) (fun _ after => Idle start image after.durable) stop machine := by
  simp only [writeHead, wp_bind, wp_get, wp_bread]
  refine wp_bwrite powered _ _ _ _ failed ?_
  intro power _
  have emptied := (storeHead_read machine.memory.lh
    ((machine.memory.pinned start).getD (machine.durable start))
    (by omega) (by simp [cleared])).1
  refine ⟨by simpa [cleared] using emptied, ?_⟩
  intro number outside
  have different : number ≠ start := by
    rintro rfl
    exact outside ⟨Nat.le_refl _, Nat.le_add_right _ _⟩
  simpa [different] using shown number outside

@[simp] theorem wp_clearCount (post : PUnit → Machine → Prop) (stop : Disk → Prop)
    (machine : Machine) :
    wp clearCount post stop machine ↔
      post ⟨⟩ { machine with memory := { machine.memory with
        lh := { machine.memory.lh with n := 0 } } } := by
  simp only [clearCount, wp_bind, wp_get, wp_setHeader]

@[simp] theorem wp_readHead (post : PUnit → Machine → Prop) (stop : Disk → Prop)
    (machine : Machine) :
    wp (readHead start) post stop machine ↔
      post ⟨⟩ { machine with memory := { machine.memory with
        lh := loadHead machine.memory.lh
          ((machine.memory.pinned start).getD (machine.durable start)) } } := by
  simp only [readHead, wp_bind, wp_bread, wp_get, wp_setHeader]

def boot : Memory := ⟨⟨0, fun _ => 0⟩, fun _ => none⟩

theorem boot_pinned (number : Nat) : boot.pinned number = none := rfl

theorem recover_idle (supply : Option Nat) {image disk : Disk} (idle : Idle start image disk) :
    wp (recoverFromLog start) (fun _ after => Idle start image after.durable)
      (fun left => supply ≠ none ∧ Idle start image left) ⟨disk, boot, supply⟩ := by
  have nothing : (loadHead boot.lh (disk start)).n.toNat = 0 := by
    simp [loadHead, idle.1]
  simp only [recoverFromLog, installTrans, wp_bind, wp_readHead, boot_pinned, Option.getD_none,
    wp_get, nothing, forRange, wp_pure, wp_clearCount]
  exact writeHead_idle supply (fun unlimited => unlimited) _ rfl idle.2 fun limited => ⟨limited, idle⟩

section Committed

variable {t : Transaction start} {old : Disk}

theorem home_ne_log (t : Transaction start) (slot : Nat) {index : Nat} (inside : index < t.blocks.length)
    (bounded : slot ≤ LOGBLOCKS) : start + slot ≠ t.blocks[index] := by
  intro same
  refine t.home _ (List.getElem_mem inside) ?_
  rw [← same]
  exact ⟨Nat.le_add_right _ _, by omega⟩

variable {supply : Option Nat} {machine : Machine} {disk : Disk}

theorem Logged.install (logged : Logged t old disk) {index : Nat}
    (inside : index < t.blocks.length) :
    Logged t old (update disk t.blocks[index] (t.contents t.blocks[index])) := by
  have room := t.fits
  have notHeader : start ≠ t.blocks[index] := home_ne_log t 0 inside (Nat.zero_le _)
  constructor
  · simpa [notHeader] using logged.count
  · simpa [notHeader] using logged.numbers
  · intro slot within
    have notCopy : start + slot + 1 ≠ t.blocks[index] :=
      home_ne_log t (slot + 1) inside (by omega)
    simpa [notCopy] using logged.copies slot within
  · intro number outside
    by_cases same : number = t.blocks[index]
    · subst same
      right
      simp [Transaction.applied]
    · simpa [same] using logged.either number outside

theorem Logged.installed (logged : Logged t old disk)
    (all : ∀ index (inside : index < t.blocks.length),
      disk t.blocks[index] = t.contents t.blocks[index])
    (number : Nat) (outside : ¬ InLog start number) : disk number = t.applied old number := by
  by_cases member : number ∈ t.blocks
  · obtain ⟨index, inside, rfl⟩ := List.getElem_of_mem member
    rw [all index inside]
    simp [Transaction.applied]
  · rcases logged.either number outside with same | same
    · simpa [Transaction.applied, member] using same
    · exact same

structure Installing (t : Transaction start) (old : Disk) (supply : Option Nat)
    (done : Nat) (machine : Machine) : Prop where
  powered : Powered supply machine
  count : machine.memory.lh.n = t.blocks.length
  numbers : ∀ index (inside : index < t.blocks.length),
    machine.memory.lh.block index = t.blocks[index]
  unpinned : ∀ number, InLog start number → machine.memory.pinned number = none
  logged : Logged t old machine.durable
  copied : ∀ index (inside : index < t.blocks.length), index < done →
    machine.durable t.blocks[index] = t.contents t.blocks[index]

/-- The installing loop makes every block new. -/
theorem installTrans_logged (t : Transaction start) (old : Disk) (recovering : Bool)
    (initially : Installing t old supply 0 machine) :
    wp (installTrans start recovering)
      (fun _ after => Installing t old supply t.blocks.length after)
      (fun left => supply ≠ none ∧ Logged t old left) machine := by
  have room := t.fits
  have rounds : machine.memory.lh.n.toNat = t.blocks.length := by simp [initially.count]
  simp only [installTrans, wp_bind, wp_get, rounds]
  refine wp_post (wp_forRange (fun done current =>
    Installing t old supply done current ∧ current.memory.lh = machine.memory.lh) _ _ _ _ _ ?_
    ⟨initially, rfl⟩) ?_
  · rintro tail current - upper ⟨kept, sameHeader⟩
    have inside : tail < t.blocks.length := by omega
    have noPin : current.memory.pinned (start + tail + 1) = none :=
      kept.unpinned _ ⟨by omega, by omega⟩
    have target : machine.memory.lh.block tail = t.blocks[tail] := initially.numbers tail inside
    simp only [wp_bind, wp_bread, noPin, Option.getD_none, target, kept.logged.copies tail inside]
    refine wp_bwrite kept.powered _ _ _ _ (fun limited => ⟨limited, kept.logged⟩) ?_
    intro power powered
    have advanced : ∀ index (within : index < t.blocks.length), index < tail + 1 →
        update current.durable t.blocks[tail] (t.contents t.blocks[tail])
          t.blocks[index] = t.contents t.blocks[index] := by
      intro index within before
      by_cases last : t.blocks[index] = t.blocks[tail]
      · simp [last]
      · have earlier : index < tail := by
          have differs : index ≠ tail := by
            rintro rfl
            exact last rfl
          omega
        simpa [last] using kept.copied index within earlier
    cases recovering with
    | true =>
      exact ⟨⟨powered, kept.count, kept.numbers, kept.unpinned, kept.logged.install inside,
        advanced⟩, sameHeader⟩
    | false =>
      simp only [if_true, wp_bunpin]
      refine ⟨⟨powered, kept.count, kept.numbers, ?_, kept.logged.install inside, advanced⟩,
        sameHeader⟩
      intro number within
      have other : number ≠ t.blocks[tail] := by
        rintro rfl
        exact t.home _ (List.getElem_mem inside) within
      simpa [other] using kept.unpinned number within
  · rintro _ after ⟨finished, -⟩
    simpa only [Nat.zero_add] using finished

theorem erase_idle (finished : Installing t old supply t.blocks.length machine) :
    wp (clearCount >>= fun _ => writeHead start)
      (fun _ after => Idle start (t.applied old) after.durable)
      (fun left => supply ≠ none ∧ Logged t old left) machine := by
  rw [wp_bind, wp_clearCount]
  refine writeHead_idle supply ?_ _ rfl ?_ fun limited => ⟨limited, finished.logged⟩
  · exact finished.powered
  exact finished.logged.installed fun index inside => finished.copied index inside inside

theorem recover_logged (supply : Option Nat) (logged : Logged t old disk) :
    wp (recoverFromLog start) (fun _ after => Idle start (t.applied old) after.durable)
      (fun left => supply ≠ none ∧ Logged t old left) ⟨disk, boot, supply⟩ := by
  simp only [recoverFromLog, wp_bind, wp_readHead, boot_pinned, Option.getD_none]
  have listed : ∀ index (inside : index < t.blocks.length),
      (loadHead boot.lh (disk start)).block index = t.blocks[index] := by
    intro index inside
    simp [loadHead, logged.count, inside, logged.numbers index inside]
  have counted : (loadHead boot.lh (disk start)).n = t.blocks.length := by
    simp only [loadHead, logged.count]
  refine wp_post (installTrans_logged t old true
    ⟨fun unlimited => unlimited, counted, listed, fun _ _ => rfl, logged, by simp⟩) ?_
  intro _ after finished
  simpa only [wp_bind] using erase_idle finished

structure Copying (t : Transaction start) (old : Disk) (supply : Option Nat)
    (done : Nat) (machine : Machine) : Prop where
  powered : Powered supply machine
  memory : machine.memory = t.memory
  idle : Idle start old machine.durable
  copied : ∀ index (inside : index < t.blocks.length), index < done →
    machine.durable (start + index + 1) = t.contents t.blocks[index]

theorem Idle.copy {image disk : Disk} (idle : Idle start image disk) {slot : Nat}
    (bounded : slot < LOGBLOCKS) (contents : Block) :
    Idle start image (update disk (start + slot + 1) contents) := by
  have notHeader : start ≠ start + slot + 1 := by omega
  refine ⟨by simpa [notHeader] using idle.1, ?_⟩
  intro number outside
  have notCopy : number ≠ start + slot + 1 := by
    rintro rfl
    exact outside ⟨by omega, by omega⟩
  simpa [notCopy] using idle.2 number outside

/-- The copying loop fills the log. -/
theorem writeLog_copies (t : Transaction start) (old : Disk)
    (initially : Copying t old supply 0 machine) :
    wp (writeLog start) (fun _ after => Copying t old supply t.blocks.length after)
      (fun left => supply ≠ none ∧ Idle start old left) machine := by
  have room := t.fits
  simp only [writeLog, wp_bind, wp_get, initially.memory, Transaction.memory, Transaction.header,
    Int.toNat_natCast]
  refine wp_post (wp_forRange (Copying t old supply) _ _ _ _ _ ?_ initially) ?_
  · intro tail current _ upper kept
    have inside : tail < t.blocks.length := by omega
    have listed : t.blocks.getD tail 0 = t.blocks[tail] := by simp [inside]
    have newest : t.memory.pinned t.blocks[tail] = some (t.contents t.blocks[tail]) := by
      simp [Transaction.memory]
    simp only [wp_bind, wp_bread, kept.memory, listed, newest, Option.getD_some]
    refine wp_bwrite kept.powered _ _ _ _ (fun limited => ⟨limited, kept.idle⟩) ?_
    intro power powered
    refine ⟨powered, kept.memory, kept.idle.copy (by omega) _, ?_⟩
    intro index within before
    by_cases last : index = tail
    · subst last
      simp
    · have other : start + index + 1 ≠ start + tail + 1 := by omega
      exact (update_of_ne other _ _).trans (kept.copied index within (by omega))
  · intro _ after finished
    simpa only [Nat.zero_add] using finished

theorem writeHead_commits (finished : Copying t old supply t.blocks.length machine) :
    wp (writeHead start) (fun _ after => Installing t old supply 0 after)
      (fun left => supply ≠ none ∧ Idle start old left) machine := by
  have room := t.fits
  simp only [writeHead, wp_bind, wp_get, wp_bread]
  refine wp_bwrite finished.powered _ _ _ _ (fun limited => ⟨limited, finished.idle⟩) ?_
  intro power powered
  have header : machine.memory.lh = t.header := by rw [finished.memory]; rfl
  have listed : ∀ index (inside : index < t.blocks.length),
      machine.memory.lh.block index = t.blocks[index] := by
    intro index inside
    simp [header, Transaction.header, inside]
  have counted : machine.memory.lh.n = t.blocks.length := by simp [header, Transaction.header]
  obtain ⟨count, numbers⟩ := storeHead_read machine.memory.lh
    ((machine.memory.pinned start).getD (machine.durable start)) (by omega) (by omega)
  refine ⟨powered, counted, listed, ?_, ⟨?_, ?_, ?_, ?_⟩, by simp⟩
  · intro number within
    have free : number ∉ t.blocks := fun member => t.home number member within
    simp [finished.memory, Transaction.memory, free]
  · simpa [counted] using count
  · intro index inside
    have stored := numbers index (by omega)
    have word := t.word _ (List.getElem_mem inside)
    rw [listed index inside, Nat.mod_eq_of_lt word] at stored
    simpa using stored
  · intro index inside
    have notHeader : start + index + 1 ≠ start := by omega
    simpa [notHeader] using finished.copied index inside inside
  · intro number outside
    have notHeader : number ≠ start := by
      rintro rfl
      exact outside ⟨Nat.le_refl _, Nat.le_add_right _ _⟩
    left
    simpa [notHeader] using finished.idle.2 number outside

theorem commit_recoverable (t : Transaction start) (old : Disk) (supply : Option Nat)
    (clean : headCount (old start) = 0) :
    wp (commit start) (fun _ after => Recoverable t old after.durable)
      (Recoverable t old) ⟨old, t.memory, supply⟩ := by
  have idle : Idle start old old := ⟨clean, fun _ _ => rfl⟩
  simp only [commit, wp_bind, wp_get]
  split
  · simp only [wp_bind]
    refine wp_mono (writeLog_copies t old
      ⟨fun unlimited => unlimited, rfl, idle, by simp⟩) ?_ fun _ left => Or.inl left.2
    intro _ copied finished
    refine wp_mono (writeHead_commits finished) ?_ fun _ left => Or.inl left.2
    intro _ committed installing
    refine wp_mono (installTrans_logged t old false installing) ?_ fun _ left => Or.inr (Or.inl left.2)
    intro _ installed done
    rw [← wp_bind]
    exact wp_mono (erase_idle done) (fun _ _ ended => Or.inr (Or.inr ended))
      fun _ left => Or.inr (Or.inl left.2)
  · exact Or.inl idle

theorem recover_recoverable (supply : Option Nat) (recoverable : Recoverable t old disk) :
    Recoverable t old (Crash.survivor (recoverFromLog start) ⟨disk, boot, supply⟩) := by
  apply Crash.survivor_of_wp
  rcases recoverable with idle | logged | ended
  · exact wp_mono (recover_idle supply idle) (fun _ _ kept => Or.inl kept)
      fun _ left => Or.inl left.2
  · exact wp_mono (recover_logged supply logged) (fun _ _ installed => Or.inr (Or.inr installed))
      fun _ left => Or.inr (Or.inl left.2)
  · exact wp_mono (recover_idle supply ended) (fun _ _ kept => Or.inr (Or.inr kept))
      fun _ left => Or.inr (Or.inr left.2)

theorem recover_completes (recoverable : Recoverable t old disk) :
    ∃ after, (recoverFromLog start).run ⟨disk, boot, none⟩ = .ok (⟨⟩, after) ∧
      (Idle start old after.durable ∨ Idle start (t.applied old) after.durable) := by
  have law : wp (recoverFromLog start)
      (fun _ after => Idle start old after.durable ∨ Idle start (t.applied old) after.durable)
      (fun _ => False) ⟨disk, boot, none⟩ := by
    rcases recoverable with idle | logged | ended
    · exact wp_mono (recover_idle none idle) (fun _ _ kept => Or.inl kept)
        fun _ left => left.1 rfl
    · exact wp_mono (recover_logged none logged) (fun _ _ installed => Or.inr installed)
        fun _ left => left.1 rfl
    · exact wp_mono (recover_idle none ended) (fun _ _ kept => Or.inr kept)
        fun _ left => left.1 rfl
  cases ran : (recoverFromLog start).run ⟨disk, boot, none⟩ with
  | ok result =>
    have ended := wp_returned law ran
    exact ⟨result.2, rfl, ended⟩
  | error reason => exact (wp_stopped law ran).elim

end Committed

/-- Cut a commit before any of its writes, let recovery be cut any number of times, and
then let it run: it completes with an empty header, with every block of the transaction
old or every one new, and with every other home block as it was. -/
theorem commit_crash_atomic (t : Transaction start) (old : Disk)
    (clean : headCount (old start) = 0) (failure : Nat) (further : List Nat) :
    ∃ after,
      (recoverFromLog start).run
        ⟨Crash.restarts (recoverFromLog start) boot further
          (Crash.survivor (commit start) ⟨old, t.memory, some failure⟩), boot, none⟩ =
        .ok (⟨⟩, after) ∧
      ((∀ number ∈ t.blocks, after.durable number = old number) ∨
        (∀ number ∈ t.blocks, after.durable number = t.contents number)) ∧
      (∀ number, ¬ InLog start number → number ∉ t.blocks →
        after.durable number = old number) ∧
      headCount (after.durable start) = 0 := by
  have cut : Recoverable t old (Crash.survivor (commit start) ⟨old, t.memory, some failure⟩) :=
    Crash.survivor_of_wp (commit_recoverable t old (some failure) clean)
  have restarted := Crash.restarts_keep (recoverFromLog start) boot
    (fun _ supply kept => recover_recoverable (some supply) kept) further _ cut
  obtain ⟨after, completed, ended⟩ := recover_completes restarted
  refine ⟨after, completed, ?_⟩
  rcases ended with idle | idle
  · exact ⟨Or.inl fun number member => idle.2 number (t.home number member),
      fun number outside _ => idle.2 number outside, idle.1⟩
  · refine ⟨Or.inr fun number member => ?_, fun number outside absent => ?_, idle.1⟩
    · simpa [Transaction.applied, member] using idle.2 number (t.home number member)
    · simpa [Transaction.applied, absent] using idle.2 number outside

def sampleTransaction : Transaction 2 where
  blocks := [45, 50]
  contents number := fun _ => UInt8.ofNat number
  distinct := by decide
  fits := by decide
  home := by simp [InLog, LOGBLOCKS, MAXOPBLOCKS]
  word := by simp

/-- The law applies to a commit cut after its header write and the first of its two installs, with
one more failure during recovery. -/
theorem sample_commit_crash_atomic :
    headCount ((fun _ _ => 0 : Disk) 2) = 0 ∧
    ∃ after,
      (recoverFromLog 2).run
        ⟨Crash.restarts (recoverFromLog 2) boot [1]
          (Crash.survivor (commit 2) ⟨fun _ _ => 0, sampleTransaction.memory, some 4⟩),
          boot, none⟩ = .ok (⟨⟩, after) ∧
      ((∀ number ∈ [45, 50], after.durable number = fun _ => 0) ∨
        (∀ number ∈ [45, 50], after.durable number = fun _ => UInt8.ofNat number)) ∧
      (∀ number, ¬ InLog 2 number → number ∉ [45, 50] → after.durable number = fun _ => 0) ∧
      headCount (after.durable 2) = 0 := by
  have clean : headCount ((fun _ _ => 0 : Disk) 2) = 0 :=
    headCount_small (load_zero fun _ _ _ => rfl) (Nat.zero_le _)
  exact ⟨clean, commit_crash_atomic sampleTransaction (fun _ _ => 0) clean 4 [1]⟩

end Xv6.RedoLog
