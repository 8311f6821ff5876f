import Xv6.Fs.Disk

/-!
# Allocating and freeing blocks

The laws of the elementary commands and of `balloc` and `bfree`.
-/

namespace Xv6.Fs

open Command Bytes Function

variable {sb : Superblock} {stop : Panic → Prop} {fs : State}

def State.setDisk (fs : State) (disk : Disk) (blocks : Finset Nat) : State :=
  { fs with
    disk := disk
    logged := fs.logged ∪ blocks
    unlogged := fun b => if b ∈ blocks then none else fs.unlogged b }

def State.setBuffer (fs : State) (number : Nat) (contents : Block) : State :=
  { fs with
    disk := update fs.disk number contents
    unlogged := update fs.unlogged number
      (some ((fs.unlogged number).getD (fs.disk number))) }

def State.setSlot (fs : State) (ip : Nat) (entry : Inode) : State :=
  { fs with itable := update fs.itable ip entry }

@[simp] theorem setDisk_disk (disk : Disk) (blocks : Finset Nat) :
    (fs.setDisk disk blocks).disk = disk :=
  rfl

@[simp] theorem setDisk_itable (disk : Disk) (blocks : Finset Nat) :
    (fs.setDisk disk blocks).itable = fs.itable :=
  rfl

def Room (stop : Panic → Prop) (blocks : Finset Nat) : Prop :=
  LOGBLOCKS ≤ blocks.card → stop .tooBigTransaction

theorem Room.mono {blocks bound : Finset Nat} (room : Room stop bound) (inside : blocks ⊆ bound) :
    Room stop blocks :=
  fun full => room (full.trans (Finset.card_le_card inside))

theorem Room.of_stop (big : stop .tooBigTransaction) (blocks : Finset Nat) : Room stop blocks :=
  fun _ => big

theorem Room.of_card {blocks : Finset Nat} (few : blocks.card < LOGBLOCKS) : Room stop blocks :=
  fun full => absurd few (Nat.not_lt_of_le full)

theorem setDisk_setDisk (disk disk' : Disk) (blocks blocks' : Finset Nat) :
    (fs.setDisk disk blocks).setDisk disk' blocks' = fs.setDisk disk' (blocks ∪ blocks') := by
  simp only [State.setDisk, Finset.union_assoc, State.mk.injEq, true_and]
  funext b
  by_cases first : b ∈ blocks <;> by_cases second : b ∈ blocks' <;> simp [first, second]

theorem setDisk_settled (disk : Disk) (blocks : Finset Nat) (b : Nat)
    (settled : fs.unlogged b = none) : (fs.setDisk disk blocks).unlogged b = none := by
  simp only [State.setDisk, settled, ite_self]

@[simp] theorem setSlot_disk (ip : Nat) (entry : Inode) : (fs.setSlot ip entry).disk = fs.disk :=
  rfl

@[simp] theorem setSlot_self (ip : Nat) (entry : Inode) :
    (fs.setSlot ip entry).itable ip = entry :=
  update_self ..

theorem setSlot_of_ne {ip other : Nat} (entry : Inode) (different : other ≠ ip) :
    (fs.setSlot ip entry).itable other = fs.itable other :=
  update_of_ne different ..

@[simp] theorem wp_inode (ip : Nat) (post : Inode → State → Prop) :
    wp (inode ip) post stop fs ↔ post (fs.itable ip) fs := by
  simp only [inode, wp_bind, wp_get, wp_pure]

@[simp] theorem wp_setInode (ip : Nat) (change : Inode → Inode) (post : PUnit → State → Prop) :
    wp (setInode ip change) post stop fs ↔ post ⟨⟩ (fs.setSlot ip (change (fs.itable ip))) := by
  simp only [setInode, wp_modify, State.setSlot]

@[simp] theorem wp_setDinode (ip : Nat) (change : Dinode → Dinode) (post : PUnit → State → Prop) :
    wp (setDinode ip change) post stop fs ↔
      post ⟨⟩ (fs.setSlot ip { fs.itable ip with d := change (fs.itable ip).d }) := by
  simp only [setDinode, wp_setInode]

@[simp] theorem wp_bread (number : Nat) (post : Block → State → Prop) :
    wp (bread number) post stop fs ↔ post (fs.disk number) fs := by
  simp only [bread, wp_bind, wp_get, wp_pure]

def State.ended (fs : State) : State :=
  { fs with
    logged := ∅
    unlogged := fun b => if b ∈ fs.logged then none else fs.unlogged b }

@[simp] theorem wp_endOp (post : PUnit → State → Prop) :
    wp endOp post stop fs ↔ post ⟨⟩ fs.ended := by
  simp only [endOp, wp_modify, State.ended]

theorem wp_logWrite_iff (number : Nat) (contents : Block) (post : PUnit → State → Prop) :
    wp (logWrite number contents) post stop fs ↔
      if LOGBLOCKS ≤ fs.logged.card then stop .tooBigTransaction
      else post ⟨⟩ (fs.setDisk (update fs.disk number contents) {number}) := by
  have record : (fun b => if b ∈ ({number} : Finset Nat) then none else fs.unlogged b) =
      update fs.unlogged number none := by
    funext b
    simp only [Finset.mem_singleton, update_apply]
  simp only [logWrite, wp_bind, wp_get]
  split
  · rw [wp_throw]
  · simp only [wp_modify, State.setDisk, record]

theorem wp_logWrite {number : Nat} {contents : Block} {post : PUnit → State → Prop}
    (room : Room stop fs.logged)
    (logged : post ⟨⟩ (fs.setDisk (update fs.disk number contents) {number})) :
    wp (logWrite number contents) post stop fs := by
  rw [wp_logWrite_iff]
  split
  · rename_i full
    exact room full
  · exact logged

@[simp] theorem wp_bufWrite (number : Nat) (contents : Block) (post : PUnit → State → Prop) :
    wp (bufWrite number contents) post stop fs ↔ post ⟨⟩ (fs.setBuffer number contents) := by
  simp only [bufWrite, wp_modify, State.setBuffer]

structure Allocated (sb : Superblock) (fs : State) (b : Nat) (after : State) : Prop where
  block : b < sb.size
  free : used sb fs.disk b = false
  first : ∀ c, c < b → used sb fs.disk c = true
  result : after = fs.setDisk (allocate sb fs.disk b) {BBLOCK sb b, b}

/-- One round of the inner loop looks at one block. -/
theorem balloc_round (group bi : Nat) (inside : bi < min BPB (sb.size - group * BPB))
    (before : ∀ c, c < group * BPB + bi → c < sb.size → used sb fs.disk c = true)
    (room : ∀ b after, Allocated sb fs b after → Room stop after.logged) :
    wp (if bitSet (fs.disk (BBLOCK sb (group * BPB))) bi then pure none
        else do
          logWrite (BBLOCK sb (group * BPB)) (setBit (fs.disk (BBLOCK sb (group * BPB))) bi)
          bzero (group * BPB + bi)
          pure (some (group * BPB + bi)))
      (fun outcome after =>
        (∀ b, outcome = some b → Allocated sb fs b after) ∧
        (outcome = none → after = fs ∧
          ∀ c, c < group * BPB + (bi + 1) → c < sb.size → used sb fs.disk c = true)) stop fs := by
  have block : BBLOCK sb (group * BPB + bi) = BBLOCK sb (group * BPB) := by
    simp only [BBLOCK, BPB, BSIZE] at *
    omega
  have position : (group * BPB + bi) % BPB = bi := by
    simp only [BPB, BSIZE] at *
    omega
  have bit : used sb fs.disk (group * BPB + bi) = bitSet (fs.disk (BBLOCK sb (group * BPB))) bi := by
    simp only [used, block, position]
  split
  · rename_i isSet
    rw [wp_pure]
    refine ⟨by simp, fun _ => ⟨rfl, ?_⟩⟩
    intro c below within
    by_cases last : c = group * BPB + bi
    · rw [last, bit, isSet]
    · exact before c (by omega) within
  · rename_i isClear
    have allocated : Allocated sb fs (group * BPB + bi)
        (fs.setDisk (allocate sb fs.disk (group * BPB + bi))
          {BBLOCK sb (group * BPB + bi), group * BPB + bi}) :=
      ⟨by omega, by simpa [bit] using isClear, fun c below => before c below (by omega), rfl⟩
    have final := room _ _ allocated
    rw [wp_bind]
    refine wp_logWrite (final.mono Finset.subset_union_left) ?_
    simp only [bzero, wp_bind, wp_bread, setDisk_disk]
    refine wp_logWrite (final.mono ?_) ?_
    · rw [block]
      exact Finset.union_subset_union_right (by simp)
    · rw [wp_pure]
      refine ⟨?_, by simp⟩
      rintro b ⟨⟩
      convert allocated using 1
      simp only [setDisk_setDisk, allocate, markUsed, block, position]
      rfl

theorem wp_balloc {post : UInt32 → State → Prop}
    (room : ∀ b after, Allocated sb fs b after → Room stop after.logged)
    (full : (∀ b, b < sb.size → used sb fs.disk b = true) → post 0 fs)
    (found : ∀ b after, Allocated sb fs b after → post (UInt32.ofNat b) after) :
    wp (balloc sb) post stop fs := by
  simp only [balloc, wp_bind]
  refine wp_post (wp_searchRange
    (fun group current => current = fs ∧
      ∀ c, c < group * BPB → c < sb.size → used sb fs.disk c = true)
    (Allocated sb fs) stop _ 0 _ fs ?_ ⟨rfl, by simp⟩) ?_
  · rintro group current - upper ⟨rfl, before⟩
    simp only [wp_bind, wp_bread]
    refine wp_post (wp_searchRange
      (fun bi current' => current' = current ∧
        ∀ c, c < group * BPB + bi → c < sb.size → used sb current.disk c = true)
      (Allocated sb current) stop _ 0 _ current ?_ ⟨rfl, by simpa using before⟩) ?_
    · rintro bi current' - inside ⟨rfl, earlier⟩
      exact balloc_round group bi (by simpa using inside) earlier room
    · rintro outcome after ⟨hit, miss⟩
      refine ⟨hit, fun nothing => ⟨(miss nothing).1, ?_⟩⟩
      intro c below within
      refine (miss nothing).2 c ?_ within
      simp only [BPB, BSIZE] at *
      omega
  · rintro outcome after ⟨hit, miss⟩
    rw [wp_pure]
    cases outcome with
    | some b => exact found b after (hit b rfl)
    | none =>
      obtain ⟨rfl, all⟩ := miss rfl
      refine full fun b inside => all b ?_ inside
      simp only [BPB, BSIZE] at *
      omega

theorem wp_bfree {post : PUnit → State → Prop} (b : UInt32) (room : Room stop fs.logged)
    (marked : used sb fs.disk b.toNat = true)
    (freed : post ⟨⟩ (fs.setDisk (markFree sb fs.disk b.toNat) {BBLOCK sb b.toNat})) :
    wp (bfree sb b) post stop fs := by
  have isSet : bitSet (fs.disk (BBLOCK sb b.toNat)) (b.toNat % BPB) = true := marked
  simp only [bfree, wp_bind, wp_bread, isSet, ↓reduceIte]
  exact wp_logWrite room freed

end Xv6.Fs
