import Xv6.Fs.CallLaws

/-!
# Images from a description

An image is described by its inodes, the contents of its data blocks and the number of blocks in
use, which are handed out from the first data block on without a gap.
-/

namespace Xv6.Fs

open Command Bytes Ownership

structure Image where
  dinode : Nat → Dinode
  data : Nat → Block
  limit : Nat

namespace Image

variable {sb : Superblock} {image : Image} {opened : List Nat} {more i b : Nat}

def blocks (sb : Superblock) (image : Image) : Disk := fun b =>
  if sb.inodestart ≤ b ∧ b < sb.bmapstart then
    fun k => dinodeBytes (image.dinode ((b - sb.inodestart) * IPB + k / 64)) (k % 64)
  else if sb.dataStart ≤ b then image.data b
  else fun _ => 0

def disk (sb : Superblock) (image : Image) : Disk :=
  markAll sb (image.blocks sb) (List.range image.limit)

/-- The state in which the given inodes are loaded in the first slots of the table, each
with `more` references besides one. -/
def state (sb : Superblock) (image : Image) (opened : List Nat) (more : Nat) : State where
  disk := image.disk sb
  itable s := match opened[s]? with
    | some i => ⟨i, more + 1, true, image.dinode i⟩
    | none => ⟨0, 0, false, Dinode.zero⟩
  logged := ∅
  freedInodes := []

def places (sb : Superblock) (image : Image) : List (Nat × Nat) :=
  ((List.range sb.ninodes).product (List.range NDIRECT)).filter fun place =>
    (image.dinode place.1).type ≠ 0 ∧ (image.dinode place.1).addr place.2 ≠ 0

def target (image : Image) (place : Nat × Nat) : Nat :=
  ((image.dinode place.1).addr place.2).toNat

def Plain (sb : Superblock) (image : Image) : Prop :=
  ∀ i, i < sb.ninodes → (image.dinode i).type ≠ 0 → (image.dinode i).addr NDIRECT = 0 ∧
    (image.dinode i).size.toNat ≤ NDIRECT * BSIZE ∧
    ∀ bn, bn < NDIRECT → bn * BSIZE < (image.dinode i).size.toNat →
      (image.dinode i).addr bn ≠ 0

def directory (sb : Superblock) (image : Image) (d : Nat) : Node :=
  (image.dinode d).node (fileByte sb (image.disk sb) d)

def Fits (sb : Superblock) (image : Image) (d k : Nat) : Prop :=
  (image.directory sb d).inum k < sb.ninodes ∧ ((image.directory sb d).inum k = d →
    (image.directory sb d).label k = label [dot] ∨
      (image.directory sb d).label k = label [dot, dot])

def Entered (sb : Superblock) (image : Image) : Prop :=
  ∀ d, d < sb.ninodes → (image.dinode d).type = T_DIR →
    ∀ k, k < direntCount (image.dinode d).size → image.Fits sb d k

instance (d k : Nat) : Decidable (Fits sb image d k) := inferInstanceAs (Decidable (_ ∧ _))

instance : Decidable (Plain sb image) := inferInstanceAs (Decidable (∀ _, _ → _))

instance : Decidable (Entered sb image) := inferInstanceAs (Decidable (∀ _, _ → _))

structure InOrder (sb : Superblock) (image : Image) (opened : List Nat) : Prop where
  root : ROOTINO < sb.ninodes
  limit : sb.dataStart ≤ image.limit ∧ image.limit ≤ sb.size
  handed : (image.places sb).map image.target =
    List.range' sb.dataStart (image.limit - sb.dataStart)
  plain : image.Plain sb
  entered : image.Entered sb
  distinct : opened.Nodup
  fits : opened.length ≤ NINODE
  loaded : ∀ i ∈ opened, i < sb.ninodes ∧ (image.dinode i).type ≠ 0
  orphans : ∀ i, i < sb.ninodes → (image.dinode i).type ≠ 0 → (image.dinode i).nlink = 0 →
    i ∈ opened

/-! ## What the disk stores -/

theorem dinodeOf_blocks (range : i < sb.ninodes) :
    dinodeOf sb (image.blocks sb) i = image.dinode i := by
  have inside := IBLOCK_mem range
  rw [dinodeOf, blocks, if_pos inside]
  refine (loadDinode_shift (j := 0) ?_).trans (loadDinode_dinodeBytes (image.dinode i))
  intro k below
  have number : (IBLOCK sb i - sb.inodestart) * IPB + (64 * (i % IPB) + k) / 64 = i := by
    rw [IBLOCK, Nat.add_sub_cancel, Nat.mul_add_div (by decide), Nat.div_eq_of_lt below,
      Nat.add_zero]
    exact Nat.div_add_mod' i IPB
  have offset : (64 * (i % IPB) + k) % 64 = 64 * 0 + k := by omega
  simp only [number, offset]

theorem used_blocks (inside : b < sb.size) : used sb (image.blocks sb) b = false := by
  have place := BBLOCK_mem inside
  have inodes : ¬ (sb.inodestart ≤ BBLOCK sb b ∧ BBLOCK sb b < sb.bmapstart) := by omega
  rw [used, blocks, if_neg inodes, if_neg (by omega)]
  simp [bitSet]

theorem mem_places {k : Nat} : (i, k) ∈ image.places sb ↔ (i < sb.ninodes ∧ k < NDIRECT) ∧
    (image.dinode i).type ≠ 0 ∧ (image.dinode i).addr k ≠ 0 := by
  simp [places]

theorem used_disk (inside : b < sb.size) : used sb (image.disk sb) b = true ↔ b < image.limit := by
  rw [disk, used_markAll, used_blocks inside]
  simp

theorem slot_of_ref {s : Nat} (inUse : 0 < ((image.state sb opened more).itable s).ref) :
    ∃ i, opened[s]? = some i ∧
      (image.state sb opened more).itable s = ⟨i, more + 1, true, image.dinode i⟩ := by
  simp only [state] at inUse ⊢
  split at inUse
  · rename_i i there
    exact ⟨i, there, rfl⟩
  · simp at inUse

section InOrder

variable (inOrder : image.InOrder sb opened)
include inOrder

theorem InOrder.inside (b : Nat) (listed : b ∈ List.range image.limit) : b < sb.size := by
  have below := List.mem_range.mp listed
  have limit := inOrder.limit.2
  omega

theorem InOrder.dinodeOf_disk (range : i < sb.ninodes) :
    dinodeOf sb (image.disk sb) i = image.dinode i := by
  rw [disk, dinodeOf_markAll _ inOrder.inside range, dinodeOf_blocks range]

theorem InOrder.live_iff : Live sb (dinodeOf sb (image.disk sb)) i ↔
    i < sb.ninodes ∧ (image.dinode i).type ≠ 0 := by
  refine and_congr_right fun range => ?_
  rw [inOrder.dinodeOf_disk range]

/-- Only direct addresses lead to blocks. -/
theorem InOrder.refs_iff {p : Pointer} : refs sb (image.disk sb) (i, p) = some b ↔
    ∃ k, p = .direct k ∧ (i, k) ∈ image.places sb ∧ image.target (i, k) = b := by
  rw [refs, pointers_eq_some, inOrder.live_iff]
  constructor
  · rintro ⟨⟨range, type⟩, leads, nonzero⟩
    rw [inOrder.dinodeOf_disk range] at leads
    obtain ⟨table, -, -⟩ := inOrder.plain i range type
    cases p with
    | direct k =>
      rw [Dinode.pointer] at leads
      split at leads
      · rename_i below
        refine ⟨k, rfl, ?_, leads⟩
        have address : (image.dinode i).addr k ≠ 0 := by
          rintro zero
          rw [zero] at leads
          exact nonzero leads.symm
        exact mem_places.mpr ⟨⟨range, below⟩, type, address⟩
      · exact absurd leads.symm nonzero
    | table =>
      rw [Dinode.pointer, table] at leads
      exact absurd leads.symm nonzero
    | entry j =>
      rw [Dinode.pointer, if_neg (fun entry => entry.1 table)] at leads
      exact absurd leads.symm nonzero
  · rintro ⟨k, rfl, member, rfl⟩
    obtain ⟨⟨range, below⟩, type, address⟩ := mem_places.mp member
    rw [inOrder.dinodeOf_disk range, Dinode.pointer, if_pos below]
    refine ⟨⟨range, type⟩, rfl, ?_⟩
    rw [target]
    exact fun zero => address (UInt32.toNat_inj.mp zero)

theorem InOrder.mem_target : (∃ place ∈ image.places sb, image.target place = b) ↔
    sb.dataStart ≤ b ∧ b < image.limit := by
  have limit := inOrder.limit
  rw [← List.mem_map, inOrder.handed, List.mem_range'_1]
  omega

theorem InOrder.sound : Sound sb (image.disk sb) (dinodeOf sb (image.disk sb)) := by
  have limit := inOrder.limit
  refine ⟨?_, ?_, ?_, ?_⟩
  · intro b below
    exact (used_disk (by omega)).mpr (by omega)
  · rintro ⟨i, p⟩ b refers
    obtain ⟨k, -, member, leads⟩ := inOrder.refs_iff.mp refers
    have data := inOrder.mem_target.mp ⟨_, member, leads⟩
    exact ⟨⟨data.1, by omega⟩, (used_disk (by omega)).mpr data.2⟩
  · rintro ⟨i, p⟩ ⟨j, q⟩ b left right
    obtain ⟨k, rfl, member, leads⟩ := inOrder.refs_iff.mp left
    obtain ⟨m, rfl, member', leads'⟩ := inOrder.refs_iff.mp right
    have distinct : ((image.places sb).map image.target).Nodup := by
      rw [inOrder.handed]
      exact List.nodup_range'
    obtain ⟨rfl, rfl⟩ := Prod.mk.inj (List.inj_on_of_nodup_map distinct member member'
      (leads.trans leads'.symm))
    rfl
  · rintro b ⟨lower, inside⟩ marked
    obtain ⟨⟨i, k⟩, member, leads⟩ := inOrder.mem_target.mpr
      ⟨lower, (used_disk inside).mp marked⟩
    exact ⟨(i, .direct k), inOrder.refs_iff.mpr ⟨k, rfl, member, leads⟩⟩

theorem InOrder.dense : NoHoles sb (image.disk sb) := by
  intro i live
  obtain ⟨range, type⟩ := inOrder.live_iff.mp live
  rw [inOrder.dinodeOf_disk range]
  obtain ⟨-, size, mapped⟩ := inOrder.plain i range type
  have largest : NDIRECT * BSIZE ≤ MAXFILE * BSIZE := by decide
  refine ⟨size.trans largest, fun bn below => ?_⟩
  have small : bn < NDIRECT := by
    by_contra large
    have order : NDIRECT * BSIZE ≤ bn * BSIZE := Nat.mul_le_mul_right _ (Nat.le_of_not_lt large)
    omega
  rw [blockPointer, if_pos small]
  exact ⟨_, inOrder.refs_iff.mpr
    ⟨bn, rfl, mem_places.mpr ⟨⟨range, small⟩, type, mapped bn small below⟩, rfl⟩⟩

/-- An image in order, with the opened inodes loaded, is consistent. -/
theorem InOrder.consistent : Consistent sb (image.state sb opened more) where
  sound := inOrder.sound
  dense := inOrder.dense
  single s t _ _ inUse inUse' same := by
    obtain ⟨i, there, slot⟩ := slot_of_ref inUse
    obtain ⟨j, there', slot'⟩ := slot_of_ref inUse'
    rw [slot, slot'] at same
    obtain ⟨inside, -⟩ := List.getElem?_eq_some_iff.mp there
    refine (List.getElem?_inj inside inOrder.distinct).mp ?_
    rw [there, there']
    exact congrArg some same
  cached s _ inUse _ := by
    obtain ⟨i, there, slot⟩ := slot_of_ref inUse
    obtain ⟨range, type⟩ := inOrder.loaded i (List.mem_of_getElem? there)
    rw [slot]
    exact ⟨inOrder.live_iff.mpr ⟨range, type⟩, (inOrder.dinodeOf_disk range).symm⟩
  counted s _ := by
    simp only [state]
    split
    · exact Int.natCast_nonneg (more + 1)
    · exact Int.le_refl 0

theorem InOrder.nodes_eq_some {node : Node} : nodes sb (image.disk sb) i = some node ↔
    (i < sb.ninodes ∧ (image.dinode i).type ≠ 0) ∧
      node = (image.dinode i).node (fileByte sb (image.disk sb) i) := by
  rw [Fs.nodes_eq_some, inOrder.live_iff]
  refine and_congr_right fun live => ?_
  rw [inOrder.dinodeOf_disk live.1, eq_comm]

theorem InOrder.fileByte_disk (i k : Nat) : fileByte sb (image.disk sb) i k =
      if (i, k / BSIZE) ∈ image.places sb then image.data (image.target (i, k / BSIZE)) (k % BSIZE)
      else 0 := by
  rw [fileByte, byteOf]
  split
  · rename_i b refers
    obtain ⟨m, pointer, member, leads⟩ := inOrder.refs_iff.mp refers
    have small : k / BSIZE = m := by
      rw [blockPointer] at pointer
      split at pointer
      · exact Pointer.direct.inj pointer
      · cases pointer
    have data := inOrder.mem_target.mp ⟨_, member, leads⟩
    have limit := inOrder.limit.2
    have after : ¬ (sb.inodestart ≤ b ∧ b < sb.bmapstart) := by
      have start : sb.bmapstart ≤ sb.dataStart :=
        (Nat.le_add_right _ _).trans (Nat.le_add_right _ _)
      omega
    rw [small, if_pos member, leads, disk, markAll_data _ inOrder.inside ⟨data.1, by omega⟩, blocks,
      if_neg after, if_pos data.1]
  · rename_i absent
    rw [if_neg]
    intro member
    have below := (mem_places.mp member).1.2
    have refers := inOrder.refs_iff.mpr ⟨k / BSIZE, rfl, member, rfl⟩
    rw [refs] at refers
    rw [blockPointer, if_pos below, refers] at absent
    cases absent

theorem InOrder.stable : Stable sb (image.state sb opened more) where
  consistent := inOrder.consistent
  root := inOrder.root
  live s _ inUse := by
    obtain ⟨i, there, slot⟩ := slot_of_ref inUse
    rw [slot, Ne, nodes_eq_none, not_not]
    exact inOrder.live_iff.mpr (inOrder.loaded i (List.mem_of_getElem? there))
  orphans i node there unlinked := by
    obtain ⟨⟨range, type⟩, rfl⟩ := inOrder.nodes_eq_some.mp there
    obtain ⟨s, inside, same⟩ := List.mem_iff_getElem.mp (inOrder.orphans i range type unlinked)
    have slot : (image.state sb opened more).itable s = ⟨i, more + 1, true, image.dinode i⟩ := by
      simp only [state, List.getElem?_eq_getElem inside, same]
    refine ⟨s, Nat.lt_of_lt_of_le inside inOrder.fits, ?_⟩
    rw [slot]
    exact ⟨Int.natCast_pos.mpr more.succ_pos, rfl, rfl⟩
  ranged d dir there isDir k inside := by
    obtain ⟨⟨range, type⟩, rfl⟩ := inOrder.nodes_eq_some.mp there
    exact (inOrder.entered d range isDir k inside).1
  proper d dir k there isDir inside itself _ := by
    obtain ⟨⟨range, type⟩, rfl⟩ := inOrder.nodes_eq_some.mp there
    exact (inOrder.entered d range isDir k inside).2 itself

end InOrder

end Image

end Xv6.Fs
