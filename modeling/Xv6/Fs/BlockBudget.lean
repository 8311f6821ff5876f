import Mathlib.Data.Finset.Card
import Mathlib.Order.Interval.Finset.Nat
import Xv6.Fs.Consistency

/-!
# How many free blocks a write takes

`writei` goes through the blocks of its stretch from the first one on, and through the indirect
block as soon as one of them hangs from it.
-/

namespace Xv6.Fs

open Command Bytes Ownership Function

def freeBlocks (sb : Superblock) (disk : Disk) : Finset Nat :=
  (Finset.range sb.size).filter fun b => used sb disk b = false

def visits (off len : Nat) : Finset Pointer :=
  (Finset.Icc (off / BSIZE) ((off + len) / BSIZE)).image blockPointer ∪
    if NDIRECT ≤ (off + len) / BSIZE then {.table} else ∅

def lacking (sb : Superblock) (disk : Disk) (inum off len : Nat) : Finset Pointer :=
  (visits off len).filter fun p => refs sb disk (inum, p) = none

def Extensible (sb : Superblock) (disk : Disk) (inum off : Nat) : Prop :=
  off + 16 ≤ MAXFILE * BSIZE ∧ (lacking sb disk inum off 0).card ≤ (freeBlocks sb disk).card

structure SameBlocks (sb : Superblock) (before after : Disk) : Prop where
  marks : ∀ b, b < sb.size → used sb after b = used sb before b
  refs : refs sb after = refs sb before

variable {sb : Superblock} {fs after : State} {ip : Nat}

theorem SameBlocks.trans {first second third : Disk} (left : SameBlocks sb first second)
    (right : SameBlocks sb second third) : SameBlocks sb first third :=
  ⟨fun b inside => (right.marks b inside).trans (left.marks b inside),
    right.refs.trans left.refs⟩

theorem SameBlocks.of_eq {before after : Disk} (same : after = before) :
    SameBlocks sb before after := by
  rw [same]
  exact ⟨fun _ _ => rfl, rfl⟩

theorem SameBlocks.extensible_iff {before after : Disk} (same : SameBlocks sb before after)
    (inum off : Nat) : Extensible sb after inum off ↔ Extensible sb before inum off := by
  have free : freeBlocks sb after = freeBlocks sb before := by
    refine Finset.filter_congr fun b inside => ?_
    rw [same.marks b (Finset.mem_range.mp inside)]
  rw [Extensible, Extensible, free, lacking, lacking, same.refs]

theorem Locked.save_blocks (consistent : Consistent sb fs) (locked : Locked fs ip) {d : Dinode}
    {edit : State} (change : edit = fs.setSlot ip { fs.itable ip with d := d })
    (type : d.type = (fs.itable ip).d.type) (addrs : d.addrs = (fs.itable ip).d.addrs) :
    SameBlocks sb fs.disk (saved sb edit ip) := by
  subst change
  have opened : Opened sb (fs.setSlot ip { fs.itable ip with d := d }) ip :=
    (locked.opened consistent).setSlot rfl type addrs
  have same : held sb (fs.setSlot ip { fs.itable ip with d := d }) ip = held sb fs ip :=
    held_setSlot rfl type addrs
  refine ⟨fun b inside => used_putDinode _ opened.inum inside, ?_⟩
  rw [refs_saved opened.inum opened.sound, same, locked.held_eq consistent]

theorem block_le_iff (off len bn : Nat) : bn ≤ (off + len) / BSIZE ↔ bn * BSIZE < off + (len + 1) := by
  simp only [BSIZE]
  omega

theorem mem_visits {off len : Nat} {p : Pointer} : p ∈ visits off len ↔ Stretch off (len + 1) p := by
  have ordered : off / BSIZE ≤ (off + len) / BSIZE := Nat.div_le_div_right (Nat.le_add_right ..)
  rw [visits, Finset.mem_union, Finset.mem_image]
  constructor
  · rintro (⟨bn, member, rfl⟩ | table)
    · rw [Finset.mem_Icc] at member
      exact ⟨bn, member.1, (block_le_iff ..).mp member.2, Or.inr rfl⟩
    · split at table
      · rename_i large
        exact ⟨(off + len) / BSIZE, ordered, (block_le_iff ..).mp (Nat.le_refl _),
          Or.inl ⟨Finset.mem_singleton.mp table, large⟩⟩
      · exact absurd table (Finset.notMem_empty p)
  · rintro ⟨bn, lower, upper, ⟨rfl, large⟩ | rfl⟩
    · rw [if_pos (large.trans ((block_le_iff ..).mpr upper))]
      exact Or.inr (Finset.mem_singleton_self _)
    · exact Or.inl ⟨bn, Finset.mem_Icc.mpr ⟨lower, (block_le_iff ..).mpr upper⟩, rfl⟩

theorem mem_lacking {disk : Disk} {inum off len : Nat} {p : Pointer} :
    p ∈ lacking sb disk inum off len ↔
      Stretch off (len + 1) p ∧ refs sb disk (inum, p) = none := by
  rw [lacking, Finset.mem_filter, mem_visits]

theorem mem_freeBlocks {disk : Disk} {b : Nat} :
    b ∈ freeBlocks sb disk ↔ b < sb.size ∧ used sb disk b = false := by
  rw [freeBlocks, Finset.mem_filter, Finset.mem_range]

theorem refs_through {disk : Disk} {inum bn b : Nat} {p : Pointer}
    (kept : refs sb disk (inum, blockPointer bn) = some b) (through : Through bn p) :
    ∃ c, refs sb disk (inum, p) = some c := by
  obtain ⟨rfl, large⟩ | rfl := through
  · obtain ⟨live, target, nonzero⟩ := pointers_eq_some.mp kept
    have indirect : blockPointer bn = .entry (bn - NDIRECT) := by
      simp [blockPointer, Nat.not_lt_of_le large]
    have table : (dinodeOf sb disk inum).addr NDIRECT ≠ 0 := by
      intro none
      rw [indirect, Dinode.pointer, if_neg fun both => both.1 none] at target
      exact nonzero target.symm
    refine ⟨_, pointers_eq_some.mpr ⟨live, rfl, ?_⟩⟩
    simpa [Dinode.pointer, ← UInt32.toNat_inj] using table
  · exact ⟨b, kept⟩

section Accepted

variable {src : Source} {off n : UInt32} {t : Nat} (consistent : Consistent sb fs)
  (accepted : Accepted sb fs ip src off n t after)
include consistent accepted

theorem Accepted.card_free_lt (full : Full sb after)
    (absent : refs sb after.disk ((fs.itable ip).inum, blockPointer ((off.toNat + t) / BSIZE)) =
      none) :
    (freeBlocks sb fs.disk).card <
      (lacking sb fs.disk (fs.itable ip).inum off.toNat t).card := by
  obtain ⟨extent, addrs, -, rewritten⟩ := accepted.written
  set inum := (fs.itable ip).inum
  set last := blockPointer ((off.toNat + t) / BSIZE)
  have missing : last ∈ lacking sb fs.disk inum off.toNat t := by
    refine mem_lacking.mpr ⟨⟨_, Nat.div_le_div_right (Nat.le_add_right ..),
      (block_le_iff ..).mp (Nat.le_refl _), Or.inr rfl⟩, ?_⟩
    cases before : refs sb fs.disk (inum, last) with
    | none => rfl
    | some b => exact absurd ((accepted.grows _ _ before).symm.trans absent) (by simp)
  have taken : (freeBlocks sb fs.disk).card ≤
      (((lacking sb fs.disk inum off.toNat t).erase last).image (Prod.mk inum)).card := by
    refine consistent.sound.books.card_taken_le rewritten.consistent.sound.books accepted.grows
      ?_ ?_ ?_
    · intro b free
      obtain ⟨inside, unmarked⟩ := mem_freeBlocks.mp free
      exact ⟨consistent.sound.free_data inside unmarked, by rw [unmarked]; decide⟩
    · exact fun b free => full b (mem_freeBlocks.mp free).1
    · rintro ⟨j, p⟩ b empty filled
      have own : j = inum := by
        by_contra other
        have same := accepted.others j p other
        exact absurd (empty.symm.trans (same.symm.trans filled)) (by simp)
      subst own
      refine Finset.mem_image.mpr ⟨p, Finset.mem_erase.mpr ⟨?_, mem_lacking.mpr ⟨?_, empty⟩⟩, rfl⟩
      · rintro rfl
        exact absurd (absent.symm.trans filled) (by simp)
      · refine (accepted.visited p).resolve_right fun same => ?_
        exact absurd (empty.symm.trans (same.symm.trans filled)) (by simp)
  calc (freeBlocks sb fs.disk).card
      ≤ (((lacking sb fs.disk inum off.toNat t).erase last).image (Prod.mk inum)).card := taken
    _ ≤ ((lacking sb fs.disk inum off.toNat t).erase last).card := Finset.card_image_le
    _ < (lacking sb fs.disk inum off.toNat t).card := Finset.card_erase_lt_of_mem missing

theorem Accepted.starved (locked : Locked fs ip) (none : t ≠ n.toNat)
    (readable : n.toNat ≤ src.readable) :
    Full sb after ∧ (freeBlocks sb fs.disk).card <
      (lacking sb fs.disk (fs.itable ip).inum off.toNat t).card := by
  have reported := accepted.reported
  obtain ⟨extent, addrs, ending, rewritten⟩ := accepted.written
  cases ending with
  | all whole _ _ => exact absurd whole none
  | full full absent _ _ =>
    refine ⟨full, accepted.card_free_lt consistent full ?_⟩
    rw [(rewritten.locked locked).1.held_eq rewritten.consistent] at absent
    exact absent
  | cut b short _ _ _ _ =>
    simp only at short
    omega

theorem Accepted.card_lacking_le {len : Nat}
    (mapped : ∀ bn, bn ≤ (off.toNat + len) / BSIZE →
      ∃ b, refs sb after.disk ((fs.itable ip).inum, blockPointer bn) = some b) :
    (lacking sb fs.disk (fs.itable ip).inum off.toNat len).card ≤ (freeBlocks sb fs.disk).card := by
  obtain ⟨extent, addrs, -, rewritten⟩ := accepted.written
  set inum := (fs.itable ip).inum
  have apart : Injective (Prod.mk inum : Pointer → Nat × Pointer) :=
    fun _ _ same => (Prod.mk.inj same).2
  rw [← Finset.card_image_of_injective _ apart]
  refine consistent.sound.books.card_filled_le rewritten.consistent.sound.books accepted.grows
    ?_ ?_ ?_
  · intro b data unmarked
    exact mem_freeBlocks.mpr ⟨data.2, by simpa using unmarked⟩
  · intro place member
    obtain ⟨p, listed, rfl⟩ := Finset.mem_image.mp member
    exact (mem_lacking.mp listed).2
  · intro place member
    obtain ⟨p, listed, rfl⟩ := Finset.mem_image.mp member
    obtain ⟨bn, -, upper, through⟩ := (mem_lacking.mp listed).1
    obtain ⟨b, kept⟩ := mapped bn ((block_le_iff ..).mpr upper)
    exact refs_through kept through

end Accepted

theorem Accepted.mapped {src : Source} {off n : UInt32} {t : Nat} (consistent : Consistent sb fs)
    (locked : Locked fs ip) (accepted : Accepted sb fs ip src off n t after)
    (fine : ¬ Rejected (fs.itable ip).d.size off n) {bn : Nat}
    (below : bn * BSIZE < off.toNat + t) :
    ∃ b, refs sb after.disk ((fs.itable ip).inum, blockPointer bn) = some b := by
  obtain ⟨extent, addrs, -, rewritten⟩ := accepted.written
  obtain ⟨inFile, range⟩ := not_rejected fine
  have small := locked.bounded consistent
  have reported := accepted.reported
  have live := locked.live consistent
  have size : (dinodeOf sb after.disk (fs.itable ip).inum).size.toNat =
      max (fs.itable ip).d.size.toNat (off.toNat + t) := by
    rw [rewritten.dinode, UInt32.toNat_ofNat']
    simp only [MAXFILE, NDIRECT, NINDIRECT, BSIZE] at *
    omega
  have still : Live sb (dinodeOf sb after.disk) (fs.itable ip).inum := by
    refine ⟨live.1, ?_⟩
    rw [rewritten.dinode]
    exact (locked.opened consistent).type
  exact (rewritten.consistent.dense _ still).2 bn (by omega)

end Xv6.Fs
