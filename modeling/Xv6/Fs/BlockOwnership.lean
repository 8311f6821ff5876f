import Xv6.Library.Transition
import Xv6.Fs.Entries

/-!
# Every marked block has one owner

The file system is used through requests, each by a caller that holds what the procedure needs:
a reference for `idup`, `ilock` and `iput`, a locked inode for the procedures that read and
change one.
-/

namespace Xv6.Fs

open Command Bytes Ownership Transition

/-- The file system's own blocks are marked used. Pointers of allocated inodes
lead into the data area, no two of them to the same block, and a block there is
marked used iff exactly one pointer leads to it. -/
structure OwnedOnce (sb : Superblock) (disk : Disk) : Prop where
  reserved : ∀ b, b < sb.dataStart → used sb disk b = true
  inside : ∀ place b, refs sb disk place = some b → IsData sb b
  single : ∀ left right b, refs sb disk left = some b → refs sb disk right = some b → left = right
  marked : ∀ b, IsData sb b →
    (used sb disk b = true ↔ ∃! place, refs sb disk place = some b)

def Covered (sb : Superblock) (disk : Disk) : Prop :=
  ∀ i, Live sb (dinodeOf sb disk) i → ∀ bn, bn * BSIZE < (dinodeOf sb disk i).size.toNat →
    ∃ b, refs sb disk (i, blockPointer bn) = some b

variable {sb : Superblock} {disk : Disk} {fs : State}

theorem sound_iff_ownedOnce : Sound sb disk (dinodeOf sb disk) ↔ OwnedOnce sb disk := by
  constructor
  · intro sound
    refine ⟨sound.reserved, fun place b kept => (sound.target kept).1,
      sound.books.single, fun b data => ⟨sound.books.unique data, ?_⟩⟩
    rintro ⟨place, kept, -⟩
    exact (sound.books.inside place b kept).2
  · intro owned
    have referred : ∀ place b, refs sb disk place = some b → used sb disk b = true :=
      fun place b kept => (owned.marked b (owned.inside place b kept)).mpr
        ⟨place, kept, fun other also => owned.single other place b also kept⟩
    refine ⟨owned.reserved, fun place b kept => ⟨owned.inside place b kept, referred place b kept⟩,
      owned.single, ?_⟩
    intro b data taken
    obtain ⟨place, kept, -⟩ := (owned.marked b data).mp taken
    exact ⟨place, kept⟩

theorem noHoles_iff_covered : NoHoles sb disk ↔ Covered sb disk := by
  constructor
  · intro dense i live
    exact (dense i live).2
  · intro covered i live
    refine ⟨?_, covered i live⟩
    by_contra large
    obtain ⟨b, kept⟩ := covered i live MAXFILE (by omega)
    obtain ⟨-, address, nonzero⟩ := pointers_eq_some.mp kept
    have beyond : blockPointer MAXFILE = .entry NINDIRECT := by decide
    rw [beyond] at address
    simp only [Dinode.pointer, Nat.lt_irrefl, and_false, ↓reduceIte] at address
    exact nonzero address.symm

inductive Request where
  | ialloc (type : Int16)
  | iget (inum : Nat)
  | idup (ip : Nat)
  | ilock (ip : Nat)
  | iput (ip : Nat)
  | readi (ip : Nat) (dst : Destination) (off n : UInt32)
  | writei (ip : Nat) (src : Source) (off n : UInt32)
  | itrunc (ip : Nat)
  | dirlink (dp : Nat) (name : List UInt8) (inum : Nat)
  | endOp

def serve (sb : Superblock) : Request → FsM PUnit
  | .ialloc type => do let _ ← ialloc sb type
  | .iget inum => do let _ ← iget inum
  | .idup ip => do let _ ← idup ip
  | .ilock ip => ilock sb ip
  | .iput ip => iput sb ip
  | .readi ip dst off n => do let _ ← readi sb ip dst off n
  | .writei ip src off n => do let _ ← writei sb ip src off n
  | .itrunc ip => itrunc sb ip
  | .dirlink dp name inum => do let _ ← dirlink sb dp name inum
  | .endOp => endOp

def Request.Permitted (sb : Superblock) (fs : State) : Request → Prop
  | .ialloc _ | .iget _ | .endOp => True
  | .idup ip | .iput ip => ip < NINODE ∧ 0 < (fs.itable ip).ref
  | .ilock ip => ip < NINODE ∧ 0 < (fs.itable ip).ref ∧ (fs.itable ip).inum < sb.ninodes
  | .readi ip _ _ _ | .writei ip _ _ _ | .itrunc ip | .dirlink ip _ _ => Locked fs ip

def Serves (sb : Superblock) (before after : State) : Prop :=
  ∃ request : Request, request.Permitted sb before ∧
    (serve sb request).run before = .ok (⟨⟩, after)

theorem Consistent.wp_serve (consistent : Consistent sb fs) (request : Request)
    (permitted : request.Permitted sb fs) :
    wp (serve sb request) (fun _ after => Consistent sb after) (· ≠ .freeingFreeBlock) fs := by
  have room : ∀ blocks, Room (· ≠ .freeingFreeBlock) blocks := Room.of_stop (by decide)
  cases request with
  | ialloc type =>
    simp only [serve, wp_bind]
    refine consistent.wp_ialloc (room _) (by decide) (fun _ => ?_) ?_
    · simpa only [wp_pure] using consistent
    · intro inum ip after made
      simpa only [wp_pure] using made.consistent
  | iget inum =>
    simp only [serve, wp_bind]
    refine wp_iget (fun _ => by decide) ?_
    intro ip after got
    simpa only [wp_pure] using got.consistent consistent
  | idup ip =>
    simp only [serve, wp_bind]
    refine consistent.wp_idup permitted.1 permitted.2 ?_
    intro after _ kept
    simpa only [wp_pure] using kept
  | ilock ip =>
    obtain ⟨slot, ref, range⟩ := permitted
    exact consistent.wp_ilock slot ref range (fun _ => by decide) fun _ _ kept _ => kept
  | iput ip =>
    exact consistent.wp_iput permitted.1 permitted.2 (fun _ blocks _ => room blocks)
      (fun _ _ freed => freed.consistent) fun _ _ _ kept => kept
  | readi ip dst off n =>
    simp only [serve, wp_bind]
    refine wp_post (wp_readi off n (Locked.mapped consistent permitted)
      (Locked.bounded consistent permitted)) ?_
    rintro _ _ ⟨rfl, -⟩
    simpa only [wp_pure] using consistent
  | writei ip src off n =>
    simp only [serve, wp_bind]
    refine consistent.wp_writei permitted (fun _ _ _ _ => room _) (fun _ => ?_) ?_
    · simpa only [wp_pure] using consistent
    · intro t after _ accepted
      obtain ⟨_, _, -, -, -, rewritten⟩ := accepted.effect
      simpa only [wp_pure] using rewritten.consistent
  | itrunc ip =>
    exact consistent.wp_itrunc permitted (fun blocks _ => room blocks)
      fun _ rewritten _ => rewritten.consistent
  | dirlink dp name inum =>
    simp only [serve, wp_bind]
    refine consistent.wp_dirlink permitted (fun _ _ _ _ => room _) (fun _ => by decide)
      (fun _ => by decide) (fun _ => by decide) ?_ ?_ ?_
    · intro k after _ _ _ kept
      simpa only [wp_pure] using kept
    · rintro k after - - - - ⟨addrs, rewritten, -⟩
      simpa only [wp_pure] using rewritten.consistent
    · rintro k after - - - - - - ⟨addrs, rewritten, -⟩
      simpa only [wp_pure] using rewritten.consistent
  | endOp =>
    simp only [serve, wp_endOp]
    exact consistent.congr rfl rfl

theorem Serves.consistent {before after : State} (served : Serves sb before after)
    (consistent : Consistent sb before) : Consistent sb after := by
  obtain ⟨request, permitted, ran⟩ := served
  have law := consistent.wp_serve request permitted
  unfold wp at law
  rwa [ran] at law

theorem Consistent.booted (owned : OwnedOnce sb fs.disk) (covered : Covered sb fs.disk)
    (empty : ∀ s, s < NINODE → (fs.itable s).ref = 0) : Consistent sb fs := by
  have unused : ∀ s, s < NINODE → ¬ 0 < (fs.itable s).ref := by
    intro s inside
    rw [empty s inside]
    exact Int.lt_irrefl 0
  refine ⟨sound_iff_ownedOnce.mpr owned, noHoles_iff_covered.mpr covered, ?_, ?_, ?_⟩
  · intro s t left _ first
    exact absurd first (unused s left)
  · intro s inside held
    exact absurd held (unused s inside)
  · intro s inside
    rw [empty s inside]

/-- **Block ownership.** From any image in which every marked block has one owner
and no inode has a hole, every sequence of requests keeps it so. No request can
free a free block, and `balloc` gives out only blocks that are unmarked and that
no pointer leads to. -/
theorem blocks_stay_owned_once (sb : Superblock) (start reached : State)
    (owned : OwnedOnce sb start.disk) (covered : Covered sb start.disk)
    (empty : ∀ s, s < NINODE → (start.itable s).ref = 0)
    (run : Reaches (Serves sb) start reached) :
    OwnedOnce sb reached.disk ∧ Covered sb reached.disk ∧
    (∀ request : Request, request.Permitted sb reached →
      (serve sb request).run reached ≠ .error .freeingFreeBlock) ∧
    (∀ b after, (balloc sb).run reached = .ok (b, after) → b ≠ 0 →
      used sb reached.disk b.toNat = false ∧ used sb after.disk b.toNat = true ∧
      ∀ place, refs sb reached.disk place ≠ some b.toNat) := by
  have consistent : Consistent sb reached :=
    Reaches.keeps (Consistent sb) (fun _ _ kept served => served.consistent kept) run
      (Consistent.booted owned covered empty)
  refine ⟨sound_iff_ownedOnce.mp consistent.sound, noHoles_iff_covered.mp consistent.dense, ?_, ?_⟩
  · intro request permitted ran
    exact wp_stopped (consistent.wp_serve request permitted) ran rfl
  · intro b after ran nonzero
    have law : wp (balloc sb) (fun b after => b ≠ 0 → used sb reached.disk b.toNat = false ∧
        used sb after.disk b.toNat = true) (fun _ => True) reached := by
      refine wp_balloc (fun _ after _ => Room.of_stop trivial after.logged)
        (fun _ zero => absurd rfl zero) ?_
      intro b after allocated _
      have data := consistent.sound.free_data allocated.block allocated.free
      rw [data.small.1, allocated.result, setDisk_disk, used_allocate data allocated.block]
      exact ⟨allocated.free, by simp⟩
    obtain ⟨free, marked⟩ := wp_returned law ran nonzero
    refine ⟨free, marked, consistent.sound.books.free ?_⟩
    simp [free]

def blankSuperblock : Superblock where
  size := 40
  ninodes := 8
  nlog := 2
  logstart := 2
  inodestart := 4
  bmapstart := 5
  boot := by decide
  log := by decide
  inodes := by decide
  bitmap := by decide
  counted := by decide

def blankState : State where
  disk := fun number offset => if number = 5 ∧ offset = 0 then 63 else 0
  itable := fun _ => ⟨0, 0, false, Dinode.zero⟩
  logged := ∅
  freedInodes := []

theorem blank_dead (i : Nat) :
    ¬ Live blankSuperblock (dinodeOf blankSuperblock blankState.disk) i := by
  rintro ⟨range, typed⟩
  have first : IBLOCK blankSuperblock i = 4 := by
    simp only [IBLOCK, IPB, BSIZE, blankSuperblock] at range ⊢
    omega
  apply typed
  simp only [dinodeOf, loadDinode, loadShort, first]
  rw [load_zero (fun index _ _ => by simp [blankState])]
  rfl

theorem blank_refs (place : Nat × Pointer) :
    refs blankSuperblock blankState.disk place = none := by
  simp [refs, pointers, blank_dead]

theorem blank_ownedOnce : OwnedOnce blankSuperblock blankState.disk := by
  refine ⟨by decide, ?_, ?_, ?_⟩
  · intro place b kept
    simp [blank_refs] at kept
  · intro left right b kept
    simp [blank_refs] at kept
  · have unmarked : ∀ b, b < 40 → 6 ≤ b → used blankSuperblock blankState.disk b = false := by
      decide
    intro b data
    rw [unmarked b data.2 data.1]
    simp [blank_refs]

/-- Allocating a file on the blank disk, locking it and writing twenty bytes. -/
theorem blank_blocks_owned_once : ∃ reached, Reaches (Serves blankSuperblock) blankState reached ∧
    OwnedOnce blankSuperblock reached.disk ∧ Covered blankSuperblock reached.disk := by
  obtain ⟨made, locked, written, first, second, third, held, owner⟩ :
      ∃ made locked written,
        (serve blankSuperblock (.ialloc T_FILE)).run blankState = .ok (⟨⟩, made) ∧
        (serve blankSuperblock (.ilock 0)).run made = .ok (⟨⟩, locked) ∧
        (serve blankSuperblock (.writei 0 ⟨fun _ => 7, 20⟩ 0 20)).run locked = .ok (⟨⟩, written) ∧
        ((made.itable 0).ref = 1 ∧ (made.itable 0).inum = 1) ∧
        (locked.itable 0).ref = 1 ∧ (locked.itable 0).valid = true :=
    ⟨_, _, _, rfl, rfl, rfl, ⟨rfl, rfl⟩, rfl, rfl⟩
  have range : (made.itable 0).inum < blankSuperblock.ninodes := by
    rw [held.2]
    decide
  have run : Reaches (Serves blankSuperblock) blankState written :=
    ((Relation.ReflTransGen.single ⟨.ialloc T_FILE, trivial, first⟩).tail
      ⟨.ilock 0, ⟨by decide, by omega, range⟩, second⟩).tail
      ⟨.writei 0 ⟨fun _ => 7, 20⟩ 0 20, ⟨by decide, by omega, owner.2⟩, third⟩
  obtain ⟨once, covered, -⟩ := blocks_stay_owned_once blankSuperblock blankState written
    blank_ownedOnce (fun i live => absurd live (blank_dead i)) (fun _ _ => rfl) run
  exact ⟨written, run, once, covered⟩

end Xv6.Fs
