import Xv6.Library.SlotTable
import Xv6.Fs.FreshImage
import Xv6.Fs.LogBudget

/-!
# A directory is a finite map

The entries of a directory that are in use are pairs of a label and an inode number.
-/

namespace Xv6.Fs

open Command Bytes SlotTable

def Node.slot (dir : Node) (k : Nat) : Option (List UInt8 × Nat) :=
  if dir.inum k = 0 then none else some (dir.label k, dir.inum k)

def Node.pairs (dir : Node) : Set (List UInt8 × Nat) := SlotTable.pairs dir.count dir.slot

structure Directory (dir : Node) : Prop where
  type : dir.type = T_DIR
  whole : dir.size.toNat % 16 = 0
  distinct : Distinct dir.count dir.slot

variable {dir : Node} {k j : Nat} {name : List UInt8} {record : ByteMap}

theorem Node.slot_eq_none : dir.slot k = none ↔ dir.inum k = 0 := by
  simp [Node.slot]

theorem Node.slot_eq_some {pair : List UInt8 × Nat} :
    dir.slot k = some pair ↔ dir.inum k ≠ 0 ∧ (dir.label k, dir.inum k) = pair := by
  simp [Node.slot]

theorem Node.absent_iff :
    (∀ i, (Fs.label name, i) ∉ dir.pairs) ↔
      ∀ k, k < dir.count → ¬ (dir.inum k ≠ 0 ∧ dir.label k = Fs.label name) := by
  constructor
  · rintro absent k inside ⟨inUse, named⟩
    exact absent (dir.inum k) ⟨k, inside, Node.slot_eq_some.mpr ⟨inUse, by rw [named]⟩⟩
  · rintro nowhere i ⟨k, inside, held⟩
    obtain ⟨inUse, same⟩ := Node.slot_eq_some.mp held
    exact nowhere k inside ⟨inUse, congrArg Prod.fst same⟩

/-! ## Writing an entry -/

theorem Node.entry_put_same (below : j < 16) : (dir.put k record).entry k j = record j := by
  have inside : 16 * k ≤ 16 * k + j ∧ 16 * k + j < 16 * k + 16 := by omega
  simp only [Node.entry, Node.put, inside, and_self, ↓reduceIte, Nat.add_sub_cancel_left]

theorem Node.entry_put_of_ne {i : Nat} (different : i ≠ k) (below : j < 16) :
    (dir.put k record).entry i j = dir.entry i j := by
  have outside : ¬ (16 * k ≤ 16 * i + j ∧ 16 * i + j < 16 * k + 16) := by omega
  simp only [Node.entry, Node.put, outside, ↓reduceIte]

theorem Node.inum_put_same : (dir.put k record).inum k = direntInum record :=
  direntInum_congr fun _ => Node.entry_put_same

theorem Node.label_put_same : (dir.put k record).label k = Fs.label (direntName record) := by
  rw [Node.label, direntName_congr fun _ => Node.entry_put_same]

theorem Node.slot_put_of_ne {i : Nat} (different : i ≠ k) :
    (dir.put k record).slot i = dir.slot i := by
  have number : (dir.put k record).inum i = dir.inum i :=
    direntInum_congr fun _ => Node.entry_put_of_ne different
  have named : (dir.put k record).label i = dir.label i := by
    rw [Node.label, direntName_congr fun _ => Node.entry_put_of_ne different, Node.label]
  rw [Node.slot, number, named, Node.slot]

theorem Node.size_put (record : ByteMap) (bounded : dir.size.toNat ≤ MAXFILE * BSIZE) (position : k ≤ dir.count) :
    (dir.put k record).size.toNat = max dir.size.toNat (16 * k + 16) := by
  have largest : MAXFILE * BSIZE = 274432 := by decide
  simp only [Node.count, direntCount] at position
  simp only [Node.put]
  rw [UInt32.toNat_ofNat']
  exact Nat.mod_eq_of_lt (by omega)

theorem Node.count_put (record : ByteMap) (bounded : dir.size.toNat ≤ MAXFILE * BSIZE)
    (whole : dir.size.toNat % 16 = 0) (position : k ≤ dir.count) :
    (dir.put k record).count = max dir.count (k + 1) ∧
      (dir.put k record).size.toNat % 16 = 0 := by
  rw [Node.count, direntCount, Node.size_put record bounded position, Node.count, direntCount]
  omega

section Directory

variable (directory : Directory dir) (bounded : dir.size.toNat ≤ MAXFILE * BSIZE)
include directory bounded

theorem Directory.enter {inum : Nat} (numbered : inum % 2 ^ 16 ≠ 0) (position : k ≤ dir.count)
    (free : k < dir.count → dir.inum k = 0) (absent : ∀ i, (label name, i) ∉ dir.pairs) :
    Directory (dir.put k (dirent name inum)) ∧
      (dir.put k (dirent name inum)).pairs = insert (label name, inum % 2 ^ 16) dir.pairs := by
  obtain ⟨count, whole⟩ := Node.count_put (dirent name inum) bounded directory.whole position
  have filled : (dir.put k (dirent name inum)).slot k = some (label name, inum % 2 ^ 16) := by
    refine Node.slot_eq_some.mpr ⟨?_, ?_⟩
    · rw [Node.inum_put_same, direntInum_dirent]
      exact numbered
    · rw [Node.inum_put_same, Node.label_put_same, direntInum_dirent, label_dirent]
  have same : ∀ i, i ≠ k → (dir.put k (dirent name inum)).slot i = dir.slot i :=
    fun i different => Node.slot_put_of_ne different
  have next : ∀ i, dir.count ≤ i → i < max dir.count (k + 1) → i = k := by
    intro i after below
    omega
  refine ⟨⟨directory.type, whole, ?_⟩, ?_⟩
  · rw [count]
    exact directory.distinct.fill next same filled absent
  · rw [Node.pairs, count]
    exact pairs_fill (by omega) (Nat.le_max_left ..) next same filled
      fun below => Node.slot_eq_none.mpr (free below)

/-- Zeros over an entry remove its pair. -/
theorem Directory.erase {pair : List UInt8 × Nat} (inside : k < dir.count)
    (held : dir.slot k = some pair) :
    Directory (dir.put k fun _ => 0) ∧ (dir.put k fun _ => 0).pairs = dir.pairs \ {pair} := by
  obtain ⟨count, whole⟩ := Node.count_put (fun _ => 0) bounded directory.whole
    (Nat.le_of_lt inside)
  have unchanged : max dir.count (k + 1) = dir.count := by omega
  rw [unchanged] at count
  have cleared : (dir.put k fun _ => 0).slot k = none := by
    rw [Node.slot_eq_none, Node.inum_put_same]
    exact load_zero fun _ _ _ => rfl
  have same : ∀ i, i ≠ k → (dir.put k fun _ => 0).slot i = dir.slot i :=
    fun i different => Node.slot_put_of_ne different
  refine ⟨⟨directory.type, whole, ?_⟩, ?_⟩
  · rw [count]
    exact directory.distinct.clear same cleared
  · rw [Node.pairs, count]
    exact pairs_clear directory.distinct same cleared inside held

end Directory

/-! ## The procedures -/

def LooksUp (dir : Node) (name : List UInt8) (fs : State) : Option (Nat × Nat) → State → Prop
  | none, after => after = fs ∧ ∀ i, (label name, i) ∉ dir.pairs
  | some (ip, off), after => ∃ k i, k < dir.count ∧ dir.slot k = some (label name, i) ∧
      (label name, i) ∈ dir.pairs ∧ off = 16 * k ∧ Got fs i ip after

inductive Links (sb : Superblock) (d : Nat) (dir : Node) (name : List UInt8) (inum : Nat)
    (fs : State) : Int → State → Prop
  | present {i : Nat} {after : State} (there : (label name, i) ∈ dir.pairs)
      (same : nodes sb after.disk = nodes sb fs.disk) : Links sb d dir name inum fs (-1) after
  | full {after : State} (inUse : ∀ k, k < dir.count → dir.inum k ≠ 0)
      (noBlock : Full sb after ∨ MAXFILE * BSIZE < dir.size.toNat + 16)
      (same : nodes sb after.disk = nodes sb fs.disk) : Links sb d dir name inum fs (-1) after
  | made {dir' : Node} {after : State} (absent : ∀ i, (label name, i) ∉ dir.pairs)
      (changed : nodes sb after.disk = Function.update (nodes sb fs.disk) d (some dir'))
      (directory : Directory dir')
      (added : dir'.pairs = insert (label name, inum % 2 ^ 16) dir.pairs) :
      Links sb d dir name inum fs 0 after

def Erases (sb : Superblock) (d : Nat) (dir : Node) (pair : List UInt8 × Nat) (fs : State)
    (written : Int) (after : State) : Prop :=
  written = 16 ∧ ∃ dir', nodes sb after.disk = Function.update (nodes sb fs.disk) d (some dir') ∧
    Directory dir' ∧ dir'.pairs = dir.pairs \ {pair}

def LogShort (fs : State) : Prop := LOGBLOCKS < fs.logged.card + 5

theorem entryRoom_of_short {sb : Superblock} {fs : State} {dp : Nat} {stop : Panic → Prop}
    (short : LogShort fs → stop .tooBigTransaction) (k : Nat) : EntryRoom sb fs dp k stop := by
  intro after _ confined full
  refine short ?_
  have bound := confined.card_logged_le_entry
  rw [LogShort]
  omega

section Procedures

variable {sb : Superblock} {fs : State} {dp : Nat} (consistent : Consistent sb fs)
  (locked : Locked fs dp) (there : nodes sb fs.disk (fs.itable dp).inum = some dir)
include consistent locked there

theorem locked_dir : (fs.itable dp).d.node (fileByte sb fs.disk (fs.itable dp).inum) = dir :=
  Option.some.inj ((locked.node consistent).symm.trans there)

theorem Directory.wp_dirlookup (directory : Directory dir) (name : List UInt8) :
    wp (dirlookup sb dp name) (LooksUp dir name fs)
      (fun reason => reason = .igetNoInodes ∧ ∀ s, s < NINODE → (fs.itable s).ref ≠ 0) fs := by
  have copy := locked_dir consistent locked there
  subst copy
  refine consistent.wp_dirlookup locked (fun notDir => absurd directory.type notDir)
    (fun partly => absurd directory.whole partly) (fun full => ⟨rfl, full⟩) ?_ ?_
  · intro _ _ nowhere
    exact ⟨rfl, Node.absent_iff.mpr nowhere⟩
  · intro k ip after _ inside names _ got
    have held : ((fs.itable dp).d.node (fileByte sb fs.disk (fs.itable dp).inum)).slot k =
        some (label name, entryInum sb fs.disk (fs.itable dp).inum k) :=
      Node.slot_eq_some.mpr ⟨names.1, Prod.ext names.2 rfl⟩
    exact ⟨k, _, inside, held, ⟨k, inside, held⟩, rfl, got⟩

theorem Directory.wp_dirlink (directory : Directory dir) (name : List UInt8) {inum : Nat}
    (numbered : inum % 2 ^ 16 ≠ 0) :
    wp (dirlink sb dp name inum) (Links sb (fs.itable dp).inum dir name inum fs)
      (fun reason => (reason = .igetNoInodes ∧ ∀ s, s < NINODE → (fs.itable s).ref ≠ 0) ∨
        reason = .tooBigTransaction ∧ LogShort fs) fs := by
  have copy := locked_dir consistent locked there
  subst copy
  have bounded := locked.bounded consistent
  refine consistent.wp_dirlink locked (entryRoom_of_short fun short => Or.inr ⟨rfl, short⟩)
    (fun notDir => absurd directory.type notDir) (fun partly => absurd directory.whole partly)
    (fun full => Or.inl ⟨rfl, full⟩) ?_ ?_ ?_
  · intro k after inside names same _
    refine .present ⟨k, inside, Node.slot_eq_some.mpr ⟨names.1, Prod.ext names.2 rfl⟩⟩ ?_
    rw [same.disk]
  · rintro k after ends inUse noBlock - ⟨addrs, rewritten, -⟩
    refine .full ?_ ?_ ?_
    · intro j below
      refine inUse j ?_
      have position := direntCount_spec below
      have size : ((fs.itable dp).d.node (fileByte sb fs.disk (fs.itable dp).inum)).size.toNat =
          16 * k := ends
      omega
    · rw [← ends] at noBlock
      exact noBlock
    · rw [rewritten.nodes locked, Function.update_eq_self_iff]
      exact (locked.node consistent).symm
  · rintro k after - - nowhere position free - ⟨addrs, rewritten, -⟩
    have absent : ∀ i, (label name, i) ∉
        ((fs.itable dp).d.node (fileByte sb fs.disk (fs.itable dp).inum)).pairs :=
      Node.absent_iff.mpr nowhere
    obtain ⟨still, added⟩ := directory.enter bounded numbered position free absent
    exact .made absent (rewritten.nodes locked) still added

theorem Directory.wp_erase (directory : Directory dir) {k : Nat} {pair : List UInt8 × Nat}
    (inside : k < dir.count) (held : dir.slot k = some pair) :
    wp (writei sb dp ⟨fun _ => 0, 16⟩ (UInt32.ofNat (16 * k)) 16)
      (Erases sb (fs.itable dp).inum dir pair fs)
      (fun reason => reason = .tooBigTransaction ∧ LogShort fs) fs := by
  have copy := locked_dir consistent locked there
  subst copy
  have bounded := locked.bounded consistent
  have position := direntCount_spec inside
  have starts : 16 * k < (fs.itable dp).d.size.toNat := position
  refine consistent.wp_writeDirent locked (Nat.le_of_lt starts)
    (entryRoom_of_short (fun short => ⟨rfl, short⟩) k) ?_ ?_
  · intro _ _ _ ends
    omega
  · rintro after - ⟨addrs, rewritten, -⟩
    obtain ⟨still, removed⟩ := directory.erase bounded inside held
    exact ⟨rfl, _, rewritten.nodes locked, still, removed⟩

end Procedures

/-- The procedures work on a directory as on a finite map. Labels are names cut to
`DIRSIZ` bytes. They stop only for want of a slot in the inode table, or of room in the
log. -/
theorem directory_is_finite_map (sb : Superblock) (fs : State) (dp : Nat) (dir : Node)
    (consistent : Consistent sb fs) (locked : Locked fs dp)
    (there : nodes sb fs.disk (fs.itable dp).inum = some dir) (directory : Directory dir) :
    (∀ key v w, (key, v) ∈ dir.pairs → (key, w) ∈ dir.pairs → v = w) ∧
    (∀ name, wp (dirlookup sb dp name) (LooksUp dir name fs)
      (fun reason => reason = .igetNoInodes ∧ ∀ s, s < NINODE → (fs.itable s).ref ≠ 0) fs) ∧
    (∀ name inum, inum % 2 ^ 16 ≠ 0 →
      wp (dirlink sb dp name inum) (Links sb (fs.itable dp).inum dir name inum fs)
        (fun reason => (reason = .igetNoInodes ∧ ∀ s, s < NINODE → (fs.itable s).ref ≠ 0) ∨
          reason = .tooBigTransaction ∧ LogShort fs) fs) ∧
    ∀ k pair, k < dir.count → dir.slot k = some pair →
      wp (writei sb dp ⟨fun _ => 0, 16⟩ (UInt32.ofNat (16 * k)) 16)
        (Erases sb (fs.itable dp).inum dir pair fs)
        (fun reason => reason = .tooBigTransaction ∧ LogShort fs) fs :=
  ⟨fun _ _ _ left right => directory.distinct.functional left right,
    fun name => directory.wp_dirlookup consistent locked there name,
    fun name _ numbered => directory.wp_dirlink consistent locked there name numbered,
    fun _ _ inside held => directory.wp_erase consistent locked there inside held⟩

theorem fresh_directory : Directory (freshImage.directory (freshSuperblock 0) ROOTINO) := by
  refine ⟨rfl, by decide, ?_⟩
  have apart : ∀ j, j < 2 → ∀ k, k < 2 → (freshImage.directory (freshSuperblock 0) ROOTINO).label j =
      (freshImage.directory (freshSuperblock 0) ROOTINO).label k → j = k := by
    decide +kernel
  intro j k left right first second held held' same
  obtain ⟨-, rfl⟩ := Node.slot_eq_some.mp held
  obtain ⟨-, rfl⟩ := Node.slot_eq_some.mp held'
  exact apart j first k second same

/-- A name that is entered into the root directory of a new file system. -/
theorem root_is_finite_map :
    wp (dirlink (freshSuperblock 0) 0 [97] 5)
      (Links (freshSuperblock 0) ROOTINO
        (freshImage.directory (freshSuperblock 0) ROOTINO) [97] 5 (freshState 0 0))
      (fun reason => reason = .igetNoInodes ∧
        ∀ s, s < NINODE → ((freshState 0 0).itable s).ref ≠ 0)
      (freshState 0 0) := by
  refine wp_mono ((directory_is_finite_map _ _ 0 _ fresh_stable.consistent ⟨by decide, by decide, rfl⟩
    ((fresh_inOrder 0).nodes_eq_some.mpr ⟨by decide, rfl⟩) fresh_directory).2.2.1 [97] 5 (by decide))
    (fun _ _ links => links) ?_
  intro reason stopped
  refine stopped.resolve_right ?_
  rintro ⟨-, short⟩
  rw [LogShort] at short
  exact absurd short (by decide)

end Xv6.Fs
