import Xv6.Fs.Pointers

/-!
# Mapping file blocks to disk blocks

The law of `bmap`.
-/

namespace Xv6.Fs

open Command Bytes Ownership Function

def edited (sb : Superblock) (fs : State) (ip : Nat) : Nat → Dinode :=
  update (dinodeOf sb fs.disk) (fs.itable ip).inum (fs.itable ip).d

def held (sb : Superblock) (fs : State) (ip : Nat) : Nat × Pointer → Option Nat :=
  pointers sb fs.disk (edited sb fs ip)

def bytes (sb : Superblock) (fs : State) (ip : Nat) : Nat → Nat → UInt8 :=
  byteOf sb fs.disk (edited sb fs ip)

structure Opened (sb : Superblock) (fs : State) (ip : Nat) : Prop where
  inum : (fs.itable ip).inum < sb.ninodes
  type : (fs.itable ip).d.type ≠ 0
  sound : Sound sb fs.disk (edited sb fs ip)

structure Grown (sb : Superblock) (fs : State) (ip : Nat) (after : State) : Prop where
  opened : Opened sb after ip
  slot : ∃ addrs, after.itable = update fs.itable ip
    { fs.itable ip with d := { (fs.itable ip).d with addrs := addrs } }
  dinodes : ∀ i, i < sb.ninodes → dinodeOf sb after.disk i = dinodeOf sb fs.disk i
  grows : ∀ place b, held sb fs ip place = some b → held sb after ip place = some b
  others : ∀ i p, i ≠ (fs.itable ip).inum → held sb after ip (i, p) = held sb fs ip (i, p)
  marks : ∀ c, c < sb.size → used sb fs.disk c = true → used sb after.disk c = true
  history : after.freedInodes = fs.freedInodes

structure Extended (sb : Superblock) (fs : State) (ip : Nat) (after : State) : Prop
    extends Grown sb fs ip after where
  bytes : ∀ i k, bytes sb after ip i k = bytes sb fs ip i k
  settled : ∀ b, fs.unlogged b = none → after.unlogged b = none

structure Confined (sb : Superblock) (fs : State) (ip : Nat) (which : Pointer → Prop)
    (after : State) : Prop where
  fresh : ∀ p, which p ∨ held sb after ip ((fs.itable ip).inum, p) =
    held sb fs ip ((fs.itable ip).inum, p)
  logged : ∀ m ∈ after.logged, m ∈ fs.logged ∨
    ∃ p b, which p ∧ held sb after ip ((fs.itable ip).inum, p) = some b ∧
      (m = b ∨ m = BBLOCK sb b ∧ held sb fs ip ((fs.itable ip).inum, p) = none)

variable {sb : Superblock} {stop : Panic → Prop} {fs middle after : State} {ip : Nat}

@[simp] theorem edited_self : edited sb fs ip (fs.itable ip).inum = (fs.itable ip).d :=
  update_self ..

theorem edited_own {i : Nat} (own : (fs.itable ip).inum = i) :
    edited sb fs ip i = (fs.itable ip).d := by
  rw [← own, edited_self]

theorem edited_of_ne {i : Nat} (different : i ≠ (fs.itable ip).inum) :
    edited sb fs ip i = dinodeOf sb fs.disk i :=
  update_of_ne different ..

theorem bytes_of_held {i k b : Nat} (kept : held sb fs ip (i, blockPointer (k / BSIZE)) = some b) :
    bytes sb fs ip i k = fs.disk b (k % BSIZE) :=
  byteOf_of_pointers kept

theorem bytes_of_none {i k : Nat} (absent : held sb fs ip (i, blockPointer (k / BSIZE)) = none) :
    bytes sb fs ip i k = 0 := by
  have look : pointers sb fs.disk (edited sb fs ip) (i, blockPointer (k / BSIZE)) = none := absent
  simp only [bytes, byteOf, look]

theorem edited_congr (itable : after.itable = fs.itable)
    (same : ∀ i, i < sb.ninodes → dinodeOf sb after.disk i = dinodeOf sb fs.disk i) (i : Nat)
    (range : i < sb.ninodes) : edited sb after ip i = edited sb fs ip i := by
  by_cases own : i = (fs.itable ip).inum
  · simp [own, edited, itable]
  · rw [edited_of_ne (by rwa [itable]), edited_of_ne own]
    exact same i range

theorem Opened.live (opened : Opened sb fs ip) : Live sb (edited sb fs ip) (fs.itable ip).inum :=
  ⟨opened.inum, by rw [edited_self]; exact opened.type⟩

theorem Grown.refl (opened : Opened sb fs ip) : Grown sb fs ip fs :=
  ⟨opened, ⟨(fs.itable ip).d.addrs, (update_eq_self ip fs.itable).symm⟩, fun _ _ => rfl,
    fun _ _ kept => kept, fun _ _ _ => rfl, fun _ _ marked => marked, rfl⟩

theorem Grown.inum (grown : Grown sb fs ip after) :
    (after.itable ip).inum = (fs.itable ip).inum := by
  obtain ⟨addrs, slot⟩ := grown.slot
  simp [slot]

/-- Growing twice is growing. -/
theorem Grown.trans (first : Grown sb fs ip middle) (second : Grown sb middle ip after) :
    Grown sb fs ip after := by
  obtain ⟨addrs, slot⟩ := first.slot
  obtain ⟨addrs', slot'⟩ := second.slot
  refine ⟨second.opened, ⟨addrs', by simp [slot, slot']⟩, ?_, ?_, ?_, ?_,
    second.history.trans first.history⟩
  · intro i inside
    rw [second.dinodes i inside, first.dinodes i inside]
  · intro place b kept
    exact second.grows place b (first.grows place b kept)
  · intro i p different
    rw [second.others i p (by rw [first.inum]; exact different), first.others i p different]
  · intro c within marked
    exact second.marks c within (first.marks c within marked)

theorem Extended.refl (opened : Opened sb fs ip) : Extended sb fs ip fs :=
  ⟨Grown.refl opened, fun _ _ => rfl, fun _ settled => settled⟩

/-- Extending twice is extending. -/
theorem Extended.trans (first : Extended sb fs ip middle) (second : Extended sb middle ip after) :
    Extended sb fs ip after :=
  ⟨first.toGrown.trans second.toGrown, fun i k => (second.bytes i k).trans (first.bytes i k),
    fun b settled => second.settled b (first.settled b settled)⟩

section Confined

variable {which wider : Pointer → Prop}

theorem Confined.refl : Confined sb fs ip which fs :=
  ⟨fun _ => Or.inr rfl, fun _ logged => Or.inl logged⟩

theorem Confined.weaken (confined : Confined sb fs ip which after)
    (inside : ∀ p, which p → wider p) : Confined sb fs ip wider after := by
  refine ⟨fun p => (confined.fresh p).imp_left (inside p), fun m logged => ?_⟩
  refine (confined.logged m logged).imp_right ?_
  rintro ⟨p, b, at_, rest⟩
  exact ⟨p, b, inside p at_, rest⟩

theorem Grown.none_of_none {place : Nat × Pointer} (grown : Grown sb fs ip after)
    (absent : held sb after ip place = none) : held sb fs ip place = none := by
  cases before : held sb fs ip place with
  | none => rfl
  | some b => exact absurd ((grown.grows place b before).symm.trans absent) (by simp)

theorem Confined.trans (first : Confined sb fs ip which middle) (grown : Grown sb fs ip middle)
    (second : Confined sb middle ip which after) (further : Grown sb middle ip after) :
    Confined sb fs ip which after := by
  refine ⟨fun p => ?_, fun m logged => ?_⟩
  · rcases second.fresh p with at_ | same
    · exact Or.inl at_
    · rw [grown.inum] at same
      exact (first.fresh p).imp_right same.trans
  · rcases second.logged m logged with before | ⟨p, b, at_, holds, reason⟩
    · refine (first.logged m before).imp_right ?_
      rintro ⟨p, b, at_, holds, reason⟩
      exact ⟨p, b, at_, further.grows _ _ holds, reason⟩
    · rw [grown.inum] at holds reason
      exact Or.inr ⟨p, b, at_, holds, reason.imp_right fun ⟨bitmap, absent⟩ =>
        ⟨bitmap, grown.none_of_none absent⟩⟩

end Confined

/-- One block added to the open inode. -/
theorem Extended.of_added {p : Pointer} {b : Nat} (opened : Opened sb fs ip)
    (added : Added sb fs.disk after.disk (edited sb fs ip) (edited sb after ip)
      ((fs.itable ip).inum, p) b)
    (empty : held sb fs ip ((fs.itable ip).inum, p) = none) (data : IsData sb b)
    (free : used sb fs.disk b = false)
    (slot : ∃ addrs, after.itable = update fs.itable ip
      { fs.itable ip with d := { (fs.itable ip).d with addrs := addrs } })
    (dinodes : ∀ i, i < sb.ninodes → dinodeOf sb after.disk i = dinodeOf sb fs.disk i)
    (kept : ∀ i n c, held sb fs ip (i, blockPointer n) = some c → after.disk c = fs.disk c)
    (zero : ∀ n, p = blockPointer n → ∀ index, index < BSIZE → after.disk b index = 0)
    (history : after.freedInodes = fs.freedInodes)
    (settled : ∀ b, fs.unlogged b = none → after.unlogged b = none) :
    Extended sb fs ip after := by
  have sameInode : (after.itable ip).inum = (fs.itable ip).inum ∧
      (after.itable ip).d.type = (fs.itable ip).d.type := by
    obtain ⟨addrs, slot⟩ := slot
    simp [slot]
  refine ⟨⟨⟨?_, ?_, opened.sound.add data free empty added⟩, slot, dinodes, ?_, ?_, ?_, history⟩,
    added.byteOf_eq empty kept zero, settled⟩
  · rw [sameInode.1]
    exact opened.inum
  · rw [sameInode.2]
    exact opened.type
  · intro place c before
    have different : place ≠ ((fs.itable ip).inum, p) := by
      rintro rfl
      rw [empty] at before
      cases before
    exact (added.same place different).trans before
  · intro i q different
    refine added.same (i, q) ?_
    intro same
    exact different (congrArg Prod.fst same)
  · intro c within marked
    rw [added.marked c within, marked, Bool.or_true]

theorem Confined.of_added {p : Pointer} {b : Nat} {which : Pointer → Prop}
    (added : Added sb fs.disk after.disk (edited sb fs ip) (edited sb after ip)
      ((fs.itable ip).inum, p) b)
    (empty : held sb fs ip ((fs.itable ip).inum, p) = none) (here : which p)
    (logged : ∀ m ∈ after.logged, m ∈ fs.logged ∨ m = b ∨ m = BBLOCK sb b ∨
      ∃ q, which q ∧ held sb fs ip ((fs.itable ip).inum, q) = some m) :
    Confined sb fs ip which after := by
  have others : ∀ q, q ≠ p → held sb after ip ((fs.itable ip).inum, q) =
      held sb fs ip ((fs.itable ip).inum, q) := by
    intro q different
    refine added.same _ ?_
    intro same
    exact different (congrArg Prod.snd same)
  refine ⟨fun q => ?_, fun m member => ?_⟩
  · by_cases same : q = p
    · exact Or.inl (same ▸ here)
    · exact Or.inr (others q same)
  · rcases logged m member with before | block | bitmap | ⟨q, at_, holds⟩
    · exact Or.inl before
    · exact Or.inr ⟨p, b, here, added.placed, Or.inl block⟩
    · exact Or.inr ⟨p, b, here, added.placed, Or.inr ⟨bitmap, empty⟩⟩
    · refine Or.inr ⟨q, m, at_, ?_, Or.inl rfl⟩
      rw [others q ?_]
      · exact holds
      · rintro rfl
        exact absurd (empty.symm.trans holds) (by simp)

theorem ofNat_ne_zero {b : Nat} (data : IsData sb b) : UInt32.ofNat b ≠ 0 := by
  intro zero
  have value := congrArg UInt32.toNat zero
  rw [data.small.1] at value
  exact data.small.2 value

def Full (sb : Superblock) (fs : State) : Prop := ∀ b, b < sb.size → used sb fs.disk b = true

theorem pointer_addrPointer {k : Nat} (position : k ≤ NDIRECT) (d : Dinode) (disk : Disk) :
    d.pointer disk (addrPointer k) = (d.addr k).toNat := by
  unfold addrPointer
  split
  · rename_i small
    simp [Dinode.pointer, small]
  · have last : k = NDIRECT := by omega
    simp [Dinode.pointer, last]

def State.addAddr (sb : Superblock) (fs : State) (ip k b : Nat) : State :=
  (fs.setDisk (allocate sb fs.disk b) {BBLOCK sb b, b}).setSlot ip
    { fs.itable ip with d := (fs.itable ip).d.setAddr k (UInt32.ofNat b) }

def State.addEntry (sb : Superblock) (fs : State) (ip j b : Nat) : State :=
  fs.setDisk (update (allocate sb fs.disk b) ((fs.itable ip).d.addr NDIRECT).toNat
    (storeUint (allocate sb fs.disk b ((fs.itable ip).d.addr NDIRECT).toNat) (4 * j)
      (UInt32.ofNat b))) ({BBLOCK sb b, b} ∪ {((fs.itable ip).d.addr NDIRECT).toNat})

theorem Opened.addAddr {k b : Nat} (opened : Opened sb fs ip) (position : k ≤ NDIRECT)
    (empty : (fs.itable ip).d.addr k = 0) (block : b < sb.size)
    (free : used sb fs.disk b = false) :
    Extended sb fs ip (fs.addAddr sb ip k b) ∧
      Confined sb fs ip (· = addrPointer k) (fs.addAddr sb ip k b) ∧
      held sb (fs.addAddr sb ip k b) ip ((fs.itable ip).inum, addrPointer k) = some b := by
  have data := opened.sound.free_data block free
  have absent : held sb fs ip ((fs.itable ip).inum, addrPointer k) = none := by
    apply pointers_of_zero
    rw [edited_self, pointer_addrPointer position, empty]
    rfl
  have added := opened.sound.added_addr (edited sb (fs.addAddr sb ip k b) ip)
    opened.live position (by rw [edited_self]; exact empty) block free
    (by simp [edited, State.addAddr])
    (by
      intro i inside different
      rw [edited_of_ne (by simpa [State.addAddr] using different), edited_of_ne different]
      exact dinodeOf_allocate data inside)
  refine ⟨Extended.of_added opened added absent data free
    ⟨_, rfl⟩ (fun i inside => dinodeOf_allocate data inside) ?_ ?_ rfl
    (fun c => setDisk_settled (allocate sb fs.disk b) {BBLOCK sb b, b} c),
    Confined.of_added added absent rfl ?_, added.placed⟩
  · intro i n c kept
    exact allocate_data_of_ne block (opened.sound.target kept).1
      (opened.sound.target_ne kept free)
  · intro n _ index inside
    exact allocate_zero b inside
  · intro m member
    simp only [State.addAddr, State.setSlot, State.setDisk, Finset.mem_union, Finset.mem_insert,
      Finset.mem_singleton] at member
    tauto

theorem Opened.table_held (opened : Opened sb fs ip)
    (table : (fs.itable ip).d.addr NDIRECT ≠ 0) :
    held sb fs ip ((fs.itable ip).inum, .table) =
      some ((fs.itable ip).d.addr NDIRECT).toNat := by
  have nonzero : ((fs.itable ip).d.addr NDIRECT).toNat ≠ 0 := by
    simpa [← UInt32.toNat_inj] using table
  refine pointers_eq_some.mpr ⟨opened.live, ?_, nonzero⟩
  rw [edited_self]
  rfl

theorem pointer_entry {j : Nat} (table : (fs.itable ip).d.addr NDIRECT ≠ 0)
    (inside : j < NINDIRECT) :
    (edited sb fs ip (fs.itable ip).inum).pointer fs.disk (.entry j) =
      (loadUint (fs.disk ((fs.itable ip).d.addr NDIRECT).toNat) (4 * j)).toNat := by
  rw [edited_self]
  simp [Dinode.pointer, table, inside]

theorem Opened.addEntry {j b : Nat} (opened : Opened sb fs ip)
    (table : (fs.itable ip).d.addr NDIRECT ≠ 0) (inside : j < NINDIRECT)
    (empty : loadUint (fs.disk ((fs.itable ip).d.addr NDIRECT).toNat) (4 * j) = 0)
    (block : b < sb.size) (free : used sb fs.disk b = false) :
    Extended sb fs ip (fs.addEntry sb ip j b) ∧
      Confined sb fs ip (fun p => p = .table ∨ p = .entry j) (fs.addEntry sb ip j b) ∧
      held sb (fs.addEntry sb ip j b) ip ((fs.itable ip).inum, .entry j) = some b := by
  have tableHere : (edited sb fs ip (fs.itable ip).inum).addr NDIRECT ≠ 0 := by
    rw [edited_self]
    exact table
  have tableKept := opened.table_held table
  have tableData := (opened.sound.target tableKept).1
  have data := opened.sound.free_data block free
  have absent : held sb fs ip ((fs.itable ip).inum, .entry j) = none := by
    apply pointers_of_zero
    rw [pointer_entry table inside, empty]
    rfl
  have same : ∀ contents i, i < sb.ninodes →
      dinodeOf sb (update (allocate sb fs.disk b)
        ((fs.itable ip).d.addr NDIRECT).toNat contents) i = dinodeOf sb fs.disk i := by
    intro contents i range
    rw [dinodeOf_update_data _ tableData range, dinodeOf_allocate data range]
  have edits : ∀ i, i < sb.ninodes → edited sb (fs.addEntry sb ip j b) ip i = edited sb fs ip i :=
    edited_congr rfl (same _)
  have added := opened.sound.added_entry opened.live tableHere inside block free edits
  simp only [edited_self] at added
  refine ⟨Extended.of_added opened added absent data free
    ⟨(fs.itable ip).d.addrs, (update_eq_self ip fs.itable).symm⟩
    (fun i range => same _ i range) ?_ ?_ rfl (fun c => setDisk_settled _ _ c),
    Confined.of_added added absent (Or.inr rfl) ?_, added.placed⟩
  · intro i n c kept
    have notTable : c ≠ ((fs.itable ip).d.addr NDIRECT).toNat := by
      rintro rfl
      have one := opened.sound.books.single _ _ _ kept tableKept
      exact blockPointer_ne_table n (congrArg Prod.snd one)
    rw [State.addEntry, setDisk_disk, update_of_ne notTable]
    exact allocate_data_of_ne block (opened.sound.target kept).1
      (opened.sound.target_ne kept free)
  · intro n _ index within
    have notTable : b ≠ ((fs.itable ip).d.addr NDIRECT).toNat :=
      (opened.sound.target_ne tableKept free).symm
    rw [State.addEntry, setDisk_disk, update_of_ne notTable]
    exact allocate_zero b within
  · intro m member
    simp only [State.addEntry, State.setDisk, Finset.mem_union, Finset.mem_insert,
      Finset.mem_singleton] at member
    rcases member with before | (bitmap | block) | rfl
    · exact Or.inl before
    · exact Or.inr (Or.inr (Or.inl bitmap))
    · exact Or.inr (Or.inl block)
    · exact Or.inr (Or.inr (Or.inr ⟨.table, Or.inl rfl, tableKept⟩))

variable {post : UInt32 → State → Prop}

theorem wp_bmapAddr {k : Nat} (opened : Opened sb fs ip)
    (position : k ≤ NDIRECT)
    (room : ∀ after, Extended sb fs ip after → Confined sb fs ip (· = addrPointer k) after →
      Room stop after.logged)
    (full : Full sb fs → (fs.itable ip).d.addr k = 0 → post 0 fs)
    (mapped : ∀ b after, b ≠ 0 → Extended sb fs ip after →
      Confined sb fs ip (· = addrPointer k) after → (after.itable ip).d.addr k = b →
      held sb after ip ((fs.itable ip).inum, addrPointer k) = some b.toNat → post b after) :
    wp (bmapAddr sb ip k) post stop fs := by
  simp only [bmapAddr, wp_bind, wp_inode]
  by_cases empty : (fs.itable ip).d.addr k = 0
  · simp only [empty, ne_eq, not_true_eq_false, ↓reduceIte, wp_bind]
    refine wp_balloc ?_ (fun all => full all empty) ?_
    · rintro b _ ⟨block, free, -, rfl⟩
      obtain ⟨extended, confined, -⟩ := opened.addAddr position empty block free
      have enough := room _ extended confined
      exact enough
    rintro b _ ⟨block, free, -, rfl⟩
    have data := opened.sound.free_data block free
    simp only [ofNat_ne_zero data, ↓reduceIte, wp_bind, wp_setDinode, wp_pure, setDisk_itable]
    obtain ⟨extended, confined, placed⟩ := opened.addAddr position empty block free
    refine mapped _ _ (ofNat_ne_zero data) extended confined (by simp) ?_
    rw [data.small.1]
    exact placed
  · simp only [ne_eq, empty, not_false_eq_true, ↓reduceIte, wp_pure]
    refine mapped _ _ empty (Extended.refl opened) Confined.refl rfl ?_
    have nonzero : ((fs.itable ip).d.addr k).toNat ≠ 0 := by
      simpa [← UInt32.toNat_inj] using empty
    refine pointers_eq_some.mpr ⟨opened.live, ?_, nonzero⟩
    rw [edited_self, pointer_addrPointer position]

theorem wp_bmapEntry {j : Nat} (opened : Opened sb fs ip)
    (table : (fs.itable ip).d.addr NDIRECT ≠ 0) (inside : j < NINDIRECT)
    (room : ∀ after, Extended sb fs ip after →
      Confined sb fs ip (fun p => p = .table ∨ p = .entry j) after → Room stop after.logged)
    (full : Full sb fs → held sb fs ip ((fs.itable ip).inum, .entry j) = none → post 0 fs)
    (mapped : ∀ b after, b ≠ 0 → Extended sb fs ip after →
      Confined sb fs ip (fun p => p = .table ∨ p = .entry j) after →
      held sb after ip ((fs.itable ip).inum, .entry j) = some b.toNat → post b after) :
    wp (bmapEntry sb ((fs.itable ip).d.addr NDIRECT) j) post stop fs := by
  simp only [bmapEntry, wp_bind, wp_bread]
  by_cases empty : loadUint (fs.disk ((fs.itable ip).d.addr NDIRECT).toNat) (4 * j) = 0
  · simp only [empty, ne_eq, not_true_eq_false, ↓reduceIte, wp_bind]
    have before : ∀ b, b < sb.size → used sb fs.disk b = false →
        Room stop (fs.setDisk (allocate sb fs.disk b) {BBLOCK sb b, b}).logged := by
      intro b block free
      obtain ⟨extended, confined, -⟩ := opened.addEntry table inside empty block free
      exact (room _ extended confined).mono
        (Finset.union_subset_union_right Finset.subset_union_left)
    refine wp_balloc ?_ (fun all => full all ?_) ?_
    · rintro b _ ⟨block, free, -, rfl⟩
      exact before b block free
    · apply pointers_of_zero
      rw [pointer_entry table inside, empty]
      rfl
    rintro b _ ⟨block, free, -, rfl⟩
    have data := opened.sound.free_data block free
    simp only [ofNat_ne_zero data, ↓reduceIte, wp_bind, wp_bread, setDisk_disk]
    refine wp_logWrite (before b block free) ?_
    simp only [wp_pure, setDisk_disk, setDisk_setDisk]
    obtain ⟨extended, confined, placed⟩ := opened.addEntry table inside empty block free
    refine mapped _ _ (ofNat_ne_zero data) extended confined ?_
    rw [data.small.1]
    exact placed
  · simp only [ne_eq, empty, not_false_eq_true, ↓reduceIte, wp_pure]
    refine mapped _ _ empty (Extended.refl opened) Confined.refl ?_
    have nonzero : (loadUint (fs.disk ((fs.itable ip).d.addr NDIRECT).toNat) (4 * j)).toNat ≠ 0 := by
      simpa [← UInt32.toNat_inj] using empty
    exact pointers_eq_some.mpr ⟨opened.live, pointer_entry table inside, nonzero⟩

def Through (bn : Nat) (p : Pointer) : Prop := p = .table ∧ NDIRECT ≤ bn ∨ p = blockPointer bn

theorem wp_bmap {bn : Nat} (opened : Opened sb fs ip)
    (range : bn < MAXFILE)
    (room : ∀ after, Extended sb fs ip after → Confined sb fs ip (Through bn) after →
      Room stop after.logged)
    (full : ∀ after, Extended sb fs ip after → Confined sb fs ip (Through bn) after →
      Full sb after → held sb after ip ((fs.itable ip).inum, blockPointer bn) = none →
      post 0 after)
    (mapped : ∀ b after, b ≠ 0 → Extended sb fs ip after → Confined sb fs ip (Through bn) after →
      held sb after ip ((fs.itable ip).inum, blockPointer bn) = some b.toNat → post b after) :
    wp (bmap sb ip bn) post stop fs := by
  unfold bmap
  split
  · rename_i small
    have direct : addrPointer bn = blockPointer bn := by simp [blockPointer, addrPointer, small]
    refine wp_bmapAddr opened (by omega) ?_ ?_ ?_
    · intro after extended confined
      rw [direct] at confined
      exact room after extended (confined.weaken fun _ => Or.inr)
    · intro all empty
      refine full fs (Extended.refl opened) Confined.refl all (pointers_of_zero ?_)
      rw [edited_self, ← direct, pointer_addrPointer (by omega), empty]
      rfl
    intro b after nonzero extended confined _ kept
    rw [direct] at confined kept
    exact mapped b after nonzero extended (confined.weaken fun _ => Or.inr) kept
  · rename_i large
    have entry : bn - NDIRECT < NINDIRECT := by
      simp only [MAXFILE] at range
      omega
    have indirect : Pointer.entry (bn - NDIRECT) = blockPointer bn := by simp [blockPointer, large]
    have inTable : ∀ p, p = addrPointer NDIRECT → Through bn p :=
      fun p table => Or.inl ⟨table.trans (by decide), Nat.le_of_not_lt large⟩
    simp only [entry, ↓reduceIte, wp_bind]
    refine wp_bmapAddr opened (Nat.le_refl _) ?_ ?_ ?_
    · intro after extended confined
      exact room after extended (confined.weaken inTable)
    · intro all empty
      simp only [↓reduceIte, wp_pure]
      refine full fs (Extended.refl opened) Confined.refl all (pointers_of_zero ?_)
      rw [edited_self, ← indirect, Dinode.pointer, if_neg fun both => both.1 empty]
    · rintro table middle nonzero extended confined rfl -
      have within : Confined sb fs ip (Through bn) middle := confined.weaken inTable
      have inEntry : ∀ p, p = .table ∨ p = .entry (bn - NDIRECT) → Through bn p :=
        fun p => Or.imp (fun table => ⟨table, Nat.le_of_not_lt large⟩) fun here =>
          here.trans indirect
      simp only [nonzero, ↓reduceIte]
      refine wp_bmapEntry extended.opened nonzero entry ?_ ?_ ?_
      · intro after further beyond
        exact room after (extended.trans further)
          (within.trans extended.toGrown (beyond.weaken inEntry) further.toGrown)
      · intro all absent
        rw [extended.inum, indirect] at absent
        exact full middle extended within all absent
      intro b after nonzeroBlock further beyond kept
      rw [extended.inum, indirect] at kept
      exact mapped b after nonzeroBlock (extended.trans further)
        (within.trans extended.toGrown (beyond.weaken inEntry) further.toGrown) kept

theorem wp_bmap_mapped {bn b : Nat} (range : bn < MAXFILE)
    (kept : held sb fs ip ((fs.itable ip).inum, blockPointer bn) = some b)
    (found : ∀ address : UInt32, address ≠ 0 → address.toNat = b → post address fs) :
    wp (bmap sb ip bn) post stop fs := by
  obtain ⟨-, target, nonzero⟩ := pointers_eq_some.mp kept
  rw [edited_self] at target
  have address : ∀ a : UInt32, a.toNat = b → a ≠ 0 := by
    rintro a value rfl
    exact nonzero value.symm
  unfold bmap
  split
  · rename_i small
    have value : ((fs.itable ip).d.addr bn).toNat = b := by
      simpa [blockPointer, small, Dinode.pointer] using target
    simp only [bmapAddr, wp_bind, wp_inode, ne_eq, address _ value, not_false_eq_true, ↓reduceIte,
      wp_pure]
    exact found _ (address _ value) value
  · rename_i large
    have entry : bn - NDIRECT < NINDIRECT := by
      simp only [MAXFILE] at range
      omega
    have table : (fs.itable ip).d.addr NDIRECT ≠ 0 := by
      intro none
      simp [blockPointer, large, Dinode.pointer, none] at target
      exact nonzero target.symm
    have value : (loadUint (fs.disk ((fs.itable ip).d.addr NDIRECT).toNat)
        (4 * (bn - NDIRECT))).toNat = b := by
      simpa [blockPointer, large, Dinode.pointer, table, entry] using target
    simp only [entry, ↓reduceIte, bmapAddr, bmapEntry, wp_bind, wp_inode, ne_eq, table,
      not_false_eq_true, wp_pure, wp_bread, address _ value]
    exact found _ (address _ value) value

def refs (sb : Superblock) (disk : Disk) : Nat × Pointer → Option Nat :=
  pointers sb disk (dinodeOf sb disk)

def fileByte (sb : Superblock) (disk : Disk) : Nat → Nat → UInt8 :=
  byteOf sb disk (dinodeOf sb disk)

def saved (sb : Superblock) (fs : State) (ip : Nat) : Disk :=
  putDinode sb fs.disk (fs.itable ip).inum (fs.itable ip).d

theorem wp_iupdate_iff (post : PUnit → State → Prop) :
    wp (iupdate sb ip) post stop fs ↔
      if LOGBLOCKS ≤ fs.logged.card then stop .tooBigTransaction
      else post ⟨⟩ (fs.setDisk (saved sb fs ip) {IBLOCK sb (fs.itable ip).inum}) := by
  simp only [iupdate, wp_bind, wp_inode, wp_bread]
  exact wp_logWrite_iff _ _ post

theorem wp_iupdate {post : PUnit → State → Prop} (room : Room stop fs.logged)
    (stored : post ⟨⟩ (fs.setDisk (saved sb fs ip) {IBLOCK sb (fs.itable ip).inum})) :
    wp (iupdate sb ip) post stop fs := by
  rw [wp_iupdate_iff]
  split
  · rename_i full
    exact room full
  · exact stored

theorem dinodeOf_saved (i : Nat) : dinodeOf sb (saved sb fs ip) i = edited sb fs ip i := by
  by_cases own : i = (fs.itable ip).inum
  · rw [own, saved, dinodeOf_putDinode_same, edited_self]
  · rw [saved, dinodeOf_putDinode_of_ne _ own, edited_of_ne own]

section Saved

variable (inside : (fs.itable ip).inum < sb.ninodes) (sound : Sound sb fs.disk (edited sb fs ip))
include inside sound

theorem refs_saved : refs sb (saved sb fs ip) = held sb fs ip :=
  pointers_frame (fun i _ => dinodeOf_saved i)
    fun _ _ table => putDinode_data _ inside (sound.target table).1

theorem sound_saved : Sound sb (saved sb fs ip) (dinodeOf sb (saved sb fs ip)) :=
  sound.frame (fun _ within => used_putDinode _ inside within) (refs_saved inside sound)

theorem held_saved (blocks : Finset Nat) :
    held sb (fs.setDisk (saved sb fs ip) blocks) ip = held sb fs ip := by
  have same : edited sb (fs.setDisk (saved sb fs ip) blocks) ip = dinodeOf sb (saved sb fs ip) := by
    rw [edited, setDisk_disk, setDisk_itable, update_eq_self_iff, dinodeOf_saved, edited_self]
  rw [held, same]
  exact refs_saved inside sound

theorem fileByte_saved (i k : Nat) :
    fileByte sb (saved sb fs ip) i k = bytes sb fs ip i k := by
  have look : pointers sb (saved sb fs ip) (dinodeOf sb (saved sb fs ip))
      (i, blockPointer (k / BSIZE)) = held sb fs ip (i, blockPointer (k / BSIZE)) :=
    congrFun (refs_saved inside sound) _
  cases old : held sb fs ip (i, blockPointer (k / BSIZE)) with
  | none =>
    rw [bytes_of_none old]
    simp only [fileByte, byteOf, look, old]
  | some b =>
    rw [bytes_of_held old, fileByte, byteOf_of_pointers (look.trans old), saved,
      putDinode_data _ inside (sound.target old).1]

end Saved

end Xv6.Fs
