import Xv6.Library.Ownership
import Xv6.Fs.Allocation

/-!
# Who refers to which block

An allocated inode refers to blocks through its direct addresses, through the address of its
indirect block and through the words of that block.
-/

namespace Xv6.Fs

open Command Bytes Ownership

/-- Where an inode keeps a block address. -/
inductive Pointer where
  | direct (k : Nat)
  | table
  | entry (j : Nat)
  deriving DecidableEq, Repr

def Dinode.pointer (disk : Disk) (d : Dinode) : Pointer → Nat
  | .direct k => if k < NDIRECT then (d.addr k).toNat else 0
  | .table => (d.addr NDIRECT).toNat
  | .entry j =>
    if d.addr NDIRECT ≠ 0 ∧ j < NINDIRECT then
      (loadUint (disk (d.addr NDIRECT).toNat) (4 * j)).toNat
    else 0

def Live (sb : Superblock) (D : Nat → Dinode) (i : Nat) : Prop :=
  i < sb.ninodes ∧ (D i).type ≠ 0

instance (sb : Superblock) (D : Nat → Dinode) (i : Nat) : Decidable (Live sb D i) :=
  inferInstanceAs (Decidable (_ ∧ _))

def pointers (sb : Superblock) (disk : Disk) (D : Nat → Dinode) (place : Nat × Pointer) :
    Option Nat :=
  if Live sb D place.1 ∧ (D place.1).pointer disk place.2 ≠ 0 then
    some ((D place.1).pointer disk place.2)
  else none

def blockPointer (bn : Nat) : Pointer :=
  if bn < NDIRECT then .direct bn else .entry (bn - NDIRECT)

def addrPointer (k : Nat) : Pointer := if k < NDIRECT then .direct k else .table

def byteOf (sb : Superblock) (disk : Disk) (D : Nat → Dinode) (i k : Nat) : UInt8 :=
  match pointers sb disk D (i, blockPointer (k / BSIZE)) with
  | some b => disk b (k % BSIZE)
  | none => 0

structure Sound (sb : Superblock) (disk : Disk) (D : Nat → Dinode) : Prop where
  reserved : ∀ b, b < sb.dataStart → used sb disk b = true
  books : Balanced (IsData sb) (fun b => used sb disk b = true) (pointers sb disk D)

variable {sb : Superblock} {disk disk' : Disk} {D D' : Nat → Dinode} {place : Nat × Pointer}
  {p : Pointer} {b : Nat}

theorem pointers_eq_some {i b : Nat} :
    pointers sb disk D (i, p) = some b ↔ Live sb D i ∧ (D i).pointer disk p = b ∧ b ≠ 0 := by
  simp only [pointers, Option.ite_none_right_eq_some, Option.some.injEq]
  constructor
  · rintro ⟨⟨live, nonzero⟩, rfl⟩
    exact ⟨live, rfl, nonzero⟩
  · rintro ⟨live, rfl, nonzero⟩
    exact ⟨⟨live, nonzero⟩, rfl⟩

theorem pointers_of_zero {i : Nat} (zero : (D i).pointer disk p = 0) :
    pointers sb disk D (i, p) = none := by
  simp [pointers, zero]

theorem pointers_of_live {i : Nat} (live : Live sb D i) (nonzero : (D i).pointer disk p ≠ 0) :
    pointers sb disk D (i, p) = some ((D i).pointer disk p) := by
  simp [pointers, live, nonzero]

theorem pointers_congr_at {i : Nat} (type : (D' i).type = (D i).type)
    (direct : ∀ m, m < NDIRECT → p = .direct m → (D' i).addr m = (D i).addr m)
    (table : (∀ m, p ≠ .direct m) → (D' i).addr NDIRECT = (D i).addr NDIRECT)
    (words : ∀ t, pointers sb disk D (i, .table) = some t → disk' t = disk t) :
    pointers sb disk' D' (i, p) = pointers sb disk D (i, p) := by
  have sameLive : Live sb D' i ↔ Live sb D i := by simp only [Live, type]
  by_cases live : Live sb D i
  · have target : (D' i).pointer disk' p = (D i).pointer disk p := by
      cases p with
      | direct m =>
        by_cases small : m < NDIRECT
        · simp only [Dinode.pointer, direct m small rfl]
        · simp only [Dinode.pointer, small, ↓reduceIte]
      | table => simp only [Dinode.pointer, table (by simp)]
      | entry j =>
        have sameTable := table (by simp)
        by_cases none : (D i).addr NDIRECT = 0
        · simp [Dinode.pointer, sameTable, none]
        · have nonzero : ((D i).addr NDIRECT).toNat ≠ 0 := by
            simpa [← UInt32.toNat_inj] using none
          have same := words _ (pointers_of_live (p := .table) live nonzero)
          simp only [Dinode.pointer] at same
          simp only [Dinode.pointer, sameTable, same]
    simp only [pointers, sameLive, target]
  · simp [pointers, sameLive, live]

theorem pointers_congr {i : Nat} (p : Pointer) (type : (D' i).type = (D i).type)
    (addrs : (D' i).addrs = (D i).addrs)
    (words : ∀ t, pointers sb disk D (i, .table) = some t → disk' t = disk t) :
    pointers sb disk' D' (i, p) = pointers sb disk D (i, p) :=
  pointers_congr_at type (fun _ _ _ => by simp only [Dinode.addr, addrs])
    (fun _ => by simp only [Dinode.addr, addrs]) words

theorem Sound.target (sound : Sound sb disk D) (kept : pointers sb disk D place = some b) :
    IsData sb b ∧ used sb disk b = true :=
  sound.books.inside place b kept

theorem Sound.free_data (sound : Sound sb disk D) (block : b < sb.size)
    (free : used sb disk b = false) : IsData sb b := by
  refine ⟨?_, block⟩
  by_contra below
  have marked := sound.reserved b (by omega)
  simp [free] at marked

theorem Sound.target_ne (sound : Sound sb disk D) {b c : Nat}
    (kept : pointers sb disk D place = some c) (free : used sb disk b = false) : c ≠ b := by
  rintro rfl
  have marked := (sound.target kept).2
  simp [free] at marked

theorem IsData.small (data : IsData sb b) : (UInt32.ofNat b).toNat = b ∧ b ≠ 0 := by
  have order := sb.boot
  have log := sb.log
  have inodes := sb.inodes
  have counted := sb.counted
  obtain ⟨lower, upper⟩ := data
  simp only [Superblock.dataStart, BPB, IPB, BSIZE] at *
  rw [UInt32.toNat_ofNat']
  omega

structure Added (sb : Superblock) (disk disk' : Disk) (D D' : Nat → Dinode)
    (place : Nat × Pointer) (b : Nat) : Prop where
  placed : pointers sb disk' D' place = some b
  same : ∀ other, other ≠ place → pointers sb disk' D' other = pointers sb disk D other
  marked : ∀ c, c < sb.size → used sb disk' c = (decide (c = b) || used sb disk c)

theorem Sound.add (sound : Sound sb disk D) (data : IsData sb b) (free : used sb disk b = false)
    (empty : pointers sb disk D place = none) (added : Added sb disk disk' D D' place b) :
    Sound sb disk' D' := by
  constructor
  · intro c below
    have order : sb.dataStart ≤ sb.size := by
      have := data.1
      have := data.2
      omega
    rw [added.marked c (by omega), sound.reserved c below, Bool.or_true]
  · refine sound.books.take data (by simp [free]) empty ?_ added.placed added.same
    intro other within
    simp [added.marked other within.2]

section AddAddress

variable {x k b : Nat}

theorem Sound.added_addr (sound : Sound sb disk D) (D' : Nat → Dinode) (live : Live sb D x) (position : k ≤ NDIRECT)
    (empty : (D x).addr k = 0) (block : b < sb.size) (free : used sb disk b = false)
    (here : D' x = (D x).setAddr k (UInt32.ofNat b))
    (elsewhere : ∀ i, i < sb.ninodes → i ≠ x → D' i = D i) :
    Added sb disk (allocate sb disk b) D D' (x, addrPointer k) b := by
  have data := sound.free_data block free
  obtain ⟨exact', nonzero⟩ := data.small
  have stillLive : Live sb D' x := ⟨live.1, by rw [here]; exact live.2⟩
  have words : ∀ i t, pointers sb disk D (i, .table) = some t → allocate sb disk b t = disk t :=
    fun i t kept => allocate_data_of_ne block (sound.target kept).1 (sound.target_ne kept free)
  refine ⟨?_, ?_, fun c within => used_allocate data within⟩
  · have target : (D' x).pointer (allocate sb disk b) (addrPointer k) = b := by
      unfold addrPointer
      split
      · rename_i small
        simp [Dinode.pointer, small, here, exact']
      · have last : k = NDIRECT := by omega
        simp [Dinode.pointer, here, last, exact']
    exact pointers_eq_some.mpr ⟨stillLive, target, nonzero⟩
  · rintro ⟨i, p⟩ different
    by_cases own : i = x
    · subst own
      have sameAddr : ∀ m, m ≤ NDIRECT → m ≠ k → (D' i).addr m = (D i).addr m := by
        intro m bounded apart
        rw [here, Dinode.addr_setAddr_of_ne _ _ position bounded apart]
      by_cases fresh : k = NDIRECT ∧ ∃ j, p = .entry j
      · -- The new indirect block is zeroed, so its entries are empty.
        obtain ⟨rfl, j, rfl⟩ := fresh
        have zero : (D' i).pointer (allocate sb disk b) (.entry j) = 0 := by
          simp only [Dinode.pointer, here, Dinode.addr_setAddr_same, exact']
          split
          · rename_i inside
            have word : load (allocate sb disk b b) (4 * j) 4 = 0 := by
              apply load_zero
              intro index lower upper
              apply allocate_zero
              simp only [NINDIRECT, BSIZE] at *
              omega
            simp [loadUint, word]
          · rfl
        have old : (D i).pointer disk (.entry j) = 0 := by simp [Dinode.pointer, empty]
        rw [pointers_of_zero zero, pointers_of_zero old]
      · refine pointers_congr_at (by rw [here]; rfl) ?_ ?_ (words i)
        · rintro m small rfl
          refine sameAddr m (by omega) ?_
          rintro rfl
          simp [addrPointer, small] at different
        · intro notDirect
          refine sameAddr NDIRECT (Nat.le_refl _) ?_
          rintro rfl
          cases p with
          | direct m => exact notDirect m rfl
          | table => simp [addrPointer] at different
          | entry j => exact fresh ⟨rfl, j, rfl⟩
    · by_cases range : i < sb.ninodes
      · have unchanged := elsewhere i range own
        exact pointers_congr p (by rw [unchanged]) (by rw [unchanged]) (words i)
      · simp [pointers, Live, range]

end AddAddress

theorem Sound.added_entry (sound : Sound sb disk D) {x j b : Nat} (live : Live sb D x)
    (table : (D x).addr NDIRECT ≠ 0) (inside : j < NINDIRECT) (block : b < sb.size)
    (free : used sb disk b = false) (same : ∀ i, i < sb.ninodes → D' i = D i) :
    Added sb disk (Function.update (allocate sb disk b) ((D x).addr NDIRECT).toNat
      (storeUint (allocate sb disk b ((D x).addr NDIRECT).toNat) (4 * j) (UInt32.ofNat b)))
      D D' (x, .entry j) b := by
  have data := sound.free_data block free
  obtain ⟨exact', nonzero⟩ := data.small
  have nonzeroTable : ((D x).addr NDIRECT).toNat ≠ 0 := by
    simpa [← UInt32.toNat_inj] using table
  have kept : pointers sb disk D (x, .table) = some ((D x).addr NDIRECT).toNat :=
    pointers_of_live (p := .table) live nonzeroTable
  have tableData := (sound.target kept).1
  have tableOld : allocate sb disk b ((D x).addr NDIRECT).toNat =
      disk ((D x).addr NDIRECT).toNat :=
    allocate_data_of_ne block tableData (sound.target_ne kept free)
  refine ⟨?_, ?_, ?_⟩
  · refine pointers_eq_some.mpr ⟨?_, ?_, nonzero⟩
    · simpa only [Live, same x live.1] using live
    · simp [Dinode.pointer, same x live.1, table, inside, exact']
  · rintro ⟨i, p⟩ different
    by_cases range : i < sb.ninodes
    · by_cases own : i = x
      · subst own
        have target : ∀ q, q ≠ .entry j →
            (D' i).pointer (Function.update (allocate sb disk b) ((D i).addr NDIRECT).toNat
              (storeUint (allocate sb disk b ((D i).addr NDIRECT).toNat) (4 * j)
                (UInt32.ofNat b))) q = (D i).pointer disk q := by
          intro q apart
          cases q with
          | direct m | table => simp only [Dinode.pointer, same i range]
          | entry m =>
            have other : j ≠ m := by
              rintro rfl
              exact apart rfl
            simp only [Dinode.pointer, same i range, Function.update_self, tableOld,
              loadUint_storeUint_of_ne _ _ other]
        have sameLive : Live sb D' i ↔ Live sb D i := by simp only [Live, same i range]
        have apart : p ≠ .entry j := by
          rintro rfl
          exact different rfl
        simp only [pointers, sameLive, target p apart]
      · refine pointers_congr p (by rw [same i range]) (by rw [same i range]) ?_
        intro t tableOf
        have apart : t ≠ ((D x).addr NDIRECT).toNat := by
          rintro rfl
          have one := sound.books.single _ _ _ tableOf kept
          exact own (congrArg Prod.fst one)
        rw [Function.update_of_ne apart,
          allocate_data_of_ne block (sound.target tableOf).1 (sound.target_ne tableOf free)]
    · simp [pointers, Live, range]
  · intro c within
    rw [used_update_data _ tableData within, used_allocate data within]

theorem Added.byteOf_eq (added : Added sb disk disk' D D' place b)
    (empty : pointers sb disk D place = none)
    (kept : ∀ i n c, pointers sb disk D (i, blockPointer n) = some c → disk' c = disk c)
    (zero : ∀ n, place.2 = blockPointer n → ∀ index, index < BSIZE → disk' b index = 0) (i k : Nat) :
    byteOf sb disk' D' i k = byteOf sb disk D i k := by
  have inside : k % BSIZE < BSIZE := Nat.mod_lt _ (by decide)
  by_cases here : (i, blockPointer (k / BSIZE)) = place
  · subst here
    simp only [byteOf, added.placed, empty]
    exact zero (k / BSIZE) rfl _ inside
  · simp only [byteOf, added.same _ here]
    cases old : pointers sb disk D (i, blockPointer (k / BSIZE)) with
    | none => rfl
    | some c => simp only [kept i _ c old]

theorem blockPointer_ne_table (n : Nat) : blockPointer n ≠ .table := by
  unfold blockPointer
  split <;> simp

theorem pointers_frame (same : ∀ i, i < sb.ninodes → D' i = D i)
    (words : ∀ i t, pointers sb disk D (i, .table) = some t → disk' t = disk t) :
    pointers sb disk' D' = pointers sb disk D := by
  funext place
  obtain ⟨i, p⟩ := place
  by_cases range : i < sb.ninodes
  · exact pointers_congr p (by rw [same i range]) (by rw [same i range]) (words i)
  · simp [pointers, Live, range]

theorem Sound.frame (sound : Sound sb disk D)
    (marks : ∀ b, b < sb.size → used sb disk' b = used sb disk b)
    (kept : pointers sb disk' D' = pointers sb disk D) : Sound sb disk' D' := by
  have order : sb.dataStart ≤ sb.size := by
    have bitmap := sb.bitmap
    simp only [Superblock.dataStart]
    omega
  refine ⟨fun b below => ?_, sound.books.congr (fun b within => ?_) fun place => by rw [kept]⟩
  · rw [marks b (by omega), sound.reserved b below]
  · rw [marks b within.2]

theorem blockPointer_injective {m n : Nat} (same : blockPointer m = blockPointer n) : m = n := by
  unfold blockPointer at same
  split at same <;> split at same <;> simp at same <;> omega

theorem byteOf_of_pointers {i k b : Nat}
    (kept : pointers sb disk D (i, blockPointer (k / BSIZE)) = some b) :
    byteOf sb disk D i k = disk b (k % BSIZE) := by
  simp only [byteOf, kept]

end Xv6.Fs
