import Mathlib.Data.Nat.Bitwise
import Xv6.Fs.Inode

/-!
# The disk as free map, inodes and data

The records of the layout read back as they were stored, and the regions of a superblock do not
overlap.
-/

namespace Xv6.Fs

open Command Bytes Function

@[simp] theorem Dinode.addr_setAddr_same (d : Dinode) (i : Nat) (address : UInt32) :
    (d.setAddr i address).addr i = address := by
  simp [Dinode.addr, Dinode.setAddr]

variable {b c : Nat} {i j : Nat}

theorem Dinode.addr_setAddr_of_ne (d : Dinode) (address : UInt32) (left : i ≤ NDIRECT)
    (right : j ≤ NDIRECT) (different : j ≠ i) :
    (d.setAddr i address).addr j = d.addr j := by
  have distinct : Fin.ofNat (NDIRECT + 1) j ≠ Fin.ofNat (NDIRECT + 1) i := by
    intro same
    apply different
    have values := congrArg Fin.val same
    simp only [Fin.val_ofNat] at values
    rwa [Nat.mod_eq_of_lt (by omega), Nat.mod_eq_of_lt (by omega)] at values
  exact update_of_ne distinct ..

@[simp] theorem loadShort_storeShort (block : Block) (offset : Nat) (value : Int16) :
    loadShort (storeShort block offset value) offset = value := by
  have bounded := value.toUInt16.toNat_lt
  simp only [loadShort, storeShort, load_store_same]
  rw [Nat.mod_eq_of_lt (by omega)]
  simp

@[simp] theorem loadUint_storeUint (block : Block) (offset : Nat) (value : UInt32) :
    loadUint (storeUint block offset value) offset = value := by
  have bounded := value.toNat_lt
  simp only [loadUint, storeUint, load_store_same]
  rw [Nat.mod_eq_of_lt (by omega)]
  simp

theorem loadUint_storeUint_of_ne (block : Block) (value : UInt32) (different : i ≠ j) :
    loadUint (storeUint block (4 * i) value) (4 * j) = loadUint block (4 * j) := by
  simp only [loadUint, storeUint]
  rw [load_store_disjoint _ _ (by omega)]

theorem loadShort_store_disjoint (block : Block) {offset width other : Nat} (value : Nat)
    (apart : other + 2 ≤ offset ∨ offset + width ≤ other) :
    loadShort (store block offset width value) other = loadShort block other := by
  simp only [loadShort, load_store_disjoint block value apart]

theorem load_dinodeBytes_header (d : Dinode) {other size : Nat} (before : other + size ≤ 12) :
    load (dinodeBytes d) other size =
      load (storeUint (storeShort (storeShort (storeShort (storeShort (fun _ => 0) 0 d.type)
        2 d.major) 4 d.minor) 6 d.nlink) 8 d.size) other size :=
  load_storeWords_outside _ _ (Or.inl before)

theorem loadUint_dinodeBytes_addr (d : Dinode) (i : Fin (NDIRECT + 1)) :
    loadUint (dinodeBytes d) (12 + 4 * i) = d.addrs i := by
  have bounded := (d.addrs i).toNat_lt
  have position : Fin.ofNat (NDIRECT + 1) i = i := by simp
  simp only [loadUint, dinodeBytes]
  rw [load_storeWords_inside _ 12 4 _ i.isLt, Dinode.addr, position, Nat.mod_eq_of_lt (by omega)]
  simp

theorem loadDinode_dinodeBytes (d : Dinode) : loadDinode (dinodeBytes d) 0 = d := by
  have type : loadShort (dinodeBytes d) 0 = d.type := by
    rw [loadShort, load_dinodeBytes_header d (by omega), ← loadShort, storeUint,
      loadShort_store_disjoint _ _ (by omega), storeShort, loadShort_store_disjoint _ _ (by omega),
      storeShort, loadShort_store_disjoint _ _ (by omega), storeShort,
      loadShort_store_disjoint _ _ (by omega), loadShort_storeShort]
  have major : loadShort (dinodeBytes d) 2 = d.major := by
    rw [loadShort, load_dinodeBytes_header d (by omega), ← loadShort, storeUint,
      loadShort_store_disjoint _ _ (by omega), storeShort, loadShort_store_disjoint _ _ (by omega),
      storeShort, loadShort_store_disjoint _ _ (by omega), loadShort_storeShort]
  have minor : loadShort (dinodeBytes d) 4 = d.minor := by
    rw [loadShort, load_dinodeBytes_header d (by omega), ← loadShort, storeUint,
      loadShort_store_disjoint _ _ (by omega), storeShort, loadShort_store_disjoint _ _ (by omega),
      loadShort_storeShort]
  have nlink : loadShort (dinodeBytes d) 6 = d.nlink := by
    rw [loadShort, load_dinodeBytes_header d (by omega), ← loadShort, storeUint,
      loadShort_store_disjoint _ _ (by omega), loadShort_storeShort]
  have size : loadUint (dinodeBytes d) 8 = d.size := by
    rw [loadUint, load_dinodeBytes_header d (by omega), ← loadUint, loadUint_storeUint]
  have addrs : (fun i : Fin (NDIRECT + 1) => loadUint (dinodeBytes d) (12 + 4 * i)) = d.addrs :=
    funext (loadUint_dinodeBytes_addr d)
  simp only [loadDinode, Nat.mul_zero, Nat.zero_add, type, major, minor, nlink, size, addrs]

theorem loadDinode_shift {left right : Block}
    (agree : ∀ k, k < 64 → left (64 * i + k) = right (64 * j + k)) :
    loadDinode left i = loadDinode right j := by
  have moved : ∀ offset width, offset + width ≤ 64 →
      load left (64 * i + offset) width = load right (64 * j + offset) width := by
    intro offset width inside
    apply load_shift
    intro k within
    simpa only [Nat.add_assoc] using agree (offset + k) (by omega)
  have type := moved 0 2 (by omega)
  have addrs : (fun k : Fin (NDIRECT + 1) => UInt32.ofNat (load left (64 * i + 12 + 4 * k) 4)) =
      fun k : Fin (NDIRECT + 1) => UInt32.ofNat (load right (64 * j + 12 + 4 * k) 4) := by
    funext k
    have bounded : (k : Nat) < 13 := k.isLt
    rw [Nat.add_assoc, moved _ _ (by omega), ← Nat.add_assoc]
  simp only [Nat.add_zero] at type
  simp only [loadDinode, loadShort, loadUint, type, moved 2 2 (by omega), moved 4 2 (by omega),
    moved 6 2 (by omega), moved 8 4 (by omega), addrs]

@[simp] theorem loadDinode_storeDinode_same (block : Block) (index : Nat) (d : Dinode) :
    loadDinode (storeDinode block index d) index = d := by
  refine (loadDinode_shift (j := 0) ?_).trans (loadDinode_dinodeBytes d)
  intro k inside
  simp [storeDinode, copy, inside]

theorem loadDinode_storeDinode_of_ne (block : Block) {index other : Nat} (d : Dinode)
    (different : other ≠ index) :
    loadDinode (storeDinode block index d) other = loadDinode block other := by
  apply loadDinode_shift
  intro k inside
  have outside : ¬ (64 * index ≤ 64 * other + k ∧ 64 * other + k < 64 * index + 64) := by omega
  simp only [storeDinode, copy, outside, ↓reduceIte]

theorem bitMask_toNat (bi : Nat) : (bitMask bi).toNat = 2 ^ (bi % 8) := by
  have small : bi % 8 < 8 := Nat.mod_lt _ (by decide)
  have power : 2 ^ (bi % 8) < 2 ^ 8 := Nat.pow_lt_pow_right (by decide) small
  have shift : (UInt8.ofNat (bi % 8)).toNat % 8 = bi % 8 := by
    rw [UInt8.toNat_ofNat']
    omega
  rw [bitMask, UInt8.toNat_shiftLeft, shift, UInt8.toNat_one, Nat.shiftLeft_eq, Nat.one_mul,
    Nat.mod_eq_of_lt power]

theorem bitSet_eq_testBit (block : Block) (bi : Nat) :
    bitSet block bi = (block (bi / 8)).toNat.testBit (bi % 8) := by
  have isZero : block (bi / 8) &&& bitMask bi = 0 ↔
      (block (bi / 8)).toNat.testBit (bi % 8) = false := by
    rw [← UInt8.toNat_inj, UInt8.toNat_and, bitMask_toNat, Nat.and_two_pow]
    cases (block (bi / 8)).toNat.testBit (bi % 8) <;> simp
  cases bit : (block (bi / 8)).toNat.testBit (bi % 8) with
  | false => simp [bitSet, isZero.mpr bit]
  | true =>
    have notZero : block (bi / 8) &&& bitMask bi ≠ 0 := by
      intro zero
      simp [isZero.mp zero] at bit
    simp [bitSet, notZero]

theorem bitSet_setBit (block : Block) (bi bj : Nat) :
    bitSet (setBit block bi) bj = (decide (bj = bi) || bitSet block bj) := by
  rw [bitSet_eq_testBit, bitSet_eq_testBit]
  by_cases sameByte : bj / 8 = bi / 8
  · rw [setBit, sameByte, update_self, UInt8.toNat_or, bitMask_toNat, Nat.testBit_or,
      Nat.testBit_two_pow, Bool.or_comm]
    congr 1
    simp only [decide_eq_decide]
    omega
  · have different : bj ≠ bi := fun same => sameByte (by rw [same])
    simp [setBit, sameByte, different]

theorem bitSet_clearBit (block : Block) (bi bj : Nat) :
    bitSet (clearBit block bi) bj = (decide (bj ≠ bi) && bitSet block bj) := by
  rw [bitSet_eq_testBit, bitSet_eq_testBit]
  by_cases sameByte : bj / 8 = bi / 8
  · have power : 2 ^ (bi % 8) < 2 ^ 8 :=
      Nat.pow_lt_pow_right (by decide) (Nat.mod_lt _ (by decide))
    have complement : (~~~ bitMask bi).toNat = 2 ^ 8 - (2 ^ (bi % 8) + 1) := by
      rw [UInt8.toNat_not, bitMask_toNat]
      simp only [UInt8.size]
      omega
    have small : bj % 8 < 8 := Nat.mod_lt _ (by decide)
    rw [clearBit, sameByte, update_self, UInt8.toNat_and, complement, Nat.testBit_and,
      Nat.testBit_two_pow_sub_succ power, Nat.testBit_two_pow, Bool.and_comm]
    congr 1
    simp only [small, decide_true, Bool.true_and, ← decide_not, decide_eq_decide]
    omega
  · have different : bj ≠ bi := fun same => sameByte (by rw [same])
    simp [clearBit, sameByte, different]

variable (sb : Superblock) (disk : Disk)

def used (b : Nat) : Bool := bitSet (disk (BBLOCK sb b)) (b % BPB)

def dinodeOf (i : Nat) : Dinode := loadDinode (disk (IBLOCK sb i)) (i % IPB)

def IsData (b : Nat) : Prop := sb.dataStart ≤ b ∧ b < sb.size

def markUsed (b : Nat) : Disk :=
  update disk (BBLOCK sb b) (setBit (disk (BBLOCK sb b)) (b % BPB))

def markFree (b : Nat) : Disk :=
  update disk (BBLOCK sb b) (clearBit (disk (BBLOCK sb b)) (b % BPB))

def putDinode (i : Nat) (d : Dinode) : Disk :=
  update disk (IBLOCK sb i) (storeDinode (disk (IBLOCK sb i)) (i % IPB) d)

def allocate (b : Nat) : Disk :=
  update (markUsed sb disk b) b (fill (markUsed sb disk b b) 0 BSIZE 0)

variable {sb disk}

theorem IBLOCK_mem {i : Nat} (inside : i < sb.ninodes) :
    sb.inodestart ≤ IBLOCK sb i ∧ IBLOCK sb i < sb.bmapstart := by
  have order := sb.inodes
  simp only [IBLOCK, IPB, BSIZE] at *
  omega

theorem BBLOCK_mem {b : Nat} (inside : b < sb.size) :
    sb.bmapstart ≤ BBLOCK sb b ∧ BBLOCK sb b < sb.dataStart := by
  simp only [BBLOCK, Superblock.dataStart, BPB, BSIZE]
  omega

theorem BBLOCK_ne_data (inside : b < sb.size) (data : IsData sb c) :
    BBLOCK sb b ≠ c := by
  have place := BBLOCK_mem inside
  have start := data.1
  omega

theorem IBLOCK_ne_data {i c : Nat} (inside : i < sb.ninodes) (data : IsData sb c) :
    IBLOCK sb i ≠ c := by
  have place := IBLOCK_mem inside
  have start := data.1
  simp only [Superblock.dataStart, BPB, BSIZE] at start
  omega

theorem IBLOCK_ne_BBLOCK {i b : Nat} (inode : i < sb.ninodes) (block : b < sb.size) :
    IBLOCK sb i ≠ BBLOCK sb b := by
  have left := IBLOCK_mem inode
  have right := BBLOCK_mem block
  omega

theorem bit_position (same : BBLOCK sb c = BBLOCK sb b) :
    c % BPB = b % BPB ↔ c = b := by
  simp only [BBLOCK, BPB, BSIZE] at *
  omega

theorem inode_position (same : IBLOCK sb j = IBLOCK sb i) :
    j % IPB = i % IPB ↔ j = i := by
  simp only [IBLOCK, IPB, BSIZE] at *
  omega

@[simp] theorem used_markUsed (b c : Nat) :
    used sb (markUsed sb disk b) c = (decide (c = b) || used sb disk c) := by
  by_cases same : BBLOCK sb c = BBLOCK sb b
  · simp only [used, markUsed, same, update_self, bitSet_setBit, bit_position same]
  · have different : c ≠ b := fun equal => same (by rw [equal])
    simp [used, markUsed, same, different]

@[simp] theorem used_markFree (b c : Nat) :
    used sb (markFree sb disk b) c = (decide (c ≠ b) && used sb disk c) := by
  by_cases same : BBLOCK sb c = BBLOCK sb b
  · simp only [used, markFree, same, update_self, bitSet_clearBit, ne_eq,
      bit_position same]
  · have different : c ≠ b := fun equal => same (by rw [equal])
    simp [used, markFree, same, different]

theorem used_putDinode {i c : Nat} (d : Dinode) (inode : i < sb.ninodes) (block : c < sb.size) :
    used sb (putDinode sb disk i d) c = used sb disk c := by
  have apart := (IBLOCK_ne_BBLOCK inode block).symm
  simp [used, putDinode, apart]

theorem used_update_data (contents : Block) (data : IsData sb b) (block : c < sb.size) :
    used sb (update disk b contents) c = used sb disk c := by
  have apart := BBLOCK_ne_data block data
  simp [used, apart]

theorem dinodeOf_markUsed {b i : Nat} (block : b < sb.size) (inode : i < sb.ninodes) :
    dinodeOf sb (markUsed sb disk b) i = dinodeOf sb disk i := by
  have apart := IBLOCK_ne_BBLOCK inode block
  simp [dinodeOf, markUsed, apart]

theorem dinodeOf_markFree {b i : Nat} (block : b < sb.size) (inode : i < sb.ninodes) :
    dinodeOf sb (markFree sb disk b) i = dinodeOf sb disk i := by
  have apart := IBLOCK_ne_BBLOCK inode block
  simp [dinodeOf, markFree, apart]

@[simp] theorem dinodeOf_putDinode_same (i : Nat) (d : Dinode) :
    dinodeOf sb (putDinode sb disk i d) i = d := by
  simp [dinodeOf, putDinode]

theorem dinodeOf_putDinode_of_ne (d : Dinode) (different : j ≠ i) :
    dinodeOf sb (putDinode sb disk i d) j = dinodeOf sb disk j := by
  by_cases same : IBLOCK sb j = IBLOCK sb i
  · have position : j % IPB ≠ i % IPB := fun equal => different ((inode_position same).mp equal)
    simp only [dinodeOf, putDinode, same, update_self]
    exact loadDinode_storeDinode_of_ne _ _ position
  · simp [dinodeOf, putDinode, same]

theorem dinodeOf_update_data {b i : Nat} (contents : Block) (data : IsData sb b)
    (inode : i < sb.ninodes) :
    dinodeOf sb (update disk b contents) i = dinodeOf sb disk i := by
  have apart := IBLOCK_ne_data inode data
  simp [dinodeOf, apart]

theorem markUsed_data (block : b < sb.size) (data : IsData sb c) :
    markUsed sb disk b c = disk c := by
  have apart := (BBLOCK_ne_data block data).symm
  simp [markUsed, apart]

theorem markFree_data (block : b < sb.size) (data : IsData sb c) :
    markFree sb disk b c = disk c := by
  have apart := (BBLOCK_ne_data block data).symm
  simp [markFree, apart]

theorem putDinode_data {i c : Nat} (d : Dinode) (inode : i < sb.ninodes) (data : IsData sb c) :
    putDinode sb disk i d c = disk c := by
  have apart := (IBLOCK_ne_data inode data).symm
  simp [putDinode, apart]

theorem used_allocate (data : IsData sb b) (block : c < sb.size) :
    used sb (allocate sb disk b) c = (decide (c = b) || used sb disk c) := by
  rw [allocate, used_update_data _ data block, used_markUsed]

theorem dinodeOf_allocate {b i : Nat} (data : IsData sb b) (inode : i < sb.ninodes) :
    dinodeOf sb (allocate sb disk b) i = dinodeOf sb disk i := by
  rw [allocate, dinodeOf_update_data _ data inode, dinodeOf_markUsed data.2 inode]

theorem allocate_data_of_ne (block : b < sb.size) (data : IsData sb c) (different : c ≠ b) :
    allocate sb disk b c = disk c := by
  rw [allocate, update_of_ne different, markUsed_data block data]

theorem allocate_zero (b : Nat) {index : Nat} (inside : index < BSIZE) :
    allocate sb disk b b index = 0 := by
  simp [allocate, fill, inside]

theorem loadDinode_zero (index : Nat) : loadDinode (fun _ => 0) index = Dinode.zero := by
  have zero : ∀ offset width, load (fun _ => 0) offset width = 0 :=
    fun offset width => load_zero fun _ _ _ => rfl
  simp only [loadDinode, loadShort, loadUint, zero]
  rfl

def markAll (sb : Superblock) (disk : Disk) (blocks : List Nat) : Disk :=
  blocks.foldr (fun b marked => markUsed sb marked b) disk

theorem used_markAll (disk : Disk) (blocks : List Nat) (b : Nat) :
    used sb (markAll sb disk blocks) b = (decide (b ∈ blocks) || used sb disk b) := by
  induction blocks with
  | nil => simp [markAll]
  | cons first rest ih =>
    rw [markAll, List.foldr_cons, ← markAll, used_markUsed, ih]
    by_cases here : b = first
    · simp [here]
    · simp [here]

theorem dinodeOf_markAll (disk : Disk) {blocks : List Nat} (inside : ∀ b ∈ blocks, b < sb.size)
    {i : Nat} (range : i < sb.ninodes) :
    dinodeOf sb (markAll sb disk blocks) i = dinodeOf sb disk i := by
  induction blocks with
  | nil => rfl
  | cons first rest ih =>
    rw [markAll, List.foldr_cons, ← markAll,
      dinodeOf_markUsed (inside first List.mem_cons_self) range,
      ih fun b listed => inside b (List.mem_cons_of_mem _ listed)]

theorem markAll_data (disk : Disk) {blocks : List Nat} (inside : ∀ b ∈ blocks, b < sb.size)
    {c : Nat} (data : IsData sb c) : markAll sb disk blocks c = disk c := by
  induction blocks with
  | nil => rfl
  | cons first rest ih =>
    rw [markAll, List.foldr_cons, ← markAll,
      markUsed_data (inside first List.mem_cons_self) data,
      ih fun b listed => inside b (List.mem_cons_of_mem _ listed)]

end Xv6.Fs
