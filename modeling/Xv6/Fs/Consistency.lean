import Xv6.Fs.Contents
import Xv6.Fs.Truncation

/-!
# Consistent states between calls

Between two calls the disk is sound for the inodes it stores, no allocated inode has a hole
below its size, and the inode table agrees with the disk: an inode number is in at most one
slot, and a valid slot holds the inode as it is on disk.
-/

namespace Xv6.Fs

open Command Bytes Ownership Function

def NoHoles (sb : Superblock) (disk : Disk) : Prop :=
  ∀ i, Live sb (dinodeOf sb disk) i →
    (dinodeOf sb disk i).size.toNat ≤ MAXFILE * BSIZE ∧
    ∀ bn, bn * BSIZE < (dinodeOf sb disk i).size.toNat →
      ∃ b, refs sb disk (i, blockPointer bn) = some b

structure Consistent (sb : Superblock) (fs : State) : Prop where
  sound : Sound sb fs.disk (dinodeOf sb fs.disk)
  dense : NoHoles sb fs.disk
  single : ∀ s t, s < NINODE → t < NINODE → 0 < (fs.itable s).ref → 0 < (fs.itable t).ref →
    (fs.itable s).inum = (fs.itable t).inum → s = t
  cached : ∀ s, s < NINODE → 0 < (fs.itable s).ref → (fs.itable s).valid = true →
    Live sb (dinodeOf sb fs.disk) (fs.itable s).inum ∧
      (fs.itable s).d = dinodeOf sb fs.disk (fs.itable s).inum
  counted : ∀ s, s < NINODE → 0 ≤ (fs.itable s).ref

theorem Consistent.congr {sb : Superblock} {fs after : State} (consistent : Consistent sb fs)
    (disk : after.disk = fs.disk) (itable : after.itable = fs.itable) : Consistent sb after := by
  obtain ⟨_, _, logged, history, unlogged⟩ := after
  subst disk itable
  exact ⟨consistent.sound, consistent.dense, consistent.single, consistent.cached,
    consistent.counted⟩

/-- A slot that its user has locked. -/
structure Locked (fs : State) (ip : Nat) : Prop where
  slot : ip < NINODE
  ref : 0 < (fs.itable ip).ref
  valid : (fs.itable ip).valid = true

variable {sb : Superblock} {stop : Panic → Prop} {fs middle : State} {ip : Nat}

section Locked

variable (consistent : Consistent sb fs) (locked : Locked fs ip)
include consistent locked

theorem Locked.live : Live sb (dinodeOf sb fs.disk) (fs.itable ip).inum :=
  (consistent.cached ip locked.slot locked.ref locked.valid).1

theorem Locked.copy : (fs.itable ip).d = dinodeOf sb fs.disk (fs.itable ip).inum :=
  (consistent.cached ip locked.slot locked.ref locked.valid).2

theorem Locked.edited_eq : edited sb fs ip = dinodeOf sb fs.disk := by
  rw [edited, locked.copy consistent, update_eq_self]

theorem Locked.held_eq : held sb fs ip = refs sb fs.disk := by
  rw [held, refs, locked.edited_eq consistent]

theorem Locked.bytes_eq : bytes sb fs ip = fileByte sb fs.disk := by
  rw [bytes, fileByte, locked.edited_eq consistent]

theorem Locked.opened : Opened sb fs ip := by
  refine ⟨(locked.live consistent).1, ?_, ?_⟩
  · rw [locked.copy consistent]
    exact (locked.live consistent).2
  · rw [locked.edited_eq consistent]
    exact consistent.sound

theorem Locked.bounded : (fs.itable ip).d.size.toNat ≤ MAXFILE * BSIZE := by
  rw [locked.copy consistent]
  exact (consistent.dense _ (locked.live consistent)).1

theorem Locked.mapped : Mapped sb fs ip (fs.itable ip).d.size.toNat := by
  intro bn below
  rw [locked.held_eq consistent]
  rw [locked.copy consistent] at below
  exact (consistent.dense _ (locked.live consistent)).2 bn below

end Locked

theorem Consistent.replace (consistent : Consistent sb fs) (locked : Locked fs ip) {after : State}
    {d : Dinode} (sound : Sound sb after.disk (dinodeOf sb after.disk))
    (slot : after.itable = update fs.itable ip { fs.itable ip with d := d })
    (type : d.type ≠ 0) (dinode : dinodeOf sb after.disk (fs.itable ip).inum = d)
    (dinodes : ∀ j, j < sb.ninodes → j ≠ (fs.itable ip).inum →
      dinodeOf sb after.disk j = dinodeOf sb fs.disk j)
    (others : ∀ j p, j ≠ (fs.itable ip).inum → refs sb after.disk (j, p) = refs sb fs.disk (j, p))
    (bounded : d.size.toNat ≤ MAXFILE * BSIZE)
    (mapped : ∀ bn, bn * BSIZE < d.size.toNat →
      ∃ b, refs sb after.disk ((fs.itable ip).inum, blockPointer bn) = some b) :
    Consistent sb after := by
  have entry : after.itable ip = { fs.itable ip with d := d } := by
    rw [slot, update_self]
  have fields : ∀ s, (after.itable s).inum = (fs.itable s).inum ∧
      (after.itable s).ref = (fs.itable s).ref ∧
      (after.itable s).valid = (fs.itable s).valid := by
    intro s
    by_cases same : s = ip
    · rw [same, entry]
      exact ⟨rfl, rfl, rfl⟩
    · rw [slot, update_of_ne same]
      exact ⟨rfl, rfl, rfl⟩
  refine ⟨sound, ?_, ?_, ?_, ?_⟩
  · intro i live
    by_cases mine : i = (fs.itable ip).inum
    · subst mine
      rw [dinode]
      exact ⟨bounded, mapped⟩
    · rw [Live, dinodes i live.1 mine] at live
      rw [dinodes i live.1 mine]
      obtain ⟨small, dense⟩ := consistent.dense i live
      exact ⟨small, fun bn below => by rw [others i _ mine]; exact dense bn below⟩
  · intro s t left right first second same
    rw [(fields _).2.1] at first second
    rw [(fields _).1, (fields _).1] at same
    exact consistent.single s t left right first second same
  · intro s left positive valid
    rw [(fields _).2.1] at positive
    rw [(fields _).2.2] at valid
    rw [(fields _).1]
    by_cases same : s = ip
    · subst same
      rw [Live, dinode, entry]
      exact ⟨⟨(locked.live consistent).1, type⟩, rfl⟩
    · have different : (fs.itable s).inum ≠ (fs.itable ip).inum :=
        fun equal => same (consistent.single s ip left locked.slot positive locked.ref equal)
      obtain ⟨live, copy⟩ := consistent.cached s left positive valid
      rw [Live, dinodes _ live.1 different, slot, update_of_ne same]
      exact ⟨live, copy⟩
  · intro s left
    rw [(fields _).2.1]
    exact consistent.counted s left

structure Rewritten (sb : Superblock) (fs : State) (ip : Nat) (d : Dinode)
    (contents : Nat → UInt8) (after : State) : Prop where
  consistent : Consistent sb after
  slot : after.itable = update fs.itable ip { fs.itable ip with d := d }
  dinode : dinodeOf sb after.disk (fs.itable ip).inum = d
  dinodes : ∀ j, j < sb.ninodes → j ≠ (fs.itable ip).inum →
    dinodeOf sb after.disk j = dinodeOf sb fs.disk j
  bytes : ∀ i k, fileByte sb after.disk i k =
    if i = (fs.itable ip).inum then contents k else fileByte sb fs.disk i k
  history : after.freedInodes = fs.freedInodes

theorem Rewritten.locked {d : Dinode} {contents : Nat → UInt8} {after : State}
    (rewritten : Rewritten sb fs ip d contents after) (locked : Locked fs ip) :
    Locked after ip ∧ (after.itable ip).inum = (fs.itable ip).inum := by
  have entry : after.itable ip = { fs.itable ip with d := d } := by
    rw [rewritten.slot, update_self]
  refine ⟨⟨locked.slot, ?_, ?_⟩, ?_⟩
  · rw [entry]
    exact locked.ref
  · rw [entry]
    exact locked.valid
  · rw [entry]

/-- Saving an open inode whose work changed no other inode. -/
theorem Consistent.rewrite (consistent : Consistent sb fs) (locked : Locked fs ip) {d : Dinode}
    (opened : Opened sb middle ip)
    (slot : middle.itable = update fs.itable ip { fs.itable ip with d := d })
    (dinodes : ∀ i, i < sb.ninodes → dinodeOf sb middle.disk i = dinodeOf sb fs.disk i)
    (others : ∀ i p, i ≠ (fs.itable ip).inum → held sb middle ip (i, p) = refs sb fs.disk (i, p))
    (bytes : ∀ i k, i ≠ (fs.itable ip).inum →
      bytes sb middle ip i k = fileByte sb fs.disk i k)
    (bounded : d.size.toNat ≤ MAXFILE * BSIZE) (mapped : Mapped sb middle ip d.size.toNat)
    (history : middle.freedInodes = fs.freedInodes) :
    Rewritten sb fs ip d (Fs.bytes sb middle ip (fs.itable ip).inum)
      (middle.setDisk (saved sb middle ip) {IBLOCK sb (middle.itable ip).inum}) := by
  have entry : middle.itable ip = { fs.itable ip with d := d } := by
    rw [slot, update_self]
  have sameInum : (middle.itable ip).inum = (fs.itable ip).inum := by rw [entry]
  have own : dinodeOf sb (saved sb middle ip) (fs.itable ip).inum = d := by
    rw [dinodeOf_saved, edited_own sameInum, entry]
  have other : ∀ j, j < sb.ninodes → j ≠ (fs.itable ip).inum →
      dinodeOf sb (saved sb middle ip) j = dinodeOf sb fs.disk j := by
    intro j range different
    rw [dinodeOf_saved, edited_of_ne (by rw [sameInum]; exact different), dinodes j range]
  have pointers := refs_saved opened.inum opened.sound
  refine ⟨consistent.replace locked (sound_saved opened.inum opened.sound) slot ?_ own other
    (fun j p different => ?_) bounded (fun bn below => ?_), slot, own, other, ?_, history⟩
  · have type := opened.type
    rwa [entry] at type
  · rw [setDisk_disk, pointers, others j p different]
  · rw [setDisk_disk, pointers, ← sameInum]
    exact mapped bn below
  · intro i k
    rw [setDisk_disk, fileByte_saved opened.inum opened.sound]
    by_cases own : i = (fs.itable ip).inum
    · rw [if_pos own, own]
    · rw [if_neg own, bytes i k own]

theorem held_setSlot {entry : Inode} (inum : entry.inum = (fs.itable ip).inum)
    (type : entry.d.type = (fs.itable ip).d.type) (addrs : entry.d.addrs = (fs.itable ip).d.addrs) :
    held sb (fs.setSlot ip entry) ip = held sb fs ip := by
  funext place
  obtain ⟨i, p⟩ := place
  have fields : (edited sb (fs.setSlot ip entry) ip i).type = (edited sb fs ip i).type ∧
      (edited sb (fs.setSlot ip entry) ip i).addrs = (edited sb fs ip i).addrs := by
    by_cases own : i = (fs.itable ip).inum
    · subst own
      rw [edited_own (by rw [setSlot_self, inum]), setSlot_self, edited_self]
      exact ⟨type, addrs⟩
    · rw [edited_of_ne (by rw [setSlot_self, inum]; exact own), edited_of_ne own]
      exact ⟨rfl, rfl⟩
  exact pointers_congr p fields.1 fields.2 fun _ _ => rfl

theorem bytes_setSlot {entry : Inode} (inum : entry.inum = (fs.itable ip).inum)
    (type : entry.d.type = (fs.itable ip).d.type) (addrs : entry.d.addrs = (fs.itable ip).d.addrs)
    (i k : Nat) : bytes sb (fs.setSlot ip entry) ip i k = bytes sb fs ip i k := by
  have same : held sb (fs.setSlot ip entry) ip (i, blockPointer (k / BSIZE)) =
      held sb fs ip (i, blockPointer (k / BSIZE)) := by
    rw [held_setSlot inum type addrs]
  cases old : held sb fs ip (i, blockPointer (k / BSIZE)) with
  | none => rw [bytes_of_none (same.trans old), bytes_of_none old]
  | some b => rw [bytes_of_held (same.trans old), bytes_of_held old, setSlot_disk]

theorem Opened.setSlot (opened : Opened sb fs ip) {entry : Inode}
    (inum : entry.inum = (fs.itable ip).inum) (type : entry.d.type = (fs.itable ip).d.type)
    (addrs : entry.d.addrs = (fs.itable ip).d.addrs) : Opened sb (fs.setSlot ip entry) ip := by
  refine ⟨?_, ?_, opened.sound.frame (fun _ _ => rfl) (held_setSlot inum type addrs)⟩
  · rw [setSlot_self, inum]
    exact opened.inum
  · rw [setSlot_self, type]
    exact opened.type

theorem Consistent.save_fields (consistent : Consistent sb fs) (locked : Locked fs ip) {d : Dinode}
    {edit : State} (change : edit = fs.setSlot ip { fs.itable ip with d := d })
    (type : d.type = (fs.itable ip).d.type) (size : d.size = (fs.itable ip).d.size)
    (addrs : d.addrs = (fs.itable ip).d.addrs) :
    Rewritten sb fs ip d (fileByte sb fs.disk (fs.itable ip).inum)
      (edit.setDisk (saved sb edit ip) {IBLOCK sb (edit.itable ip).inum}) := by
  subst change
  have same : held sb (fs.setSlot ip { fs.itable ip with d := d }) ip = held sb fs ip :=
    held_setSlot rfl type addrs
  have contents : ∀ i k, bytes sb (fs.setSlot ip { fs.itable ip with d := d }) ip i k =
      bytes sb fs ip i k := bytes_setSlot rfl type addrs
  have opened : Opened sb (fs.setSlot ip { fs.itable ip with d := d }) ip :=
    (locked.opened consistent).setSlot rfl type addrs
  have rewritten := consistent.rewrite locked opened rfl (fun _ _ => rfl)
    (fun i p _ => by rw [same, locked.held_eq consistent])
    (fun i k _ => by rw [contents, locked.bytes_eq consistent])
    (by rw [size]; exact locked.bounded consistent)
    (by
      intro bn below
      rw [size] at below
      obtain ⟨b, kept⟩ := locked.mapped consistent bn below
      exact ⟨b, by rw [same, setSlot_self]; exact kept⟩)
    rfl
  have own : bytes sb (fs.setSlot ip { fs.itable ip with d := d }) ip (fs.itable ip).inum =
      fileByte sb fs.disk (fs.itable ip).inum := by
    funext k
    rw [contents, locked.bytes_eq consistent]
  rw [own] at rewritten
  exact rewritten

def Rejected (size off n : UInt32) : Prop :=
  size < off ∨ off + n < off ∨ MAXFILE * BSIZE < (off + n).toNat

theorem not_rejected {size off n : UInt32} (accepted : ¬ Rejected size off n) :
    off.toNat ≤ size.toNat ∧ off.toNat + n.toNat ≤ MAXFILE * BSIZE := by
  simp only [Rejected, not_or, UInt32.lt_iff_toNat_lt, UInt32.toNat_add] at accepted
  have left := off.toNat_lt
  have right := n.toNat_lt
  omega

structure Spread (sb : Superblock) (fs : State) (inum : Nat) (which : Pointer → Prop)
    (after : State) : Prop where
  fresh : ∀ p, which p ∨ refs sb after.disk (inum, p) = refs sb fs.disk (inum, p)
  logged : ∀ m ∈ after.logged, m ∈ fs.logged ∨ m = IBLOCK sb inum ∨
    ∃ p b, which p ∧ refs sb after.disk (inum, p) = some b ∧
      (m = b ∨ m = BBLOCK sb b ∧ refs sb fs.disk (inum, p) = none)

theorem Spread.refl {inum : Nat} {which : Pointer → Prop} : Spread sb fs inum which fs :=
  ⟨fun _ => Or.inr rfl, fun _ logged => Or.inl logged⟩

theorem Spread.weaken {inum : Nat} {which wider : Pointer → Prop} {after : State}
    (spread : Spread sb fs inum which after) (inside : ∀ p, which p → wider p) :
    Spread sb fs inum wider after := by
  refine ⟨fun p => (spread.fresh p).imp_left (inside p), fun m logged => ?_⟩
  refine (spread.logged m logged).imp_right (Or.imp_right ?_)
  rintro ⟨p, b, at_, rest⟩
  exact ⟨p, b, inside p at_, rest⟩

structure Accepted (sb : Superblock) (fs : State) (ip : Nat) (src : Source) (off n : UInt32)
    (t : Nat) (after : State) : Prop where
  reported : t ≤ n.toNat
  read : t ≤ src.readable
  boundary : t = 0 ∨ t = n.toNat ∨ (off.toNat + t) % BSIZE = 0
  written : ∃ extent addrs,
    Ending sb fs ip src n.toNat 0 off.toNat (t, off.toNat + t) extent after ∧
    Rewritten sb fs ip { (fs.itable ip).d with
        size := UInt32.ofNat (max (fs.itable ip).d.size.toNat (off.toNat + t)), addrs := addrs }
      (fun k => if off.toNat ≤ k ∧ k < off.toNat + extent then src.byte (k - off.toNat)
        else fileByte sb fs.disk (fs.itable ip).inum k) after
  grows : ∀ place b, refs sb fs.disk place = some b → refs sb after.disk place = some b
  others : ∀ j p, j ≠ (fs.itable ip).inum → refs sb after.disk (j, p) = refs sb fs.disk (j, p)
  visited : ∀ p, Stretch off.toNat (t + 1) p ∨
    refs sb after.disk ((fs.itable ip).inum, p) = refs sb fs.disk ((fs.itable ip).inum, p)
  spread : Spread sb fs (fs.itable ip).inum (Stretch off.toNat n.toNat) after

section Accepted

variable {src : Source} {off n : UInt32} {t : Nat} {after : State}
  (accepted : Accepted sb fs ip src off n t after)
include accepted

theorem Accepted.outcome : t = n.toNat ∨ Full sb after ∨ src.readable < n.toNat := by
  obtain ⟨extent, addrs, ending, -⟩ := accepted.written
  exact ending.outcome accepted.reported

/-- The contents afterwards. -/
theorem Accepted.effect : ∃ extent addrs, t ≤ extent ∧ extent ≤ n.toNat ∧
    (src.Whole n.toNat 0 off.toNat → extent = t) ∧
    Rewritten sb fs ip { (fs.itable ip).d with
        size := UInt32.ofNat (max (fs.itable ip).d.size.toNat (off.toNat + t)), addrs := addrs }
      (fun k => if off.toNat ≤ k ∧ k < off.toNat + extent then src.byte (k - off.toNat)
        else fileByte sb fs.disk (fs.itable ip).inum k) after := by
  obtain ⟨extent, addrs, ending, rewritten⟩ := accepted.written
  obtain ⟨low, high⟩ := ending.bounds accepted.reported
  exact ⟨extent, addrs, low, high,
    fun whole => (ending.of_whole (Nat.zero_le _) accepted.reported rfl whole).1, rewritten⟩

end Accepted

theorem recorded_setDisk_iff {number : Nat} (contents : Block)
    (settled : fs.unlogged number = none) :
    (fs.setDisk (update fs.disk number contents) {number}).recorded =
        (fs.setDisk (update fs.disk number contents) {number}).disk ↔
      fs.recorded = fs.disk := by
  simp only [funext_iff (f := State.recorded _)]
  refine forall_congr' fun c => ?_
  by_cases own : c = number
  · simp [State.recorded, State.setDisk, own, settled]
  · simp [State.recorded, State.setDisk, own]

variable {src : Source}

theorem Ending.saved {n tot off extent : Nat} {result : Nat × Nat} {last : State}
    (ending : Ending sb fs ip src n tot off result extent middle) (opened : Opened sb last ip)
    (disk : last.disk = middle.disk) (unlogged : last.unlogged = middle.unlogged)
    (same : held sb last ip = held sb middle ip) :
    Ending sb fs ip src n tot off result extent
      (last.setDisk (saved sb last ip) {IBLOCK sb (last.itable ip).inum}) := by
  have pointers : held sb (last.setDisk (Fs.saved sb last ip) {IBLOCK sb (last.itable ip).inum}) ip =
      held sb middle ip := (held_saved opened.inum opened.sound _).trans same
  have stays : ∀ b, middle.unlogged b = none →
      (last.setDisk (Fs.saved sb last ip) {IBLOCK sb (last.itable ip).inum}).unlogged b = none := by
    intro b before
    exact setDisk_settled _ _ b (by rw [unlogged]; exact before)
  cases ending with
  | all whole exactly settled => exact .all whole exactly fun b before => stays b (settled b before)
  | full full absent exactly settled =>
    refine .full (fun b inside => ?_) (by rw [pointers]; exact absent) exactly
      fun b before => stays b (settled b before)
    rw [setDisk_disk, Fs.saved, used_putDinode _ opened.inum inside, disk]
    exact full b inside
  | cut b short mapped part settled record =>
    refine .cut b short (by rw [pointers]; exact mapped) part
      (fun c apart before => stays c (settled c apart before)) fun allSettled => ?_
    -- the block of the inode is none of the data blocks, so it was settled
    have data : IsData sb b := (opened.sound.target ((congrFun same _).trans mapped)).1
    have apart := IBLOCK_ne_data opened.inum data
    have settledInode : last.unlogged (IBLOCK sb (last.itable ip).inum) = none := by
      rw [unlogged]
      exact settled _ (Or.inl apart) (allSettled _)
    have records : last.recorded = middle.recorded := by
      funext c
      simp only [State.recorded, unlogged, disk]
    refine (recorded_setDisk_iff _ settledInode).trans ?_
    rw [records, disk]
    exact record allSettled

/-- Saving the inode after the loop of `writei`. -/
theorem Consistent.accept (consistent : Consistent sb fs) (locked : Locked fs ip)
    {off n : UInt32} (accepted : ¬ Rejected (fs.itable ip).d.size off n) {t : Nat}
    (wrote : Wrote sb fs ip src n.toNat (fs.itable ip).d.size.toNat 0 off.toNat
      (t, off.toNat + t) middle)
    {addrs : Fin (NDIRECT + 1) → UInt32} {last : State}
    (same : last = middle.setSlot ip { fs.itable ip with d := { (fs.itable ip).d with
      size := UInt32.ofNat (max (fs.itable ip).d.size.toNat (off.toNat + t)),
      addrs := addrs } })
    (slot : middle.itable = update fs.itable ip
      { fs.itable ip with d := { (fs.itable ip).d with addrs := addrs } }) :
    Accepted sb fs ip src off n t
      (last.setDisk (saved sb last ip) {IBLOCK sb (last.itable ip).inum}) := by
  obtain ⟨inFile, range⟩ := not_rejected accepted
  have small := locked.bounded consistent
  have upper : t ≤ n.toNat := wrote.upper
  have entry : middle.itable ip =
      { fs.itable ip with d := { (fs.itable ip).d with addrs := addrs } } := by
    rw [slot, update_self]
  have sizeValue : (UInt32.ofNat (max (fs.itable ip).d.size.toNat (off.toNat + t))).toNat =
      max (fs.itable ip).d.size.toNat (off.toNat + t) := by
    rw [UInt32.toNat_ofNat']
    simp only [MAXFILE, NDIRECT, NINDIRECT, BSIZE] at *
    omega
  have heldSame : held sb last ip = held sb middle ip := by
    rw [same]
    exact held_setSlot (by rw [entry]) (by rw [entry]) (by rw [entry])
  have bytesSame : ∀ i k, bytes sb last ip i k = bytes sb middle ip i k := by
    rw [same]
    exact bytes_setSlot (by rw [entry]) (by rw [entry]) (by rw [entry])
  have opened : Opened sb last ip := by
    rw [same]
    exact wrote.grown.opened.setSlot (by rw [entry]) (by rw [entry]) (by rw [entry])
  have lastSlot : last.itable = update fs.itable ip { fs.itable ip with
      d := { (fs.itable ip).d with
        size := UInt32.ofNat (max (fs.itable ip).d.size.toNat (off.toNat + t)),
        addrs := addrs } } := by
    rw [same, State.setSlot, slot, update_idem]
  have lastDisk : last.disk = middle.disk := by rw [same, setSlot_disk]
  have sameInum : (last.itable ip).inum = (middle.itable ip).inum := by
    rw [lastSlot, update_self, entry]
  obtain ⟨extent, ending, changed⟩ := wrote.bytes
  have rewritten := consistent.rewrite locked opened lastSlot
    (fun i inside => by rw [lastDisk]; exact wrote.grown.dinodes i inside)
    (fun i p different => by
      rw [heldSame, wrote.grown.others i p different, locked.held_eq consistent])
    (fun i k different => by
      rw [bytesSame, changed, if_neg (by simp [different]), locked.bytes_eq consistent])
    (by simp only [sizeValue]; omega)
    (by
      intro bn below
      rw [sizeValue] at below
      obtain ⟨b, kept⟩ := wrote.mapped bn below
      exact ⟨b, by rw [heldSame, sameInum]; exact kept⟩)
    (by rw [same]; exact wrote.grown.history)
  have contents : bytes sb last ip (fs.itable ip).inum = fun k =>
      if off.toNat ≤ k ∧ k < off.toNat + extent then src.byte (k - off.toNat)
      else fileByte sb fs.disk (fs.itable ip).inum k := by
    funext k
    rw [bytesSame, changed, locked.bytes_eq consistent]
    simp
  rw [contents] at rewritten
  have pointers : refs sb (saved sb last ip) = held sb middle ip :=
    (refs_saved opened.inum opened.sound).trans heldSame
  refine ⟨upper, by simpa using wrote.read, wrote.boundary, ⟨extent, addrs,
    ending.saved opened lastDisk (by rw [same, State.setSlot]) heldSame, rewritten⟩,
    fun place b before => ?_, fun j p different => ?_, fun p => ?_,
    ⟨fun p => ?_, fun m member => ?_⟩⟩
  · rw [setDisk_disk, pointers]
    exact wrote.grown.grows place b (by rw [locked.held_eq consistent]; exact before)
  · rw [setDisk_disk, pointers, wrote.grown.others j p different, locked.held_eq consistent]
  · rw [setDisk_disk, pointers, ← locked.held_eq consistent]
    exact wrote.visited p
  · rw [setDisk_disk, pointers, ← locked.held_eq consistent]
    exact wrote.confined.fresh p
  · have logged : last.logged = middle.logged := by rw [same, State.setSlot]
    rw [State.setDisk, Finset.mem_union, Finset.mem_singleton, sameInum, entry, logged] at member
    rw [setDisk_disk, pointers, ← locked.held_eq consistent]
    rcases member with before | inodeBlock
    · exact (wrote.confined.logged m before).imp_right Or.inr
    · exact Or.inr (Or.inl inodeBlock)

theorem Opened.wp_writei (opened : Opened sb fs ip)
    (mapped : Mapped sb fs ip (fs.itable ip).d.size.toNat) {off n : UInt32}
    {post : Int → State → Prop}
    (room : ∀ after, ¬ Rejected (fs.itable ip).d.size off n → Grown sb fs ip after →
      Confined sb fs ip (Stretch off.toNat n.toNat) after → Room stop after.logged)
    (rejected : Rejected (fs.itable ip).d.size off n → post (-1) fs)
    (accepted : ∀ (result : Nat × Nat) middle last, ¬ Rejected (fs.itable ip).d.size off n →
      Wrote sb fs ip src n.toNat (fs.itable ip).d.size.toNat 0 off.toNat result middle →
      last = middle.setSlot ip { middle.itable ip with d := { (middle.itable ip).d with
        size := UInt32.ofNat (max (fs.itable ip).d.size.toNat (off.toNat + result.1)) } } →
      post result.1 (last.setDisk (saved sb last ip) {IBLOCK sb (last.itable ip).inum})) :
    wp (writei sb ip src off n) post stop fs := by
  simp only [writei, wp_bind, wp_inode]
  split
  · rename_i turned
    rw [wp_pure]
    exact rejected (by simp only [Rejected]; tauto)
  split
  · rename_i large
    rw [wp_pure]
    exact rejected (Or.inr (Or.inr large))
  rename_i inRange small
  have fine : ¬ Rejected (fs.itable ip).d.size off n := by
    simp only [Rejected]
    tauto
  obtain ⟨inFile, range⟩ := not_rejected fine
  rw [wp_bind]
  refine wp_post (wp_writeRounds n.toNat opened mapped (by omega) (by omega) inFile (by omega)
    fun after => room after fine) ?_
  rintro ⟨tot, reached⟩ middle wrote
  have position : reached = off.toNat + tot := by
    have := wrote.reached
    simp only at this
    omega
  have size : (middle.itable ip).d.size = (fs.itable ip).d.size := by
    obtain ⟨addrs, slot⟩ := wrote.grown.slot
    rw [slot, update_self]
  dsimp only
  split
  · rename_i grows
    simp only [wp_bind, wp_setDinode]
    refine wp_iupdate (room middle fine wrote.grown wrote.confined) ?_
    rw [wp_pure]
    refine accepted (tot, reached) middle _ fine wrote ?_
    have larger : max (fs.itable ip).d.size.toNat (off.toNat + tot) = reached := by omega
    rw [larger]
  · rename_i stays
    rw [wp_bind]
    refine wp_iupdate (room middle fine wrote.grown wrote.confined) ?_
    rw [wp_pure]
    refine accepted (tot, reached) middle _ fine wrote ?_
    have same : UInt32.ofNat (max (fs.itable ip).d.size.toNat (off.toNat + tot)) =
        (middle.itable ip).d.size := by
      rw [Nat.max_eq_left (by omega), size]
      simp
    rw [same, State.setSlot, update_eq_self]

theorem Consistent.wp_writei (consistent : Consistent sb fs) (locked : Locked fs ip)
    {off n : UInt32} {post : Int → State → Prop}
    (room : ∀ after, ¬ Rejected (fs.itable ip).d.size off n → Grown sb fs ip after →
      Confined sb fs ip (Stretch off.toNat n.toNat) after → Room stop after.logged)
    (rejected : Rejected (fs.itable ip).d.size off n → post (-1) fs)
    (accepted : ∀ (t : Nat) after, ¬ Rejected (fs.itable ip).d.size off n →
      Accepted sb fs ip src off n t after → post t after) :
    wp (writei sb ip src off n) post stop fs := by
  refine (locked.opened consistent).wp_writei (locked.mapped consistent) room rejected ?_
  rintro ⟨t, reached⟩ middle last fine wrote same
  obtain ⟨addrs, slot⟩ := wrote.grown.slot
  obtain rfl : reached = off.toNat + t := wrote.reached
  refine accepted t _ fine (consistent.accept locked fine wrote ?_ slot)
  rw [same, slot, update_self]

def FreeLogged (sb : Superblock) (fs : State) (inum : Nat) (after : State) : Prop :=
  ∀ m, m ∈ after.logged ↔ m ∈ fs.logged ∨ m = IBLOCK sb inum ∨
    ∃ p b, refs sb fs.disk (inum, p) = some b ∧ m = BBLOCK sb b

def FreeLogs (sb : Superblock) (fs : State) (inum : Nat) (blocks : Finset Nat) : Prop :=
  ∀ m ∈ blocks, m ∈ fs.logged ∨ m = IBLOCK sb inum ∨
    ∃ p b, refs sb fs.disk (inum, p) = some b ∧ m = BBLOCK sb b

theorem Consistent.wp_itrunc (consistent : Consistent sb fs) (locked : Locked fs ip)
    {post : PUnit → State → Prop}
    (room : ∀ blocks, FreeLogs sb fs (fs.itable ip).inum blocks → Room stop blocks)
    (emptied : ∀ after, Rewritten sb fs ip (fs.itable ip).d.truncated (fun _ => 0) after →
      FreeLogged sb fs (fs.itable ip).inum after → post ⟨⟩ after) :
    wp (itrunc sb ip) post stop fs := by
  refine Fs.wp_itrunc (locked.opened consistent) (fun blocks inside => room blocks ?_) ?_
  · intro m member
    rw [← locked.held_eq consistent]
    exact inside m member
  intro after truncated
  have own : ∀ p, refs sb after.disk ((fs.itable ip).inum, p) = none := by
    intro p
    apply pointers_of_zero
    rw [truncated.dinode]
    cases p <;> simp [Dinode.pointer, Dinode.truncated, Dinode.addr]
  have others : ∀ j p, j ≠ (fs.itable ip).inum →
      refs sb after.disk (j, p) = refs sb fs.disk (j, p) := by
    intro j p different
    rw [truncated.others j p different, locked.held_eq consistent]
  refine emptied after ⟨consistent.replace locked truncated.sound truncated.slot
    (locked.opened consistent).type truncated.dinode truncated.dinodes others (Nat.zero_le _)
    (fun bn below => absurd below (Nat.not_lt_zero _)), truncated.slot, truncated.dinode,
    truncated.dinodes, ?_, truncated.history⟩ (fun m => ?_)
  · intro i k
    by_cases mine : i = (fs.itable ip).inum
    · rw [if_pos mine, mine]
      have none : pointers sb after.disk (dinodeOf sb after.disk)
          ((fs.itable ip).inum, blockPointer (k / BSIZE)) = none := own _
      simp only [fileByte, byteOf, none]
    · rw [if_neg mine]
      have same : pointers sb after.disk (dinodeOf sb after.disk) (i, blockPointer (k / BSIZE)) =
          pointers sb fs.disk (dinodeOf sb fs.disk) (i, blockPointer (k / BSIZE)) := others i _ mine
      simp only [fileByte, byteOf, same]
      cases old : pointers sb fs.disk (dinodeOf sb fs.disk) (i, blockPointer (k / BSIZE)) with
      | none => rfl
      | some b => simp only [truncated.data b (consistent.sound.target old).1]
  · rw [← locked.held_eq consistent]
    exact truncated.logged m

end Xv6.Fs
