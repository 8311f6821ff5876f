import Xv6.Fs.BlockBudget

/-!
# References to inodes

The laws of the procedures that take, lock and drop references: `iget`, `idup`, `ilock`, `iput`
and `ialloc`.
-/

namespace Xv6.Fs

open Command Bytes Ownership Function

variable {sb : Superblock} {stop : Panic → Prop} {fs after : State} {ip inum : Nat}

structure Got (fs : State) (inum ip : Nat) (after : State) : Prop where
  slot : ip < NINODE
  disk : after.disk = fs.disk
  logged : after.logged = fs.logged
  history : after.freedInodes = fs.freedInodes
  entry : (0 < (fs.itable ip).ref ∧ (fs.itable ip).inum = inum ∧
      after.itable = update fs.itable ip
        { fs.itable ip with ref := (fs.itable ip).ref + 1 }) ∨
    ((fs.itable ip).ref = 0 ∧ (∀ s, s < NINODE → 0 < (fs.itable s).ref →
        (fs.itable s).inum ≠ inum) ∧
      after.itable = update fs.itable ip
        { fs.itable ip with inum := inum, ref := 1, valid := false })

theorem wp_iget {post : Nat → State → Prop}
    (full : (∀ s, s < NINODE → (fs.itable s).ref ≠ 0) → stop .igetNoInodes)
    (got : ∀ ip after, Got fs inum ip after → post ip after) :
    wp (iget inum) post stop fs := by
  simp only [iget, wp_bind, wp_get]
  split
  · rename_i ip found
    have slot : ip < NINODE := List.mem_range.mp (List.mem_of_find?_eq_some found)
    have inUse := List.find?_some found
    simp only [gt_iff_lt, Bool.and_eq_true, decide_eq_true_eq] at inUse
    simp only [wp_bind, wp_setInode, wp_pure]
    exact got _ _ ⟨slot, rfl, rfl, rfl, Or.inl ⟨inUse.1, inUse.2, rfl⟩⟩
  · rename_i absent
    have nowhere : ∀ s, s < NINODE → 0 < (fs.itable s).ref → (fs.itable s).inum ≠ inum := by
      intro s inside positive same
      have missed := List.find?_eq_none.mp absent s (List.mem_range.mpr inside)
      simp [positive, same] at missed
    split
    · rename_i ip found
      have slot : ip < NINODE := List.mem_range.mp (List.mem_of_find?_eq_some found)
      have free := List.find?_some found
      simp only [decide_eq_true_eq] at free
      simp only [wp_bind, wp_setInode, wp_pure]
      exact got _ _ ⟨slot, rfl, rfl, rfl, Or.inr ⟨free, nowhere, rfl⟩⟩
    · rename_i noFree
      rw [wp_throw]
      refine full fun s inside => ?_
      have missed := List.find?_eq_none.mp noFree s (List.mem_range.mpr inside)
      simpa using missed

section Got

variable (got : Got fs inum ip after)
include got

theorem Got.inum_eq : (after.itable ip).inum = inum := by
  rcases got.entry with ⟨-, same, slot⟩ | ⟨-, -, slot⟩
  · rw [slot, update_self]
    exact same
  · rw [slot, update_self]

theorem Got.other {s : Nat} (different : s ≠ ip) : after.itable s = fs.itable s := by
  rcases got.entry with ⟨-, -, slot⟩ | ⟨-, -, slot⟩ <;> rw [slot, update_of_ne different]

theorem Got.ref (s : Nat) :
    (after.itable s).ref = (fs.itable s).ref + if s = ip then 1 else 0 := by
  by_cases same : s = ip
  · subst same
    rcases got.entry with ⟨-, -, slot⟩ | ⟨free, -, slot⟩
    · simp [slot]
    · simp [slot, free]
  · simp [got.other same, same]

theorem Got.kept {s : Nat} (positive : 0 < (fs.itable s).ref) :
    (after.itable s).inum = (fs.itable s).inum ∧ (after.itable s).valid = (fs.itable s).valid ∧
      (after.itable s).d = (fs.itable s).d := by
  by_cases same : s = ip
  · subst same
    rcases got.entry with ⟨-, -, slot⟩ | ⟨free, -, -⟩
    · simp [slot]
    · omega
  · simp [got.other same]

/-- `iget` keeps the file system consistent. -/
theorem Got.consistent (consistent : Consistent sb fs) : Consistent sb after := by
  have sound := consistent.sound
  have dense := consistent.dense
  rw [← got.disk] at sound dense
  have positive : ∀ s, s < NINODE → s ≠ ip → 0 < (after.itable s).ref →
      0 < (fs.itable s).ref := by
    intro s _ different held
    rwa [got.other different] at held
  -- The returned slot is the only one with its inode number.
  have alone : ∀ s, s < NINODE → 0 < (after.itable s).ref →
      (after.itable s).inum = (after.itable ip).inum → s = ip := by
    intro s inside held same
    by_contra different
    have before := positive s inside different held
    rw [got.other different, got.inum_eq] at same
    rcases got.entry with ⟨inUse, number, -⟩ | ⟨-, nowhere, -⟩
    · exact different (consistent.single s ip inside got.slot before inUse
        (same.trans number.symm))
    · exact nowhere s inside before same
  refine ⟨sound, dense, ?_, ?_, ?_⟩
  · intro s t left right first second same
    by_cases here : s = ip
    · subst here
      exact (alone t right second same.symm).symm
    · by_cases there : t = ip
      · subst there
        exact alone s left first same
      · refine consistent.single s t left right (positive s left here first)
          (positive t right there second) ?_
        rwa [got.other here, got.other there] at same
  · intro s inside held valid
    by_cases here : s = ip
    · subst here
      rcases got.entry with ⟨inUse, -, -⟩ | ⟨-, -, slot⟩
      · obtain ⟨number, sameValid, sameCopy⟩ := got.kept inUse
        rw [number, sameCopy, got.disk]
        exact consistent.cached s inside inUse (sameValid.symm.trans valid)
      · simp [slot] at valid
    · rw [got.other here] at held valid ⊢
      rw [got.disk]
      exact consistent.cached s inside held valid
  · intro s inside
    rw [got.ref]
    have before := consistent.counted s inside
    split <;> omega

end Got

theorem Consistent.setSlot (consistent : Consistent sb fs) {entry : Inode}
    (number : entry.inum = (fs.itable ip).inum) (counted : 0 ≤ entry.ref)
    (inUse : 0 < entry.ref → 0 < (fs.itable ip).ref)
    (cached : 0 < entry.ref → entry.valid = true →
      Live sb (dinodeOf sb fs.disk) entry.inum ∧ entry.d = dinodeOf sb fs.disk entry.inum) :
    Consistent sb (fs.setSlot ip entry) := by
  have numbers : ∀ s, ((fs.setSlot ip entry).itable s).inum = (fs.itable s).inum := by
    intro s
    by_cases same : s = ip
    · rw [same, setSlot_self, number]
    · rw [setSlot_of_ne _ same]
  have positive : ∀ s, 0 < ((fs.setSlot ip entry).itable s).ref → 0 < (fs.itable s).ref := by
    intro s held
    by_cases same : s = ip
    · rw [same, setSlot_self] at held
      rw [same]
      exact inUse held
    · rwa [setSlot_of_ne _ same] at held
  refine ⟨consistent.sound, consistent.dense, ?_, ?_, ?_⟩
  · intro s t left right first second same
    rw [numbers, numbers] at same
    exact consistent.single s t left right (positive s first) (positive t second) same
  · intro s inside held valid
    by_cases same : s = ip
    · rw [same, setSlot_self] at held valid ⊢
      exact cached held valid
    · rw [setSlot_of_ne _ same] at held valid ⊢
      exact consistent.cached s inside held valid
  · intro s inside
    by_cases same : s = ip
    · rw [same, setSlot_self]
      exact counted
    · rw [setSlot_of_ne _ same]
      exact consistent.counted s inside

variable {post : PUnit → State → Prop}

theorem Consistent.wp_ilock (consistent : Consistent sb fs) (slot : ip < NINODE)
    (ref : 0 < (fs.itable ip).ref) (range : (fs.itable ip).inum < sb.ninodes)
    (noType : (dinodeOf sb fs.disk (fs.itable ip).inum).type = 0 → stop .ilockNoType)
    (locked : ∀ after, after = fs.setSlot ip { fs.itable ip with
        valid := true, d := dinodeOf sb fs.disk (fs.itable ip).inum } →
      Consistent sb after → Locked after ip → post ⟨⟩ after) :
    wp (ilock sb ip) post stop fs := by
  have notFree : ¬ (fs.itable ip).ref < 1 := by omega
  have loaded : loadDinode (fs.disk (IBLOCK sb (fs.itable ip).inum)) ((fs.itable ip).inum % IPB) =
      dinodeOf sb fs.disk (fs.itable ip).inum := rfl
  simp only [ilock, wp_bind, wp_inode, notFree, ↓reduceIte]
  split
  · rename_i valid
    rw [wp_pure]
    obtain ⟨-, copy⟩ := consistent.cached ip slot ref valid
    refine locked fs ?_ consistent ⟨slot, ref, valid⟩
    rw [← copy, ← valid, State.setSlot, update_eq_self]
  · simp only [wp_bind, wp_bread, wp_setInode, loaded]
    split
    · rename_i free
      rw [wp_throw]
      exact noType free
    · rename_i typed
      rw [wp_pure]
      refine locked _ rfl (consistent.setSlot rfl (consistent.counted ip slot) id ?_)
        ⟨slot, by rw [setSlot_self]; exact ref, by rw [setSlot_self]⟩
      exact fun _ _ => ⟨⟨range, typed⟩, rfl⟩

theorem wp_iunlock (ref : 0 < (fs.itable ip).ref) (unlocked : post ⟨⟩ fs) :
    wp (iunlock ip) post stop fs := by
  have notFree : ¬ (fs.itable ip).ref < 1 := by omega
  simp only [iunlock, wp_bind, wp_inode, notFree, ↓reduceIte, wp_pure]
  exact unlocked

def Freeing (fs : State) (ip : Nat) : Prop :=
  (fs.itable ip).ref = 1 ∧ (fs.itable ip).valid = true ∧ (fs.itable ip).d.nlink = 0

def Inode.released (entry : Inode) : Inode :=
  { entry with ref := 0, valid := false, d := { entry.d.truncated with type := 0 } }

structure Freed (sb : Superblock) (fs : State) (ip : Nat) (after : State) : Prop where
  consistent : Consistent sb after
  slot : after.itable = update fs.itable ip (fs.itable ip).released
  dinode : dinodeOf sb after.disk (fs.itable ip).inum = (fs.itable ip).released.d
  dinodes : ∀ j, j < sb.ninodes → j ≠ (fs.itable ip).inum →
    dinodeOf sb after.disk j = dinodeOf sb fs.disk j
  bytes : ∀ i k, fileByte sb after.disk i k =
    if i = (fs.itable ip).inum then 0 else fileByte sb fs.disk i k
  logged : FreeLogged sb fs (fs.itable ip).inum after
  history : after.freedInodes = ((fs.itable ip).inum, fs.disk) :: fs.freedInodes

theorem Sound.refs_putBare {disk : Disk} (sound : Sound sb disk (dinodeOf sb disk)) {x : Nat}
    {d : Dinode} (range : x < sb.ninodes) (addrs : d.addrs = fun _ => 0)
    (bare : ∀ p, refs sb disk (x, p) = none) : refs sb (putDinode sb disk x d) = refs sb disk := by
  funext place
  obtain ⟨i, p⟩ := place
  by_cases own : i = x
  · rw [own, bare p]
    apply pointers_of_zero
    rw [dinodeOf_putDinode_same]
    exact Dinode.pointer_of_bare addrs _ p
  · have other : dinodeOf sb (putDinode sb disk x d) i = dinodeOf sb disk i :=
      dinodeOf_putDinode_of_ne d own
    refine pointers_congr p (by rw [other]) (by rw [other]) ?_
    intro t table
    exact putDinode_data d range (sound.target table).1

theorem Sound.fileByte_putDinode {disk : Disk} (sound : Sound sb disk (dinodeOf sb disk)) {x : Nat}
    {d : Dinode} (range : x < sb.ninodes)
    (same : refs sb (putDinode sb disk x d) = refs sb disk) (i k : Nat) :
    fileByte sb (putDinode sb disk x d) i k = fileByte sb disk i k := by
  have look : pointers sb (putDinode sb disk x d) (dinodeOf sb (putDinode sb disk x d))
      (i, blockPointer (k / BSIZE)) =
      pointers sb disk (dinodeOf sb disk) (i, blockPointer (k / BSIZE)) := congrFun same _
  simp only [fileByte, byteOf, look]
  cases old : pointers sb disk (dinodeOf sb disk) (i, blockPointer (k / BSIZE)) with
  | none => rfl
  | some b => simp only [putDinode_data d range (sound.target old).1]

theorem Consistent.store_bare (consistent : Consistent sb fs) {x : Nat} {d : Dinode}
    (blocks : Finset Nat) (range : x < sb.ninodes) (size : d.size = 0) (addrs : d.addrs = fun _ => 0)
    (bare : ∀ p, refs sb fs.disk (x, p) = none)
    (unused : ∀ s, s < NINODE → 0 < (fs.itable s).ref → (fs.itable s).valid = true →
      (fs.itable s).inum ≠ x) :
    Consistent sb (fs.setDisk (putDinode sb fs.disk x d) blocks) ∧
      ∀ i k, fileByte sb (putDinode sb fs.disk x d) i k = fileByte sb fs.disk i k := by
  have other : ∀ j, j ≠ x → dinodeOf sb (putDinode sb fs.disk x d) j = dinodeOf sb fs.disk j :=
    fun j different => dinodeOf_putDinode_of_ne d different
  have same : refs sb (putDinode sb fs.disk x d) = refs sb fs.disk :=
    consistent.sound.refs_putBare range addrs bare
  have sound := consistent.sound.frame (fun b inside => used_putDinode d range inside) same
  refine ⟨⟨sound, ?_, consistent.single, ?_, consistent.counted⟩,
    consistent.sound.fileByte_putDinode range same⟩
  · intro i live
    by_cases own : i = x
    · rw [own, setDisk_disk, dinodeOf_putDinode_same, size]
      exact ⟨Nat.zero_le _, fun bn below => absurd below (Nat.not_lt_zero _)⟩
    · rw [setDisk_disk, Live, other i own] at live
      rw [setDisk_disk, other i own, same]
      exact consistent.dense i live
  · intro s inside held valid
    rw [setDisk_itable, setDisk_disk, Live, other _ (unused s inside held valid)]
    exact consistent.cached s inside held valid

/-- Freeing a locked inode after `itrunc` emptied it. -/
theorem Rewritten.freed {contents : Nat → UInt8} {empty after : State}
    (consistent : Consistent sb fs) (locked : Locked fs ip) (zero : ∀ k, contents k = 0)
    (rewritten : Rewritten sb fs ip (fs.itable ip).d.truncated contents empty)
    (disk : after.disk = putDinode sb empty.disk (fs.itable ip).inum (fs.itable ip).released.d)
    (slot : after.itable = update fs.itable ip (fs.itable ip).released)
    (logged : FreeLogged sb fs (fs.itable ip).inum after)
    (history : after.freedInodes = ((fs.itable ip).inum, fs.disk) :: fs.freedInodes) :
    Freed sb fs ip after := by
  have entry : empty.itable ip = { fs.itable ip with d := (fs.itable ip).d.truncated } := by
    rw [rewritten.slot, update_self]
  have dropped : Consistent sb (empty.setSlot ip (fs.itable ip).released) := by
    refine rewritten.consistent.setSlot (by rw [entry]; rfl) (Int.le_refl 0) ?_ ?_ <;>
      simp [Inode.released]
  have table : (empty.setSlot ip (fs.itable ip).released).itable =
      update fs.itable ip (fs.itable ip).released := by
    rw [State.setSlot, rewritten.slot, update_idem]
  have bare : ∀ p, refs sb empty.disk ((fs.itable ip).inum, p) = none := by
    intro p
    apply pointers_of_zero
    rw [rewritten.dinode]
    exact Dinode.pointer_of_bare rfl _ p
  obtain ⟨released, kept⟩ := dropped.store_bare (d := (fs.itable ip).released.d)
    ∅ (locked.live consistent).1 rfl rfl bare (by
      intro s inside held _ same
      rw [table] at held same
      by_cases here : s = ip
      · rw [here, update_self] at held
        exact absurd held (Int.lt_irrefl 0)
      · rw [update_of_ne here] at held same
        exact here (consistent.single s ip inside locked.slot held locked.ref same))
  refine ⟨released.congr disk (slot.trans table.symm), slot, ?_, ?_, ?_, logged, history⟩
  · rw [disk]
    exact dinodeOf_putDinode_same ..
  · intro j range different
    rw [disk]
    exact (dinodeOf_putDinode_of_ne _ different).trans (rewritten.dinodes j range different)
  · intro i k
    rw [disk]
    refine (kept i k).trans ((rewritten.bytes i k).trans ?_)
    rw [zero]

theorem Consistent.wp_iput (consistent : Consistent sb fs) (slot : ip < NINODE)
    (ref : 0 < (fs.itable ip).ref)
    (room : Freeing fs ip → ∀ blocks, FreeLogs sb fs (fs.itable ip).inum blocks → Room stop blocks)
    (freed : Freeing fs ip → ∀ after, Freed sb fs ip after → post ⟨⟩ after)
    (dropped : ¬ Freeing fs ip → ∀ after, after = fs.setSlot ip { fs.itable ip with
        ref := (fs.itable ip).ref - 1 } → Consistent sb after → post ⟨⟩ after) :
    wp (iput sb ip) post stop fs := by
  simp only [iput, wp_bind, wp_inode]
  split
  · rename_i condition
    obtain ⟨last, valid, unlinked⟩ := condition
    have locked : Locked fs ip := ⟨slot, ref, valid⟩
    simp only [ifree, wp_bind, wp_get]
    refine consistent.wp_itrunc locked (room ⟨last, valid, unlinked⟩) ?_
    intro empty rewritten logged
    have entry : empty.itable ip = { fs.itable ip with d := (fs.itable ip).d.truncated } := by
      rw [rewritten.slot, update_self]
    rw [wp_setDinode]
    refine wp_iupdate (room ⟨last, valid, unlinked⟩ _ fun m => (logged m).mp) ?_
    simp only [wp_setInode, wp_modify, State.setSlot, State.setDisk, saved,
      update_self, update_idem, entry, last, Int.sub_self]
    refine freed ⟨last, valid, unlinked⟩ _ (rewritten.freed consistent locked (fun _ => rfl) rfl ?_
      (fun m => ?_) ?_)
    · simp only [rewritten.slot, update_idem]
      rfl
    · simp only [Finset.mem_union, Finset.mem_singleton, logged m]
      exact or_iff_left_of_imp fun inodeBlock => Or.inr (Or.inl inodeBlock)
    · rw [rewritten.history]
  · rename_i condition
    rw [wp_setInode]
    refine dropped condition _ rfl (consistent.setSlot rfl ?_ ?_ ?_)
    · simp only
      omega
    · intro _
      exact ref
    · intro _ valid
      exact consistent.cached ip slot ref valid

theorem Consistent.wp_idup (consistent : Consistent sb fs) (slot : ip < NINODE)
    (ref : 0 < (fs.itable ip).ref) {post : Nat → State → Prop}
    (copied : ∀ after, Got fs (fs.itable ip).inum ip after → Consistent sb after →
      post ip after) :
    wp (idup ip) post stop fs := by
  have got : Got fs (fs.itable ip).inum ip
      (fs.setSlot ip { fs.itable ip with ref := (fs.itable ip).ref + 1 }) :=
    ⟨slot, rfl, rfl, rfl, Or.inl ⟨ref, rfl, rfl⟩⟩
  simp only [idup, wp_bind, wp_setInode, wp_pure]
  exact copied _ got (got.consistent consistent)

structure Made (sb : Superblock) (fs : State) (type : Int16) (inum ip : Nat) (after : State) :
    Prop where
  positive : 0 < inum
  range : inum < sb.ninodes
  free : (dinodeOf sb fs.disk inum).type = 0
  got : Got (fs.setDisk (putDinode sb fs.disk inum { Dinode.zero with type := type })
    {IBLOCK sb inum}) inum ip after
  consistent : Consistent sb after
  bytes : ∀ i k, fileByte sb after.disk i k = fileByte sb fs.disk i k
  blocks : SameBlocks sb fs.disk after.disk

theorem Consistent.made (consistent : Consistent sb fs) {type : Int16} (positive : 0 < inum)
    (range : inum < sb.ninodes) (free : (dinodeOf sb fs.disk inum).type = 0)
    (got : Got (fs.setDisk (putDinode sb fs.disk inum { Dinode.zero with type := type })
      {IBLOCK sb inum}) inum ip after) : Made sb fs type inum ip after := by
  have dead : ¬ Live sb (dinodeOf sb fs.disk) inum := fun live => live.2 free
  have bare : ∀ p, refs sb fs.disk (inum, p) = none := fun p => by simp [refs, pointers, dead]
  obtain ⟨stored, kept⟩ := consistent.store_bare (d := { Dinode.zero with type := type })
    {IBLOCK sb inum} range rfl rfl bare
    (fun s inside held valid same => dead (same ▸ (consistent.cached s inside held valid).1))
  refine ⟨positive, range, free, got, got.consistent stored, fun i k => ?_, fun b inside => ?_, ?_⟩
  · rw [got.disk]
    exact kept i k
  · rw [got.disk]
    exact used_putDinode _ range inside
  · rw [got.disk]
    exact consistent.sound.refs_putBare range rfl bare

theorem Consistent.wp_ialloc (consistent : Consistent sb fs) {type : Int16}
    {post : Option Nat → State → Prop} (room : Room stop fs.logged) (full : stop .igetNoInodes)
    (exhausted : (∀ i, 0 < i → i < sb.ninodes → (dinodeOf sb fs.disk i).type ≠ 0) → post none fs)
    (made : ∀ inum ip after, Made sb fs type inum ip after → post (some ip) after) :
    wp (ialloc sb type) post stop fs := by
  rw [ialloc]
  refine wp_post (wp_searchRange
    (fun inum current => current = fs ∧
      ∀ i, 0 < i → i < inum → (dinodeOf sb fs.disk i).type ≠ 0)
    (fun ip after => ∃ inum, Made sb fs type inum ip after) stop _ 1 _ fs ?_
    ⟨rfl, fun i lower upper => absurd lower (by omega)⟩) ?_
  · rintro inum current lower upper ⟨rfl, before⟩
    have loaded : loadDinode (current.disk (IBLOCK sb inum)) (inum % IPB) =
        dinodeOf sb current.disk inum := rfl
    simp only [wp_bind, wp_bread, loaded]
    split
    · rename_i free
      simp only [wp_bind]
      refine wp_logWrite room ?_
      refine wp_iget (fun _ => full) ?_
      intro ip after got
      rw [wp_pure]
      have effect := consistent.made (by omega) (by omega) free got
      exact ⟨fun result same => ⟨inum, Option.some.inj same ▸ effect⟩, by simp⟩
    · rename_i taken
      rw [wp_pure]
      refine ⟨by simp, fun _ => ⟨rfl, ?_⟩⟩
      intro i low high
      rcases Nat.lt_succ_iff_lt_or_eq.mp high with earlier | rfl
      · exact before i low earlier
      · exact taken
  · rintro outcome after ⟨hit, miss⟩
    cases outcome with
    | some ip =>
      obtain ⟨inum, effect⟩ := hit ip rfl
      exact made inum ip after effect
    | none =>
      obtain ⟨rfl, all⟩ := miss rfl
      exact exhausted fun i low high => all i low (by omega)

end Xv6.Fs
