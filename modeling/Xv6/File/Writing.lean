import Xv6.Fs.ByteArrays

/-!
# Writing to an open file

`filewrite` cuts a write to an inode into chunks and gives each a transaction of its own, so
that no transaction logs more than `MAXOPBLOCKS` blocks.
-/

namespace Xv6.Files

open Command Bytes Fs

def sourceFrom (src : Source) (i : Nat) : Source :=
  ⟨fun k => src.byte (i + k), src.readable - i⟩

abbrev maxChunk : Nat := ((MAXOPBLOCKS - 1 - 1 - 2) / 2) * BSIZE

def chunkLength (n i : Nat) : Nat :=
  if maxChunk < n - i then maxChunk else n - i

theorem chunkLength_le (n i : Nat) : chunkLength n i ≤ maxChunk ∧ chunkLength n i ≤ n - i := by
  unfold chunkLength
  split <;> omega

def writeChunk (sb : Superblock) (ip : Nat) (src : Source) (off : UInt32) (n i : Nat) :
    FsM (Int × UInt32) := do
  ilock sb ip
  let r ← writei sb ip (sourceFrom src i) off (UInt32.ofNat (chunkLength n i))
  iunlock ip
  pure (r, if 0 < r then off + UInt32.ofNat r.toNat else off)

variable {sb : Superblock} {stop : Panic → Prop} {fs : State} {ip : Nat}

def loaded (sb : Superblock) (fs : State) (ip : Nat) : State :=
  fs.setSlot ip { fs.itable ip with
    valid := true
    d := if (fs.itable ip).valid then (fs.itable ip).d
      else dinodeOf sb fs.disk (fs.itable ip).inum }

theorem loaded_of_valid (valid : (fs.itable ip).valid = true) : loaded sb fs ip = fs := by
  rw [loaded, if_pos valid, ← valid, State.setSlot, Function.update_eq_self]

theorem wp_ilock_loaded {post : PUnit → State → Prop} (ref : 0 < (fs.itable ip).ref)
    (type : ((loaded sb fs ip).itable ip).d.type ≠ 0) (locked : post ⟨⟩ (loaded sb fs ip)) :
    wp (ilock sb ip) post stop fs := by
  have notFree : ¬ (fs.itable ip).ref < 1 := by omega
  have read : loadDinode (fs.disk (IBLOCK sb (fs.itable ip).inum)) ((fs.itable ip).inum % IPB) =
      dinodeOf sb fs.disk (fs.itable ip).inum := rfl
  simp only [loaded, setSlot_self] at type
  simp only [ilock, wp_bind, wp_inode, notFree, ↓reduceIte]
  split
  · rename_i valid
    rw [wp_pure]
    rwa [loaded_of_valid valid] at locked
  · rename_i invalid
    rw [if_neg invalid] at type
    simp only [wp_bind, wp_bread, wp_setInode, read, type, ↓reduceIte, wp_pure]
    simpa only [loaded, if_neg invalid] using locked

theorem card_logged_lt {middle : State} {off len limit : Nat}
    (confined : Confined sb fs ip (Stretch off len) middle) (mapped : Mapped sb fs ip limit)
    (inFile : off ≤ limit) (short : len ≤ maxChunk) (fresh : fs.logged = ∅) :
    middle.logged.card < MAXOPBLOCKS := by
  have first : ∃ first, span off len + (span off len - first) ≤ 7 ∧
      ∀ p, Stretch off len p → held sb fs ip ((fs.itable ip).inum, p) = none →
        p ∈ touched off len first := by
    by_cases aligned : off % BSIZE = 0
    · refine ⟨0, ?_, fun p inside _ => mem_touched inside⟩
      simp only [span, aligned, maxChunk, MAXOPBLOCKS, BSIZE] at *
      omega
    · refine ⟨1, ?_, fun p inside absent => mem_touched_of_none inside mapped inFile aligned absent⟩
      simp only [span, maxChunk, MAXOPBLOCKS, BSIZE] at *
      omega
  obtain ⟨first, small, received⟩ := first
  have bound := confined.card_logged_le received
  rw [fresh, Finset.card_empty] at bound
  simp only [MAXOPBLOCKS]
  omega

/-- A chunk fits its share of the log. Let a referenced inode be open on a sound
file system and have no holes. Every round of `filewrite` at any offset, for any
length and any source, logs at most `MAXOPBLOCKS` distinct blocks. -/
theorem chunk_fits_log (sb : Superblock) (fs : State) (ip : Nat) (src : Source) (off : UInt32)
    (n i : Nat) (ref : 0 < (fs.itable ip).ref) (opened : Opened sb (loaded sb fs ip) ip)
    (mapped : Mapped sb (loaded sb fs ip) ip ((loaded sb fs ip).itable ip).d.size.toNat)
    (fresh : fs.logged = ∅) :
    wp (writeChunk sb ip src off n i) (fun _ after => after.logged.card ≤ MAXOPBLOCKS)
      (fun _ => False) fs := by
  have reference : 0 < ((loaded sb fs ip).itable ip).ref := by
    rw [loaded, setSlot_self]
    exact ref
  have empty : (loaded sb fs ip).logged = ∅ := fresh
  rw [writeChunk, wp_bind]
  refine wp_ilock_loaded ref opened.type ?_
  have length : (UInt32.ofNat (chunkLength n i)).toNat ≤ maxChunk := by
    rw [UInt32.toNat_ofNat']
    exact (Nat.mod_le ..).trans (chunkLength_le n i).1
  rw [wp_bind]
  refine opened.wp_writei mapped ?_ ?_ ?_
  · intro after fine _ confined
    have few := card_logged_lt confined mapped (not_rejected fine).1 length empty
    exact Room.of_card (Nat.lt_trans few (by decide))
  · intro _
    rw [wp_bind]
    refine wp_iunlock reference ?_
    rw [wp_pure, empty]
    exact Nat.zero_le _
  · rintro result middle last fine wrote rfl
    have few := card_logged_lt wrote.confined mapped (not_rejected fine).1 length empty
    have slot : (middle.itable ip).ref = ((loaded sb fs ip).itable ip).ref := by
      obtain ⟨addrs, slot⟩ := wrote.grown.slot
      rw [slot, Function.update_self]
    rw [wp_bind]
    refine wp_iunlock (by rw [setDisk_itable, setSlot_self]; exact slot ▸ reference) ?_
    rw [wp_pure]
    have bound : ∀ iblock, (middle.logged ∪ {iblock}).card ≤ MAXOPBLOCKS :=
      fun iblock => (Finset.card_union_le _ _).trans few
    exact bound _

/-- A chunk of a new file on the blank disk. -/
theorem chunk_fits_log_new_file : ∃ fs, 0 < (fs.itable 0).ref ∧ fs.logged = ∅ ∧
    wp (writeChunk blankSuperblock 0 ⟨fun _ => 7, 5000⟩ 0 5000 0)
      (fun _ after => after.logged.card ≤ MAXOPBLOCKS) (fun _ => False) fs := by
  obtain ⟨made, fs, first, second, ⟨reference, inum⟩, ref, valid⟩ : ∃ made fs,
      (serve blankSuperblock (.ialloc T_FILE)).run blankState = .ok (⟨⟩, made) ∧
      (serve blankSuperblock (.ilock 0)).run made = .ok (⟨⟩, fs) ∧
      ((made.itable 0).ref = 1 ∧ (made.itable 0).inum = 1) ∧
      (fs.itable 0).ref = 1 ∧ (fs.itable 0).valid = true :=
    ⟨_, _, rfl, rfl, ⟨rfl, rfl⟩, rfl, rfl⟩
  have positive : 0 < (fs.itable 0).ref := by omega
  have consistent : Consistent blankSuperblock { fs with logged := ∅ } :=
    (blank_file_consistent first second reference inum).congr rfl rfl
  have locked : Locked { fs with logged := ∅ } 0 := ⟨by decide, positive, valid⟩
  have same : loaded blankSuperblock { fs with logged := ∅ } 0 = { fs with logged := ∅ } :=
    loaded_of_valid valid
  refine ⟨{ fs with logged := ∅ }, positive, rfl,
    chunk_fits_log blankSuperblock _ 0 _ 0 5000 0 positive ?_ ?_ rfl⟩
  · rw [same]
    exact locked.opened consistent
  · rw [same]
    exact locked.mapped consistent

end Xv6.Files
