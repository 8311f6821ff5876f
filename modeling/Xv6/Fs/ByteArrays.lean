import Xv6.Fs.BlockOwnership
import Xv6.Fs.LogBudget

/-!
# Files as byte arrays

An inode without holes stands for the string of its first `size` bytes.
-/

namespace Xv6.Fs

open Command Bytes

def string (bytes : ByteMap) (size : Nat) : List UInt8 := (List.range size).map bytes

def overwrite (old : List UInt8) (off : Nat) (new : List UInt8) : List UInt8 :=
  old.take off ++ new ++ old.drop (off + new.length)

def contents (sb : Superblock) (disk : Disk) (inum : Nat) : List UInt8 :=
  string (fileByte sb disk inum) (dinodeOf sb disk inum).size.toNat

@[simp] theorem length_string (bytes : ByteMap) (size : Nat) : (string bytes size).length = size := by
  simp [string]

theorem length_overwrite (old new : List UInt8) {off : Nat} (within : off ≤ old.length) :
    (overwrite old off new).length = max old.length (off + new.length) := by
  simp only [overwrite, List.length_append, List.length_take, List.length_drop]
  omega

theorem string_overwrite (old new : ByteMap) {size off t : Nat} (within : off ≤ size) :
    string (fun k => if off ≤ k ∧ k < off + t then new (k - off) else old k) (max size (off + t)) =
      overwrite (string old size) off (string new t) := by
  refine List.ext_getElem ?_ fun k left right => ?_
  · rw [length_overwrite _ _ (by rwa [length_string]), length_string, length_string, length_string]
  · -- The three stretches: before, inside and after what was written.
    simp only [string, overwrite, List.getElem_map, List.getElem_range, List.getElem_append,
      List.length_append, List.length_take, List.length_map, List.length_range, List.getElem_take,
      List.getElem_drop, Nat.min_eq_left within]
    by_cases before : k < off
    · rw [if_neg (by omega), dif_pos (by omega), dif_pos before]
    by_cases inside : k < off + t
    · rw [if_pos (by omega), dif_pos inside, dif_neg before]
    · rw [if_neg (by omega), dif_neg inside]
      congr 1
      omega

theorem string_slice (bytes : ByteMap) (size off n : Nat) :
    string (fun k => bytes (off + k)) (min n (size - off)) = ((string bytes size).drop off).take n := by
  refine List.ext_getElem (by simp [string]) fun k left right => ?_
  simp [string]

section Calls

variable {sb : Superblock} {stop : Panic → Prop} {fs after : State} {ip : Nat} {off n : UInt32}

theorem rejected_iff {size : UInt32} : Rejected size off n ↔
    size.toNat < off.toNat ∨ 2 ^ 32 ≤ off.toNat + n.toNat ∨ MAXFILE * BSIZE < off.toNat + n.toNat := by
  have left := off.toNat_lt
  have right := n.toNat_lt
  simp only [Rejected, UInt32.lt_iff_toNat_lt, UInt32.toNat_add, MAXFILE, BSIZE, NDIRECT, NINDIRECT]
  omega

theorem Rewritten.contents {d : Dinode} {bytes : ByteMap} (rewritten : Rewritten sb fs ip d bytes after) :
    contents sb after.disk (fs.itable ip).inum = string bytes d.size.toNat ∧
      ∀ j, j < sb.ninodes → j ≠ (fs.itable ip).inum →
        contents sb after.disk j = contents sb fs.disk j := by
  have bytes := rewritten.bytes
  refine ⟨?_, fun j inside other => ?_⟩
  · rw [Fs.contents, rewritten.dinode]
    congr 1
    funext k
    rw [bytes, if_pos rfl]
  · rw [Fs.contents, Fs.contents, rewritten.dinodes j inside other]
    congr 1
    funext k
    rw [bytes, if_neg other]

theorem Accepted.contents (consistent : Consistent sb fs) (locked : Locked fs ip) {src : Source} {t : Nat}
    (accepted : ¬ Rejected (fs.itable ip).d.size off n) (readable : n.toNat ≤ src.readable)
    (wrote : Accepted sb fs ip src off n t after) :
    contents sb after.disk (fs.itable ip).inum =
      overwrite (contents sb fs.disk (fs.itable ip).inum) off.toNat (string src.byte t) := by
  obtain ⟨extent, addrs, -, -, exact_, rewritten⟩ := wrote.effect
  obtain rfl := exact_ (Or.inl readable)
  obtain ⟨inFile, range⟩ := not_rejected accepted
  have small := locked.bounded consistent
  have reported := wrote.reported
  rw [rewritten.contents.1, Fs.contents, ← locked.copy consistent, ← string_overwrite _ _ inFile]
  congr 1
  rw [UInt32.toNat_ofNat']
  simp only [MAXFILE, NDIRECT, NINDIRECT, BSIZE] at *
  omega

end Calls

/-- Files are byte arrays. For a locked inode of a consistent state `writei` rejects a
stretch that does not fit, or replaces a stretch of the inode's string and leaves every
other string alone; `readi` returns the stretch of the string that there is. A write stops
only if the log header has no room for two blocks for each block of the stretch, two for
the indirect block and the block of the inode. -/
theorem files_are_byte_arrays {sb : Superblock} {fs : State} {ip : Nat}
    (consistent : Consistent sb fs) (locked : Locked fs ip) (off n : UInt32) :
    (∀ src : Source, n.toNat ≤ src.readable →
      wp (writei sb ip src off n) (fun result after =>
        Consistent sb after ∧ Locked after ip ∧ (after.itable ip).inum = (fs.itable ip).inum ∧
        if (contents sb fs.disk (fs.itable ip).inum).length < off.toNat ∨
            2 ^ 32 ≤ off.toNat + n.toNat ∨ MAXFILE * BSIZE < off.toNat + n.toNat then
          result = -1 ∧ after = fs
        else ∃ t : Nat, result = t ∧ t ≤ n.toNat ∧ (t = n.toNat ∨ Full sb after) ∧
          contents sb after.disk (fs.itable ip).inum =
            overwrite (contents sb fs.disk (fs.itable ip).inum) off.toNat (string src.byte t) ∧
          ∀ j, j < sb.ninodes → j ≠ (fs.itable ip).inum →
            contents sb after.disk j = contents sb fs.disk j)
        (fun reason => reason = .tooBigTransaction ∧
          LOGBLOCKS ≤ fs.logged.card + 2 * (span off.toNat n.toNat + 1)) fs) ∧
    (∀ dst : Destination,
      min n.toNat ((contents sb fs.disk (fs.itable ip).inum).length - off.toNat) ≤ dst.writable →
      wp (readi sb ip dst off n) (fun result after => after = fs ∧
        if (contents sb fs.disk (fs.itable ip).inum).length < off.toNat ∨
            2 ^ 32 ≤ off.toNat + n.toNat then result.1 = 0
        else ∃ m : Nat, result.1 = m ∧ string result.2 m =
          ((contents sb fs.disk (fs.itable ip).inum).drop off.toNat).take n.toNat)
        (fun _ => False) fs) := by
  have size : (contents sb fs.disk (fs.itable ip).inum).length = (fs.itable ip).d.size.toNat := by
    rw [contents, length_string, ← locked.copy consistent]
  refine ⟨fun src readable => ?_, fun dst room => ?_⟩
  · rw [size]
    refine consistent.wp_writei locked ?_ (fun rejected => ?_) fun t after accepted wrote => ?_
    · exact fun after _ _ confined full => ⟨rfl, full.trans confined.card_logged_le_span⟩
    · exact ⟨consistent, locked, rfl, by rw [if_pos (rejected_iff.mp rejected)]; exact ⟨rfl, rfl⟩⟩
    · obtain ⟨extent, addrs, -, -, -, rewritten⟩ := wrote.effect
      obtain ⟨still, inum⟩ := rewritten.locked locked
      refine ⟨rewritten.consistent, still, inum, ?_⟩
      rw [if_neg fun rejected => accepted (rejected_iff.mpr rejected)]
      refine ⟨t, rfl, wrote.reported, ?_, wrote.contents consistent locked accepted readable,
        rewritten.contents.2⟩
      rcases wrote.outcome with all | full | short
      · exact Or.inl all
      · exact Or.inr full
      · omega
  · refine wp_post (wp_readi off n (locked.mapped consistent) (locked.bounded consistent)) ?_
    rintro result after ⟨rfl, rfl⟩
    refine ⟨rfl, ?_⟩
    have amount := readLength_eq (after.itable ip).d.size off n
    rw [size] at room ⊢
    split
    · rename_i beyond
      rw [amount, if_pos beyond, delivered, if_pos (Nat.zero_le _)]
      rfl
    · rename_i inside
      rw [amount, if_neg inside, delivered, if_pos room, Nat.min_eq_left room]
      refine ⟨_, rfl, ?_⟩
      rw [contents, ← locked.copy consistent, ← string_slice]
      refine List.map_congr_left fun k within => ?_
      simp only
      rw [copy_inside _ _ (Nat.zero_le k) (by rw [Nat.zero_add]; exact List.mem_range.mp within),
        Nat.sub_zero, locked.bytes_eq consistent]

theorem blank_file_consistent {made fs : State}
    (first : (serve blankSuperblock (.ialloc T_FILE)).run blankState = .ok (⟨⟩, made))
    (second : (serve blankSuperblock (.ilock 0)).run made = .ok (⟨⟩, fs))
    (reference : (made.itable 0).ref = 1) (inum : (made.itable 0).inum = 1) :
    Consistent blankSuperblock fs := by
  have booted : Consistent blankSuperblock blankState :=
    Consistent.booted blank_ownedOnce (fun i live => absurd live (blank_dead i)) fun _ _ => rfl
  have allocated : Consistent blankSuperblock made :=
    Serves.consistent ⟨.ialloc T_FILE, trivial, first⟩ booted
  exact Serves.consistent ⟨.ilock 0, ⟨by decide, by omega, by rw [inum]; decide⟩, second⟩ allocated

/-- Writing twenty bytes to a new file on the blank disk, when the log lists one block. -/
theorem new_file_is_byte_array : ∃ fs, Consistent blankSuperblock fs ∧ Locked fs 0 ∧
    wp (writei blankSuperblock 0 ⟨fun _ => 7, 20⟩ 0 20) (fun result after => ∃ t : Nat, result = t ∧
      contents blankSuperblock after.disk 1 = overwrite [] 0 (string (fun _ => 7) t)) (fun _ => False) fs := by
  obtain ⟨made, fs, first, second, ⟨reference, inum⟩, ref, valid, number, empty, logs⟩ : ∃ made fs,
      (serve blankSuperblock (.ialloc T_FILE)).run blankState = .ok (⟨⟩, made) ∧
      (serve blankSuperblock (.ilock 0)).run made = .ok (⟨⟩, fs) ∧
      ((made.itable 0).ref = 1 ∧ (made.itable 0).inum = 1) ∧
      (fs.itable 0).ref = 1 ∧ (fs.itable 0).valid = true ∧ (fs.itable 0).inum = 1 ∧
      contents blankSuperblock fs.disk 1 = [] ∧ fs.logged.card = 1 :=
    ⟨_, _, rfl, rfl, ⟨rfl, rfl⟩, rfl, rfl, rfl, rfl, rfl⟩
  have consistent := blank_file_consistent first second reference inum
  have locked : Locked fs 0 := ⟨by decide, by omega, valid⟩
  refine ⟨fs, consistent, locked, ?_⟩
  refine wp_mono ((files_are_byte_arrays consistent locked 0 20).1 ⟨fun _ => 7, 20⟩ (by decide))
    ?_ ?_
  · rintro result after ⟨-, -, -, law⟩
    rw [number, empty, if_neg (by decide)] at law
    obtain ⟨t, same, -, -, written, -⟩ := law
    exact ⟨t, same, written⟩
  · rintro reason ⟨-, full⟩
    rw [logs] at full
    exact absurd full (by decide)

/-- Twenty-eight blocks written to a new file on the blank disk in one `writei`. The
disk has room for them; the log header, empty before, has not. -/
theorem large_write_stops : ∃ fs, Consistent blankSuperblock fs ∧ Locked fs 0 ∧ fs.logged = ∅ ∧
    (writei blankSuperblock 0 ⟨fun _ => 7, 28672⟩ 0 28672).run fs = .error .tooBigTransaction := by
  obtain ⟨made, opened, fs, first, second, third, ⟨reference, inum⟩, ref, valid, logs, stops⟩ :
      ∃ made opened fs,
        (serve blankSuperblock (.ialloc T_FILE)).run blankState = .ok (⟨⟩, made) ∧
        (serve blankSuperblock (.ilock 0)).run made = .ok (⟨⟩, opened) ∧
        (serve blankSuperblock .endOp).run opened = .ok (⟨⟩, fs) ∧
        ((made.itable 0).ref = 1 ∧ (made.itable 0).inum = 1) ∧
        (fs.itable 0).ref = 1 ∧ (fs.itable 0).valid = true ∧ fs.logged = ∅ ∧
        wp (writei blankSuperblock 0 ⟨fun _ => 7, 28672⟩ 0 28672) (fun _ _ => False)
          (· = .tooBigTransaction) fs :=
    ⟨_, _, _, rfl, rfl, rfl, ⟨rfl, rfl⟩, rfl, rfl, rfl, by decide +kernel⟩
  have consistent : Consistent blankSuperblock fs :=
    Serves.consistent ⟨.endOp, trivial, third⟩ (blank_file_consistent first second reference inum)
  obtain ⟨_, stopped, rfl⟩ := wp_stops stops
  exact ⟨fs, consistent, ⟨by decide, by omega, valid⟩, logs, stopped⟩

end Xv6.Fs
