import Xv6.Fs.BlockBudget
import Xv6.Fs.ByteArrays

/-!
# Writes cut short by their source

`writei` copies its source into the buffers block by block and logs each buffer after the copy.
-/

namespace Xv6.Fs

open Command Bytes

def State.committed (fs : State) : Disk :=
  fun b => if b ∈ fs.logged then fs.disk b else fs.recorded b

def State.evict (fs : State) (dropped : Finset Nat) : State :=
  { fs with
    disk := fun b => if b ∈ dropped ∧ b ∉ fs.logged then fs.recorded b else fs.disk b
    unlogged := fun b => if b ∈ dropped ∧ b ∉ fs.logged then none else fs.unlogged b }

variable {sb : Superblock} {fs after : State} {ip : Nat}

theorem committed_of_recorded (record : fs.recorded = fs.disk) : fs.committed = fs.disk := by
  funext b
  simp only [State.committed, record, ite_self]

theorem evict_disk_of_recorded (record : fs.recorded = fs.disk) (dropped : Finset Nat) :
    (fs.evict dropped).disk = fs.disk := by
  simp only [State.evict, record, ite_self]

theorem Consistent.wp_readi_bytes {stop : Panic → Prop} {dst : Destination} (off n : UInt32)
    (consistent : Consistent sb fs) (locked : Locked fs ip) :
    wp (readi sb ip dst off n) (fun out _ => ∀ k : Nat, (k : Int) < out.1 →
      out.2 k = fileByte sb fs.disk (fs.itable ip).inum (off.toNat + k)) stop fs := by
  refine wp_post (wp_readi off n (locked.mapped consistent) (locked.bounded consistent)) ?_
  rintro out after ⟨-, rfl⟩ k below
  simp only [delivered] at below ⊢
  split at below
  · rename_i fits
    rw [copy_inside _ _ (Nat.zero_le k) (by omega), Nat.sub_zero, locked.bytes_eq consistent]
  · omega

structure KeepsRest (sb : Superblock) (fs : State) (ip : Nat) (off : UInt32) (r : Int)
    (after : State) : Prop where
  record : after.recorded = after.disk
  contents : ∀ i k : Nat,
    ¬ (i = (fs.itable ip).inum ∧ off.toNat ≤ k ∧ (k : Int) < off.toNat + r) →
    fileByte sb after.committed i k = fileByte sb fs.committed i k ∧
    ∀ dropped, fileByte sb (after.evict dropped).disk i k = fileByte sb fs.disk i k
  reads : ∀ dropped dst first count,
    wp (readi sb ip dst first count) (fun out _ => ∀ k : Nat, (k : Int) < out.1 →
      ¬ (off.toNat ≤ first.toNat + k ∧ ((first.toNat + k : Nat) : Int) < off.toNat + r) →
      out.2 k = fileByte sb fs.disk (fs.itable ip).inum (first.toNat + k))
      (fun _ => False) (after.evict dropped)

def Harmless (sb : Superblock) (fs : State) (ip : Nat) (src : Source) (off n : UInt32) : Prop :=
  Rejected (fs.itable ip).d.size off n ∨ src.Whole n.toNat 0 off.toNat ∨
  (freeBlocks sb fs.disk).card <
    (lacking sb fs.disk (fs.itable ip).inum off.toNat src.readable).card ∨
  ∀ k, (off.toNat + src.readable) / BSIZE * BSIZE - off.toNat ≤ k → k < src.readable →
    src.byte k = fileByte sb fs.disk (fs.itable ip).inum (off.toNat + k)

theorem KeepsRest.of_record {off : UInt32} {r : Int} (settled : fs.Settled)
    (consistent : Consistent sb after) (locked : Locked after ip)
    (inum : (after.itable ip).inum = (fs.itable ip).inum) (record : after.recorded = after.disk)
    (outside : ∀ i k : Nat,
      ¬ (i = (fs.itable ip).inum ∧ off.toNat ≤ k ∧ (k : Int) < off.toNat + r) →
      fileByte sb after.disk i k = fileByte sb fs.disk i k) : KeepsRest sb fs ip off r after := by
  refine ⟨record, fun i k elsewhere => ⟨?_, fun dropped => ?_⟩, fun dropped _ first count => ?_⟩
  · rw [committed_of_recorded record, committed_of_recorded settled.recorded]
    exact outside i k elsewhere
  · rw [evict_disk_of_recorded record]
    exact outside i k elsewhere
  · have same := evict_disk_of_recorded record dropped
    have still : Locked (after.evict dropped) ip := ⟨locked.slot, locked.ref, locked.valid⟩
    refine wp_post ((consistent.congr same rfl).wp_readi_bytes first count still) ?_
    intro out _ delivered k below elsewhere
    rw [delivered k below, same]
    have number : ((after.evict dropped).itable ip).inum = (fs.itable ip).inum := inum
    rw [number]
    exact outside _ _ fun inside => elsewhere inside.2

theorem lacking_mono {disk : Disk} {inum off len longer : Nat} (le : len ≤ longer) :
    lacking sb disk inum off len ⊆ lacking sb disk inum off longer := by
  intro p member
  obtain ⟨inside, absent⟩ := mem_lacking.mp member
  exact mem_lacking.mpr ⟨inside.widen (Nat.le_refl _) (by omega), absent⟩

section Accepted

variable {src : Source} {off n : UInt32} {t extent : Nat} (consistent : Consistent sb fs)
  (locked : Locked fs ip) (accepted : Accepted sb fs ip src off n t after)
include consistent locked accepted

theorem Accepted.not_starved (fine : ¬ Rejected (fs.itable ip).d.size off n) {b : Nat}
    (short : src.readable < t + min (n.toNat - t) (BSIZE - (off.toNat + t) % BSIZE))
    (block : refs sb after.disk
      ((fs.itable ip).inum, blockPointer ((off.toNat + t) / BSIZE)) = some b) :
    (lacking sb fs.disk (fs.itable ip).inum off.toNat src.readable).card ≤
      (freeBlocks sb fs.disk).card := by
  have read := accepted.read
  have same : (off.toNat + src.readable) / BSIZE = (off.toNat + t) / BSIZE := by
    simp only [BSIZE] at *
    omega
  refine accepted.card_lacking_le consistent fun bn upper => ?_
  rw [same] at upper
  by_cases last : bn = (off.toNat + t) / BSIZE
  · rw [last]
    exact ⟨b, block⟩
  · refine accepted.mapped consistent locked fine ?_
    simp only [BSIZE] at *
    omega

theorem Accepted.record_iff (fine : ¬ Rejected (fs.itable ip).d.size off n)
    (settled : fs.Settled) (short : t < n.toNat)
    (ending : Ending sb fs ip src n.toNat 0 off.toNat (t, off.toNat + t) extent after)
    (pointers : held sb after ip = refs sb after.disk) :
    after.recorded = after.disk ↔ Harmless sb fs ip src off n := by
  have read := accepted.read
  cases ending with
  | all whole _ _ => exact absurd whole (Nat.ne_of_lt short)
  | full full absent _ kept =>
    have settled' : after.Settled := fun b => kept b (settled b)
    refine iff_of_true settled'.recorded (Or.inr (Or.inr (Or.inl ?_)))
    rw [pointers] at absent
    exact Nat.lt_of_lt_of_le (accepted.card_free_lt consistent full absent)
      (Finset.card_le_card (lacking_mono read))
  | cut b cut block _ _ record =>
    rw [pointers] at block
    have starved := accepted.not_starved consistent locked fine cut block
    -- the chunk in which the source ends starts where the write stopped
    have start : t = (off.toNat + src.readable) / BSIZE * BSIZE - off.toNat := by
      have boundary := accepted.boundary
      simp only [BSIZE] at *
      omega
    rw [record settled, locked.bytes_eq consistent, Harmless, ← start]
    simp only [Nat.sub_zero]
    refine ⟨fun same => Or.inr (Or.inr (Or.inr same)), ?_⟩
    rintro (turned | whole | few | same)
    · exact absurd turned fine
    · have nothing := whole.nothing (Nat.zero_le t) accepted.reported rfl cut
      intro k first last
      simp only at nothing
      omega
    · omega
    · exact same

end Accepted

theorem Ending.outside {src : Source} {off n : UInt32} {t extent : Nat}
    (ending : Ending sb fs ip src n.toNat 0 off.toNat (t, off.toNat + t) extent after)
    (consistent : Consistent sb fs) (locked : Locked fs ip) (settled : fs.Settled)
    (short : t < n.toNat) (record : after.recorded = after.disk) {k : Nat}
    (behind : off.toNat + t ≤ k) (before : k < off.toNat + extent) :
    src.byte (k - off.toNat) = fileByte sb fs.disk (fs.itable ip).inum k := by
  cases ending with
  | all whole _ _ => exact absurd whole (Nat.ne_of_lt short)
  | full _ _ exactly _ => simp only at exactly; omega
  | cut b cut _ part _ recordIff =>
    simp only at part
    have byte := (recordIff settled).mp record (k - off.toNat) (by simp only; omega) (by omega)
    rw [byte, locked.bytes_eq consistent, Nat.sub_zero, Nat.add_sub_cancel' (by omega)]

/-- A write cut short leaves the rest alone exactly if its source is harmless: if `writei`
reports `r < n`, then `KeepsRest` holds of the bytes beyond `r` and of the buffers if and
only if `Harmless` holds of the state before. -/
theorem short_write_keeps_rest (sb : Superblock) (fs : State) (ip : Nat) (src : Source)
    (off n : UInt32) (consistent : Consistent sb fs) (locked : Locked fs ip)
    (settled : fs.Settled) :
    wp (writei sb ip src off n) (fun r after => r < n.toNat →
      (KeepsRest sb fs ip off r after ↔ Harmless sb fs ip src off n))
      (fun reason => reason = .tooBigTransaction ∧
        LOGBLOCKS ≤ fs.logged.card + 2 * (span off.toNat n.toNat + 1)) fs := by
  refine consistent.wp_writei locked ?_ ?_ ?_
  · exact fun after _ _ confined full => ⟨rfl, full.trans confined.card_logged_le_span⟩
  · intro turned _
    exact iff_of_true (KeepsRest.of_record settled consistent locked rfl settled.recorded
      fun _ _ _ => rfl) (Or.inl turned)
  · intro t after fine accepted short
    obtain ⟨extent, addrs, ending, rewritten⟩ := accepted.written
    obtain ⟨locked', inum⟩ := rewritten.locked locked
    have partly : t < n.toNat := by exact_mod_cast short
    have recordIff := accepted.record_iff consistent locked fine settled partly ending
      (locked'.held_eq rewritten.consistent)
    refine ⟨fun keeps => recordIff.mp keeps.record, fun harmless => ?_⟩
    have record := recordIff.mpr harmless
    refine KeepsRest.of_record settled rewritten.consistent locked' inum record ?_
    intro i k elsewhere
    rw [rewritten.bytes]
    split
    · rename_i own
      rw [own]
      split
      · rename_i replaced
        have behind : off.toNat + t ≤ k := by
          by_contra reported
          exact elsewhere ⟨own, replaced.1, by omega⟩
        exact ending.outside consistent locked settled partly record behind replaced.2
      · rfl
    · rfl

/-- A new file on the blank disk, and a write of two blocks of which the source has one: that one is
written, and nothing else has changed. -/
theorem short_write_one_block : ∃ fs, Consistent blankSuperblock fs ∧ Locked fs 0 ∧ fs.Settled ∧
    ∃ after, (writei blankSuperblock 0 ⟨fun _ => 7, 1024⟩ 0 2048).run fs = .ok (1024, after) ∧
      KeepsRest blankSuperblock fs 0 0 1024 after := by
  obtain ⟨made, fs, after, first, second, ⟨reference, inum⟩, ⟨ref, valid⟩, ran⟩ :
      ∃ made fs after,
        (serve blankSuperblock (.ialloc T_FILE)).run blankState = .ok (⟨⟩, made) ∧
        (serve blankSuperblock (.ilock 0)).run made = .ok (⟨⟩, fs) ∧
        ((made.itable 0).ref = 1 ∧ (made.itable 0).inum = 1) ∧
        ((fs.itable 0).ref = 1 ∧ (fs.itable 0).valid = true) ∧
        (writei blankSuperblock 0 ⟨fun _ => 7, 1024⟩ 0 2048).run
          { fs with unlogged := fun _ => none } = .ok (1024, after) :=
    ⟨_, _, _, rfl, rfl, ⟨rfl, rfl⟩, ⟨rfl, rfl⟩, rfl⟩
  have consistent : Consistent blankSuperblock { fs with unlogged := fun _ => none } :=
    (blank_file_consistent first second reference inum).congr rfl rfl
  have locked : Locked { fs with unlogged := fun _ => none } 0 :=
    ⟨by decide, by simp only; omega, valid⟩
  refine ⟨_, consistent, locked, fun _ => rfl, after, ran, ?_⟩
  have exactly := wp_returned (short_write_keeps_rest blankSuperblock _ 0 ⟨fun _ => 7, 1024⟩ 0 2048
    consistent locked fun _ => rfl) ran (by decide)
  exact exactly.mpr (Or.inr (Or.inl (Or.inr (Or.inr (by decide)))))

/-- Twenty bytes are to be written, and the source becomes unreadable after five. `writei`
reports none; the five are in the file, in an unlogged buffer and, since the block was in
the log before, on the disk after the commit. -/
theorem partial_copy_changes_file : ∃ fs, Consistent blankSuperblock fs ∧ Locked fs 0 ∧
    fs.Settled ∧ (fs.itable 0).inum = 1 ∧
    ∃ after, (writei blankSuperblock 0 ⟨fun _ => 9, 5⟩ 0 20).run fs = .ok (0, after) ∧
      fileByte blankSuperblock after.disk 1 0 ≠ fileByte blankSuperblock fs.disk 1 0 ∧
      fileByte blankSuperblock after.committed 1 0 ≠ fileByte blankSuperblock fs.committed 1 0 ∧
      after.recorded ≠ after.disk := by
  obtain ⟨made, locked, written, first, second, third, ⟨reference, inum⟩, ⟨ref, valid⟩,
      ⟨ref', valid', inum'⟩, old, after, ran, seen, stored, record, buffer⟩ :
      ∃ made locked written,
        (serve blankSuperblock (.ialloc T_FILE)).run blankState = .ok (⟨⟩, made) ∧
        (serve blankSuperblock (.ilock 0)).run made = .ok (⟨⟩, locked) ∧
        (serve blankSuperblock (.writei 0 ⟨fun _ => 7, 20⟩ 0 20)).run locked = .ok (⟨⟩, written) ∧
        ((made.itable 0).ref = 1 ∧ (made.itable 0).inum = 1) ∧
        ((locked.itable 0).ref = 1 ∧ (locked.itable 0).valid = true) ∧
        ((written.itable 0).ref = 1 ∧ (written.itable 0).valid = true ∧
          (written.itable 0).inum = 1) ∧
        fileByte blankSuperblock written.disk 1 0 = 7 ∧
        ∃ after, (writei blankSuperblock 0 ⟨fun _ => 9, 5⟩ 0 20).run
            { written with unlogged := fun _ => none } = .ok (0, after) ∧
          fileByte blankSuperblock after.disk 1 0 = 9 ∧
          fileByte blankSuperblock after.committed 1 0 = 9 ∧
          after.recorded 6 0 = 7 ∧ after.disk 6 0 = 9 :=
    ⟨_, _, _, rfl, rfl, rfl, ⟨rfl, rfl⟩, ⟨rfl, rfl⟩, ⟨rfl, rfl, rfl⟩, by decide +kernel, _, rfl,
      by decide +kernel, by decide +kernel, by decide +kernel, by decide +kernel⟩
  have opened := blank_file_consistent first second reference inum
  have full : Consistent blankSuperblock written :=
    Serves.consistent ⟨.writei 0 ⟨fun _ => 7, 20⟩ 0 20, ⟨by decide, by omega, valid⟩, third⟩ opened
  have settled : ({ written with unlogged := fun _ => none } : State).Settled := fun _ => rfl
  refine ⟨{ written with unlogged := fun _ => none }, full.congr rfl rfl,
    ⟨by decide, by simp only; omega, valid'⟩, settled, inum', after, ran, ?_, ?_, ?_⟩
  · rw [seen]
    simp only [old]
    decide
  · rw [committed_of_recorded settled.recorded, stored]
    simp only [old]
    decide
  · intro same
    rw [same, buffer] at record
    exact absurd record (by decide)

end Xv6.Fs
