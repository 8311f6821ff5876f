import Mathlib.Data.Finset.Card
import Mathlib.Data.Finset.Image
import Mathlib.Order.Interval.Finset.Nat
import Xv6.Fs.Consistency
import Xv6.Log.GroupCommit

/-!
# How much of the log a write takes

A write goes through the pointers that lead to the blocks of its stretch, the indirect block
among them.
-/

namespace Xv6.Fs

open Command Bytes Function

section Header

variable {stop : Panic → Prop} {fs : State} {log : GroupCommit.Log}

structure Lists (log : GroupCommit.Log) (fs : State) : Prop where
  distinct : log.blocks.Nodup
  blocks : log.blocks.toFinset = fs.logged

theorem Lists.length_eq (lists : Lists log fs) : log.blocks.length = fs.logged.card := by
  rw [← lists.blocks, List.toFinset_card_of_nodup lists.distinct]

theorem logWrite_refines (lists : Lists log fs) (operating : 1 ≤ log.outstanding) (number : Nat)
    (contents : Block) :
    wp (logWrite number contents)
      (fun _ after => ∃ log', GroupCommit.logWrite log number = .ok log' ∧ Lists log' after)
      (fun reason => reason = .tooBigTransaction ∧
        GroupCommit.logWrite log number = .error .tooBigTransaction) fs := by
  rw [wp_logWrite_iff]
  have inside : ¬ log.outstanding < 1 := by omega
  split
  · rename_i full
    rw [← lists.length_eq] at full
    exact ⟨rfl, by rw [GroupCommit.logWrite, if_pos full]⟩
  · rename_i fits
    rw [← lists.length_eq] at fits
    refine ⟨_, by rw [GroupCommit.logWrite, if_neg fits, if_neg inside], ?_, ?_⟩
    · simp only [GroupCommit.absorb_eq]
      split
      · exact lists.distinct
      · rename_i new
        simpa using lists.distinct.concat new
    · ext m
      simp only [List.mem_toFinset, GroupCommit.mem_absorb, State.setDisk, Finset.mem_union,
        Finset.mem_singleton, ← lists.blocks]

end Header

variable {sb : Superblock} {stop : Panic → Prop} {fs : State} {ip : Nat}

def span (off len : Nat) : Nat := (off % BSIZE + len + (BSIZE - 1)) / BSIZE

def touched (off len first : Nat) : Finset Pointer :=
  insert .table ((Finset.Ico first (span off len)).image fun j => blockPointer (off / BSIZE + j))

theorem card_touched_le (off len first : Nat) :
    (touched off len first).card ≤ 1 + (span off len - first) := by
  calc (touched off len first).card
      ≤ ((Finset.Ico first (span off len)).image fun j => blockPointer (off / BSIZE + j)).card + 1 :=
        Finset.card_insert_le ..
    _ ≤ (Finset.Ico first (span off len)).card + 1 := Nat.add_le_add_right Finset.card_image_le 1
    _ = 1 + (span off len - first) := by rw [Nat.card_Ico, Nat.add_comm]

theorem mem_touched {off len : Nat} {p : Pointer} (inside : Stretch off len p) :
    p ∈ touched off len 0 := by
  obtain ⟨bn, lower, upper, ⟨rfl, -⟩ | rfl⟩ := inside
  · exact Finset.mem_insert_self ..
  · refine Finset.mem_insert_of_mem (Finset.mem_image.mpr ⟨bn - off / BSIZE, ?_, ?_⟩)
    · rw [Finset.mem_Ico, span]
      simp only [BSIZE] at *
      omega
    · simp only [Nat.add_sub_cancel' lower]

theorem mem_touched_of_none {off len limit : Nat} {p : Pointer} (inside : Stretch off len p)
    (mapped : Mapped sb fs ip limit) (inFile : off ≤ limit) (within : off % BSIZE ≠ 0)
    (absent : held sb fs ip ((fs.itable ip).inum, p) = none) : p ∈ touched off len 1 := by
  obtain ⟨bn, lower, upper, ⟨rfl, -⟩ | rfl⟩ := inside
  · exact Finset.mem_insert_self ..
  · have later : bn ≠ off / BSIZE := by
      rintro rfl
      obtain ⟨b, kept⟩ := mapped (off / BSIZE) (by simp only [BSIZE] at *; omega)
      rw [absent] at kept
      cases kept
    refine Finset.mem_insert_of_mem (Finset.mem_image.mpr ⟨bn - off / BSIZE, ?_, ?_⟩)
    · rw [Finset.mem_Ico, span]
      simp only [BSIZE] at *
      omega
    · simp only [Nat.add_sub_cancel' lower]

theorem Confined.card_logged_le {middle : State} {off len first : Nat}
    (confined : Confined sb fs ip (Stretch off len) middle)
    (received : ∀ p, Stretch off len p → held sb fs ip ((fs.itable ip).inum, p) = none →
      p ∈ touched off len first) :
    middle.logged.card ≤ fs.logged.card + (2 + span off len + (span off len - first)) := by
  set block : Pointer → Nat := fun p => (held sb middle ip ((fs.itable ip).inum, p)).getD 0
  have cover : middle.logged ⊆ (fs.logged ∪ (touched off len 0).image block) ∪
      (touched off len first).image fun p => BBLOCK sb (block p) := by
    intro m member
    rw [Finset.mem_union, Finset.mem_union, Finset.mem_image, Finset.mem_image]
    rcases confined.logged m member with before | ⟨p, b, inside, holds, reason⟩
    · exact Or.inl (Or.inl before)
    · have named : block p = b := by simp only [block, holds, Option.getD_some]
      rcases reason with isBlock | ⟨isBitmap, absent⟩
      · exact Or.inl (Or.inr ⟨p, mem_touched inside, by rw [named, isBlock]⟩)
      · exact Or.inr ⟨p, received p inside absent, by rw [named, isBitmap]⟩
  have all := card_touched_le off len 0
  have some := card_touched_le off len first
  calc middle.logged.card
      ≤ ((fs.logged ∪ (touched off len 0).image block) ∪
          (touched off len first).image fun p => BBLOCK sb (block p)).card :=
        Finset.card_le_card cover
    _ ≤ (fs.logged.card + (touched off len 0).card) + (touched off len first).card :=
        (Finset.card_union_le _ _).trans (Nat.add_le_add
          ((Finset.card_union_le _ _).trans (Nat.add_le_add_left Finset.card_image_le _))
          Finset.card_image_le)
    _ ≤ fs.logged.card + (2 + span off len + (span off len - first)) := by omega

theorem Confined.card_logged_le_span {middle : State} {off len : Nat}
    (confined : Confined sb fs ip (Stretch off len) middle) :
    middle.logged.card ≤ fs.logged.card + 2 * (span off len + 1) := by
  have bound := confined.card_logged_le fun p inside _ => mem_touched inside
  omega

theorem Confined.card_logged_le_entry {middle : State} {bn : Nat}
    (confined : Confined sb fs ip (Through bn) middle) :
    middle.logged.card ≤ fs.logged.card + 4 := by
  have position : bn * BSIZE / BSIZE = bn := Nat.mul_div_cancel _ (by decide)
  have stretch : Confined sb fs ip (Stretch (bn * BSIZE) 1) middle := by
    refine confined.weaken fun p through => ?_
    rw [← position] at through
    exact through.stretch Nat.one_pos
  have one : span (bn * BSIZE) 1 = 1 := by
    simp only [span, BSIZE]
    omega
  have bound := stretch.card_logged_le_span
  rwa [one] at bound

end Xv6.Fs
