import Mathlib.Data.Finset.Card
import Mathlib.Logic.Function.Basic

/-!
# Counting the members of a predicate

A counter agrees with a predicate if exactly that many elements satisfy it.
-/

namespace Xv6.Tally

variable {α : Type}

def Counts (member : α → Prop) (count : Nat) : Prop :=
  ∃ members : Finset α, (∀ a, a ∈ members ↔ member a) ∧ members.card = count

variable {member member' : α → Prop} {count : Nat} {a : α}

theorem counts_none (none : ∀ a, ¬ member a) : Counts member 0 :=
  ⟨∅, fun a => by simp [none a], rfl⟩

theorem Counts.congr (counts : Counts member count) (same : ∀ a, member' a ↔ member a) :
    Counts member' count := by
  obtain ⟨members, exact_, card⟩ := counts
  exact ⟨members, fun a => (exact_ a).trans (same a).symm, card⟩

theorem Counts.enter [DecidableEq α] (counts : Counts member count) (fresh : ¬ member a)
    (more : ∀ b, member' b ↔ b = a ∨ member b) : Counts member' (count + 1) := by
  obtain ⟨members, exact_, card⟩ := counts
  refine ⟨insert a members, fun b => ?_, ?_⟩
  · rw [Finset.mem_insert, exact_, more]
  · rw [Finset.card_insert_of_notMem (by rwa [exact_]), card]

theorem Counts.leave [DecidableEq α] (counts : Counts member (count + 1)) (left : member a)
    (fewer : ∀ b, member' b ↔ b ≠ a ∧ member b) : Counts member' count := by
  obtain ⟨members, exact_, card⟩ := counts
  refine ⟨members.erase a, fun b => ?_, ?_⟩
  · rw [Finset.mem_erase, exact_, fewer]
  · rw [Finset.card_erase_of_mem ((exact_ a).mpr left), card, Nat.add_sub_cancel]

theorem Counts.zero (counts : Counts member count) (none : ∀ a, ¬ member a) : count = 0 := by
  obtain ⟨members, exact_, rfl⟩ := counts
  exact Finset.card_eq_zero.mpr (Finset.eq_empty_of_forall_notMem fun a => none a ∘ (exact_ a).mp)

theorem Counts.pos (counts : Counts member count) (inside : member a) : 0 < count := by
  obtain ⟨members, exact_, rfl⟩ := counts
  exact Finset.card_pos.mpr ⟨a, (exact_ a).mpr inside⟩

section Values

variable {β : Type} [DecidableEq α] {f : α → β} {v w : β}

theorem Counts.update_enter (counts : Counts (fun x => f x = v) count) (before : f a ≠ v) :
    Counts (fun x => Function.update f a v x = v) (count + 1) := by
  refine counts.enter before fun b => ?_
  by_cases here : b = a
  · simp [here]
  · simp [here]

/-- An element gives up a value. -/
theorem Counts.update_leave (counts : Counts (fun x => f x = v) (count + 1)) (before : f a = v)
    (after : w ≠ v) : Counts (fun x => Function.update f a w x = v) count := by
  refine counts.leave before fun b => ?_
  by_cases here : b = a
  · simp [here, after]
  · simp [here]

theorem Counts.update_other (counts : Counts (fun x => f x = v) count) (before : f a ≠ v)
    (after : w ≠ v) : Counts (fun x => Function.update f a w x = v) count := by
  refine counts.congr fun b => ?_
  by_cases here : b = a
  · simp [here, before, after]
  · simp [here]

end Values

end Xv6.Tally
