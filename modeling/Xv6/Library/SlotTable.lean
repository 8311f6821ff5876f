import Mathlib.Data.Set.Insert

/-!
# Tables of keyed slots

A table holds pairs of a key and a value in numbered slots, some of which are free.
-/

namespace Xv6.SlotTable

variable {κ ν : Type} {n m k : Nat} {slot slot' : Nat → Option (κ × ν)} {pair : κ × ν}

def pairs (n : Nat) (slot : Nat → Option (κ × ν)) : Set (κ × ν) :=
  { pair | ∃ k, k < n ∧ slot k = some pair }

def Distinct (n : Nat) (slot : Nat → Option (κ × ν)) : Prop :=
  ∀ j k left right, j < n → k < n → slot j = some left → slot k = some right →
    left.1 = right.1 → j = k

/-- A key has one value. -/
theorem Distinct.functional (distinct : Distinct n slot) {key : κ} {v w : ν}
    (left : (key, v) ∈ pairs n slot) (right : (key, w) ∈ pairs n slot) : v = w := by
  obtain ⟨j, below, here⟩ := left
  obtain ⟨k, below', there⟩ := right
  have same := distinct j k _ _ below below' here there rfl
  rw [same, there, Option.some.injEq, Prod.mk.injEq] at here
  exact here.2.symm

section Fill

variable (inside : k < m) (longer : n ≤ m) (next : ∀ j, n ≤ j → j < m → j = k)
  (same : ∀ j, j ≠ k → slot' j = slot j) (filled : slot' k = some pair)
include inside longer next same filled

theorem pairs_fill (free : k < n → slot k = none) :
    pairs m slot' = insert pair (pairs n slot) := by
  ext other
  constructor
  · rintro ⟨j, below, held⟩
    by_cases here : j = k
    · rw [here, filled, Option.some.injEq] at held
      exact Or.inl held.symm
    · rw [same j here] at held
      by_cases old : j < n
      · exact Or.inr ⟨j, old, held⟩
      · exact absurd (next j (Nat.le_of_not_lt old) below) here
  · rintro (rfl | ⟨j, below, held⟩)
    · exact ⟨k, inside, filled⟩
    · have elsewhere : j ≠ k := by
        rintro rfl
        rw [free below] at held
        exact absurd held (by simp)
      exact ⟨j, Nat.lt_of_lt_of_le below longer, (same j elsewhere).trans held⟩

omit inside longer in
theorem Distinct.fill (distinct : Distinct n slot) (absent : ∀ value, (pair.1, value) ∉ pairs n slot) :
    Distinct m slot' := by
  -- A slot other than the filled one is an old one and has an old key.
  have old : ∀ j left, j < m → j ≠ k → slot' j = some left → j < n ∧ slot j = some left ∧
      left.1 ≠ pair.1 := by
    intro j left below elsewhere held
    have within : j < n := by
      by_contra out
      exact elsewhere (next j (Nat.le_of_not_lt out) below)
    rw [same j elsewhere] at held
    refine ⟨within, held, fun key => absent left.2 ⟨j, within, ?_⟩⟩
    rw [held, ← key]
  intro i j left right below below' here there key
  by_cases first : i = k
  · by_cases second : j = k
    · rw [first, second]
    · rw [first, filled, Option.some.injEq] at here
      exact absurd (here ▸ key.symm) (old j right below' second there).2.2
  · obtain ⟨within, held, other⟩ := old i left below first here
    by_cases second : j = k
    · rw [second, filled, Option.some.injEq] at there
      exact absurd (there ▸ key) other
    · obtain ⟨within', held', -⟩ := old j right below' second there
      exact distinct i j left right within within' held held' key

end Fill

section Clear

variable (distinct : Distinct n slot) (same : ∀ j, j ≠ k → slot' j = slot j)
  (cleared : slot' k = none)
include distinct same cleared

/-- Clearing a slot removes its pair. -/
theorem pairs_clear (inside : k < n) (held : slot k = some pair) :
    pairs n slot' = pairs n slot \ {pair} := by
  ext other
  constructor
  · rintro ⟨j, below, there⟩
    have elsewhere : j ≠ k := by
      rintro rfl
      rw [cleared] at there
      exact absurd there (by simp)
    rw [same j elsewhere] at there
    refine ⟨⟨j, below, there⟩, ?_⟩
    rintro rfl
    exact elsewhere (distinct j k _ _ below inside there held rfl)
  · rintro ⟨⟨j, below, there⟩, different⟩
    have elsewhere : j ≠ k := by
      rintro rfl
      rw [held, Option.some.injEq] at there
      exact different there.symm
    exact ⟨j, below, (same j elsewhere).trans there⟩

theorem Distinct.clear : Distinct n slot' := by
  have old : ∀ j left, slot' j = some left → slot j = some left := by
    intro j left there
    rw [← same j ?_, there]
    rintro rfl
    rw [cleared] at there
    exact absurd there (by simp)
  intro i j left right below below' here there key
  exact distinct i j left right below below' (old i left here) (old j right there) key

end Clear

end Xv6.SlotTable
