import Mathlib.Data.Nat.ModEq
import Mathlib.Data.List.Infix
import Mathlib.Logic.Function.Basic

/-!
# Ring buffers with wrapping counters

A ring stores elements at its counters modulo a capacity.
-/

namespace Xv6.RingBuffer

variable {α : Type} {capacity modulus : Nat}

structure Buffer (α : Type) where
  data : Nat → α
  nread : Nat
  nwrite : Nat

def put (capacity modulus : Nat) (ring : Buffer α) (element : α) : Buffer α :=
  { ring with
    data := Function.update ring.data (ring.nwrite % capacity) element
    nwrite := (ring.nwrite + 1) % modulus }

def front (capacity : Nat) (ring : Buffer α) : α := ring.data (ring.nread % capacity)

def drop (modulus : Nat) (ring : Buffer α) : Buffer α :=
  { ring with nread := (ring.nread + 1) % modulus }

/-- The ring represents what was put and not yet taken. -/
structure Holds (capacity modulus : Nat) (ring : Buffer α) (taken written : List α) : Prop where
  reads : ring.nread = taken.length % modulus
  writes : ring.nwrite = written.length % modulus
  initial : taken <+: written
  bounded : written.length ≤ taken.length + capacity
  stored : ∀ index, taken.length ≤ index → (inside : index < written.length) →
    ring.data (index % capacity) = written[index]

theorem wrapped_index (divides : capacity ∣ modulus) (count : Nat) :
    count % modulus % capacity = count % capacity :=
  Nat.mod_mod_of_dvd count divides

namespace Holds

variable {ring : Buffer α} {taken written : List α}

theorem length_le (holds : Holds capacity modulus ring taken written) :
    taken.length ≤ written.length := holds.initial.length_le

theorem empty_iff (holds : Holds capacity modulus ring taken written)
    (below : capacity < modulus) :
    ring.nread = ring.nwrite ↔ taken.length = written.length := by
  have shorter := holds.length_le
  have bounded := holds.bounded
  rw [holds.reads, holds.writes]
  constructor
  · intro same
    have gap : (written.length - taken.length) % modulus = 0 :=
      Nat.sub_mod_eq_zero_of_mod_eq same.symm
    rw [Nat.mod_eq_of_lt (by omega)] at gap
    omega
  · intro same
    rw [same]

theorem full_iff (holds : Holds capacity modulus ring taken written)
    (below : capacity < modulus) :
    ring.nwrite = (ring.nread + capacity) % modulus ↔
      written.length = taken.length + capacity := by
  have shorter := holds.length_le
  have bounded := holds.bounded
  rw [holds.reads, holds.writes, Nat.mod_add_mod]
  constructor
  · intro same
    have gap : (taken.length + capacity - written.length) % modulus = 0 :=
      Nat.sub_mod_eq_zero_of_mod_eq same.symm
    rw [Nat.mod_eq_of_lt (by omega)] at gap
    omega
  · intro same
    rw [same]

theorem gap (holds : Holds capacity modulus ring taken written) (below : capacity < modulus) :
    (ring.nwrite + (modulus - ring.nread)) % modulus = written.length - taken.length := by
  have shorter := holds.length_le
  have bounded := holds.bounded
  have low : taken.length % modulus < modulus := Nat.mod_lt _ (by omega)
  have split := Nat.div_add_mod taken.length modulus
  rw [holds.reads, holds.writes, Nat.mod_add_mod]
  have regroup : written.length + (modulus - taken.length % modulus) =
      (written.length - taken.length) + modulus * (taken.length / modulus + 1) := by
    rw [Nat.mul_add]
    omega
  rw [regroup, Nat.add_mul_mod_self_left, Nat.mod_eq_of_lt (by omega)]

theorem put_holds (holds : Holds capacity modulus ring taken written)
    (divides : capacity ∣ modulus) (room : written.length ≠ taken.length + capacity)
    (element : α) :
    Holds capacity modulus (put capacity modulus ring element) taken (written ++ [element]) := by
  have shorter := holds.length_le
  have bounded := holds.bounded
  have slot : ring.nwrite % capacity = written.length % capacity := by
    rw [holds.writes, wrapped_index divides]
  refine ⟨holds.reads, ?_, holds.initial.trans (List.prefix_append _ _), ?_, ?_⟩
  · simp [put, holds.writes]
  · simp only [List.length_append, List.length_singleton]
    omega
  · intro index lower inside
    simp only [List.length_append, List.length_singleton] at inside
    simp only [put, slot]
    by_cases last : index = written.length
    · subst last
      simp
    · -- Two live indices less than a capacity apart use different slots.
      have apart : index % capacity ≠ written.length % capacity := by
        intro same
        have gap : (written.length - index) % capacity = 0 :=
          Nat.sub_mod_eq_zero_of_mod_eq same.symm
        rw [Nat.mod_eq_of_lt (by omega)] at gap
        omega
      rw [Function.update_of_ne apart, holds.stored index lower (by omega),
        List.getElem_append_left (by omega)]

theorem drop_holds (holds : Holds capacity modulus ring taken written)
    (divides : capacity ∣ modulus) (some : taken.length ≠ written.length) :
    Holds capacity modulus (drop modulus ring) (taken ++ [front capacity ring]) written := by
  have shorter := holds.length_le
  have bounded := holds.bounded
  have inside : taken.length < written.length := by omega
  have oldest : front capacity ring = written[taken.length] := by
    rw [front, holds.reads, wrapped_index divides]
    exact holds.stored taken.length (Nat.le_refl _) inside
  refine ⟨?_, holds.writes, ?_, ?_, ?_⟩
  · simp [drop, holds.reads]
  · rw [oldest, List.prefix_iff_eq_take]
    have taking := List.prefix_iff_eq_take.mp holds.initial
    simp only [List.length_append, List.length_singleton]
    rw [List.take_add_one, ← taking, List.getElem?_eq_getElem inside, Option.toList_some]
  · simp only [List.length_append, List.length_singleton]
    omega
  · intro index lower within
    simp only [List.length_append, List.length_singleton] at lower
    exact holds.stored index (by omega) within

end Holds

def window (capacity : Nat) (data : Nat → α) (start count : Nat) : List α :=
  (List.range count).map fun index => data ((start + index) % capacity)

section Window

variable {data : Nat → α} {start count : Nat}

@[simp] theorem length_window : (window capacity data start count).length = count := by
  simp [window]

@[simp] theorem window_zero : window capacity data start 0 = [] := rfl

theorem window_succ : window capacity data start (count + 1) =
    data (start % capacity) :: window capacity data (start + 1) count := by
  simp only [window, List.range_succ_eq_map, List.map_cons, List.map_map, Nat.add_zero]
  congr 1
  refine List.map_congr_left fun index _ => ?_
  rw [Function.comp_apply, Nat.succ_eq_add_one, Nat.add_right_comm, Nat.add_assoc]

theorem window_add (first second : Nat) : window capacity data start (first + second) =
    window capacity data start first ++ window capacity data (start + first) second := by
  simp only [window, List.range_add, List.map_append, List.map_map]
  congr 1
  refine List.map_congr_left fun index _ => ?_
  rw [Function.comp_apply, Nat.add_assoc]

theorem window_wrapped (divides : capacity ∣ modulus) :
    window capacity data (start % modulus) count = window capacity data start count := by
  refine List.map_congr_left fun index _ => ?_
  rw [Nat.add_mod, wrapped_index divides, ← Nat.add_mod]

theorem window_store (element : α) (room : count < capacity) :
    window capacity (Function.update data ((start + count) % capacity) element) start (count + 1) =
      window capacity data start count ++ [element] := by
  rw [window_add]
  congr 1
  · refine List.map_congr_left fun index inside => Function.update_of_ne ?_ ..
    have below : index < count := List.mem_range.mp inside
    intro same
    have gap : (start + count - (start + index)) % capacity = 0 :=
      Nat.sub_mod_eq_zero_of_mod_eq same.symm
    rw [Nat.mod_eq_of_lt (by omega)] at gap
    omega
  · simp [window]

end Window

end Xv6.RingBuffer
