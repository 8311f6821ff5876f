import Mathlib.Data.BitVec
import Mathlib.Logic.Function.Basic
import Mathlib.Tactic.Common

/-!
# Overlapping copies

The kernel's `memmove` and the one of the user library copy byte by byte, upwards or downwards,
and choose the direction by different tests.
-/

namespace Xv6.Memmove

open Function

abbrev Address := BitVec 64
abbrev Memory := Address → UInt8

def copyUp (mem : Memory) (d s : Address) : Nat → Memory
  | 0 => mem
  | n + 1 => copyUp (update mem d (mem s)) (d + 1) (s + 1) n

def copyDown (mem : Memory) (d s : Address) : Nat → Memory
  | 0 => mem
  | n + 1 => copyDown (update mem (d - 1) (mem (s - 1))) (d - 1) (s - 1) n

def kernelMemmove (mem : Memory) (dst src : Address) (n : BitVec 32) : Address × Memory :=
  if n = 0 then (dst, mem)
  else if src < dst ∧ dst < src + n.setWidth 64 then
    (dst, copyDown mem (dst + n.setWidth 64) (src + n.setWidth 64) n.toNat)
  else (dst, copyUp mem dst src n.toNat)

def userMemmove (mem : Memory) (dst src : Address) (n : BitVec 32) : Address × Memory :=
  if dst < src then (dst, copyUp mem dst src n.toInt.toNat)
  else (dst, copyDown mem (dst + n.signExtend 64) (src + n.signExtend 64) n.toInt.toNat)

def after (a : Address) (i : Nat) : Address := a + BitVec.ofNat 64 i

theorem after_zero (a : Address) : after a 0 = a := BitVec.add_zero a

theorem after_succ (a : Address) (i : Nat) : after (a + 1) i = after a (i + 1) := by
  rw [after, after, BitVec.ofNat_add, BitVec.add_assoc, BitVec.add_comm 1]
  rfl

theorem after_pred (a : Address) (i : Nat) : after a (i + 1) - 1 = after a i := by
  rw [after, after, BitVec.ofNat_add, ← BitVec.add_assoc]
  exact BitVec.add_sub_cancel _ _

section Range

variable {a b : Address} {n i j : Nat}

theorem toNat_after (range : a.toNat + n ≤ 2 ^ 64) (inside : i < n) :
    (after a i).toNat = a.toNat + i := by
  rw [after, BitVec.toNat_add, BitVec.toNat_ofNat, Nat.mod_eq_of_lt (by omega : i < 2 ^ 64),
    Nat.mod_eq_of_lt (by omega)]

theorem after_injective (range : a.toNat + n ≤ 2 ^ 64) (hi : i < n) (hj : j < n)
    (same : after a i = after a j) : i = j := by
  have offsets := congrArg BitVec.toNat same
  rw [toNat_after range hi, toNat_after range hj] at offsets
  omega

theorem offsets_of_after_eq (rangeA : a.toNat + n ≤ 2 ^ 64) (rangeB : b.toNat + n ≤ 2 ^ 64)
    (hi : i < n) (hj : j < n) (same : after a i = after b j) : a.toNat + i = b.toNat + j := by
  have offsets := congrArg BitVec.toNat same
  rwa [toNat_after rangeA hi, toNat_after rangeB hj] at offsets

end Range

section Copies

variable {n : Nat} {mem : Memory} {d s a : Address}

theorem copyUp_outside (outside : ∀ i, i < n → a ≠ after d i) : copyUp mem d s n a = mem a := by
  induction n generalizing mem d s with
  | zero => rfl
  | succ n ih =>
    have first : a ≠ d := by
      rw [← after_zero d]
      exact outside 0 (Nat.succ_pos n)
    rw [copyUp, ih, update_of_ne first]
    intro i inside
    rw [after_succ]
    exact outside (i + 1) (by omega)

theorem copyUp_inside (apart : ∀ i j, i < n → j < n → after d i = after d j → i = j)
    (ahead : ∀ i j, i < j → j < n → after d i ≠ after s j) {i : Nat} (inside : i < n) :
    copyUp mem d s n (after d i) = mem (after s i) := by
  induction n generalizing mem d s i with
  | zero => omega
  | succ n ih =>
    rw [copyUp]
    cases i with
    | zero =>
      rw [copyUp_outside, after_zero, after_zero, update_self]
      intro i inside same
      rw [after_succ] at same
      have := apart 0 (i + 1) (by omega) (by omega) same
      omega
    | succ i =>
      rw [← after_succ d, ← after_succ s, ih _ _ (by omega), update_of_ne]
      · rw [after_succ, ← after_zero d]
        exact (ahead 0 (i + 1) (by omega) inside).symm
      · intro i j hi hj same
        rw [after_succ, after_succ] at same
        have := apart _ _ (by omega) (by omega) same
        omega
      · intro i j less hj
        rw [after_succ, after_succ]
        exact ahead _ _ (by omega) (by omega)

theorem copyDown_outside (outside : ∀ i, i < n → a ≠ after d i) :
    copyDown mem (after d n) s n a = mem a := by
  induction n generalizing mem s with
  | zero => rfl
  | succ n ih =>
    rw [copyDown, after_pred, ih fun i inside => outside i (by omega),
      update_of_ne (outside n (by omega))]

theorem copyDown_inside (apart : ∀ i j, i < n → j < n → after d i = after d j → i = j)
    (behind : ∀ i j, i < j → j < n → after d j ≠ after s i) {i : Nat} (inside : i < n) :
    copyDown mem (after d n) (after s n) n (after d i) = mem (after s i) := by
  induction n generalizing mem with
  | zero => omega
  | succ n ih =>
    rw [copyDown, after_pred, after_pred]
    by_cases last : i = n
    · subst last
      rw [copyDown_outside, update_self]
      intro j below same
      have := apart i j inside (by omega) same
      omega
    · rw [ih (fun i j hi hj => apart i j (by omega) (by omega))
        (fun i j less hj => behind i j less (by omega)) (by omega), update_of_ne]
      exact (behind i n (by omega) (by omega)).symm

end Copies

structure Moved (mem : Memory) (dst src : Address) (n : Nat) (result : Address × Memory) : Prop where
  returned : result.1 = dst
  copied : ∀ i, i < n → result.2 (after dst i) = mem (after src i)
  others : ∀ a, (∀ i, i < n → a ≠ after dst i) → result.2 a = mem a

section Moves

variable {mem : Memory} {dst src : Address} {n : Nat}

theorem moved_up (source : src.toNat + n ≤ 2 ^ 64) (target : dst.toNat + n ≤ 2 ^ 64)
    (clear : dst.toNat ≤ src.toNat ∨ src.toNat + n ≤ dst.toNat) :
    Moved mem dst src n (dst, copyUp mem dst src n) := by
  refine ⟨rfl, fun i inside => copyUp_inside ?_ ?_ inside, fun a => copyUp_outside⟩
  · exact fun i j hi hj => after_injective target hi hj
  · intro i j less hj same
    have := offsets_of_after_eq target source (by omega) hj same
    omega

theorem moved_down (source : src.toNat + n ≤ 2 ^ 64) (target : dst.toNat + n ≤ 2 ^ 64)
    (clear : src.toNat ≤ dst.toNat) :
    Moved mem dst src n (dst, copyDown mem (after dst n) (after src n) n) := by
  refine ⟨rfl, fun i inside => copyDown_inside ?_ ?_ inside, fun a => copyDown_outside⟩
  · exact fun i j hi hj => after_injective target hi hj
  · intro i j less hj same
    have := offsets_of_after_eq target source hj (by omega) same
    omega

theorem toNat_length (small : n < 2 ^ 31) : (BitVec.ofNat 32 n).toNat = n := by
  rw [BitVec.toNat_ofNat]
  omega

theorem toInt_length (small : n < 2 ^ 31) : (BitVec.ofNat 32 n).toInt.toNat = n := by
  have length := toNat_length small
  rw [BitVec.toInt_eq_toNat_of_lt (by omega), length]
  rfl

theorem setWidth_length (small : n < 2 ^ 31) :
    (BitVec.ofNat 32 n).setWidth 64 = BitVec.ofNat 64 n := by
  apply BitVec.eq_of_toNat_eq
  simp only [BitVec.toNat_setWidth, BitVec.toNat_ofNat]
  omega

theorem signExtend_length (small : n < 2 ^ 31) :
    (BitVec.ofNat 32 n).signExtend 64 = BitVec.ofNat 64 n := by
  rw [BitVec.signExtend_eq_setWidth_of_msb_false, setWidth_length small]
  rw [BitVec.msb_eq_false_iff_two_mul_lt, BitVec.toNat_ofNat]
  omega

theorem kernelMemmove_moved (mem : Memory) (small : n < 2 ^ 31) (source : src.toNat + n ≤ 2 ^ 64)
    (target : dst.toNat + n ≤ 2 ^ 64) :
    Moved mem dst src n (kernelMemmove mem dst src (BitVec.ofNat 32 n)) := by
  have length := toNat_length small
  rw [kernelMemmove]
  split
  · rename_i zero
    have none : n = 0 := by
      rw [← length, zero]
      rfl
    subst none
    exact ⟨rfl, fun i inside => by omega, fun _ _ => rfl⟩
  rw [setWidth_length small, length]
  split
  · rename_i below
    exact moved_down source target (Nat.le_of_lt (BitVec.lt_def.mp below.1))
  · rename_i clear
    refine moved_up source target ?_
    by_contra overlap
    refine clear ⟨BitVec.lt_def.mpr (by omega), BitVec.lt_def.mpr ?_⟩
    -- `src + n` does not wrap: it is less than `dst + n`
    rw [← after, toNat_after (n := n + 1) (by omega) (by omega)]
    omega

theorem userMemmove_moved (mem : Memory) (small : n < 2 ^ 31) (source : src.toNat + n ≤ 2 ^ 64)
    (target : dst.toNat + n ≤ 2 ^ 64) :
    Moved mem dst src n (userMemmove mem dst src (BitVec.ofNat 32 n)) := by
  rw [userMemmove, toInt_length small, signExtend_length small]
  split
  · rename_i above
    exact moved_up source target (Or.inl (Nat.le_of_lt (BitVec.lt_def.mp above)))
  · rename_i below
    exact moved_down source target (Nat.le_of_not_lt fun above => below (BitVec.lt_def.mpr above))

end Moves

theorem Moved.unique {mem : Memory} {dst src : Address} {n : Nat} {first second : Address × Memory}
    (one : Moved mem dst src n first) (two : Moved mem dst src n second) : first = second := by
  refine Prod.ext (one.returned.trans two.returned.symm) (funext fun a => ?_)
  by_cases inside : ∃ i, i < n ∧ a = after dst i
  · obtain ⟨i, less, rfl⟩ := inside
    rw [one.copied i less, two.copied i less]
  · have outside : ∀ i, i < n → a ≠ after dst i := fun i less same => inside ⟨i, less, same⟩
    rw [one.others a outside, two.others a outside]

/-- Both versions copy correctly, however the ranges overlap, and agree. -/
theorem memmove_correct (mem : Memory) (dst src : Address) (n : Nat) (small : n < 2 ^ 31)
    (source : src.toNat + n ≤ 2 ^ 64) (target : dst.toNat + n ≤ 2 ^ 64) :
    Moved mem dst src n (kernelMemmove mem dst src (BitVec.ofNat 32 n)) ∧
      Moved mem dst src n (userMemmove mem dst src (BitVec.ofNat 32 n)) ∧
      kernelMemmove mem dst src (BitVec.ofNat 32 n) =
        userMemmove mem dst src (BitVec.ofNat 32 n) := by
  have kernel := kernelMemmove_moved mem small source target
  have user := userMemmove_moved mem small source target
  exact ⟨kernel, user, kernel.unique user⟩

/-- Two bytes moved up by one, onto the end of the address space. -/
theorem memmove_correct_last : Moved (fun a => UInt8.ofNat a.toNat) (-2) (-3) 2
    (kernelMemmove (fun a => UInt8.ofNat a.toNat) (-2) (-3) (BitVec.ofNat 32 2)) :=
  (memmove_correct _ _ _ 2 (by decide) (by decide) (by decide)).1

end Xv6.Memmove
