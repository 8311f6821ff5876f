import Mathlib.Data.Nat.ModEq
import Mathlib.Tactic.Common

/-!
# Little-endian words in byte storage

Storage is a map from byte offsets to bytes.
-/

namespace Xv6.Bytes

def ch (c : Char) : UInt8 := UInt8.ofNat c.toNat

abbrev ByteMap := Nat → UInt8

def load (bytes : ByteMap) (offset : Nat) : Nat → Nat
  | 0 => 0
  | width + 1 => (bytes offset).toNat + 256 * load bytes (offset + 1) width

def store (bytes : ByteMap) (offset width value : Nat) : ByteMap := fun index =>
  if offset ≤ index ∧ index < offset + width then
    UInt8.ofNat (value / 256 ^ (index - offset))
  else bytes index

def storeWords (bytes : ByteMap) (offset width : Nat) (word : Nat → Nat) : Nat → ByteMap
  | 0 => bytes
  | count + 1 =>
    store (storeWords bytes offset width word count) (offset + width * count) width (word count)

def copy (target : ByteMap) (offset : Nat) (source : ByteMap) (start length : Nat) : ByteMap :=
  fun index =>
    if offset ≤ index ∧ index < offset + length then source (start + (index - offset))
    else target index

def fill (bytes : ByteMap) (offset length : Nat) (value : UInt8) : ByteMap := fun index =>
  if offset ≤ index ∧ index < offset + length then value else bytes index

theorem copy_inside (target source : ByteMap) {offset start length index : Nat}
    (lower : offset ≤ index) (upper : index < offset + length) :
    copy target offset source start length index = source (start + (index - offset)) := by
  simp only [copy, lower, upper, and_self, ↓reduceIte]

theorem copy_outside (target source : ByteMap) {offset start length index : Nat}
    (outside : index < offset ∨ offset + length ≤ index) :
    copy target offset source start length index = target index := by
  have missed : ¬ (offset ≤ index ∧ index < offset + length) := by omega
  simp only [copy, missed, ↓reduceIte]

theorem copy_eq_self_iff (target source : ByteMap) (offset start length : Nat) :
    copy target offset source start length = target ↔
      ∀ index, index < length → source (start + index) = target (offset + index) := by
  constructor
  · intro same index inside
    have here := congrFun same (offset + index)
    rw [copy_inside _ _ (Nat.le_add_right ..) (by omega), Nat.add_sub_cancel_left] at here
    exact here
  · intro agree
    funext index
    by_cases inside : offset ≤ index ∧ index < offset + length
    · rw [copy_inside _ _ inside.1 inside.2, agree _ (by omega), Nat.add_sub_cancel' inside.1]
    · exact copy_outside _ _ (by omega)

/-- Bytes that agree are copied alike. -/
theorem copy_congr {target source source' : ByteMap} {offset start start' length : Nat}
    (agree : ∀ i, i < length → source (start + i) = source' (start' + i)) :
    copy target offset source start length = copy target offset source' start' length := by
  funext index
  by_cases inside : offset ≤ index ∧ index < offset + length
  · rw [copy_inside target source inside.1 inside.2, copy_inside target source' inside.1 inside.2]
    exact agree _ (by omega)
  · simp only [copy, inside, ↓reduceIte]

theorem copy_append (target source : ByteMap) (offset start first second : Nat) :
    copy (copy target offset source start first) (offset + first) source (start + first) second =
      copy target offset source start (first + second) := by
  funext index
  by_cases later : offset + first ≤ index ∧ index < offset + first + second
  · rw [copy_inside _ _ later.1 later.2, copy_inside _ _ (by omega) (by omega)]
    congr 1
    omega
  · rw [copy_outside _ _ (by omega)]
    by_cases earlier : offset ≤ index ∧ index < offset + first
    · rw [copy_inside _ _ earlier.1 earlier.2, copy_inside _ _ earlier.1 (by omega)]
    · rw [copy_outside _ _ (by omega), copy_outside _ _ (by omega)]

@[simp] theorem copy_zero (target source : ByteMap) (offset start : Nat) :
    copy target offset source start 0 = target := by
  funext index
  exact copy_outside _ _ (by omega)

theorem load_congr {left right : ByteMap} {offset width : Nat}
    (agree : ∀ index, offset ≤ index → index < offset + width → left index = right index) :
    load left offset width = load right offset width := by
  induction width generalizing offset with
  | zero => rfl
  | succ width ih =>
    have head : left offset = right offset := agree offset (Nat.le_refl _) (by omega)
    have tail : load left (offset + 1) width = load right (offset + 1) width :=
      ih fun index lower upper => agree index (by omega) (by omega)
    simp only [load, head, tail]

theorem load_shift {left right : ByteMap} {offset start width : Nat}
    (agree : ∀ index, index < width → left (offset + index) = right (start + index)) :
    load left offset width = load right start width := by
  induction width generalizing offset start with
  | zero => rfl
  | succ width ih =>
    have head : left offset = right start := agree 0 (by omega)
    have tail : load left (offset + 1) width = load right (start + 1) width := by
      apply ih
      intro index inside
      simpa only [Nat.add_assoc, Nat.add_comm 1 index] using agree (index + 1) (by omega)
    simp only [load, head, tail]

theorem load_lt (bytes : ByteMap) (offset width : Nat) : load bytes offset width < 256 ^ width := by
  induction width generalizing offset with
  | zero => simp [load]
  | succ width ih =>
    have digit : (bytes offset).toNat < 256 := (bytes offset).toNat_lt
    have tail := ih (offset + 1)
    simp only [load, Nat.pow_succ]
    omega

theorem load_digits {bytes : ByteMap} {offset width value : Nat}
    (digits : ∀ index, index < width →
      bytes (offset + index) = UInt8.ofNat (value / 256 ^ index)) :
    load bytes offset width = value % 256 ^ width := by
  induction width generalizing offset value with
  | zero => simp [load, Nat.mod_one]
  | succ width ih =>
    have head : (bytes offset).toNat = value % 256 := by
      have low := digits 0 (by omega)
      simp only [Nat.add_zero, Nat.pow_zero, Nat.div_one] at low
      rw [low, UInt8.toNat_ofNat']
    have tail : load bytes (offset + 1) width = value / 256 % 256 ^ width := by
      apply ih
      intro index inside
      have digit := digits (index + 1) (by omega)
      rw [Nat.pow_succ', ← Nat.div_div_eq_div_mul] at digit
      simpa only [Nat.add_assoc, Nat.add_comm 1 index] using digit
    rw [load, head, tail, Nat.pow_succ', Nat.mod_mul]

@[simp] theorem load_store_same (bytes : ByteMap) (offset width value : Nat) :
    load (store bytes offset width value) offset width = value % 256 ^ width := by
  apply load_digits
  intro index inside
  have placed : offset ≤ offset + index ∧ offset + index < offset + width := by omega
  simp [store, placed]

theorem load_store_disjoint (bytes : ByteMap) {offset width other size : Nat} (value : Nat)
    (apart : other + size ≤ offset ∨ offset + width ≤ other) :
    load (store bytes offset width value) other size = load bytes other size := by
  apply load_congr
  intro index lower upper
  have outside : ¬ (offset ≤ index ∧ index < offset + width) := by omega
  simp [store, outside]

theorem load_storeWords_outside (bytes : ByteMap) {offset width count other size : Nat}
    (word : Nat → Nat) (apart : other + size ≤ offset ∨ offset + width * count ≤ other) :
    load (storeWords bytes offset width word count) other size = load bytes other size := by
  induction count with
  | zero => rfl
  | succ count ih =>
    have grown : width * (count + 1) = width * count + width := Nat.mul_succ _ _
    have last : load (storeWords bytes offset width word (count + 1)) other size =
        load (storeWords bytes offset width word count) other size :=
      load_store_disjoint _ _ (by omega)
    exact last.trans (ih (by omega))

theorem load_storeWords_inside (bytes : ByteMap) (offset width : Nat) {count index : Nat}
    (word : Nat → Nat) (inside : index < count) :
    load (storeWords bytes offset width word count) (offset + width * index) width =
      word index % 256 ^ width := by
  induction count with
  | zero => omega
  | succ count ih =>
    by_cases last : index = count
    · subst last
      exact load_store_same _ _ _ _
    · have before : width * (index + 1) ≤ width * count := Nat.mul_le_mul_left _ (by omega)
      have grown : width * (index + 1) = width * index + width := Nat.mul_succ _ _
      have untouched : load (storeWords bytes offset width word (count + 1))
          (offset + width * index) width =
          load (storeWords bytes offset width word count) (offset + width * index) width :=
        load_store_disjoint _ _ (by omega)
      exact untouched.trans (ih (by omega))

theorem load_zero {bytes : ByteMap} {offset width : Nat}
    (zero : ∀ index, offset ≤ index → index < offset + width → bytes index = 0) :
    load bytes offset width = 0 := by
  induction width generalizing offset with
  | zero => rfl
  | succ width ih =>
    have head : bytes offset = 0 := zero offset (Nat.le_refl _) (by omega)
    have tail : load bytes (offset + 1) width = 0 :=
      ih fun index lower upper => zero index (by omega) (by omega)
    simp [load, head, tail]

end Xv6.Bytes
