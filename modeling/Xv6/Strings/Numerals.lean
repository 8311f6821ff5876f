import Mathlib.Data.BitVec
import Mathlib.Data.Nat.Digits.Lemmas
import Xv6.Library.Bytes

/-!
# Printing numbers

`printint` of the kernel and of the user library write the digits of a number into a buffer of
twenty bytes, least significant first, append the sign and print the buffer backwards.
-/

namespace Xv6.Printf

open Bytes (ch)

def kernelDigits : List UInt8 :=
  [ch '0', ch '1', ch '2', ch '3', ch '4', ch '5', ch '6', ch '7', ch '8', ch '9',
    ch 'a', ch 'b', ch 'c', ch 'd', ch 'e', ch 'f']

def userDigits : List UInt8 :=
  [ch '0', ch '1', ch '2', ch '3', ch '4', ch '5', ch '6', ch '7', ch '8', ch '9',
    ch 'A', ch 'B', ch 'C', ch 'D', ch 'E', ch 'F']

/-- `digits[d]` -/
def digitAt (digits : List UInt8) (d : Nat) : UInt8 := digits.getD d 0

/-- The length of `buf`. -/
def BUFSIZE : Nat := 20

def digitLoop (digits : List UInt8) (base : Nat) : Nat → Nat → Option (List UInt8)
  | 0, _ => none
  | room + 1, x =>
    if x / base = 0 then some [digitAt digits (x % base)]
    else (digitLoop digits base room (x / base)).map (digitAt digits (x % base) :: ·)

def printMagnitude (digits : List UInt8) (base x : Nat) (negative : Bool) :
    Option (List UInt8) := do
  let buf ← digitLoop digits base BUFSIZE x
  if negative then
    if buf.length < BUFSIZE then some (buf ++ [ch '-']).reverse else none
  else some buf.reverse

def kernelPrintint (xx : BitVec 64) (base : Nat) (sign : Bool) : Option (List UInt8) :=
  let negative := sign && xx.slt 0
  printMagnitude kernelDigits base (if negative then -xx else xx).toNat negative

def userPrintint (xx : BitVec 64) (base : Nat) (sgn : Bool) : Option (List UInt8) :=
  let neg := sgn && xx.slt 0
  printMagnitude userDigits base ((if neg then -xx else xx).setWidth 32).toNat neg

def digitsOf (base x : Nat) : List Nat := if x = 0 then [0] else Nat.digits base x

/-- The numeral of a number. -/
def numeral (digits : List UInt8) (base x : Nat) : List UInt8 :=
  ((digitsOf base x).map (digitAt digits)).reverse

def signedNumeral (digits : List UInt8) (base : Nat) (v : Int) : List UInt8 :=
  (if v < 0 then [ch '-'] else []) ++ numeral digits base v.natAbs

def valueOf (xx : BitVec 64) (sign : Bool) : Int := if sign then xx.toInt else xx.toNat

section Loop

variable {digits : List UInt8} {base x : Nat}

theorem digitLoop_eq (two : 2 ≤ base) {room : Nat} (fits : x < base ^ room) (positive : 0 < room) :
    digitLoop digits base room x = some ((digitsOf base x).map (digitAt digits)) := by
  induction room generalizing x with
  | zero => omega
  | succ room ih =>
    rw [digitLoop]
    split
    · rename_i last
      have small : x < base := Nat.lt_of_div_eq_zero (by omega) last
      by_cases zero : x = 0
      · simp [digitsOf, zero]
      · rw [digitsOf, if_neg zero, Nat.digits_of_lt base x zero small, Nat.mod_eq_of_lt small]
        rfl
    · rename_i more
      have nonzero : x ≠ 0 := by
        rintro rfl
        exact more (Nat.zero_div base)
      have fewer : x / base < base ^ room := by
        rw [Nat.div_lt_iff_lt_mul (by omega), ← Nat.pow_succ]
        exact fits
      have left : room ≠ 0 := by
        rintro rfl
        exact more (Nat.lt_one_iff.mp fewer)
      rw [ih fewer (Nat.pos_of_ne_zero left), digitsOf, if_neg more, digitsOf, if_neg nonzero,
        Nat.digits_def' two (Nat.pos_of_ne_zero nonzero)]
      rfl

theorem printMagnitude_eq (two : 2 ≤ base) {negative : Bool}
    (fits : x < base ^ (if negative then 19 else 20)) :
    printMagnitude digits base x negative =
      some ((if negative then [ch '-'] else []) ++ numeral digits base x) := by
  cases negative with
  | false =>
    have wide : x < base ^ 20 := fits
    rw [printMagnitude, BUFSIZE, digitLoop_eq two wide (by decide)]
    rfl
  | true =>
    have wide : x < base ^ 20 :=
      Nat.lt_of_lt_of_le fits (Nat.pow_le_pow_right (by omega) (by decide))
    have short : (digitsOf base x).length < 20 := by
      rw [digitsOf]
      split
      · decide
      · exact Nat.lt_succ_of_le ((Nat.digits_length_le_iff two x).mpr fits)
    rw [printMagnitude, BUFSIZE, digitLoop_eq two wide (by decide)]
    simp [numeral, short]

end Loop

/-! ### What a numeral denotes -/

def parseDigits (digits : List UInt8) (base : Nat) (text : List UInt8) : Option Nat :=
  if text = [] then none
  else text.foldlM (fun value c =>
    if digits.idxOf c < base then some (value * base + digits.idxOf c) else none) 0

def parse (digits : List UInt8) (base : Nat) : List UInt8 → Option Int
  | [] => none
  | c :: text =>
    if c = ch '-' then (parseDigits digits base text).map (-Int.ofNat ·)
    else (parseDigits digits base (c :: text)).map Int.ofNat

structure Canonical (digits : List UInt8) (base : Nat) (v : Int) (text : List UInt8) : Prop where
  denotes : parse digits base text = some v
  sign : text.head? = some (ch '-') ↔ v < 0
  leading : (text.dropWhile (· = ch '-')).head? = some (ch '0') → text = [ch '0']

/-- A table of the sixteen digits. -/
structure Table (digits : List UInt8) : Prop where
  index : ∀ d, d < 16 → digits.idxOf (digitAt digits d) = d
  zero : digitAt digits 0 = ch '0'
  sign : ∀ d, d < 16 → digitAt digits d ≠ ch '-'

theorem kernelDigits_table : Table kernelDigits := ⟨by decide, by decide, by decide⟩

theorem userDigits_table : Table userDigits := ⟨by decide, by decide, by decide⟩

section Canonical

variable {digits : List UInt8} {base x : Nat}

theorem foldlM_digits (table : Table digits) (small : base ≤ 16) (ds : List Nat)
    (below : ∀ d, d ∈ ds → d < base) (value : Nat) :
    (ds.map (digitAt digits)).foldlM (fun value c =>
        if digits.idxOf c < base then some (value * base + digits.idxOf c) else none) value =
      some (ds.foldl (fun value d => value * base + d) value) := by
  induction ds generalizing value with
  | nil => rfl
  | cons d ds ih =>
    have inside := below d List.mem_cons_self
    rw [List.map_cons, List.foldlM_cons, table.index d (by omega), if_pos inside]
    exact ih (fun e member => below e (List.mem_cons_of_mem d member)) _

theorem foldl_reverse_digits (ds : List Nat) :
    ds.reverse.foldl (fun value d => value * base + d) 0 = Nat.ofDigits base ds := by
  induction ds with
  | nil => rfl
  | cons d ds ih =>
    rw [List.reverse_cons, List.foldl_append, ih, Nat.ofDigits_cons]
    simp only [List.foldl_cons, List.foldl_nil]
    rw [Nat.mul_comm, Nat.add_comm]

theorem digitsOf_ne_nil : digitsOf base x ≠ [] := by
  rw [digitsOf]
  split
  · simp
  · exact Nat.digits_ne_nil_iff_ne_zero.mpr ‹_›

theorem digitsOf_lt (two : 2 ≤ base) {d : Nat} (member : d ∈ digitsOf base x) : d < base := by
  rw [digitsOf] at member
  split at member
  · rw [List.mem_singleton.mp member]
    omega
  · exact Nat.digits_lt_base two member

theorem parseDigits_numeral (table : Table digits) (two : 2 ≤ base) (small : base ≤ 16) :
    parseDigits digits base (numeral digits base x) = some x := by
  rw [parseDigits, numeral, if_neg (by simpa using digitsOf_ne_nil), ← List.map_reverse,
    foldlM_digits table small _ fun d member => digitsOf_lt two (List.mem_reverse.mp member),
    foldl_reverse_digits, digitsOf]
  split
  · rename_i zero
    simp [zero]
  · rw [Nat.ofDigits_digits]

theorem head_numeral (digits : List UInt8) (two : 2 ≤ base) (x : Nat) :
    ∃ d rest, d < base ∧ (d = 0 → x = 0) ∧
      numeral digits base x = digitAt digits d :: rest := by
  by_cases zero : x = 0
  · exact ⟨0, [], by omega, fun _ => zero, by simp [numeral, digitsOf, zero]⟩
  · have listed := Nat.digits_ne_nil_iff_ne_zero (b := base) |>.mpr zero
    refine ⟨(Nat.digits base x).getLast listed,
      ((Nat.digits base x).dropLast.map (digitAt digits)).reverse, ?_, ?_, ?_⟩
    · exact Nat.digits_lt_base two (List.getLast_mem listed)
    · exact fun none => absurd none (Nat.getLast_digit_ne_zero base zero)
    · nth_rewrite 1 [numeral, digitsOf, if_neg zero, ← List.dropLast_append_getLast listed]
      simp only [List.map_append, List.reverse_append, List.map_cons, List.map_nil,
        List.reverse_cons, List.reverse_nil, List.nil_append, List.cons_append]

theorem signedNumeral_canonical (table : Table digits) (two : 2 ≤ base) (small : base ≤ 16)
    (v : Int) : Canonical digits base v (signedNumeral digits base v) := by
  obtain ⟨d, rest, inside, zero, text⟩ := head_numeral digits two v.natAbs
  have digit := table.sign d (by omega)
  have value := parseDigits_numeral (x := v.natAbs) table two small
  have leading : digitAt digits d = ch '0' → v.natAbs = 0 := by
    intro first
    apply zero
    rw [← table.index d (by omega), first, ← table.zero, table.index 0 (by decide)]
  by_cases negative : v < 0
  · have signed : signedNumeral digits base v = ch '-' :: numeral digits base v.natAbs := by
      simp [signedNumeral, negative]
    rw [signed]
    refine ⟨?_, by simp [negative], ?_⟩
    · rw [parse, if_pos rfl, value, Option.map_some, Int.ofNat_eq_natCast]
      congr 1
      omega
    · rw [text]
      simp only [List.dropWhile_cons, decide_true, ↓reduceIte, digit, decide_false,
        List.head?_cons, Option.some.injEq, Bool.false_eq_true]
      intro first
      have := leading first
      omega
  · have unsigned : signedNumeral digits base v = numeral digits base v.natAbs := by
      simp [signedNumeral, negative]
    rw [unsigned]
    refine ⟨?_, ?_, ?_⟩
    · rw [text, parse, if_neg digit, ← text, value, Option.map_some, Int.ofNat_eq_natCast]
      congr 1
      omega
    · simp [text, digit, negative]
    · rw [text]
      simp only [List.dropWhile_cons, digit, decide_false, Bool.false_eq_true, ↓reduceIte,
        List.head?_cons, Option.some.injEq]
      intro first
      rw [← text, leading first, numeral, digitsOf, if_pos rfl, ← table.zero]
      rfl

end Canonical

theorem sign_and_magnitude (xx : BitVec 64) (sign : Bool) :
    (sign && xx.slt 0) = decide (valueOf xx sign < 0) ∧
      (if (sign && xx.slt 0) = true then -xx else xx).toNat = (valueOf xx sign).natAbs ∧
      (valueOf xx sign < 0 → (valueOf xx sign).natAbs ≤ 2 ^ 63) := by
  have word := xx.isLt
  have signed := BitVec.toInt_eq_toNat_cond xx
  have negated := BitVec.toNat_neg (x := xx)
  cases sign with
  | false => simp [valueOf]
  | true =>
    have less : xx.slt 0 = decide (xx.toInt < 0) := by simp [BitVec.slt]
    simp only [valueOf, Bool.true_and, less, decide_eq_true_eq, if_true, true_and]
    split at signed
    · rw [if_neg (by omega)]
      omega
    · rw [if_pos (by omega)]
      omega

variable {base : Nat}

theorem printMagnitude_of_value (digits : List UInt8) (isBase : base = 10 ∨ base = 16) {v : Int}
    (word : v.natAbs < 2 ^ 64) (half : v < 0 → v.natAbs ≤ 2 ^ 63) :
    printMagnitude digits base v.natAbs (decide (v < 0)) =
      some (signedNumeral digits base v) := by
  have large : 2 ^ 64 ≤ base ^ 20 ∧ 2 ^ 63 < base ^ 19 := by
    rcases isBase with rfl | rfl <;> decide
  rw [printMagnitude_eq (by omega)]
  · simp [signedNumeral]
  · by_cases negative : v < 0
    · have := half negative
      simp only [negative, decide_true, if_true]
      omega
    · simp only [negative, decide_false, Bool.false_eq_true, if_false]
      omega

theorem kernelPrintint_eq (xx : BitVec 64) (isBase : base = 10 ∨ base = 16) (sign : Bool) :
    kernelPrintint xx base sign = some (signedNumeral kernelDigits base (valueOf xx sign)) := by
  obtain ⟨negative, magnitude, half⟩ := sign_and_magnitude xx sign
  have word := (if (sign && xx.slt 0) = true then -xx else xx).isLt
  rw [magnitude] at word
  rw [← printMagnitude_of_value kernelDigits isBase word half, ← negative, ← magnitude]
  rfl

theorem userPrintint_eq (xx : BitVec 64) (isBase : base = 10 ∨ base = 16) (sgn : Bool) :
    userPrintint xx base sgn = some ((if valueOf xx sgn < 0 then [ch '-'] else []) ++
      numeral userDigits base ((valueOf xx sgn).natAbs % 2 ^ 32)) := by
  obtain ⟨negative, magnitude, -⟩ := sign_and_magnitude xx sgn
  have low : ((if (sgn && xx.slt 0) = true then -xx else xx).setWidth 32).toNat =
      (valueOf xx sgn).natAbs % 2 ^ 32 := by
    rw [BitVec.toNat_setWidth, magnitude]
  have small : (valueOf xx sgn).natAbs % 2 ^ 32 < 2 ^ 32 := Nat.mod_lt _ (by decide)
  have large : 2 ^ 32 ≤ base ^ 19 ∧ 2 ^ 32 ≤ base ^ 20 := by
    rcases isBase with rfl | rfl <;> decide
  have printed : userPrintint xx base sgn =
      printMagnitude userDigits base ((valueOf xx sgn).natAbs % 2 ^ 32)
        (decide (valueOf xx sgn < 0)) := by
    rw [← negative, ← low]
    rfl
  rw [printed, printMagnitude_eq (by omega)]
  · simp only [decide_eq_true_eq]
  · split <;> omega

theorem parse_signed {digits : List UInt8} (table : Table digits) (two : 2 ≤ base)
    (small : base ≤ 16) (negative : Prop) [Decidable negative] (x : Nat) :
    parse digits base ((if negative then [ch '-'] else []) ++ numeral digits base x) =
      some (if negative then -(x : Int) else x) := by
  obtain ⟨d, rest, inside, -, text⟩ := head_numeral digits two x
  have value := parseDigits_numeral (x := x) table two small
  split
  · rw [List.singleton_append, parse, if_pos rfl, value]
    rfl
  · rw [List.nil_append, text, parse, if_neg (table.sign d (by omega)), ← text, value]
    rfl

theorem userPrintint_canonical (xx : BitVec 64) (isBase : base = 10 ∨ base = 16) (sgn : Bool) :
    ∃ text, userPrintint xx base sgn = some text ∧
      (Canonical userDigits base (valueOf xx sgn) text ↔ (valueOf xx sgn).natAbs < 2 ^ 32) := by
  refine ⟨_, userPrintint_eq xx isBase sgn, fun canonical => ?_, fun narrow => ?_⟩
  · have denoted := canonical.denotes
    rw [parse_signed userDigits_table (by omega) (by omega)] at denoted
    have same := Option.some.inj denoted
    have low : (valueOf xx sgn).natAbs % 2 ^ 32 < 2 ^ 32 := Nat.mod_lt _ (by decide)
    split at same <;> omega
  · rw [Nat.mod_eq_of_lt narrow]
    exact signedNumeral_canonical userDigits_table (by omega) (by omega) _

/-- The kernel prints the canonical numeral of every 64-bit value, and the buffer holds
it. -/
theorem kernel_printint_exact (xx : BitVec 64) (base : Nat) (isBase : base = 10 ∨ base = 16)
    (sign : Bool) :
    ∃ text, kernelPrintint xx base sign = some text ∧
      Canonical kernelDigits base (valueOf xx sign) text :=
  ⟨_, kernelPrintint_eq xx isBase sign,
    signedNumeral_canonical kernelDigits_table (by omega) (by omega) _⟩

/-- The most negative value. -/
theorem kernel_printint_exact_least : ∃ text, kernelPrintint (2 ^ 63) 10 true = some text ∧
    Canonical kernelDigits 10 (valueOf (2 ^ 63) true) text :=
  kernel_printint_exact (2 ^ 63) 10 (by decide) true

end Xv6.Printf
