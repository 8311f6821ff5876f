import Xv6.Strings.Numerals

/-!
# The two printf functions

`printf` of the kernel looks ahead from a percent sign; `vprintf` of the user library remembers
the percent sign in a state variable.
-/

namespace Xv6.Printf

open Bytes (ch)

/-- A variadic argument; `string none` is a null pointer. -/
inductive Arg
  | word (w : BitVec 32)
  | long (w : BitVec 64)
  | string (s : Option (List UInt8))

/-- What the bytes after a percent sign ask for. -/
inductive Conversion
  | int (base : Nat) (sign : Bool)
  | long (base : Nat) (sign : Bool)
  | pointer
  | char
  | string
  | percent
  | unknown (c0 : UInt8)

def conversion (c0 c1 c2 : UInt8) : Conversion × Nat :=
  if c0 = ch 'd' then (.int 10 true, 0)
  else if c0 = ch 'l' ∧ c1 = ch 'd' then (.long 10 true, 1)
  else if c0 = ch 'l' ∧ c1 = ch 'l' ∧ c2 = ch 'd' then (.long 10 true, 2)
  else if c0 = ch 'u' then (.int 10 false, 0)
  else if c0 = ch 'l' ∧ c1 = ch 'u' then (.long 10 false, 1)
  else if c0 = ch 'l' ∧ c1 = ch 'l' ∧ c2 = ch 'u' then (.long 10 false, 2)
  else if c0 = ch 'x' then (.int 16 false, 0)
  else if c0 = ch 'l' ∧ c1 = ch 'x' then (.long 16 false, 1)
  else if c0 = ch 'l' ∧ c1 = ch 'l' ∧ c2 = ch 'x' then (.long 16 false, 2)
  else if c0 = ch 'p' then (.pointer, 0)
  else if c0 = ch 'c' then (.char, 0)
  else if c0 = ch 's' then (.string, 0)
  else if c0 = ch '%' then (.percent, 0)
  else (.unknown c0, 0)

/-- The functions that the two versions call. -/
structure Printer where
  putc : BitVec 32 → List UInt8
  printint : BitVec 64 → Nat → Bool → Option (List UInt8)
  printptr : BitVec 64 → List UInt8

def lowByte (c : BitVec 32) : UInt8 := UInt8.ofNat c.toNat

def asInt (c : UInt8) : BitVec 32 := BitVec.ofNat 32 c.toNat

def BACKSPACE : BitVec 32 := 0x100

def consputc (c : BitVec 32) : List UInt8 :=
  if c = BACKSPACE then [8, ch ' ', 8] else [lowByte c]

def putc (c : BitVec 32) : List UInt8 := [lowByte c]

/-- The loop of `printptr`. -/
def pointerDigits (digits : List UInt8) : Nat → BitVec 64 → List UInt8
  | 0, _ => []
  | i + 1, x => digitAt digits (x >>> 60).toNat :: pointerDigits digits i (x <<< 4)

def printptr (digits : List UInt8) (x : BitVec 64) : List UInt8 :=
  ch '0' :: ch 'x' :: pointerDigits digits 16 x

def kernelPrinter : Printer := ⟨consputc, kernelPrintint, printptr kernelDigits⟩

def userPrinter : Printer := ⟨putc, userPrintint, printptr userDigits⟩

def Printer.perform (pr : Printer) : Conversion → List Arg → Option (List UInt8 × List Arg)
  | .int base sign, .word w :: args =>
    (pr.printint (if sign then w.signExtend 64 else w.setWidth 64) base sign).map (·, args)
  | .long base sign, .long w :: args => (pr.printint w base sign).map (·, args)
  | .pointer, .long w :: args => some (pr.printptr w, args)
  | .char, .word w :: args => some (pr.putc w, args)
  | .string, .string s :: args =>
    let text := s.getD [ch '(', ch 'n', ch 'u', ch 'l', ch 'l', ch ')']
    some ((text.takeWhile (· ≠ 0)).flatMap fun c => pr.putc (asInt c), args)
  | .percent, args => some (pr.putc (asInt (ch '%')), args)
  | .unknown c0, args => some (pr.putc (asInt (ch '%')) ++ pr.putc (asInt c0), args)
  | _, _ => none

def kernelLoop (pr : Printer) : Nat → List UInt8 → List Arg → Option (List UInt8)
  | _, [], _ => some []
  | skip + 1, _ :: fmt, args => kernelLoop pr skip fmt args
  | 0, [cx], _ => if cx ≠ ch '%' then some (pr.putc (asInt cx)) else some []
  | 0, cx :: c0 :: fmt, args =>
    if cx ≠ ch '%' then (kernelLoop pr 0 (c0 :: fmt) args).map (pr.putc (asInt cx) ++ ·)
    else
      let selected := conversion c0 (fmt.getD 0 0) (fmt.getD 1 0)
      (pr.perform selected.1 args).bind fun printed =>
        (kernelLoop pr selected.2 fmt printed.2).map (printed.1 ++ ·)

def userLoop (pr : Printer) : Nat → Bool → List UInt8 → List Arg → Option (List UInt8)
  | _, _, [], _ => some []
  | skip + 1, state, _ :: fmt, args => userLoop pr skip state fmt args
  | 0, false, c0 :: fmt, args =>
    if c0 = ch '%' then userLoop pr 0 true fmt args
    else (userLoop pr 0 false fmt args).map (pr.putc (asInt c0) ++ ·)
  | 0, true, c0 :: fmt, args =>
    let selected := conversion c0 (fmt.getD 0 0) (fmt.getD 1 0)
    (pr.perform selected.1 args).bind fun printed =>
      (userLoop pr selected.2 false fmt printed.2).map (printed.1 ++ ·)

def kernelPrintf (fmt : List UInt8) (args : List Arg) : Option (List UInt8) :=
  kernelLoop kernelPrinter 0 fmt args

def vprintf (fmt : List UInt8) (args : List Arg) : Option (List UInt8) :=
  userLoop userPrinter 0 false fmt args

theorem userLoop_eq (pr : Printer) (skip : Nat) (fmt : List UInt8) (args : List Arg) :
    userLoop pr skip false fmt args = kernelLoop pr skip fmt args := by
  fun_induction kernelLoop pr skip fmt args with
  | case1 => rw [userLoop]
  | case2 args skip c fmt ih => rw [userLoop, ih]
  | case3 cx args plain => simp [userLoop, plain]
  | case4 cx args percent => simp [userLoop, not_not.mp percent]
  | case5 cx c0 fmt args plain ih => rw [userLoop, if_neg plain, ih]
  | case6 cx c0 fmt args percent selected ih =>
    rw [userLoop, if_pos (not_not.mp percent), userLoop]
    exact congrArg _ (funext fun printed => by rw [ih printed])

/-! ### Formats and their arguments -/

def conversions : Nat → List UInt8 → List Conversion
  | _, [] => []
  | skip + 1, _ :: fmt => conversions skip fmt
  | 0, [_] => []
  | 0, cx :: c0 :: fmt =>
    if cx ≠ ch '%' then conversions 0 (c0 :: fmt)
    else
      let selected := conversion c0 (fmt.getD 0 0) (fmt.getD 1 0)
      selected.1 :: conversions selected.2 fmt

def Conversion.Accepts : Conversion → Arg → Prop
  | .int _ _, .word _ | .long _ _, .long _ | .pointer, .long _ | .char, .word _
  | .string, .string _ => True
  | _, _ => False

inductive Matching (ok : Conversion → Arg → Prop) : List Conversion → List Arg → Prop
  | nil : Matching ok [] []
  | take {conv arg convs args} : conv.Accepts arg → ok conv arg → Matching ok convs args →
      Matching ok (conv :: convs) (arg :: args)
  | percent {convs args} : Matching ok convs args → Matching ok (.percent :: convs) args
  | unknown {c0 convs args} : Matching ok convs args → Matching ok (.unknown c0 :: convs) args

def Narrow : Conversion → Arg → Prop
  | .long _ sign, .long w => (valueOf w sign).natAbs < 2 ^ 32
  | .char, .word w => w ≠ BACKSPACE
  | _, _ => True

def SameDigit (user kernel : UInt8) : Prop :=
  user = kernel ∨ ∃ d, 10 ≤ d ∧ d < 16 ∧ user = digitAt userDigits d ∧ kernel = digitAt kernelDigits d

theorem sameDigit_digitAt {d : Nat} (small : d < 16) :
    SameDigit (digitAt userDigits d) (digitAt kernelDigits d) := by
  have decimal : ∀ e, e < 10 → digitAt userDigits e = digitAt kernelDigits e := by decide
  by_cases letter : 10 ≤ d
  · exact Or.inr ⟨d, letter, small, rfl, rfl⟩
  · exact Or.inl (decimal d (by omega))

theorem digit_of_sameDigit {d e : Nat} (first : d < 16) (second : e < 16)
    (same : SameDigit (digitAt userDigits d) (digitAt kernelDigits e)) : d = e := by
  have equal : ∀ d, d < 16 → ∀ e, e < 16 → digitAt userDigits d = digitAt kernelDigits e →
      d = e := by decide
  rcases same with bytes | ⟨f, -, below, user, kernel⟩
  · exact equal d first e second bytes
  · rw [← userDigits_table.index d first, user, userDigits_table.index f below,
      ← kernelDigits_table.index e second, kernel, kernelDigits_table.index f below]

/-- A text is the same as itself. -/
theorem sameDigit_refl (text : List UInt8) : List.Forall₂ SameDigit text text :=
  List.forall₂_same.mpr fun _ _ => Or.inl rfl

theorem sameDigit_map {ds es : List Nat} (first : ∀ d, d ∈ ds → d < 16)
    (second : ∀ e, e ∈ es → e < 16) :
    List.Forall₂ SameDigit (ds.map (digitAt userDigits)) (es.map (digitAt kernelDigits)) ↔
      ds = es := by
  constructor
  · intro same
    induction ds generalizing es with
    | nil => simpa [eq_comm] using same
    | cons d ds ih =>
      cases es with
      | nil => simp at same
      | cons e es =>
        obtain ⟨inside, others⟩ := List.forall_mem_cons.mp first
        obtain ⟨inside', others'⟩ := List.forall_mem_cons.mp second
        obtain ⟨digit, rest⟩ := List.forall₂_cons.mp same
        rw [digit_of_sameDigit inside inside' digit, ih others others' rest]
  · rintro rfl
    rw [List.forall₂_map_left_iff, List.forall₂_map_right_iff, List.forall₂_same]
    exact fun d member => sameDigit_digitAt (first d member)

theorem digitsOf_injective {base x y : Nat} (same : digitsOf base x = digitsOf base y) : x = y := by
  have value : ∀ z, Nat.ofDigits base (digitsOf base z) = z := by
    intro z
    rw [digitsOf]
    split
    · rename_i zero
      simp [zero]
    · exact Nat.ofDigits_digits base z
  rw [← value x, same, value y]

theorem sameDigit_numeral {base x y : Nat} (isBase : base = 10 ∨ base = 16) :
    List.Forall₂ SameDigit (numeral userDigits base x) (numeral kernelDigits base y) ↔ x = y := by
  have below : ∀ z d, d ∈ digitsOf base z → d < 16 := by
    intro z d member
    have inside := digitsOf_lt (by omega) member
    omega
  rw [numeral, numeral, List.forall₂_reverse_iff, sameDigit_map (below x) (below y)]
  exact ⟨digitsOf_injective, fun same => same ▸ rfl⟩

theorem length_numeral_le (digits digits' : List UInt8) {base x y : Nat} (less : x ≤ y) :
    (numeral digits base x).length ≤ (numeral digits' base y).length := by
  simp only [numeral, List.length_reverse, List.length_map]
  by_cases zero : x = 0
  · rw [zero, digitsOf, if_pos rfl]
    exact List.length_pos_iff.mpr digitsOf_ne_nil
  · rw [digitsOf, if_neg zero, digitsOf, if_neg (by omega)]
    exact Nat.le_length_digits_le base x y less

theorem sameDigit_printptr (x : BitVec 64) :
    List.Forall₂ SameDigit (printptr userDigits x) (printptr kernelDigits x) := by
  have loop : ∀ i y, List.Forall₂ SameDigit (pointerDigits userDigits i y)
      (pointerDigits kernelDigits i y) := by
    intro i
    induction i with
    | zero => exact fun y => .nil
    | succ i ih =>
      intro y
      refine .cons (sameDigit_digitAt ?_) (ih _)
      have word := y.isLt
      rw [BitVec.toNat_ushiftRight, Nat.shiftRight_eq_div_pow]
      omega
  exact List.rel_append (sameDigit_refl [ch '0', ch 'x']) (loop 16 x)

theorem consputc_asInt (c : UInt8) : consputc (asInt c) = putc (asInt c) := by
  have word := c.toNat_lt
  rw [consputc, if_neg, putc]
  intro same
  have := congrArg BitVec.toNat same
  simp [asInt, BACKSPACE] at this
  omega

def Conversion.InBase : Conversion → Prop
  | .int base _ | .long base _ => base = 10 ∨ base = 16
  | _ => True

theorem inBase_ite {c : Prop} [Decidable c] {a b : Conversion × Nat} (first : a.1.InBase)
    (second : b.1.InBase) : (if c then a else b).1.InBase := by
  split
  · exact first
  · exact second

theorem conversion_inBase (c0 c1 c2 : UInt8) : (conversion c0 c1 c2).1.InBase := by
  rw [conversion]
  repeat' apply inBase_ite
  all_goals first | exact trivial | exact Or.inl rfl | exact Or.inr rfl

theorem narrow_int (w : BitVec 32) (sign : Bool) :
    (valueOf (if sign then w.signExtend 64 else w.setWidth 64) sign).natAbs < 2 ^ 32 := by
  have word := w.isLt
  cases sign with
  | false =>
    simp only [valueOf, Bool.false_eq_true, if_false, BitVec.toNat_setWidth]
    omega
  | true =>
    have signed := BitVec.toInt_eq_toNat_cond w
    simp only [valueOf, if_true, BitVec.toInt_signExtend_of_le (show 32 ≤ 64 by decide)]
    split at signed <;> omega

structure Renders (narrow : Prop) (user kernel : List UInt8) : Prop where
  shorter : user.length ≤ kernel.length
  same : List.Forall₂ SameDigit user kernel ↔ narrow

theorem Renders.alike {narrow : Prop} {user kernel : List UInt8} (always : narrow)
    (same : List.Forall₂ SameDigit user kernel) : Renders narrow user kernel :=
  ⟨same.length_eq.le, iff_of_true same always⟩

theorem Renders.append {first second : Prop} {user kernel user' kernel' : List UInt8}
    (head : Renders first user kernel) (tail : Renders second user' kernel') :
    Renders (first ∧ second) (user ++ user') (kernel ++ kernel') := by
  refine ⟨?_, ?_⟩
  · simp only [List.length_append]
    exact Nat.add_le_add head.shorter tail.shorter
  · rw [← head.same, ← tail.same]
    constructor
    · intro same
      have lengths := same.length_eq
      simp only [List.length_append] at lengths
      have here := head.shorter
      have there := tail.shorter
      have offset : user.length = kernel.length := by omega
      have front := List.forall₂_take_append _ _ _ same
      have back := List.forall₂_drop_append _ _ _ same
      rw [← offset, List.take_left] at front
      rw [← offset, List.drop_left] at back
      exact ⟨front, back⟩
    · rintro ⟨front, back⟩
      exact List.rel_append front back

theorem renders_printint (xx : BitVec 64) {base : Nat} (isBase : base = 10 ∨ base = 16)
    (sign : Bool) :
    ∃ user kernel, userPrintint xx base sign = some user ∧
      kernelPrintint xx base sign = some kernel ∧
      Renders ((valueOf xx sign).natAbs < 2 ^ 32) user kernel := by
  refine ⟨_, _, userPrintint_eq xx isBase sign, kernelPrintint_eq xx isBase sign, ?_⟩
  have low : (valueOf xx sign).natAbs % 2 ^ 32 ≤ (valueOf xx sign).natAbs := Nat.mod_le _ _
  have magnitude : Renders ((valueOf xx sign).natAbs < 2 ^ 32)
      (numeral userDigits base ((valueOf xx sign).natAbs % 2 ^ 32))
      (numeral kernelDigits base (valueOf xx sign).natAbs) := by
    refine ⟨length_numeral_le _ _ low, ?_⟩
    rw [sameDigit_numeral isBase]
    exact ⟨fun same => same ▸ Nat.mod_lt _ (by decide), Nat.mod_eq_of_lt⟩
  have minus : Renders True (if valueOf xx sign < 0 then [ch '-'] else [])
      (if valueOf xx sign < 0 then [ch '-'] else []) := .alike trivial (sameDigit_refl _)
  simpa only [true_and, signedNumeral] using minus.append magnitude

variable {conv : Conversion} {convs : List Conversion}

theorem perform_take {arg : Arg} (isBase : conv.InBase) (accepts : conv.Accepts arg)
    (args : List Arg) :
    ∃ user kernel, userPrinter.perform conv (arg :: args) = some (user, args) ∧
      kernelPrinter.perform conv (arg :: args) = some (kernel, args) ∧
      Renders (Narrow conv arg) user kernel := by
  cases conv <;> cases arg <;> try exact accepts.elim
  case int.word base sign w =>
    obtain ⟨user, kernel, first, second, renders⟩ :=
      renders_printint (if sign then w.signExtend 64 else w.setWidth 64) isBase sign
    exact ⟨user, kernel, congrArg (Option.map (·, args)) first,
      congrArg (Option.map (·, args)) second,
      .alike trivial (renders.same.mpr (narrow_int w sign))⟩
  case long.long base sign w =>
    obtain ⟨user, kernel, first, second, renders⟩ := renders_printint w isBase sign
    exact ⟨user, kernel, congrArg (Option.map (·, args)) first,
      congrArg (Option.map (·, args)) second, renders⟩
  case pointer.long w => exact ⟨_, _, rfl, rfl, .alike trivial (sameDigit_printptr w)⟩
  case char.word w =>
    refine ⟨putc w, consputc w, rfl, rfl, ?_⟩
    by_cases backspace : w = BACKSPACE
    · -- one byte against three
      subst backspace
      refine ⟨by decide, iff_of_false (fun same => ?_) (by simp [Narrow])⟩
      exact absurd same.length_eq (by decide)
    · have plain : consputc w = putc w := if_neg backspace
      exact .alike backspace (plain ▸ sameDigit_refl _)
  case string.string text =>
    refine ⟨_, _, rfl, rfl, .alike trivial ?_⟩
    simp only [userPrinter, kernelPrinter, consputc_asInt]
    exact sameDigit_refl _

theorem matching_take {ok : Conversion → Arg → Prop} {arg : Arg} {args : List Arg}
    (accepts : conv.Accepts arg) :
    Matching ok (conv :: convs) (arg :: args) ↔ ok conv arg ∧ Matching ok convs args := by
  constructor
  · intro matching
    cases matching with
    | take _ fits rest => exact ⟨fits, rest⟩
    | percent | unknown => exact accepts.elim
  · rintro ⟨fits, rest⟩
    exact .take accepts fits rest

theorem matching_plain {ok : Conversion → Arg → Prop} {args : List Arg}
    (plain : conv = .percent ∨ ∃ c0, conv = .unknown c0) :
    Matching ok (conv :: convs) args ↔ Matching ok convs args := by
  constructor
  · intro matching
    cases matching with
    | take accepts => rcases plain with rfl | ⟨c0, rfl⟩ <;> exact accepts.elim
    | percent rest | unknown rest => exact rest
  · intro rest
    rcases plain with rfl | ⟨c0, rfl⟩
    · exact .percent rest
    · exact .unknown rest

theorem perform_renders {args : List Arg} (isBase : conv.InBase)
    (matching : Matching (fun _ _ => True) (conv :: convs) args) :
    ∃ user kernel rest narrow, userPrinter.perform conv args = some (user, rest) ∧
      kernelPrinter.perform conv args = some (kernel, rest) ∧ Renders narrow user kernel ∧
      Matching (fun _ _ => True) convs rest ∧
      (Matching Narrow (conv :: convs) args ↔ narrow ∧ Matching Narrow convs rest) := by
  cases matching with
  | take accepts _ matching =>
    obtain ⟨user, kernel, first, second, renders⟩ := perform_take isBase accepts _
    exact ⟨user, kernel, _, _, first, second, renders, matching, matching_take accepts⟩
  | percent matching =>
    refine ⟨_, _, args, True, rfl, rfl, .alike trivial ?_, matching, ?_⟩
    · simp only [userPrinter, kernelPrinter, consputc_asInt]
      exact sameDigit_refl _
    · rw [matching_plain (Or.inl rfl), true_and]
  | unknown matching =>
    refine ⟨_, _, args, True, rfl, rfl, .alike trivial ?_, matching, ?_⟩
    · simp only [userPrinter, kernelPrinter, consputc_asInt]
      exact sameDigit_refl _
    · rw [matching_plain (Or.inr ⟨_, rfl⟩), true_and]

theorem loops_render (skip : Nat) (fmt : List UInt8) (args : List Arg)
    (matching : Matching (fun _ _ => True) (conversions skip fmt) args) :
    ∃ user kernel, kernelLoop userPrinter skip fmt args = some user ∧
      kernelLoop kernelPrinter skip fmt args = some kernel ∧
      Renders (Matching Narrow (conversions skip fmt) args) user kernel := by
  fun_induction conversions skip fmt generalizing args with
  | case1 =>
    cases matching
    exact ⟨[], [], by rw [kernelLoop], by rw [kernelLoop], .alike .nil .nil⟩
  | case2 skip c fmt ih =>
    simp only [kernelLoop]
    exact ih args matching
  | case3 cx =>
    cases matching
    by_cases plain : cx ≠ ch '%'
    · refine ⟨_, _, by rw [kernelLoop, if_pos plain], by rw [kernelLoop, if_pos plain],
        .alike .nil ?_⟩
      simp only [userPrinter, kernelPrinter, consputc_asInt]
      exact sameDigit_refl _
    · exact ⟨[], [], by rw [kernelLoop, if_neg plain], by rw [kernelLoop, if_neg plain],
        .alike .nil .nil⟩
  | case4 cx c0 fmt plain ih =>
    obtain ⟨user, kernel, first, second, renders⟩ := ih args matching
    have byte : Renders True (userPrinter.putc (asInt cx)) (kernelPrinter.putc (asInt cx)) := by
      simp only [userPrinter, kernelPrinter, consputc_asInt]
      exact .alike trivial (sameDigit_refl _)
    refine ⟨_, _, by rw [kernelLoop, if_pos plain, first, Option.map_some],
      by rw [kernelLoop, if_pos plain, second, Option.map_some], ?_⟩
    simpa only [true_and] using byte.append renders
  | case5 cx c0 fmt percent selected ih =>
    obtain ⟨user, kernel, rest, narrow, first, second, renders, matching, split⟩ :=
      perform_renders (conversion_inBase c0 (fmt.getD 0 0) (fmt.getD 1 0)) matching
    obtain ⟨user', kernel', first', second', renders'⟩ := ih rest matching
    refine ⟨user ++ user', kernel ++ kernel', ?_, ?_, ?_⟩
    · rw [kernelLoop, if_neg percent]
      change (userPrinter.perform selected.1 args).bind _ = _
      rw [first, Option.bind_some, first', Option.map_some]
    · rw [kernelLoop, if_neg percent]
      change (kernelPrinter.perform selected.1 args).bind _ = _
      rw [second, Option.bind_some, second', Option.map_some]
    · rw [split]
      exact renders.append renders'

/-- On arguments of the right types both functions print, and what they print is the same
up to the case of hexadecimal digits if and only if every long value has a magnitude of 32
bits and no character is the kernel's code for a backspace. The user library's numeral of a
value denotes that value exactly if its magnitude has 32 bits. -/
theorem printf_agree (fmt : List UInt8) (args : List Arg)
    (matching : Matching (fun _ _ => True) (conversions 0 fmt) args) :
    (∃ user kernel, vprintf fmt args = some user ∧ kernelPrintf fmt args = some kernel ∧
      (List.Forall₂ SameDigit user kernel ↔ Matching Narrow (conversions 0 fmt) args)) ∧
    ∀ xx base sign, base = 10 ∨ base = 16 →
      ∃ text, userPrintint xx base sign = some text ∧
        (Canonical userDigits base (valueOf xx sign) text ↔ (valueOf xx sign).natAbs < 2 ^ 32) := by
  refine ⟨?_, fun xx base sign isBase => userPrintint_canonical xx isBase sign⟩
  obtain ⟨user, kernel, first, second, renders⟩ := loops_render 0 fmt args matching
  exact ⟨user, kernel, by rw [vprintf, userLoop_eq, first], second, renders.same⟩

/-- A format with a long and a plain conversion, whose values are narrow. -/
theorem printf_agree_mixed :
    (∃ user kernel, vprintf [ch '%', ch 'l', ch 'x', ch '%', ch 'd'] [.long 255, .word 7] = some user ∧
      kernelPrintf [ch '%', ch 'l', ch 'x', ch '%', ch 'd'] [.long 255, .word 7] = some kernel ∧
      List.Forall₂ SameDigit user kernel) := by
  have typed : Matching (fun _ _ => True) [.long 16 false, .int 10 true] [.long 255, .word 7] :=
    .take trivial trivial (.take trivial trivial .nil)
  have narrow : Matching Narrow [.long 16 false, .int 10 true] [.long 255, .word 7] :=
    .take trivial (by decide : (valueOf 255 false).natAbs < 2 ^ 32) (.take trivial trivial .nil)
  obtain ⟨user, kernel, first, second, same⟩ :=
    (printf_agree [ch '%', ch 'l', ch 'x', ch '%', ch 'd'] _ typed).1
  exact ⟨user, kernel, first, second, same.mpr narrow⟩

/-- The user library prints the low half of a long value, and the kernel prints a character code
above the bytes as a backspace. -/
theorem printf_differ :
    Matching (fun _ _ => True) (conversions 0 [ch '%', ch 'l', ch 'u']) [.long (2 ^ 32)] ∧
      vprintf [ch '%', ch 'l', ch 'u'] [.long (2 ^ 32)] = some [ch '0'] ∧
      kernelPrintf [ch '%', ch 'l', ch 'u'] [.long (2 ^ 32)] =
        some [ch '4', ch '2', ch '9', ch '4', ch '9', ch '6', ch '7', ch '2', ch '9', ch '6'] ∧
      vprintf [ch '%', ch 'c'] [.word BACKSPACE] = some [0] ∧
      kernelPrintf [ch '%', ch 'c'] [.word BACKSPACE] = some [8, ch ' ', 8] :=
  have matching : Matching (fun _ _ => True) [.long 10 false] [.long (2 ^ 32)] :=
    .take trivial trivial .nil
  ⟨matching, by decide, by decide, by decide, by decide⟩

end Xv6.Printf
