import Xv6.Strings.GrepMatch

/-!
# The lines that grep prints

`grep` reads its input in pieces into a buffer of 1024 bytes, prints the complete lines that
match and moves the incomplete last one to the beginning of the buffer.
-/

namespace Xv6.Grep

open Bytes (ch)

def BUFSIZE : Nat := 1024

def strchr : List UInt8 → UInt8 → Option Nat
  | [], _ => none
  | x :: s, c => if x = 0 then none else if x = c then some 0 else (strchr s c).map (· + 1)

def printLines (pattern : List UInt8) : Nat → List UInt8 → List UInt8 × List UInt8
  | 0, p => (p, [])
  | steps + 1, p =>
    match strchr p (ch '\n') with
    | none => (p, [])
    | some q =>
      let terminated := p.set q 0
      let written :=
        if matchText pattern (terminated.takeWhile (· ≠ 0)) then
          (terminated.set q (ch '\n')).take (q + 1)
        else []
      let rest := printLines pattern steps (p.drop (q + 1))
      (rest.1, written ++ rest.2)

def read (choice n : Nat) (input : List UInt8) : List UInt8 :=
  if n = 0 then [] else input.take (1 + choice % min n input.length)

def grepLoop (pattern : List UInt8) (choices : Nat → Nat) :
    Nat → List UInt8 → List UInt8 → Option (List UInt8)
  | 0, _, _ => none
  | rounds + 1, carry, input =>
    let piece := read (choices rounds) (BUFSIZE - carry.length - 1) input
    if piece = [] then some []
    else
      let buf := carry ++ piece ++ [0]
      let printed := printLines pattern buf.length buf
      (grepLoop pattern choices rounds printed.1.dropLast (input.drop piece.length)).map
        (printed.2 ++ ·)

def joinLines (lines : List (List UInt8)) : List UInt8 := lines.flatMap (· ++ [ch '\n'])

def matching (pattern : List UInt8) (lines : List (List UInt8)) : List UInt8 :=
  joinLines (lines.filter (matchText pattern))

def IsLine (line : List UInt8) : Prop := ch '\n' ∉ line ∧ 0 ∉ line

section Scan

variable {line rest : List UInt8} {lines : List (List UInt8)} {pattern tail : List UInt8}

theorem joinLines_cons : joinLines (line :: lines) = line ++ ch '\n' :: joinLines lines := by
  simp [joinLines]

theorem length_le_joinLines (lines : List (List UInt8)) :
    lines.length ≤ (joinLines lines).length := by
  induction lines with
  | nil => simp
  | cons line lines ih =>
    simp only [joinLines_cons, List.length_append, List.length_cons]
    omega

theorem matching_cons : matching pattern (line :: lines) =
    (if matchText pattern line then line ++ [ch '\n'] else []) ++ matching pattern lines := by
  rw [matching, List.filter_cons]
  split
  · rw [joinLines_cons, matching]
    simp
  · rfl

theorem strchr_line (isLine : IsLine line) :
    strchr (line ++ ch '\n' :: rest) (ch '\n') = some line.length := by
  induction line with
  | nil => rfl
  | cons x line ih =>
    simp only [IsLine, List.mem_cons, not_or] at isLine
    rw [List.cons_append, strchr, if_neg (Ne.symm isLine.2.1), if_neg (Ne.symm isLine.1.1),
      ih ⟨isLine.1.2, isLine.2.2⟩]
    rfl

theorem strchr_tail (isLine : IsLine tail) : strchr (tail ++ [0]) (ch '\n') = none := by
  induction tail with
  | nil => rfl
  | cons x tail ih =>
    simp only [IsLine, List.mem_cons, not_or] at isLine
    rw [List.cons_append, strchr, if_neg (Ne.symm isLine.2.1), if_neg (Ne.symm isLine.1.1),
      ih ⟨isLine.1.2, isLine.2.2⟩]
    rfl

theorem takeWhile_line (text : 0 ∉ line) : (line ++ 0 :: rest).takeWhile (· ≠ 0) = line := by
  induction line with
  | nil => rfl
  | cons x line ih =>
    simp only [List.mem_cons, not_or] at text
    rw [List.cons_append, List.takeWhile_cons, if_pos (by simpa using Ne.symm text.1), ih text.2]

theorem printLines_eq (each : ∀ line, line ∈ lines → IsLine line) (last : IsLine tail)
    {steps : Nat} (enough : lines.length ≤ steps) :
    printLines pattern steps (joinLines lines ++ (tail ++ [0])) =
      (tail ++ [0], matching pattern lines) := by
  induction lines generalizing steps with
  | nil =>
    cases steps with
    | zero => rfl
    | succ steps =>
      change printLines pattern (steps + 1) (tail ++ [0]) = _
      rw [printLines, strchr_tail last]
      rfl
  | cons line lines ih =>
    obtain ⟨isLine, others⟩ := List.forall_mem_cons.mp each
    obtain ⟨steps, rfl⟩ : ∃ fewer, steps = fewer + 1 :=
      ⟨steps - 1, by simp only [List.length_cons] at enough; omega⟩
    have text : joinLines (line :: lines) ++ (tail ++ [0]) =
        line ++ ch '\n' :: (joinLines lines ++ (tail ++ [0])) := by
      rw [joinLines_cons]
      simp
    rw [text, printLines, strchr_line isLine]
    simp only [List.set_append_right _ _ (Nat.le_refl _), Nat.sub_self, List.set_cons_zero,
      takeWhile_line isLine.2, List.drop_append, Nat.add_sub_cancel_left]
    rw [List.drop_of_length_le (by omega), List.drop_succ_cons, List.drop_zero, List.nil_append,
      ih others (by simp only [List.length_cons] at enough; omega), matching_cons]
    split
    · rw [List.take_append, List.take_of_length_le (by omega)]
      simp
    · rfl

theorem cut_lines (each : ∀ line, line ∈ lines → IsLine line) {first second : List UInt8}
    (cut : joinLines lines = first ++ second) :
    ∃ done later tail, lines = done ++ later ∧ first = joinLines done ++ tail ∧ IsLine tail ∧
      joinLines later = tail ++ second := by
  induction lines generalizing first with
  | nil =>
    obtain ⟨rfl, rfl⟩ := List.append_eq_nil_iff.mp cut.symm
    exact ⟨[], [], [], rfl, rfl, by simp [IsLine], rfl⟩
  | cons line lines ih =>
    obtain ⟨isLine, others⟩ := List.forall_mem_cons.mp each
    rw [joinLines_cons] at cut
    rcases List.append_eq_append_iff.mp cut with ⟨more, rfl, same⟩ | ⟨more, rfl, same⟩
    · cases more with
      | nil =>
        refine ⟨[], line :: lines, line, rfl, by simp [joinLines], isLine, ?_⟩
        rw [joinLines_cons, same]
        rfl
      | cons _ more =>
        obtain ⟨rfl, shorter⟩ := List.cons.inj same
        obtain ⟨done, later, tail, rfl, rfl, incomplete, remains⟩ := ih others shorter
        exact ⟨line :: done, later, tail, rfl, by simp [joinLines_cons], incomplete, remains⟩
    · refine ⟨[], (first ++ more) :: lines, first, rfl, by simp [joinLines], ?_, ?_⟩
      · simp only [IsLine, List.mem_append, not_or] at isLine ⊢
        exact ⟨isLine.1.1, isLine.2.1⟩
      · rw [joinLines_cons, same, List.append_assoc]

end Scan

theorem read_piece (choice : Nat) {n : Nat} {input : List UInt8} (asks : 0 < n)
    (more : input ≠ []) : ∃ piece rest, read choice n input = piece ∧ input = piece ++ rest ∧
      piece ≠ [] ∧ piece.length ≤ n := by
  have length := List.length_pos_iff.mpr more
  have smaller := Nat.mod_lt choice (by omega : 0 < min n input.length)
  have size : (input.take (1 + choice % min n input.length)).length =
      1 + choice % min n input.length := by
    rw [List.length_take]
    omega
  refine ⟨_, _, if_neg (by omega), (List.take_append_drop _ _).symm, ?_, by omega⟩
  rw [← List.length_pos_iff, size]
  omega

def Fits (line : List UInt8) : Bool := line.length + 1 < BUFSIZE

variable {lines : List (List UInt8)}

theorem length_of_mem_joinLines {line : List UInt8} (member : line ∈ lines) :
    line.length + 1 ≤ (joinLines lines).length := by
  induction lines with
  | nil => simp at member
  | cons first lines ih =>
    rw [joinLines_cons, List.length_append, List.length_cons]
    rcases List.mem_cons.mp member with rfl | later
    · omega
    · have shorter := ih later
      omega

theorem kept_le_first {carry input line : List UInt8}
    (text : joinLines (line :: lines) = carry ++ input) (kept : IsLine carry) :
    carry.length ≤ line.length := by
  rw [joinLines_cons] at text
  rcases List.append_eq_append_iff.mp text with ⟨more, rfl, same⟩ | ⟨more, rfl, -⟩
  · cases more with
    | nil => simp
    | cons _ more =>
      obtain ⟨rfl, -⟩ := List.cons.inj same
      exact absurd (by simp) kept.1
  · simp

theorem matching_append (pattern : List UInt8) (first second : List (List UInt8)) :
    matching pattern (first ++ second) = matching pattern first ++ matching pattern second := by
  rw [matching, matching, matching, List.filter_append, joinLines, joinLines, joinLines,
    List.flatMap_append]

theorem grepLoop_eq (pattern : List UInt8) (choices : Nat → Nat) {rounds : Nat}
    {carry input : List UInt8} (each : ∀ line, line ∈ lines → IsLine line)
    (text : joinLines lines = carry ++ input) (kept : IsLine carry) (size : carry.length < BUFSIZE)
    (enough : input.length < rounds) :
    grepLoop pattern choices rounds carry input = some (matching pattern (lines.takeWhile Fits)) := by
  induction rounds generalizing carry input lines with
  | zero => omega
  | succ rounds ih =>
    rw [grepLoop]
    cases lines with
    | nil =>
      have ended := (List.append_eq_nil_iff.mp text.symm).2
      simp [ended, read, matching, joinLines]
    | cons line lines =>
      have ended : input ≠ [] := by
        rintro rfl
        rw [joinLines_cons, List.append_nil] at text
        exact absurd (text ▸ by simp) kept.1
      by_cases full : carry.length + 1 = BUFSIZE
      · -- the first line is longer than the buffer
        have long := kept_le_first text kept
        have unfit : Fits line = false := by
          simp only [Fits, decide_eq_false_iff_not]
          omega
        have nothing : BUFSIZE - carry.length - 1 = 0 := by omega
        simp [nothing, read, unfit, matching, joinLines]
      · obtain ⟨piece, rest, isRead, rfl, nonempty, short⟩ :=
          read_piece (choices rounds) (by omega : 0 < BUFSIZE - carry.length - 1) ended
        rw [← List.append_assoc] at text
        obtain ⟨done, later, tail, split, first, incomplete, remains⟩ := cut_lines each text
        rw [split] at each ⊢
        have complete : ∀ line, line ∈ done → IsLine line := fun line member =>
          each line (List.mem_append_left _ member)
        have count : done.length ≤ (joinLines done ++ (tail ++ [0])).length := by
          rw [List.length_append]
          exact Nat.le_add_right_of_le (length_le_joinLines done)
        have inside : (joinLines done).length + tail.length < BUFSIZE := by
          have lengths := congrArg List.length first
          simp only [List.length_append] at lengths
          omega
        have fit : ∀ line, line ∈ done → Fits line = true := by
          intro line member
          have length := length_of_mem_joinLines member
          simp only [Fits, decide_eq_true_eq]
          omega
        simp only [isRead, nonempty, if_false, List.drop_left]
        rw [first, List.append_assoc, printLines_eq complete incomplete count]
        simp only [List.dropLast_concat]
        have fewer := List.length_pos_iff.mpr nonempty
        rw [ih (fun line member => each line (List.mem_append_right _ member)) remains incomplete
          (by omega) (by simp only [List.length_append] at enough; omega), Option.map_some,
          List.takeWhile_append_of_pos fit, matching_append]

theorem matching_eq_nil (pattern : List UInt8) (lines : List (List UInt8)) :
    matching pattern lines = [] ↔ ∀ line, line ∈ lines → matchText pattern line = false := by
  induction lines with
  | nil => simp [matching, joinLines]
  | cons line lines ih =>
    rw [matching_cons, List.append_eq_nil_iff, ih, List.forall_mem_cons]
    cases matchText pattern line <;> simp

/-- `grep` ends, and it prints exactly the matching lines if and only if no line matches
from the first one on that is too long for the buffer. This holds of every choice of the
pieces, so the output does not depend on them: it is always the matching lines before the
long one. -/
theorem grep_prints_matching (pattern : List UInt8) (choices : Nat → Nat)
    (lines : List (List UInt8)) (each : ∀ line, line ∈ lines → IsLine line) {rounds : Nat}
    (enough : (joinLines lines).length < rounds) :
    ∃ output, grepLoop pattern choices rounds [] (joinLines lines) = some output ∧
      (output = joinLines (lines.filter (matchText pattern)) ↔
        ∀ line, line ∈ lines.dropWhile Fits → matchText pattern line = false) := by
  refine ⟨_, grepLoop_eq pattern choices each rfl (by simp [IsLine]) (by decide) enough, ?_⟩
  have parts : matching pattern lines =
      matching pattern (lines.takeWhile Fits) ++ matching pattern (lines.dropWhile Fits) := by
    rw [← matching_append, List.takeWhile_append_dropWhile]
  change _ = matching pattern lines ↔ _
  rw [← matching_eq_nil, parts, List.self_eq_append_right]

/-- Two lines, read byte by byte: both fit, so the matching one is printed. -/
theorem grep_prints_matching_bytes :
    grepLoop [ch 'a'] (fun _ => 0) 9 [] (joinLines [[ch 'b'], [ch 'a', ch 'b']]) =
      some (joinLines ([[ch 'b'], [ch 'a', ch 'b']].filter (matchText [ch 'a']))) := by
  obtain ⟨output, printed, exact⟩ := grep_prints_matching [ch 'a'] (fun _ => 0)
    [[ch 'b'], [ch 'a', ch 'b']] (by simp [IsLine]; decide)
    (by decide : (joinLines [[ch 'b'], [ch 'a', ch 'b']]).length < 9)
  rw [printed, exact.mpr (by decide)]

/-- After a line of 1023 bytes the buffer is full, a read of no bytes ends the loop and the matching
line after it is lost. -/
theorem grep_stops_at_long_line :
    grepLoop [ch 'a'] (fun _ => 1022) 3 [] (joinLines [List.replicate 1023 (ch 'b'), [ch 'a']]) =
        some [] ∧
      [List.replicate 1023 (ch 'b'), [ch 'a']].filter (matchText [ch 'a']) = [[ch 'a']] := by
  decide +kernel

end Xv6.Grep
