import Xv6.Library.Ring
import Xv6.Library.Transition

/-!
# The console as a line editor

`console.c` keeps input in one ring with three counters: what lies between `r` and `w` is
committed to readers, what lies between `w` and `e` can still be edited.
-/

namespace Xv6.Console

open RingBuffer Transition Function

abbrev INPUT_BUF_SIZE : Nat := 128

/-- Control-x. -/
def C (x : Char) : UInt8 := UInt8.ofNat (x.toNat - '@'.toNat)

/-- The byte `\n`. -/
abbrev LF : UInt8 := 10

/-- The byte `\r`. -/
abbrev CR : UInt8 := 13

/-- The byte `\x7f`. -/
abbrev DEL : UInt8 := 127

/-- The input part of `cons`. -/
structure Cons where
  buf : Nat → UInt8
  r : UInt32
  w : UInt32
  e : UInt32

def killLine : Nat → Cons → Cons
  | 0, cons => cons
  | rounds + 1, cons =>
    if cons.e ≠ cons.w ∧ cons.buf ((cons.e - 1).toNat % INPUT_BUF_SIZE) ≠ LF then
      killLine rounds { cons with e := cons.e - 1 }
    else cons

def consoleintr (c : UInt8) (cons : Cons) : Cons :=
  if c = C 'P' then cons
  else if c = C 'U' then killLine (cons.e - cons.w).toNat cons
  else if c = C 'H' ∨ c = DEL then
    if cons.e ≠ cons.w then { cons with e := cons.e - 1 } else cons
  else if c ≠ 0 ∧ cons.e - cons.r < UInt32.ofNat INPUT_BUF_SIZE then
    let c := if c = CR then LF else c
    let cons := { cons with
      buf := update cons.buf (cons.e.toNat % INPUT_BUF_SIZE) c
      e := cons.e + 1 }
    if c = LF ∨ c = C 'D' ∨ cons.e - cons.r = UInt32.ofNat INPUT_BUF_SIZE then
      { cons with w := cons.e }
    else cons
  else cons

inductive Outcome where
  | returned (count : Int)
  | asleep (n : Nat)
  deriving DecidableEq, Repr

def consoleread (killed : Bool) (writable target : Nat) :
    Nat → List UInt8 → Cons → (Outcome × List UInt8) × Cons
  | 0, bytes, cons => ((.returned target, bytes), cons)
  | n + 1, bytes, cons =>
    if cons.r = cons.w then
      ((if killed then .returned (-1) else .asleep (n + 1), bytes), cons)
    else
      let c := cons.buf (cons.r.toNat % INPUT_BUF_SIZE)
      let cons := { cons with r := cons.r + 1 }
      if c = C 'D' then
        -- Save ^D for next time, to make sure the caller gets a 0-byte result.
        ((.returned (target - (n + 1)), bytes),
          if n + 1 < target then { cons with r := cons.r - 1 } else cons)
      else if writable ≤ bytes.length then ((.returned (target - (n + 1)), bytes), cons)
      else if c = LF then ((.returned (target - n), bytes ++ [c]), cons)
      else consoleread killed writable target n (bytes ++ [c]) cons

structure Editor where
  queue : List UInt8
  line : List UInt8
  deriving DecidableEq, Repr

/-- What a keystroke does. -/
def Editor.intr (c : UInt8) (editor : Editor) : Editor :=
  if c = 0 ∨ c = C 'P' then editor
  else if c = C 'U' then { editor with line := [] }
  else if c = C 'H' ∨ c = DEL then { editor with line := editor.line.dropLast }
  else if editor.queue.length + editor.line.length < INPUT_BUF_SIZE then
    let c := if c = CR then LF else c
    let line := editor.line ++ [c]
    if c = LF ∨ c = C 'D' ∨ editor.queue.length + line.length = INPUT_BUF_SIZE then
      ⟨editor.queue ++ line, []⟩
    else ⟨editor.queue, line⟩
  else editor

def Editor.read (killed : Bool) :
    Nat → List UInt8 → List UInt8 → (Outcome × List UInt8) × List UInt8
  | 0, bytes, queue => ((.returned bytes.length, bytes), queue)
  | n + 1, bytes, [] => ((if killed then .returned (-1) else .asleep (n + 1), bytes), [])
  | n + 1, bytes, c :: queue =>
    if c = C 'D' then ((.returned bytes.length, bytes), if bytes = [] then queue else c :: queue)
    else if c = LF then ((.returned (bytes.length + 1), bytes ++ [c]), queue)
    else Editor.read killed n (bytes ++ [c]) queue

def Cons.between (cons : Cons) (first last : UInt32) : List UInt8 :=
  window INPUT_BUF_SIZE cons.buf first.toNat (last - first).toNat

def Cons.editor (cons : Cons) : Editor := ⟨cons.between cons.r cons.w, cons.between cons.w cons.e⟩

structure Represents (cons : Cons) (editor : Editor) : Prop where
  writes : cons.w = cons.r + UInt32.ofNat editor.queue.length
  edits : cons.e = cons.w + UInt32.ofNat editor.line.length
  bounded : editor.queue.length + editor.line.length ≤ INPUT_BUF_SIZE
  stored : window INPUT_BUF_SIZE cons.buf cons.r.toNat
    (editor.queue.length + editor.line.length) = editor.queue ++ editor.line
  plain : LF ∉ editor.line

section Counters

theorem divides : INPUT_BUF_SIZE ∣ 2 ^ 32 := by decide

theorem toNat_ofNat_small {n : Nat} (small : n ≤ INPUT_BUF_SIZE) : (UInt32.ofNat n).toNat = n := by
  rw [UInt32.toNat_ofNat']
  exact Nat.mod_eq_of_lt (by simp only [INPUT_BUF_SIZE] at small; omega)

theorem ofNat_inj_small {m n : Nat} (left : m ≤ INPUT_BUF_SIZE) (right : n ≤ INPUT_BUF_SIZE) :
    UInt32.ofNat m = UInt32.ofNat n ↔ m = n := by
  refine ⟨fun same => ?_, congrArg _⟩
  have value := congrArg UInt32.toNat same
  rwa [toNat_ofNat_small left, toNat_ofNat_small right] at value

theorem ahead_sub (counter : UInt32) (n : Nat) :
    counter + UInt32.ofNat n - counter = UInt32.ofNat n := by
  rw [UInt32.add_comm, UInt32.add_sub_cancel]

theorem ahead_ahead (counter : UInt32) (m n : Nat) :
    counter + UInt32.ofNat m + UInt32.ofNat n = counter + UInt32.ofNat (m + n) := by
  rw [UInt32.add_assoc, UInt32.ofNat_add]

theorem ahead_eq_self {counter : UInt32} {n : Nat} (small : n ≤ INPUT_BUF_SIZE) :
    counter + UInt32.ofNat n = counter ↔ n = 0 := by
  rw [UInt32.add_eq_left, ← ofNat_inj_small small (Nat.zero_le _)]
  rfl

end Counters

section Represents

variable {cons : Cons} {editor : Editor}

theorem window_ahead (buf : Nat → UInt8) (counter : UInt32) {n : Nat} (small : n ≤ INPUT_BUF_SIZE)
    (count : Nat) : window INPUT_BUF_SIZE buf (counter + UInt32.ofNat n).toNat count =
      window INPUT_BUF_SIZE buf (counter.toNat + n) count := by
  rw [UInt32.toNat_add, toNat_ofNat_small small, window_wrapped divides]

theorem Represents.editor_eq (represents : Represents cons editor) : cons.editor = editor := by
  have bounded := represents.bounded
  have stored := represents.stored
  have queue : (cons.w - cons.r).toNat = editor.queue.length := by
    rw [represents.writes, ahead_sub, toNat_ofNat_small (by omega)]
  have line : (cons.e - cons.w).toNat = editor.line.length := by
    rw [represents.edits, ahead_sub, toNat_ofNat_small (by omega)]
  rw [window_add] at stored
  obtain ⟨first, second⟩ := List.append_inj stored (by rw [length_window])
  rw [← window_ahead _ _ (by omega), ← represents.writes] at second
  rw [Cons.editor, Cons.between, Cons.between, queue, line, first, second]

theorem Represents.edit_ahead (represents : Represents cons editor) :
    cons.e = cons.r + UInt32.ofNat (editor.queue.length + editor.line.length) := by
  rw [represents.edits, represents.writes, ahead_ahead]

theorem Represents.line_empty (represents : Represents cons editor) :
    cons.e = cons.w ↔ editor.line = [] := by
  have bounded := represents.bounded
  rw [represents.edits, ahead_eq_self (by omega), List.length_eq_zero_iff]

theorem Represents.queue_empty (represents : Represents cons editor) :
    cons.r = cons.w ↔ editor.queue = [] := by
  have bounded := represents.bounded
  rw [represents.writes, eq_comm, ahead_eq_self (by omega), List.length_eq_zero_iff]

variable {queue line : List UInt8}

theorem Represents.erase {c : UInt8} (represents : Represents cons ⟨queue, line ++ [c]⟩) :
    cons.buf ((cons.e - 1).toNat % INPUT_BUF_SIZE) = c ∧
      Represents { cons with e := cons.e - 1 } ⟨queue, line⟩ := by
  obtain ⟨writes, edits, bounded, stored, plain⟩ := represents
  simp only [List.length_append, List.length_singleton] at writes edits bounded stored
  have small : queue.length + line.length ≤ INPUT_BUF_SIZE := by omega
  have back : cons.e - 1 = cons.w + UInt32.ofNat line.length := by
    rw [edits, ← ahead_ahead]
    exact UInt32.add_sub_cancel _ _
  rw [← Nat.add_assoc, window_add, ← List.append_assoc] at stored
  obtain ⟨kept, last⟩ := List.append_inj stored (by simp)
  refine ⟨?_, writes, back, small, kept, fun inside => plain (List.mem_append_left _ inside)⟩
  rw [back, writes, ahead_ahead, UInt32.toNat_add, toNat_ofNat_small small, wrapped_index divides]
  simpa [window_succ] using last

theorem Represents.killLine {queue : List UInt8} (line : List UInt8) {cons : Cons} {rounds : Nat}
    (represents : Represents cons ⟨queue, line⟩) (enough : line.length ≤ rounds) :
    Represents (killLine rounds cons) ⟨queue, []⟩ := by
  induction line using List.reverseRecOn generalizing cons rounds with
  | nil =>
    have stops : cons.e = cons.w := represents.line_empty.mpr rfl
    cases rounds with
    | zero => exact represents
    | succ rounds =>
      rw [Console.killLine, if_neg fun goes => goes.1 stops]
      exact represents
  | append_singleton line c ih =>
    obtain ⟨last, erased⟩ := represents.erase
    have goes : cons.e ≠ cons.w := by
      rw [Ne, represents.line_empty]
      simp
    have other : c ≠ LF := by
      rintro rfl
      exact represents.plain (by simp)
    simp only [List.length_append, List.length_singleton] at enough
    obtain ⟨rounds, rfl⟩ : ∃ n, rounds = n + 1 := ⟨rounds - 1, by omega⟩
    rw [Console.killLine, if_pos ⟨goes, by rwa [last]⟩]
    exact ih erased (by omega)

theorem Represents.store (represents : Represents cons editor) (c : UInt8)
    (room : editor.queue.length + editor.line.length < INPUT_BUF_SIZE) :
    window INPUT_BUF_SIZE (update cons.buf (cons.e.toNat % INPUT_BUF_SIZE) c) cons.r.toNat
      (editor.queue.length + editor.line.length + 1) = editor.queue ++ (editor.line ++ [c]) ∧
    cons.e + 1 = cons.r + UInt32.ofNat (editor.queue.length + editor.line.length + 1) := by
  have place : cons.e.toNat % INPUT_BUF_SIZE =
      (cons.r.toNat + (editor.queue.length + editor.line.length)) % INPUT_BUF_SIZE := by
    rw [represents.edit_ahead, UInt32.toNat_add, toNat_ofNat_small represents.bounded,
      wrapped_index divides]
  refine ⟨?_, ?_⟩
  · rw [place, window_store c room, represents.stored, List.append_assoc]
  · rw [represents.edit_ahead, ← ahead_ahead cons.r (_ + _)]
    rfl

theorem Represents.backspace (represents : Represents cons ⟨queue, line⟩) :
    Represents (if cons.e ≠ cons.w then { cons with e := cons.e - 1 } else cons)
      ⟨queue, line.dropLast⟩ := by
  cases line using List.reverseRecOn with
  | nil =>
    rw [if_neg (not_not.mpr (represents.line_empty.mpr rfl))]
    exact represents
  | append_singleton line c =>
    have some : cons.e ≠ cons.w := by
      rw [Ne, represents.line_empty]
      simp
    rw [if_pos some, List.dropLast_concat]
    exact represents.erase.2

theorem Represents.type (represents : Represents cons ⟨queue, line⟩) (c : UInt8)
    (room : queue.length + line.length < INPUT_BUF_SIZE) :
    Represents
      (let cons := { cons with
        buf := update cons.buf (cons.e.toNat % INPUT_BUF_SIZE) c
        e := cons.e + 1 }
      if c = LF ∨ c = C 'D' ∨ cons.e - cons.r = UInt32.ofNat INPUT_BUF_SIZE then
        { cons with w := cons.e }
      else cons)
      (if c = LF ∨ c = C 'D' ∨ queue.length + (line ++ [c]).length = INPUT_BUF_SIZE then
        ⟨queue ++ (line ++ [c]), []⟩
      else ⟨queue, line ++ [c]⟩) := by
  obtain ⟨stored, ahead⟩ := represents.store c room
  have length : (line ++ [c]).length = line.length + 1 := by simp
  have full : cons.e + 1 - cons.r = UInt32.ofNat INPUT_BUF_SIZE ↔
      queue.length + (line ++ [c]).length = INPUT_BUF_SIZE := by
    rw [ahead, ahead_sub, ofNat_inj_small room (Nat.le_refl _), length]
    exact Iff.rfl
  simp only [full]
  split
  · refine ⟨?_, ?_, ?_, ?_, by simp⟩
    · rw [ahead, List.length_append, length]
      rfl
    · exact (UInt32.add_zero _).symm
    · rw [List.length_append, length]
      exact room
    · rw [List.length_append, length, List.append_nil]
      exact stored
  · rename_i open_
    refine ⟨represents.writes, ?_, ?_, ?_, ?_⟩
    · rw [length, ← ahead_ahead]
      exact congrArg (· + 1) represents.edits
    · rw [length]
      exact room
    · rw [length]
      exact stored
    · rw [List.mem_append, List.mem_singleton]
      rintro (inside | rfl)
      · exact represents.plain inside
      · exact open_ (Or.inl rfl)

theorem Represents.intr (represents : Represents cons editor) (c : UInt8) :
    Represents (consoleintr c cons) (editor.intr c) := by
  obtain ⟨queue, line⟩ := editor
  have bounded := represents.bounded
  unfold consoleintr Editor.intr
  by_cases print : c = C 'P'
  · simpa [print] using represents
  by_cases kill : c = C 'U'
  · have other : ¬ (c = 0 ∨ c = C 'P') := by
      subst kill
      decide
    rw [if_neg print, if_pos kill, if_neg other, if_pos kill]
    refine Represents.killLine line represents ?_
    rw [represents.edits, ahead_sub, toNat_ofNat_small (Nat.le_of_add_left_le bounded)]
  by_cases erase : c = C 'H' ∨ c = DEL
  · have other : ¬ (c = 0 ∨ c = C 'P') := by
      rcases erase with rfl | rfl <;> decide
    rw [if_neg print, if_neg kill, if_pos erase, if_neg other, if_neg kill, if_pos erase]
    exact represents.backspace
  by_cases null : c = 0
  · subst null
    rw [if_neg print, if_neg kill, if_neg erase, if_neg (fun goes => goes.1 rfl),
      if_pos (Or.inl rfl)]
    exact represents
  have fits : cons.e - cons.r < UInt32.ofNat INPUT_BUF_SIZE ↔
      queue.length + line.length < INPUT_BUF_SIZE := by
    rw [represents.edit_ahead, ahead_sub, UInt32.lt_iff_toNat_lt, toNat_ofNat_small bounded,
      toNat_ofNat_small (Nat.le_refl _)]
  simp only [print, kill, erase, null, ↓reduceIte, ne_eq, not_false_eq_true, true_and, or_self, fits]
  split
  · rename_i room
    exact represents.type _ room
  · exact represents

theorem Represents.take {c : UInt8} (represents : Represents cons ⟨c :: queue, line⟩) :
    cons.buf (cons.r.toNat % INPUT_BUF_SIZE) = c ∧
      Represents { cons with r := cons.r + 1 } ⟨queue, line⟩ := by
  obtain ⟨writes, edits, bounded, stored, plain⟩ := represents
  simp only [List.length_cons, List.cons_append] at writes bounded stored
  rw [Nat.add_right_comm, window_succ] at stored
  obtain ⟨first, rest⟩ := List.cons.inj stored
  have small : queue.length + line.length ≤ INPUT_BUF_SIZE := by omega
  refine ⟨first, ?_, edits, small, ?_, plain⟩
  · rw [writes, Nat.add_comm, ← ahead_ahead]
    rfl
  · rw [show cons.r + 1 = cons.r + UInt32.ofNat 1 from rfl, window_ahead _ _ (by decide)]
    exact rest

theorem Represents.read (killed : Bool) {writable target : Nat} (n : Nat)
    {bytes : List UInt8} {cons : Cons} {editor : Editor} (represents : Represents cons editor)
    (progress : target = n + bytes.length) (fits : target ≤ writable) :
    (consoleread killed writable target n bytes cons).1 =
        (Editor.read killed n bytes editor.queue).1 ∧
      Represents (consoleread killed writable target n bytes cons).2
        ⟨(Editor.read killed n bytes editor.queue).2, editor.line⟩ := by
  induction n generalizing bytes editor cons with
  | zero =>
    rw [consoleread, Editor.read, progress, Nat.zero_add]
    exact ⟨rfl, represents⟩
  | succ n ih =>
    obtain ⟨queue, line⟩ := editor
    cases queue with
    | nil =>
      rw [consoleread, if_pos (represents.queue_empty.mpr rfl), Editor.read]
      exact ⟨rfl, represents⟩
    | cons c queue =>
      obtain ⟨front, taken⟩ := represents.take
      have some : cons.r ≠ cons.w := by
        rw [Ne, represents.queue_empty]
        simp
      have room : ¬ writable ≤ bytes.length := by omega
      have reported : (target : Int) - (n + 1) = bytes.length := by omega
      rw [consoleread, if_neg some, Editor.read, front]
      simp only [room, ↓reduceIte, reported]
      split
      · refine ⟨rfl, ?_⟩
        by_cases first : bytes = []
        · have all : ¬ n + 1 < target := by
            rw [progress, first]
            simp
          rw [if_neg all, if_pos first]
          exact taken
        · have partly : n + 1 < target := by
            have positive := List.length_pos_iff.mpr first
            omega
          rw [if_pos partly, if_neg first]
          have back : cons.r + 1 - 1 = cons.r := UInt32.add_sub_cancel _ _
          simp only [back]
          exact represents
      · split
        · refine ⟨?_, taken⟩
          rw [show (target : Int) - n = bytes.length + 1 by omega]
        · refine ih taken ?_
          rw [List.length_append, List.length_singleton]
          omega

end Represents

theorem Editor.read_takes (killed : Bool) (n : Nat) (bytes queue : List UInt8) :
    ∃ taken, queue = taken ++ (Editor.read killed n bytes queue).2 ∧
      ((Editor.read killed n bytes queue).1.2 = bytes ++ taken ∨
        bytes = [] ∧ taken = [C 'D'] ∧ (Editor.read killed n bytes queue).1 = (.returned 0, [])) := by
  induction n generalizing bytes queue with
  | zero => exact ⟨[], rfl, Or.inl (List.append_nil _).symm⟩
  | succ n ih =>
    cases queue with
    | nil => exact ⟨[], rfl, Or.inl (List.append_nil _).symm⟩
    | cons c queue =>
      rw [Editor.read]
      split
      · rename_i eof
        by_cases first : bytes = []
        · refine ⟨[c], ?_, Or.inr ⟨first, by rw [eof], ?_⟩⟩
          · simp [first]
          · simp [first]
        · exact ⟨[], by simp [first], Or.inl (List.append_nil _).symm⟩
      · split
        · exact ⟨[c], rfl, Or.inl rfl⟩
        · obtain ⟨taken, split, stored | ⟨empty, -⟩⟩ := ih (bytes ++ [c]) queue
          · refine ⟨c :: taken, by rw [List.cons_append, ← split], Or.inl ?_⟩
            rw [stored, List.append_assoc]
            rfl
          · simp at empty

theorem Editor.intr_extends (c : UInt8) (editor : Editor) :
    ∃ moved, (editor.intr c).queue = editor.queue ++ moved := by
  unfold Editor.intr
  dsimp only
  split_ifs
  all_goals first | exact ⟨_, rfl⟩ | exact ⟨[], (List.append_nil _).symm⟩

section Counters

variable {cons : Cons}

theorem killLine_keeps (rounds : Nat) (cons : Cons) :
    (killLine rounds cons).r = cons.r := by
  induction rounds generalizing cons with
  | zero => rfl
  | succ rounds ih =>
    rw [killLine]
    split
    · exact ih _
    · rfl

theorem consoleintr_keeps (c : UInt8) (cons : Cons) : (consoleintr c cons).r = cons.r := by
  unfold consoleintr
  dsimp only
  split_ifs
  all_goals first | rfl | exact killLine_keeps _ _

theorem consoleread_keeps (killed : Bool) (writable target n : Nat) (bytes : List UInt8)
    (cons : Cons) : (consoleread killed writable target n bytes cons).2.w = cons.w := by
  induction n generalizing bytes cons with
  | zero => rfl
  | succ n ih =>
    rw [consoleread]
    dsimp only
    split_ifs
    all_goals first | rfl | exact ih _ _

theorem Represents.between {front back line : List UInt8}
    (represents : Represents cons ⟨front ++ back, line⟩) :
    cons.between cons.r (cons.r + UInt32.ofNat front.length) = front ∧
      cons.between (cons.r + UInt32.ofNat front.length) cons.w = back := by
  obtain ⟨writes, -, bounded, stored, -⟩ := represents
  simp only [List.length_append] at writes bounded stored
  have small : front.length ≤ INPUT_BUF_SIZE := by omega
  have rest : (cons.w - (cons.r + UInt32.ofNat front.length)).toNat = back.length := by
    rw [writes, ← ahead_ahead, ahead_sub, toNat_ofNat_small (by omega)]
  rw [window_add, window_add, List.append_assoc, List.append_assoc] at stored
  obtain ⟨first, others⟩ := List.append_inj stored (by simp)
  obtain ⟨second, -⟩ := List.append_inj others (by simp)
  refine ⟨?_, ?_⟩
  · rw [Cons.between, ahead_sub, toNat_ofNat_small small, first]
  · rw [Cons.between, rest, window_ahead _ _ small, second]

end Counters

structure Call where
  writable : Nat
  target : Nat
  n : Nat
  bytes : List UInt8

structure Machine (Reader : Type) where
  cons : Cons
  call : Reader → Option Call
  committed : List UInt8
  consumed : List UInt8

section Machine

variable {Reader : Type} [DecidableEq Reader]

def Machine.intr (s : Machine Reader) (c : UInt8) : Machine Reader :=
  { s with
    cons := consoleintr c s.cons
    committed := s.committed ++ (consoleintr c s.cons).between s.cons.w (consoleintr c s.cons).w }

def Machine.serve (s : Machine Reader) (p : Reader) (killed : Bool) (call : Call) :
    Machine Reader :=
  let result := consoleread killed call.writable call.target call.n call.bytes s.cons
  { s with
    cons := result.2
    call := update s.call p
      (match result.1.1 with
      | .returned _ => none
      | .asleep n => some { call with n := n, bytes := result.1.2 })
    consumed := s.consumed ++ s.cons.between s.cons.r result.2.r }

inductive Step : Machine Reader → Machine Reader → Prop
  | consoleintr (s : Machine Reader) (c : UInt8) : Step s (s.intr c)
  | consoleread (s : Machine Reader) (p : Reader) (killed : Bool) (writable : Nat) (n : Int)
      (idle : s.call p = none) (fits : n.toNat ≤ writable) :
      Step s (s.serve p killed ⟨writable, n.toNat, n.toNat, []⟩)
  | wakes (s : Machine Reader) (p : Reader) (killed : Bool) (call : Call)
      (asleep : s.call p = some call) : Step s (s.serve p killed call)

def booted : Machine Reader := ⟨⟨fun _ => 0, 0, 0, 0⟩, fun _ => none, [], []⟩

def Call.Sound (call : Call) : Prop :=
  call.target = call.n + call.bytes.length ∧ call.target ≤ call.writable

structure Sound (s : Machine Reader) : Prop where
  represents : Represents s.cons s.cons.editor
  history : s.committed = s.consumed ++ s.cons.editor.queue
  calls : ∀ p call, s.call p = some call → call.Sound

variable {s t : Machine Reader}

theorem Represents.self {cons : Cons} {editor : Editor} (represents : Represents cons editor) :
    Represents cons cons.editor := by
  rwa [represents.editor_eq]

omit [DecidableEq Reader] in
theorem Sound.intr (sound : Sound s) (c : UInt8) : Sound (s.intr c) := by
  have represents := sound.represents.intr c
  obtain ⟨moved, extends_⟩ := s.cons.editor.intr_extends c
  refine ⟨represents.self, ?_, sound.calls⟩
  have shape : s.cons.editor.intr c = ⟨s.cons.editor.queue ++ moved, (s.cons.editor.intr c).line⟩ := by
    rw [← extends_]
  have added := (shape ▸ represents).between.2
  rw [consoleintr_keeps, ← sound.represents.writes] at added
  change s.committed ++ (consoleintr c s.cons).between s.cons.w _ =
    s.consumed ++ (consoleintr c s.cons).editor.queue
  rw [added, represents.editor_eq, extends_, sound.history, List.append_assoc]

theorem Editor.read_progress {killed : Bool} {n left : Nat} {bytes queue : List UInt8}
    (asleep : (Editor.read killed n bytes queue).1.1 = .asleep left) :
    left + (Editor.read killed n bytes queue).1.2.length = n + bytes.length := by
  induction n generalizing bytes queue with
  | zero => cases asleep
  | succ n ih =>
    cases queue with
    | nil =>
      cases killed <;> cases asleep
      rfl
    | cons c queue =>
      rw [Editor.read] at asleep ⊢
      by_cases eof : c = C 'D'
      · rw [if_pos eof] at asleep
        cases asleep
      · by_cases newline : c = LF
        · rw [if_neg eof, if_pos newline] at asleep
          cases asleep
        · rw [if_neg eof, if_neg newline] at asleep ⊢
          rw [ih asleep, List.length_append, List.length_singleton]
          omega

/-- Every step of a reader keeps the buffer sound. -/
theorem Sound.serve (sound : Sound s) (p : Reader) (killed : Bool) {call : Call}
    (progress : call.Sound) : Sound (s.serve p killed call) := by
  obtain ⟨same, represents⟩ :=
    Represents.read killed call.n sound.represents progress.1 progress.2
  have kept := consoleread_keeps killed call.writable call.target call.n call.bytes s.cons
  obtain ⟨taken, split, -⟩ := Editor.read_takes killed call.n call.bytes s.cons.editor.queue
  refine ⟨represents.self, ?_, ?_⟩
  · have writes := sound.represents.writes
    rw [split, List.length_append, ← ahead_ahead, ← kept, represents.writes,
      UInt32.add_left_inj] at writes
    have before : Represents s.cons ⟨taken ++ (Editor.read killed call.n call.bytes
        s.cons.editor.queue).2, s.cons.editor.line⟩ := by
      rw [← split]
      exact sound.represents
    change s.committed = s.consumed ++ s.cons.between s.cons.r _ ++
      (consoleread killed call.writable call.target call.n call.bytes s.cons).2.editor.queue
    rw [represents.editor_eq, writes, before.between.1, List.append_assoc, ← split]
    exact sound.history
  · intro q other asleep
    by_cases mine : q = p
    · subst mine
      simp only [Machine.serve, update_self] at asleep
      rw [same] at asleep
      cases outcome : (Editor.read killed call.n call.bytes s.cons.editor.queue).1.1 with
      | returned count =>
        rw [outcome] at asleep
        cases asleep
      | asleep left =>
        rw [outcome] at asleep
        cases asleep
        exact ⟨progress.1.trans (Editor.read_progress outcome).symm, progress.2⟩
    · exact sound.calls q other ((update_of_ne mine ..).symm.trans asleep)

theorem Sound.step (sound : Sound s) (step : Step s t) : Sound t := by
  cases step with
  | consoleintr c => exact sound.intr c
  | consoleread p killed writable n idle fits =>
    exact sound.serve p killed ⟨(Nat.add_zero _).symm, fits⟩
  | wakes p killed call asleep => exact sound.serve p killed (sound.calls p call asleep)

omit [DecidableEq Reader] in
theorem sound_booted : Sound (booted : Machine Reader) := by
  have empty : Represents (booted : Machine Reader).cons ⟨[], []⟩ :=
    ⟨rfl, rfl, Nat.zero_le _, rfl, List.not_mem_nil⟩
  refine ⟨empty.self, ?_, ?_⟩
  · rw [empty.editor_eq]
    rfl
  · intro p call asleep
    cases asleep

/-- The console is a line editor. In every state that keystrokes and readers reach, however
often the counters have wrapped, the queue and the line lie in the ring and fit it, a
keystroke and a reader do to them what they do to a line editor, and the bytes ever
committed are those ever taken followed by the queue. -/
theorem console_is_line_editor {Reader : Type} [DecidableEq Reader] (s : Machine Reader)
    (run : Reaches Step booted s) :
    s.cons.editor.queue.length + s.cons.editor.line.length ≤ INPUT_BUF_SIZE ∧
    (∀ c, (consoleintr c s.cons).editor = s.cons.editor.intr c) ∧
    (∀ killed writable target n bytes, target = n + bytes.length → target ≤ writable →
      (consoleread killed writable target n bytes s.cons).1 =
        (Editor.read killed n bytes s.cons.editor.queue).1 ∧
      (consoleread killed writable target n bytes s.cons).2.editor =
        ⟨(Editor.read killed n bytes s.cons.editor.queue).2, s.cons.editor.line⟩) ∧
    (∀ p call, s.call p = some call →
      call.target = call.n + call.bytes.length ∧ call.target ≤ call.writable) ∧
    s.committed = s.consumed ++ s.cons.editor.queue := by
  have sound : Sound s := Reaches.keeps Sound (fun _ _ kept step => kept.step step) run sound_booted
  refine ⟨sound.represents.bounded, fun c => (sound.represents.intr c).editor_eq, ?_, sound.calls,
    sound.history⟩
  intro killed writable target n bytes progress fits
  obtain ⟨same, represents⟩ := Represents.read killed n sound.represents progress fits
  exact ⟨same, represents.editor_eq⟩

/-- Two keys, of which one is erased, and a newline; a reader that wants more gets the line. -/
theorem line_typed_and_read : ∃ s : Machine Bool, Reaches Step booted s ∧
    s.committed = [104, LF] ∧ s.cons.editor = ⟨[], []⟩ ∧
    s.committed = s.consumed ++ s.cons.editor.queue := by
  have run : Reaches Step (booted : Machine Bool) _ :=
    ((((Relation.ReflTransGen.refl.tail (.consoleintr _ 104)).tail (.consoleintr _ 105)).tail
      (.consoleintr _ DEL)).tail (.consoleintr _ CR)).tail
        (.consoleread _ true false 10 10 rfl (by decide))
  exact ⟨_, run, by decide, by decide, (console_is_line_editor _ run).2.2.2.2⟩

end Machine

end Xv6.Console
