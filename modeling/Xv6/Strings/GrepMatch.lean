import Xv6.Library.Bytes

/-!
# The regular expressions of grep

`match` and its two helpers are read as functions on the bytes of the pattern and of the text
before their terminators, so that an empty list is where the source finds a null byte.
-/

namespace Xv6.Grep

open Bytes (ch)

def matchstar (here : List UInt8 → Bool) (c : UInt8) : List UInt8 → Bool
  | [] => here []
  | t :: text => here (t :: text) || (t == c || c == ch '.') && matchstar here c text

def matchone (next : List UInt8 → Bool) (r : UInt8) : List UInt8 → Bool
  | [] => false
  | t :: text => (r == ch '.' || r == t) && next text

def matchhere : List UInt8 → List UInt8 → Bool
  | [], _ => true
  | [r], text => if r = ch '$' then text.isEmpty else matchone (matchhere []) r text
  | r :: s :: re, text =>
    if s = ch '*' then matchstar (matchhere re) r text else matchone (matchhere (s :: re)) r text

def matchAny (re : List UInt8) : List UInt8 → Bool
  | [] => matchhere re []
  | t :: text => matchhere re (t :: text) || matchAny re text

/-- `match(re, text)` -/
def matchText (re text : List UInt8) : Bool :=
  if re.head? = some (ch '^') then matchhere re.tail text else matchAny re text

/-! ### What a pattern describes -/

inductive Item
  | one (c : UInt8)
  | many (c : UInt8)
  | atEnd
deriving DecidableEq

def items : List UInt8 → List Item
  | [] => []
  | [r] => if r = ch '$' then [.atEnd] else [.one r]
  | r :: s :: re => if s = ch '*' then .many r :: items re else .one r :: items (s :: re)

def Allows (c t : UInt8) : Prop := c = ch '.' ∨ c = t

def InLanguage : List Item → List UInt8 → Prop
  | [], word => word = []
  | .one c :: its, word => ∃ t rest, word = t :: rest ∧ Allows c t ∧ InLanguage its rest
  | .many c :: its, word =>
    ∃ copies rest, word = copies ++ rest ∧ (∀ t, t ∈ copies → Allows c t) ∧ InLanguage its rest
  | .atEnd :: its, word => InLanguage its word

def Describes (its : List Item) (word after : List UInt8) : Prop :=
  InLanguage its word ∧ (.atEnd ∈ its → after = [])

def Occurs (re text : List UInt8) : Prop :=
  if re.head? = some (ch '^') then
    ∃ word after, text = word ++ after ∧ Describes (items re.tail) word after
  else ∃ before word after, text = before ++ word ++ after ∧ Describes (items re) word after

def Begins (re text : List UInt8) : Prop :=
  ∃ word after, text = word ++ after ∧ Describes (items re) word after

theorem begins_nil (text : List UInt8) : Begins [] text :=
  ⟨[], text, rfl, rfl, by simp [items]⟩

theorem begins_one {r : UInt8} {re re' text : List UInt8} (step : items re = .one r :: items re') :
    Begins re text ↔ ∃ t rest, text = t :: rest ∧ Allows r t ∧ Begins re' rest := by
  constructor
  · rintro ⟨_, after, rfl, described, ended⟩
    rw [step] at described ended
    obtain ⟨t, rest, rfl, allows, described⟩ := described
    exact ⟨t, rest ++ after, rfl, allows, rest, after, rfl, described, fun last =>
      ended (List.mem_cons_of_mem _ last)⟩
  · rintro ⟨t, _, rfl, allows, word, after, rfl, described, ended⟩
    refine ⟨t :: word, after, rfl, ?_⟩
    rw [Describes, step]
    exact ⟨⟨t, word, rfl, allows, described⟩, by simpa using ended⟩

theorem begins_many {r : UInt8} {re re' text : List UInt8}
    (step : items re = .many r :: items re') :
    Begins re text ↔
      ∃ copies rest, text = copies ++ rest ∧ (∀ t, t ∈ copies → Allows r t) ∧ Begins re' rest := by
  constructor
  · rintro ⟨_, after, rfl, described, ended⟩
    rw [step] at described ended
    obtain ⟨copies, rest, rfl, allows, described⟩ := described
    exact ⟨copies, rest ++ after, by simp, allows, rest, after, rfl, described, fun last =>
      ended (List.mem_cons_of_mem _ last)⟩
  · rintro ⟨copies, _, rfl, allows, word, after, rfl, described, ended⟩
    refine ⟨copies ++ word, after, by simp, ?_⟩
    rw [Describes, step]
    exact ⟨⟨copies, word, rfl, allows, described⟩, by simpa using ended⟩

theorem begins_atEnd (text : List UInt8) : Begins [ch '$'] text ↔ text = [] := by
  have step : items [ch '$'] = [.atEnd] := by simp [items]
  constructor
  · rintro ⟨word, after, rfl, described, ended⟩
    rw [step] at described ended
    have empty : word = [] := described
    rw [empty, ended List.mem_cons_self]
    rfl
  · rintro rfl
    refine ⟨[], [], rfl, ?_, fun _ => rfl⟩
    rw [step]
    exact rfl

theorem matchstar_iff (here : List UInt8 → Bool) (c : UInt8) (text : List UInt8) :
    matchstar here c text = true ↔
      ∃ copies rest, text = copies ++ rest ∧ (∀ t, t ∈ copies → Allows c t) ∧ here rest = true := by
  induction text with
  | nil =>
    rw [matchstar]
    constructor
    · exact fun found => ⟨[], [], rfl, by simp, found⟩
    · rintro ⟨copies, rest, empty, -, found⟩
      rwa [(List.append_eq_nil_iff.mp empty.symm).2] at found
  | cons t text ih =>
    have allows : (t == c || c == ch '.') = true ↔ Allows c t := by
      rw [Bool.or_comm, BEq.comm (a := t)]
      simp [Allows]
    rw [matchstar, Bool.or_eq_true, Bool.and_eq_true, allows, ih]
    constructor
    · rintro (found | ⟨first, copies, rest, rfl, others, found⟩)
      · exact ⟨[], t :: text, rfl, by simp, found⟩
      · exact ⟨t :: copies, rest, rfl, List.forall_mem_cons.mpr ⟨first, others⟩, found⟩
    · rintro ⟨copies, rest, split, others, found⟩
      cases copies with
      | nil => exact Or.inl (split ▸ found)
      | cons _ copies =>
        obtain ⟨rfl, rfl⟩ := List.cons.inj split
        obtain ⟨first, others⟩ := List.forall_mem_cons.mp others
        exact Or.inr ⟨first, copies, rest, rfl, others, found⟩

theorem matchone_iff (next : List UInt8 → Bool) (r : UInt8) (text : List UInt8) :
    matchone next r text = true ↔
      ∃ t rest, text = t :: rest ∧ Allows r t ∧ next rest = true := by
  cases text <;> simp [matchone, Allows]

theorem matchhere_iff (re text : List UInt8) : matchhere re text = true ↔ Begins re text := by
  fun_induction items re generalizing text with
  | case1 => exact iff_of_true (by rw [matchhere]) (begins_nil text)
  | case2 =>
    rw [matchhere, if_pos rfl, begins_atEnd]
    exact List.isEmpty_iff
  | case3 r plain =>
    have step : items [r] = .one r :: items [] := by simp [items, plain]
    rw [matchhere, if_neg plain, matchone_iff, begins_one step]
    simp [matchhere, begins_nil]
  | case4 r re ih =>
    have step : items (r :: ch '*' :: re) = .many r :: items re := by simp [items]
    rw [matchhere, if_pos rfl, matchstar_iff, begins_many step]
    simp only [ih]
  | case5 r s re plain ih =>
    have step : items (r :: s :: re) = .one r :: items (s :: re) := by simp [items, plain]
    rw [matchhere, if_neg plain, matchone_iff, begins_one step]
    simp only [ih]

theorem matchAny_iff (re text : List UInt8) :
    matchAny re text = true ↔ ∃ before rest, text = before ++ rest ∧ Begins re rest := by
  induction text with
  | nil =>
    rw [matchAny, matchhere_iff]
    constructor
    · exact fun found => ⟨[], [], rfl, found⟩
    · rintro ⟨before, rest, empty, found⟩
      rwa [(List.append_eq_nil_iff.mp empty.symm).2] at found
  | cons t text ih =>
    rw [matchAny, Bool.or_eq_true, matchhere_iff, ih]
    constructor
    · rintro (found | ⟨before, rest, rfl, found⟩)
      · exact ⟨[], t :: text, rfl, found⟩
      · exact ⟨t :: before, rest, rfl, found⟩
    · rintro ⟨before, rest, split, found⟩
      cases before with
      | nil => exact Or.inl (split ▸ found)
      | cons _ before => exact Or.inr ⟨before, rest, (List.cons.inj split).2, found⟩

/-- `match` finds exactly the texts in which the pattern occurs. -/
theorem match_iff_occurs (re text : List UInt8) : matchText re text = true ↔ Occurs re text := by
  rw [matchText, Occurs]
  split
  · exact matchhere_iff _ _
  · rw [matchAny_iff]
    constructor
    · rintro ⟨before, _, rfl, word, after, rfl, described⟩
      exact ⟨before, word, after, by simp, described⟩
    · rintro ⟨before, word, after, rfl, described⟩
      exact ⟨before, word ++ after, by simp, word, after, rfl, described⟩

example : matchText [ch '^', ch '*', ch 'a', ch '.', ch '*', ch 'b', ch '$']
    [ch '*', ch 'a', ch '-', ch 'b'] = true := by decide

end Xv6.Grep
