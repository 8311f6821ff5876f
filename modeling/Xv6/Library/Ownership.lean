import Mathlib.Data.Finset.Card
import Mathlib.Logic.Function.Basic
import Mathlib.Tactic.Common

/-!
# Things that are each kept in one place

An allocator marks things of some region as used, and places refer to things.
-/

namespace Xv6.Ownership

variable {ι β : Type*} {region used : β → Prop} {held : ι → Option β}

structure Balanced (region used : β → Prop) (held : ι → Option β) : Prop where
  inside : ∀ place thing, held place = some thing → region thing ∧ used thing
  single : ∀ left right thing, held left = some thing → held right = some thing → left = right
  covered : ∀ thing, region thing → used thing → ∃ place, held place = some thing

variable {held' : ι → Option β} {used' : β → Prop} {thing : β}

/-- A free thing is held nowhere. -/
theorem Balanced.free (balanced : Balanced region used held) (free : ¬ used thing) (place : ι) :
    held place ≠ some thing :=
  fun kept => free (balanced.inside place thing kept).2

theorem Balanced.unique (balanced : Balanced region used held) (within : region thing)
    (taken : used thing) : ∃! place, held place = some thing := by
  obtain ⟨place, kept⟩ := balanced.covered thing within taken
  exact ⟨place, kept, fun other also => balanced.single other place thing also kept⟩

theorem Balanced.congr (balanced : Balanced region used held)
    (sameUse : ∀ thing, region thing → (used' thing ↔ used thing))
    (sameHeld : ∀ place, held' place = held place) : Balanced region used' held' := by
  constructor
  · intro place thing kept
    rw [sameHeld] at kept
    obtain ⟨within, taken⟩ := balanced.inside place thing kept
    exact ⟨within, (sameUse thing within).mpr taken⟩
  · intro left right thing first second
    rw [sameHeld] at first second
    exact balanced.single left right thing first second
  · intro thing within taken
    obtain ⟨place, kept⟩ := balanced.covered thing within ((sameUse thing within).mp taken)
    exact ⟨place, (sameHeld place).trans kept⟩

theorem Balanced.reindex (balanced : Balanced region used held) {rename : ι → ι}
    (involutive : Function.Involutive rename) :
    Balanced region used fun place => held (rename place) := by
  constructor
  · intro place thing kept
    exact balanced.inside (rename place) thing kept
  · intro left right thing first second
    exact involutive.injective (balanced.single _ _ thing first second)
  · intro thing within taken
    obtain ⟨place, kept⟩ := balanced.covered thing within taken
    exact ⟨rename place, by rw [involutive place]; exact kept⟩

theorem Balanced.take (balanced : Balanced region used held) {place : ι} (within : region thing)
    (free : ¬ used thing) (empty : held place = none)
    (marked : ∀ other, region other → (used' other ↔ other = thing ∨ used other))
    (placed : held' place = some thing) (same : ∀ other, other ≠ place → held' other = held other) :
    Balanced region used' held' := by
  have elsewhere : ∀ other kept, held' other = some kept → other ≠ place → held other = some kept :=
    fun other kept here different => (same other different).symm.trans here
  constructor
  · intro other kept here
    by_cases chosen : other = place
    · subst chosen
      obtain rfl : thing = kept := Option.some.inj (placed.symm.trans here)
      exact ⟨within, (marked _ within).mpr (Or.inl rfl)⟩
    · obtain ⟨inside, taken⟩ := balanced.inside other kept (elsewhere other kept here chosen)
      exact ⟨inside, (marked _ inside).mpr (Or.inr taken)⟩
  · intro left right kept first second
    by_cases leftChosen : left = place
    · subst leftChosen
      obtain rfl : thing = kept := Option.some.inj (placed.symm.trans first)
      by_contra different
      exact balanced.free free right (elsewhere right thing second (Ne.symm different))
    · by_cases rightChosen : right = place
      · subst rightChosen
        obtain rfl : thing = kept := Option.some.inj (placed.symm.trans second)
        exact (balanced.free free left (elsewhere left thing first leftChosen)).elim
      · exact balanced.single left right kept (elsewhere left kept first leftChosen)
          (elsewhere right kept second rightChosen)
  · intro other inside taken
    rcases (marked other inside).mp taken with rfl | before
    · exact ⟨place, placed⟩
    · obtain ⟨where', kept⟩ := balanced.covered other inside before
      have different : where' ≠ place := by
        rintro rfl
        simp [empty] at kept
      exact ⟨where', (same where' different).trans kept⟩

theorem Balanced.give (balanced : Balanced region used held) {place : ι}
    (kept : held place = some thing)
    (marked : ∀ other, region other → (used' other ↔ other ≠ thing ∧ used other))
    (emptied : held' place = none) (same : ∀ other, other ≠ place → held' other = held other) :
    Balanced region used' held' := by
  have elsewhere : ∀ other held, held' other = some held → other ≠ place := by
    rintro other held here rfl
    simp [emptied] at here
  constructor
  · intro other found here
    have different := elsewhere other found here
    rw [same other different] at here
    obtain ⟨inside, taken⟩ := balanced.inside other found here
    refine ⟨inside, (marked found inside).mpr ⟨?_, taken⟩⟩
    rintro rfl
    exact different (balanced.single other place found here kept)
  · intro left right found first second
    have leftDifferent := elsewhere left found first
    have rightDifferent := elsewhere right found second
    rw [same left leftDifferent] at first
    rw [same right rightDifferent] at second
    exact balanced.single left right found first second
  · intro other inside taken
    obtain ⟨different, before⟩ := (marked other inside).mp taken
    obtain ⟨where', found⟩ := balanced.covered other inside before
    refine ⟨where', (same where' ?_).trans found⟩
    rintro rfl
    exact different (Option.some.inj (found.symm.trans kept))

theorem Balanced.move (balanced : Balanced region used held) {source target : ι}
    (kept : held source = some thing) (empty : held target = none) (emptied : held' source = none)
    (placed : held' target = some thing)
    (same : ∀ other, other ≠ source → other ≠ target → held' other = held other) :
    Balanced region used held' := by
  -- Where a thing is afterwards, as a function of where it was.
  have origin : ∀ other found, held' other = some found →
      (other = target ∧ found = thing) ∨ (other ≠ source ∧ other ≠ target ∧ held other = some found) := by
    intro other found here
    by_cases atTarget : other = target
    · subst atTarget
      exact Or.inl ⟨rfl, Option.some.inj (here.symm.trans placed)⟩
    · have notSource : other ≠ source := by
        rintro rfl
        simp [emptied] at here
      exact Or.inr ⟨notSource, atTarget, (same other notSource atTarget).symm.trans here⟩
  constructor
  · intro other found here
    rcases origin other found here with ⟨-, rfl⟩ | ⟨-, -, before⟩
    · exact balanced.inside source found kept
    · exact balanced.inside other found before
  · intro left right found first second
    rcases origin left found first with ⟨rfl, rfl⟩ | ⟨leftSource, -, leftBefore⟩
    · rcases origin right found second with ⟨rfl, -⟩ | ⟨rightSource, -, rightBefore⟩
      · rfl
      · exact absurd (balanced.single right source found rightBefore kept) rightSource
    · rcases origin right found second with ⟨rfl, rfl⟩ | ⟨-, -, rightBefore⟩
      · exact absurd (balanced.single left source found leftBefore kept) leftSource
      · exact balanced.single left right found leftBefore rightBefore
  · intro other inside taken
    obtain ⟨where', found⟩ := balanced.covered other inside taken
    by_cases atSource : where' = source
    · subst atSource
      exact ⟨target, placed.trans (kept.symm.trans found)⟩
    · have notTarget : where' ≠ target := by
        rintro rfl
        simp [empty] at found
      exact ⟨where', (same where' atSource notTarget).trans found⟩

theorem Balanced.giveAll (balanced : Balanced region used held) (emptied : ι → Prop)
    (marked : ∀ other, region other →
      (used' other ↔ used other ∧ ∀ place, emptied place → held place ≠ some other))
    (gone : ∀ place, emptied place → held' place = none)
    (same : ∀ place, ¬ emptied place → held' place = held place) :
    Balanced region used' held' := by
  have before : ∀ place found, held' place = some found →
      ¬ emptied place ∧ held place = some found := by
    intro place found here
    have stays : ¬ emptied place := by
      intro empty
      simp [gone place empty] at here
    exact ⟨stays, (same place stays).symm.trans here⟩
  constructor
  · intro place found here
    obtain ⟨stays, kept⟩ := before place found here
    obtain ⟨inside, taken⟩ := balanced.inside place found kept
    refine ⟨inside, (marked found inside).mpr ⟨taken, ?_⟩⟩
    intro other empty there
    exact stays (balanced.single place other found kept there ▸ empty)
  · intro left right found first second
    exact balanced.single left right found (before left found first).2 (before right found second).2
  · intro other inside taken
    obtain ⟨old, notFreed⟩ := (marked other inside).mp taken
    obtain ⟨where', found⟩ := balanced.covered other inside old
    exact ⟨where', (same where' fun empty => notFreed where' empty found).trans found⟩

section Growth

variable {used' : β → Prop} {held' : ι → Option β} (balanced : Balanced region used held)
  (later : Balanced region used' held')
  (grows : ∀ place thing, held place = some thing → held' place = some thing)
include balanced later grows

theorem Balanced.card_filled_le {places : Finset ι} {free : Finset β}
    (listed : ∀ thing, region thing → ¬ used thing → thing ∈ free)
    (empty : ∀ place ∈ places, held place = none)
    (filled : ∀ place ∈ places, ∃ thing, held' place = some thing) : places.card ≤ free.card := by
  classical
  have inside : places.image held' ⊆ free.image some := by
    intro value member
    obtain ⟨place, among, rfl⟩ := Finset.mem_image.mp member
    obtain ⟨thing, kept⟩ := filled place among
    obtain ⟨within, -⟩ := later.inside place thing kept
    have unused : ¬ used thing := by
      intro taken
      obtain ⟨old, found⟩ := balanced.covered thing within taken
      have same := later.single old place thing (grows old thing found) kept
      rw [same, empty place among] at found
      exact nomatch found
    exact Finset.mem_image.mpr ⟨thing, listed thing within unused, kept.symm⟩
  have apart : Set.InjOn held' places := by
    intro left first right second same
    obtain ⟨thing, kept⟩ := filled left first
    exact later.single left right thing kept (same.symm.trans kept)
  calc places.card = (places.image held').card := (Finset.card_image_of_injOn apart).symm
    _ ≤ (free.image some).card := Finset.card_le_card inside
    _ ≤ free.card := Finset.card_image_le

theorem Balanced.card_taken_le {places : Finset ι} {free : Finset β}
    (unused : ∀ thing ∈ free, region thing ∧ ¬ used thing) (taken : ∀ thing ∈ free, used' thing)
    (listed : ∀ place thing, held place = none → held' place = some thing → place ∈ places) :
    free.card ≤ places.card := by
  classical
  have inside : free.image some ⊆ places.image held' := by
    intro value member
    obtain ⟨thing, among, rfl⟩ := Finset.mem_image.mp member
    obtain ⟨within, notUsed⟩ := unused thing among
    obtain ⟨place, kept⟩ := later.covered thing within (taken thing among)
    have empty : held place = none := by
      cases before : held place with
      | none => rfl
      | some other =>
        have same := (grows place other before).symm.trans kept
        exact absurd (before.trans same) (balanced.free notUsed place)
    exact Finset.mem_image.mpr ⟨place, listed place thing empty kept, kept⟩
  calc free.card = (free.image some).card :=
        (Finset.card_image_of_injective _ (Option.some_injective β)).symm
    _ ≤ (places.image held').card := Finset.card_le_card inside
    _ ≤ places.card := Finset.card_image_le

end Growth

end Xv6.Ownership
