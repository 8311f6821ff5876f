import Mathlib.Logic.Relation
import Mathlib.Logic.Function.Basic

/-!
# Runs of a system that takes step after step

A run is any finite number of steps.
-/

namespace Xv6.Transition

variable {σ : Type*}

abbrev Reaches (step : σ → σ → Prop) : σ → σ → Prop := Relation.ReflTransGen step

theorem Reaches.keeps {step : σ → σ → Prop} (invariant : σ → Prop)
    (once : ∀ before after, invariant before → step before after → invariant after)
    {first last : σ} (run : Reaches step first last) (initially : invariant first) :
    invariant last := by
  induction run with
  | refl => exact initially
  | tail _ last ih => exact once _ _ ih last

theorem Reaches.shows {τ : Type*} {step : σ → σ → Prop} {other : τ → τ → Prop}
    (view : σ → τ) (invariant : σ → Prop)
    (keeps : ∀ before after, invariant before → step before after → invariant after)
    (once : ∀ before after, invariant before → step before after →
      Reaches other (view before) (view after))
    {first last : σ} (run : Reaches step first last) (initially : invariant first) :
    Reaches other (view first) (view last) := by
  induction run with
  | refl => exact .refl
  | @tail middle last run final ih =>
    exact ih.trans (once middle last (Reaches.keeps invariant keeps run initially) final)

end Xv6.Transition
