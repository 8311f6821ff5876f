import Xv6.Library.Command

/-!
# Commands on a part of the state

A subsystem has a state and commands of its own.
-/

namespace Xv6.Command

variable {σ τ ε δ α β : Type}

structure Part (σ τ : Type) where
  get : σ → τ
  put : τ → σ → σ
  get_put : ∀ part state, get (put part state) = part
  put_get : ∀ state, put (get state) state = state
  put_put : ∀ later part state, put later (put part state) = put later state

def zoom (part : Part σ τ) (why : ε → δ) (command : Cmd τ ε α) : Cmd σ δ α := fun state =>
  match command.run (part.get state) with
  | .ok (value, after) => .ok (value, part.put after state)
  | .error reason => .error (why reason)

theorem wp_zoom (part : Part σ τ) (why : ε → δ) (command : Cmd τ ε α) (post : α → σ → Prop)
    (stop : δ → Prop) (state : σ) :
    wp (zoom part why command) post stop state ↔
      wp command (fun value after => post value (part.put after state))
        (fun reason => stop (why reason)) (part.get state) := by
  unfold wp
  have run : (zoom part why command).run state = match command.run (part.get state) with
    | .ok (value, after) => .ok (value, part.put after state)
    | .error reason => .error (why reason) := rfl
  rw [run]
  cases command.run (part.get state) <;> rfl

def Mirrors (part : Part σ τ) (why : ε → δ) (kind : σ → Prop) (command : Cmd σ δ α)
    (model : Cmd τ ε α) : Prop :=
  ∀ (post : α → σ → Prop) (stop : δ → Prop) (state : σ), kind state →
    wp model (fun value after => post value (part.put after state))
      (fun reason => stop (why reason)) (part.get state) →
    wp command post stop state

section Mirrors

variable {part : Part σ τ} {why : ε → δ} {kind : σ → Prop}

theorem Mirrors.zoom (command : Cmd τ ε α) : Mirrors part why kind (zoom part why command) command :=
  fun _ _ _ _ law => (wp_zoom ..).mpr law

theorem Mirrors.pure (value : α) :
    Mirrors part why kind (pure value : Cmd σ δ α) (pure value : Cmd τ ε α) := by
  intro post stop state _ law
  rw [wp_pure, part.put_get] at law
  rwa [wp_pure]

theorem Mirrors.throw (reason : ε) :
    Mirrors part why kind (throw (why reason) : Cmd σ δ α) (throw reason : Cmd τ ε α) := by
  intro post stop state _ law
  rw [wp_throw] at law ⊢
  exact law

theorem Mirrors.bind {first : Cmd σ δ α} {model : Cmd τ ε α} {next : α → Cmd σ δ β}
    {rest : α → Cmd τ ε β} (kept : ∀ after state, kind state → kind (part.put after state))
    (begins : Mirrors part why kind first model)
    (continues : ∀ value, Mirrors part why kind (next value) (rest value)) :
    Mirrors part why kind (first >>= next) (model >>= rest) := by
  intro post stop state here law
  rw [wp_bind] at law ⊢
  refine begins _ stop state here (wp_post law ?_)
  intro value after later
  refine continues value post stop _ (kept after state here) ?_
  simpa only [part.get_put, part.put_put] using later

theorem Mirrors.look {first : Cmd σ δ α} {value : α} {next : α → Cmd σ δ β} {model : Cmd τ ε β}
    (finds : ∀ (post : α → σ → Prop) stop state, kind state → post value state →
      wp first post stop state)
    (continues : Mirrors part why kind (next value) model) :
    Mirrors part why kind (first >>= next) model := by
  intro post stop state here law
  rw [wp_bind]
  exact finds _ stop state here (continues post stop state here law)

theorem Mirrors.ite {left right : Prop} [Decidable left] [Decidable right] {yes no : Cmd σ δ α}
    {yes' no' : Cmd τ ε α} (same : left ↔ right)
    (positive : right → Mirrors part why kind yes yes')
    (negative : ¬ right → Mirrors part why kind no no') :
    Mirrors part why kind (if left then yes else no) (if right then yes' else no') := by
  by_cases holds : right
  · rw [if_pos (same.mpr holds), if_pos holds]
    exact positive holds
  · rw [if_neg fun wrong => holds (same.mp wrong), if_neg holds]
    exact negative holds

theorem Mirrors.searchRange {body : Nat → Cmd σ δ (Option β)} {model : Nat → Cmd τ ε (Option β)}
    (kept : ∀ after state, kind state → kind (part.put after state)) (first count : Nat)
    (round : ∀ index, index < first + count → Mirrors part why kind (body index) (model index)) :
    Mirrors part why kind (searchRange first count body) (searchRange first count model) := by
  induction count generalizing first with
  | zero => exact Mirrors.pure none
  | succ count ih =>
    refine Mirrors.bind kept (round first (by omega)) fun outcome => ?_
    cases outcome with
    | some result => exact Mirrors.pure _
    | none => exact ih (first + 1) fun index below => round index (by omega)

end Mirrors

end Xv6.Command
