import Mathlib.Control.Monad.Basic
import Mathlib.Tactic.Common

/-!
# Commands that change a state or stop

Kernel code is read as a command: it inspects and replaces a state and either returns a value or
stops for a reason, such as a panic or a power failure.
-/

namespace Xv6.Command

variable {σ ε α β : Type}

abbrev Cmd (σ ε : Type) := StateT σ (Except ε)

def wp (command : Cmd σ ε α) (post : α → σ → Prop) (stop : ε → Prop) (state : σ) : Prop :=
  match command.run state with
  | .ok (value, after) => post value after
  | .error reason => stop reason

@[simp] theorem wp_pure (value : α) (post : α → σ → Prop) (stop : ε → Prop) (state : σ) :
    wp (pure value : Cmd σ ε α) post stop state ↔ post value state := by
  exact ⟨id, id⟩

@[simp] theorem wp_bind (first : Cmd σ ε α) (next : α → Cmd σ ε β)
    (post : β → σ → Prop) (stop : ε → Prop) (state : σ) :
    wp (first >>= next) post stop state ↔
      wp first (fun value after => wp (next value) post stop after) stop state := by
  unfold wp
  rw [StateT.run_bind]
  cases first.run state <;> rfl

/-- Reading the state. -/
@[simp] theorem wp_get (post : σ → σ → Prop) (stop : ε → Prop) (state : σ) :
    wp (get : Cmd σ ε σ) post stop state ↔ post state state := by
  exact ⟨id, id⟩

/-- Replacing the state. -/
@[simp] theorem wp_set (replacement : σ) (post : PUnit → σ → Prop) (stop : ε → Prop) (state : σ) :
    wp (set replacement : Cmd σ ε PUnit) post stop state ↔ post ⟨⟩ replacement := by
  exact ⟨id, id⟩

/-- Changing the state. -/
@[simp] theorem wp_modify (change : σ → σ) (post : PUnit → σ → Prop) (stop : ε → Prop)
    (state : σ) :
    wp (modify change : Cmd σ ε PUnit) post stop state ↔ post ⟨⟩ (change state) := by
  exact ⟨id, id⟩

/-- A command that stops. -/
@[simp] theorem wp_throw (reason : ε) (post : α → σ → Prop) (stop : ε → Prop) (state : σ) :
    wp (throw reason : Cmd σ ε α) post stop state ↔ stop reason := by
  exact ⟨id, id⟩

variable {command : Cmd σ ε α} {stop : ε → Prop} {state : σ} {post : α → σ → Prop}

theorem wp_and {post also : α → σ → Prop} (left : wp command post stop state)
    (right : wp command also stop state) :
    wp command (fun value after => post value after ∧ also value after) stop state := by
  unfold wp at left right ⊢
  cases ran : command.run state with
  | ok result =>
    rw [ran] at left right
    exact ⟨left, right⟩
  | error reason =>
    rw [ran] at left
    exact left

theorem wp_mono {post weaker : α → σ → Prop} {stop lenient : ε → Prop}
    (holds : wp command post stop state)
    (returned : ∀ value after, post value after → weaker value after)
    (stopped : ∀ reason, stop reason → lenient reason) : wp command weaker lenient state := by
  unfold wp at holds ⊢
  cases ran : command.run state with
  | ok result =>
    rw [ran] at holds
    exact returned _ _ holds
  | error reason =>
    rw [ran] at holds
    exact stopped _ holds

theorem wp_post {post weaker : α → σ → Prop} (holds : wp command post stop state)
    (returned : ∀ value after, post value after → weaker value after) :
    wp command weaker stop state :=
  wp_mono holds returned fun _ reason => reason

theorem wp_any :
    wp command (fun _ _ => True) (fun _ => True) state := by
  unfold wp
  cases command.run state <;> trivial

instance {command : Cmd σ ε α} {post : α → σ → Prop} {stop : ε → Prop} {state : σ}
    [∀ value after, Decidable (post value after)] [∀ reason, Decidable (stop reason)] :
    Decidable (wp command post stop state) :=
  match ran : command.run state with
  | .ok result => decidable_of_iff (post result.1 result.2) (by rw [wp, ran])
  | .error reason => decidable_of_iff (stop reason) (by rw [wp, ran])

theorem wp_returned {state after : σ} {value : α} (holds : wp command post stop state)
    (ran : command.run state = .ok (value, after)) : post value after := by
  unfold wp at holds
  rwa [ran] at holds

theorem wp_of_run {state after : σ} {value : α} (ran : command.run state = .ok (value, after))
    (holds : post value after) : wp command post stop state := by
  unfold wp
  rwa [ran]

theorem wp_stopped {reason : ε} (holds : wp command post stop state)
    (ran : command.run state = .error reason) : stop reason := by
  unfold wp at holds
  rwa [ran] at holds

theorem wp_total (holds : wp command post (fun _ => False) state) :
    ∃ value after, command.run state = .ok (value, after) ∧ post value after := by
  unfold wp at holds
  cases ran : command.run state with
  | ok result =>
    rw [ran] at holds
    exact ⟨result.1, result.2, rfl, holds⟩
  | error reason =>
    rw [ran] at holds
    exact holds.elim

theorem wp_result {result : α} {post : σ → Prop}
    (holds : wp command (fun value after => value = result ∧ post after) (fun _ => False) state) :
    ∃ after, command.run state = .ok (result, after) ∧ post after := by
  obtain ⟨value, after, ran, rfl, reached⟩ := wp_total holds
  exact ⟨after, ran, reached⟩

theorem wp_stops (holds : wp command (fun _ _ => False) stop state) :
    ∃ reason, command.run state = .error reason ∧ stop reason := by
  unfold wp at holds
  cases ran : command.run state with
  | ok result =>
    rw [ran] at holds
    exact holds.elim
  | error reason =>
    rw [ran] at holds
    exact ⟨reason, rfl, holds⟩

def forRange (first : Nat) : Nat → (Nat → Cmd σ ε PUnit) → Cmd σ ε PUnit
  | 0, _ => pure ⟨⟩
  | count + 1, body => do
    body first
    forRange (first + 1) count body

theorem wp_forRange (invariant : Nat → σ → Prop) (stop : ε → Prop)
    (body : Nat → Cmd σ ε PUnit) (first count : Nat) (state : σ)
    (round : ∀ index current, first ≤ index → index < first + count → invariant index current →
      wp (body index) (fun _ after => invariant (index + 1) after) stop current)
    (initially : invariant first state) :
    wp (forRange first count body) (fun _ after => invariant (first + count) after) stop state := by
  induction count generalizing first state with
  | zero => simpa [forRange] using initially
  | succ count ih =>
    simp only [forRange, wp_bind]
    refine wp_post (round first state (Nat.le_refl _) (by omega) initially) ?_
    intro _ after advanced
    have rest := ih (first + 1) after
      (fun index current lower upper => round index current (by omega) (by omega)) advanced
    simpa only [Nat.add_assoc, Nat.add_comm 1 count] using rest

def searchRange (first : Nat) : Nat → (Nat → Cmd σ ε (Option β)) → Cmd σ ε (Option β)
  | 0, _ => pure none
  | count + 1, body => do
    match ← body first with
    | some result => pure (some result)
    | none => searchRange (first + 1) count body

theorem wp_searchRange (invariant : Nat → σ → Prop) (found : β → σ → Prop) (stop : ε → Prop)
    (body : Nat → Cmd σ ε (Option β)) (first count : Nat) (state : σ)
    (round : ∀ index current, first ≤ index → index < first + count → invariant index current →
      wp (body index) (fun outcome after =>
        (∀ result, outcome = some result → found result after) ∧
        (outcome = none → invariant (index + 1) after)) stop current)
    (initially : invariant first state) :
    wp (searchRange first count body) (fun outcome after =>
      (∀ result, outcome = some result → found result after) ∧
      (outcome = none → invariant (first + count) after)) stop state := by
  induction count generalizing first state with
  | zero => simpa [searchRange] using initially
  | succ count ih =>
    simp only [searchRange, wp_bind]
    refine wp_post (round first state (Nat.le_refl _) (by omega) initially) ?_
    intro outcome after advanced
    cases outcome with
    | some result => simpa using advanced.1 result rfl
    | none =>
      have rest := ih (first + 1) after
        (fun index current lower upper => round index current (by omega) (by omega))
        (advanced.2 rfl)
      simpa only [Nat.add_assoc, Nat.add_comm 1 count] using rest

end Xv6.Command
