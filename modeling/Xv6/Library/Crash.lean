import Xv6.Library.Command

/-!
# Power failures between durable writes

A machine has a durable part, a memory that a power failure loses, and a supply of power given
as the number of durable writes that still take effect; no number means that power does not
fail.
-/

namespace Xv6.Crash

open Command

variable {δ μ α : Type}

structure Machine (δ μ : Type) where
  durable : δ
  memory : μ
  power : Option Nat

abbrev Job (δ μ : Type) := Cmd (Machine δ μ) δ

def write (change : δ → δ) : Job δ μ PUnit := do
  let machine ← get
  match machine.power with
  | some 0 => throw machine.durable
  | some (left + 1) =>
    set { machine with durable := change machine.durable, power := some left }
  | none => set { machine with durable := change machine.durable }

def remember (change : μ → μ) : Job δ μ PUnit :=
  modify fun machine => { machine with memory := change machine.memory }

theorem wp_write (change : δ → δ) (post : PUnit → Machine δ μ → Prop) (stop : δ → Prop)
    (machine : Machine δ μ)
    (failed : machine.power ≠ none → stop machine.durable)
    (wrote : ∀ power, (machine.power = none → power = none) →
      post ⟨⟩ { machine with durable := change machine.durable, power := power }) :
    wp (write change) post stop machine := by
  unfold write
  rw [wp_bind, wp_get]
  cases supply : machine.power with
  | none =>
    rw [wp_set]
    have after := wrote none fun _ => rfl
    simpa only [supply] using after
  | some left =>
    cases left with
    | zero =>
      rw [wp_throw]
      exact failed (by simp [supply])
    | succ left =>
      rw [wp_set]
      exact wrote (some left) (by simp [supply])

def survivor (job : Job δ μ α) (machine : Machine δ μ) : δ :=
  match job.run machine with
  | .ok (_, after) => after.durable
  | .error durable => durable

theorem survivor_of_wp {job : Job δ μ α} {machine : Machine δ μ} {kept : δ → Prop}
    (holds : wp job (fun _ after => kept after.durable) kept machine) :
    kept (survivor job machine) := by
  unfold wp at holds
  unfold survivor
  cases ran : job.run machine with
  | ok result | error durable =>
    rw [ran] at holds
    exact holds

def restarts (job : Job δ μ α) (fresh : μ) (supplies : List Nat) (durable : δ) : δ :=
  supplies.foldl (fun current supply => survivor job ⟨current, fresh, some supply⟩) durable

theorem restarts_keep (job : Job δ μ α) (fresh : μ) {kept : δ → Prop}
    (once : ∀ durable supply, kept durable → kept (survivor job ⟨durable, fresh, some supply⟩))
    (supplies : List Nat) (durable : δ) (initially : kept durable) :
    kept (restarts job fresh supplies durable) := by
  induction supplies generalizing durable with
  | nil => exact initially
  | cons supply rest ih =>
    exact ih _ (once durable supply initially)

end Xv6.Crash
