import Mathlib.Data.List.Infix
import Mathlib.Tactic.Common

/-!
# Trees of linked nodes

Nodes are named by addresses, and each has numbered links to children.
-/

namespace Xv6.Tree

variable {ν ι : Type*}

def follow (child : ν → ι → Option ν) (root : ν) : List ι → Option ν
  | [] => some root
  | index :: rest => (child root index).bind fun next => follow child next rest

variable {child child' : ν → ι → Option ν} {root : ν}

@[simp] theorem follow_nil : follow child root [] = some root := rfl

theorem follow_cons (index : ι) (rest : List ι) :
    follow child root (index :: rest) = (child root index).bind fun next => follow child next rest :=
  rfl

theorem follow_append (front back : List ι) :
    follow child root (front ++ back) =
      (follow child root front).bind fun node => follow child node back := by
  induction front generalizing root with
  | nil => rfl
  | cons index rest ih =>
    rw [List.cons_append, follow_cons, follow_cons, Option.bind_assoc]
    congr 1
    funext next
    exact ih

theorem follow_snoc (front : List ι) (index : ι) :
    follow child root (front ++ [index]) =
      (follow child root front).bind fun node => child node index := by
  rw [follow_append]
  congr 1
  funext node
  simp [follow_cons]

/-- A path depends only on the links along it. -/
theorem follow_congr {path : List ι}
    (same : ∀ front index node, front ++ [index] <+: path → follow child root front = some node →
      child' node index = child node index) :
    follow child' root path = follow child root path := by
  induction path generalizing root with
  | nil => rfl
  | cons index rest ih =>
    have first : child' root index = child root index :=
      same [] index root (by simp) rfl
    rw [follow_cons, follow_cons, first]
    cases link : child root index with
    | none => rfl
    | some next =>
      rw [Option.bind_some, Option.bind_some]
      apply ih
      intro front later node before reached
      refine same (index :: front) later node ?_ ?_
      · rw [List.cons_append]
        exact (List.cons_prefix_cons).mpr ⟨rfl, before⟩
      · rw [follow_cons, link, Option.bind_some]
        exact reached

theorem follow_redirect {path path' : List ι} {node : ν} {index : ι}
    (unique : ∀ front, front.length < path'.length → follow child root front = some node →
      front = path)
    (same : ∀ front node' other, front.length < path'.length →
      follow child root front = some node' → node' ≠ node ∨ other ≠ index →
      child' node' other = child node' other)
    (elsewhere : ¬ path ++ [index] <+: path') :
    follow child' root path' = follow child root path' := by
  apply follow_congr
  intro front other node' before reached
  have shorter : front.length < path'.length := by
    have := before.length_le
    simp only [List.length_append, List.length_cons, List.length_nil] at this
    omega
  refine same front node' other shorter reached ?_
  by_contra here
  simp only [ne_eq, not_or, not_not] at here
  obtain ⟨rfl, rfl⟩ := here
  rw [unique front shorter reached] at before
  exact elsewhere before

theorem follow_front (front : List ι) {back : List ι} {node : ν}
    (reached : follow child root (front ++ back) = some node) :
    ∃ middle, follow child root front = some middle ∧ follow child middle back = some node := by
  rw [follow_append] at reached
  exact Option.bind_eq_some_iff.mp reached

theorem follow_leaf (bare : ∀ index, child root index = none) {path : List ι} {node : ν}
    (reached : follow child root path = some node) : path = [] ∧ node = root := by
  cases path with
  | nil => exact ⟨rfl, (Option.some.inj reached).symm⟩
  | cons index rest => simp [follow_cons, bare] at reached

end Xv6.Tree
