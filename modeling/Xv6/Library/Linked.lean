import Mathlib.Data.List.Nodup
import Mathlib.Logic.Function.Basic

/-!
# Linked lists

A link leads from each node to another.
-/

namespace Xv6.Linked

open Function

variable {N : Type} {link link' : N → N} {a b c x : N} {nodes rest : List N}

def Path (link : N → N) : N → List N → N → Prop
  | a, [], b => link a = b
  | a, x :: nodes, b => link a = x ∧ Path link x nodes b

@[simp] theorem path_nil : Path link a [] b ↔ link a = b := Iff.rfl

@[simp] theorem path_cons : Path link a (x :: nodes) b ↔ link a = x ∧ Path link x nodes b :=
  Iff.rfl

theorem path_append :
    Path link a (nodes ++ x :: rest) b ↔ Path link a nodes x ∧ Path link x rest b := by
  induction nodes generalizing a with
  | nil => rfl
  | cons y nodes ih => simp only [List.cons_append, path_cons, ih, and_assoc]

theorem Path.first (path : Path link a nodes b) : link a = nodes.headD b := by
  cases nodes with
  | nil => exact path
  | cons x nodes => exact path.1

theorem Path.congr (path : Path link a nodes b) (start : link' a = link a)
    (same : ∀ x ∈ nodes, link' x = link x) : Path link' a nodes b := by
  induction nodes generalizing a with
  | nil => exact start.trans path
  | cons x nodes ih =>
    exact ⟨start.trans path.1, ih path.2 (same x (by simp)) fun y member =>
      same y (List.mem_cons_of_mem x member)⟩

theorem Path.restart (path : Path link a nodes b) (start : link' c = link a)
    (same : ∀ x ∈ nodes, link' x = link x) : Path link' c nodes b := by
  cases nodes with
  | nil => exact start.trans path
  | cons x nodes =>
    exact ⟨start.trans path.1, path.2.congr (same x (by simp)) fun y member =>
      same y (List.mem_cons_of_mem x member)⟩

def scan (link : N → N) (test : N → Bool) : Nat → N → Option N
  | 0, _ => none
  | rounds + 1, a => if test a then some a else scan link test rounds (link a)

theorem Path.scan_eq (path : Path link a nodes b) (test : N → Bool) (rounds : Nat)
    (ends : test b = true) (enough : nodes.length < rounds) :
    scan link test rounds (link a) = some ((nodes.find? test).getD b) := by
  induction nodes generalizing a rounds with
  | nil =>
    cases rounds with
    | zero => simp at enough
    | succ rounds =>
      rw [show link a = b from path]
      simp [scan, ends]
  | cons x nodes ih =>
    cases rounds with
    | zero => simp at enough
    | succ rounds =>
      rw [path.1, scan]
      by_cases found : test x = true
      · simp [found]
      · rw [if_neg found, ih path.2 rounds (by simpa using enough), List.find?_cons_of_neg found]

variable [DecidableEq N]

theorem Path.retarget (path : Path link a nodes b) (distinct : (a :: nodes).Nodup) (c : N) :
    Path (update link (nodes.getLastD a) c) a nodes c := by
  induction nodes generalizing a with
  | nil => simp
  | cons x nodes ih =>
    obtain ⟨fresh, distinct⟩ := List.nodup_cons.mp distinct
    have apart : a ≠ nodes.getLastD x := by
      rintro rfl
      exact fresh List.getLastD_mem_cons
    rw [List.getLastD_cons]
    refine ⟨?_, ih path.2 distinct⟩
    rw [update_of_ne apart]
    exact path.1

theorem Path.bypass (before : Path link a nodes x) (after : Path link x rest b)
    (distinct : (a :: nodes ++ rest).Nodup) :
    Path (update link (nodes.getLastD a) (link x)) a (nodes ++ rest) b := by
  obtain ⟨front, -, apart⟩ := List.nodup_append.mp distinct
  have moved := before.retarget front (link x)
  cases rest with
  | nil => rwa [List.append_nil, ← show link x = b from after]
  | cons y rest =>
    obtain ⟨next, after⟩ := after
    have outside : ∀ z ∈ y :: rest, z ≠ nodes.getLastD a := by
      rintro z member rfl
      exact apart _ List.getLastD_mem_cons _ member rfl
    rw [next] at moved ⊢
    refine path_append.mpr ⟨moved, after.congr ?_ fun z member => ?_⟩
    · exact update_of_ne (outside y (by simp)) _ _
    · exact update_of_ne (outside z (List.mem_cons_of_mem y member)) _ _

/-- The two links of a doubly linked list. -/
structure Links (N : Type) where
  next : N → N
  prev : N → N

namespace Links

variable (k : Links N)

def pushFront (head b : N) : Links N :=
  let k : Links N := { k with next := update k.next b (k.next head) }
  let k : Links N := { k with prev := update k.prev b head }
  let k : Links N := { k with prev := update k.prev (k.next head) b }
  { k with next := update k.next head b }

def unlink (b : N) : Links N :=
  let k : Links N := { k with prev := update k.prev (k.next b) (k.prev b) }
  { k with next := update k.next (k.prev b) (k.next b) }

structure Circle (head : N) (nodes : List N) : Prop where
  forward : Path k.next head nodes head
  backward : Path k.prev head nodes.reverse head
  distinct : (head :: nodes).Nodup

variable {k} {head : N}

omit [DecidableEq N] in
theorem headD_reverse (nodes : List N) (a : N) : nodes.reverse.headD a = nodes.getLastD a := by
  rw [List.headD_eq_head?_getD, List.head?_reverse, List.getLastD_eq_getLast?]

/-- A new node becomes the first of the list. -/
theorem Circle.pushFront (circle : k.Circle head nodes) (fresh : b ∉ head :: nodes) :
    (k.pushFront head b).Circle head (b :: nodes) := by
  obtain ⟨forward, backward, distinct⟩ := circle
  obtain ⟨notHead, notNode⟩ : b ≠ head ∧ b ∉ nodes := by simpa using fresh
  have headOut := (List.nodup_cons.mp distinct).1
  have first : k.next head = nodes.reverse.getLastD head := by
    rw [forward.first, ← headD_reverse, List.reverse_reverse]
  refine ⟨?_, ?_, ?_⟩
  · refine ⟨by simp [Links.pushFront], forward.restart ?_ fun x member => ?_⟩
    · simp [Links.pushFront, notHead]
    · have notHead' : x ≠ head := by
        rintro rfl
        exact headOut member
      have notNew : x ≠ b := by
        rintro rfl
        exact notNode member
      simp [Links.pushFront, notHead', notNew]
  · have prev : (k.pushFront head b).prev =
        update (update k.prev b head) (nodes.reverse.getLastD head) b := by
      simp [Links.pushFront, update_of_ne notHead.symm, first]
    have last : b ≠ nodes.reverse.getLastD head := by
      intro same
      have : nodes.reverse.getLastD head ∈ head :: nodes.reverse := List.getLastD_mem_cons
      rw [← same] at this
      simp [notHead, notNode] at this
    rw [prev, List.reverse_cons]
    refine path_append.mpr ⟨?_, ?_⟩
    · refine Path.retarget (b := head) (backward.congr ?_ fun x member => ?_) ?_ b
      · exact update_of_ne notHead.symm _ _
      · refine update_of_ne ?_ _ _
        rintro rfl
        exact notNode (List.mem_reverse.mp member)
      · simpa [List.nodup_reverse] using distinct
    · rw [path_nil, update_of_ne last, update_self]
  · simp only [List.nodup_cons, List.mem_cons, not_or] at distinct ⊢
    exact ⟨⟨notHead.symm, distinct.1⟩, notNode, distinct.2⟩

/-- The other nodes stay in the list. -/
theorem Circle.unlink (circle : k.Circle head nodes) (member : b ∈ nodes) :
    (k.unlink b).Circle head (nodes.erase b) := by
  obtain ⟨forward, backward, distinct⟩ := circle
  obtain ⟨before, after, rfl⟩ := List.append_of_mem member
  rw [← List.cons_append, List.nodup_middle, List.nodup_cons, List.cons_append] at distinct
  obtain ⟨fresh, distinct⟩ := distinct
  obtain ⟨notHead, notBefore, notAfter⟩ : b ≠ head ∧ b ∉ before ∧ b ∉ after := by
    simpa using fresh
  rw [List.reverse_append, List.reverse_cons, List.append_assoc, List.singleton_append] at backward
  obtain ⟨toNode, fromNode⟩ := path_append.mp forward
  obtain ⟨back, further⟩ := path_append.mp backward
  have previous : k.prev b = before.getLastD head := by
    rw [further.first, headD_reverse]
  have following : k.next b = after.reverse.getLastD head := by
    rw [fromNode.first, ← headD_reverse, List.reverse_reverse]
  have apart : b ≠ k.next b := by
    intro same
    have : after.reverse.getLastD head ∈ head :: after.reverse := List.getLastD_mem_cons
    rw [← following, ← same] at this
    simp [notHead, notAfter] at this
  rw [List.erase_append_right _ notBefore, List.erase_cons_head]
  refine ⟨?_, ?_, distinct⟩
  · have next : (k.unlink b).next = update k.next (before.getLastD head) (k.next b) := by
      simp [Links.unlink, update_of_ne apart, previous]
    rw [next]
    exact toNode.bypass fromNode distinct
  · have prev : (k.unlink b).prev =
        update k.prev (after.reverse.getLastD head) (k.prev b) := by
      simp [Links.unlink, following]
    rw [prev, List.reverse_append]
    refine back.bypass further ?_
    rw [List.cons_append, ← List.reverse_append, List.nodup_cons, List.mem_reverse,
      List.nodup_reverse]
    exact List.nodup_cons.mp distinct

theorem Circle.moveFront (circle : k.Circle head nodes) (member : b ∈ nodes) :
    ((k.unlink b).pushFront head b).Circle head (b :: nodes.erase b) := by
  have distinct := List.nodup_cons.mp circle.distinct
  refine (circle.unlink member).pushFront ?_
  rw [List.mem_cons, not_or]
  refine ⟨?_, distinct.2.not_mem_erase⟩
  rintro rfl
  exact distinct.1 member

end Links

end Xv6.Linked
