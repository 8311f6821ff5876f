import Mathlib.Data.Fintype.Card
import Mathlib.Order.WithBot
import Xv6.Library.Linked
import Xv6.Library.Tally
import Xv6.Library.Transition
import Xv6.Param

/-!
# The list of buffers

The buffer cache of `bio.c` as it is in memory: an array of buffers, each with the device and
block it stands for, a reference count and a sleep-lock, on a circular list through two links
whose head is the most recently used end.
-/

namespace Xv6.BufferList

open Linked Transition Function

abbrev Buffer := Fin NBUF

structure Buf (P : Type) where
  dev : Nat
  blockno : Nat
  valid : Bool
  refcnt : Nat
  lock : Option P

/-- `bcache`; the pointer `none` is that to its head. -/
structure Bcache (P : Type) where
  buf : Buffer → Buf P
  links : Links (Option Buffer)

inductive Stop where
  | noBuffers
  | endless
  deriving DecidableEq, Repr

namespace Bcache

variable {P : Type} (c : Bcache P)

def zeroed (links : Links (Option Buffer)) : Bcache P := ⟨fun _ => ⟨0, 0, false, 0, none⟩, links⟩

/-- Change one buffer. -/
def set (b : Buffer) (buf : Buf P) : Bcache P := { c with buf := update c.buf b buf }

/-- One round of `binit`. -/
def initBuffer (b : Buffer) : Bcache P :=
  { c.set b { c.buf b with lock := none } with links := c.links.pushFront none (some b) }

def binit : Bcache P :=
  let c : Bcache P := { c with links.prev := update c.links.prev none none }
  let c : Bcache P := { c with links.next := update c.links.next none none }
  (List.finRange NBUF).foldl initBuffer c

def search (link : Option Buffer → Option Buffer) (test : Buf P → Bool) : Option (Option Buffer) :=
  scan link (fun x => x.elim true fun b => test (c.buf b)) (NBUF + 1) (link none)

def bget (dev blockno : Nat) : Except Stop (Buffer × Bcache P) :=
  match c.search c.links.next fun buf => buf.dev = dev ∧ buf.blockno = blockno with
  | none => .error .endless
  | some (some b) => .ok (b, c.set b { c.buf b with refcnt := (c.buf b).refcnt + 1 })
  | some none =>
    match c.search c.links.prev fun buf => buf.refcnt = 0 with
    | none => .error .endless
    | some (some b) => .ok (b, c.set b
        { c.buf b with dev := dev, blockno := blockno, valid := false, refcnt := 1 })
    | some none => .error .noBuffers

def unref (b : Buffer) : Bcache P :=
  let c := c.set b { c.buf b with refcnt := (c.buf b).refcnt - 1 }
  if (c.buf b).refcnt = 0 then
    { c with links := (c.links.unlink (some b)).pushFront none (some b) }
  else c

def bpin (b : Buffer) : Bcache P := c.set b { c.buf b with refcnt := (c.buf b).refcnt + 1 }

def bunpin (b : Buffer) : Bcache P := c.set b { c.buf b with refcnt := (c.buf b).refcnt - 1 }

def setLock (b : Buffer) (lock : Option P) : Bcache P := c.set b { c.buf b with lock := lock }

end Bcache

inductive Place where
  | idle
  | locking (b : Buffer)
  | releasing (b : Buffer)
  deriving DecidableEq, Repr

/-- The cache and the processes that use it. -/
structure System (P : Type) where
  cache : Bcache P
  place : P → Place
  pins : Buffer → Nat
  used : Buffer → Bool
  released : Buffer → WithBot Nat
  clock : Nat

variable {P : Type} [DecidableEq P]

namespace System

variable (s : System P)

def move (p : P) (place : Place) : System P :=
  { s with place := update s.place p place }

/-- The system after `binit`. -/
def boot (links : Links (Option Buffer)) : System P :=
  ⟨(Bcache.zeroed links).binit, fun _ => .idle, fun _ => 0, fun _ => false, fun _ => ⊥, 0⟩

end System

/-- One step of one process. -/
inductive Step : System P → System P → Prop
  | bget {s} (p : P) (dev blockno : Nat) (b : Buffer) (c : Bcache P) (here : s.place p = .idle)
      (found : s.cache.bget dev blockno = .ok (b, c)) :
      Step s ({ s with cache := c, used := update s.used b true }.move p (.locking b))
  | lock {s} (p : P) (b : Buffer) (here : s.place p = .locking b)
      (free : (s.cache.buf b).lock = none) :
      Step s ({ s with cache := s.cache.setLock b (some p) }.move p .idle)
  | brelse {s} (p : P) (b : Buffer) (here : s.place p = .idle)
      (holds : (s.cache.buf b).lock = some p) :
      Step s ({ s with cache := s.cache.setLock b none }.move p (.releasing b))
  | unref {s} (p : P) (b : Buffer) (here : s.place p = .releasing b) :
      Step s ({ s with
        cache := s.cache.unref b
        released := update s.released b (WithBot.some s.clock)
        clock := s.clock + 1 }.move p .idle)
  | bpin {s} (p : P) (b : Buffer) (here : s.place p = .idle)
      (holds : (s.cache.buf b).lock = some p) :
      Step s { s with
        cache := s.cache.bpin b, pins := update s.pins b (s.pins b + 1) }
  | bunpin {s} (p : P) (b : Buffer) (here : s.place p = .idle)
      (holds : (s.cache.buf b).lock = some p) (pinned : 0 < s.pins b) :
      Step s { s with
        cache := s.cache.bunpin b, pins := update s.pins b (s.pins b - 1) }

section List

omit [DecidableEq P]

variable {c : Bcache P} {order : List Buffer} {b : Buffer} {dev blockno : Nat}

structure Listed (c : Bcache P) (order : List Buffer) : Prop where
  circle : c.links.Circle none (order.map some)
  all : ∀ b, b ∈ order

/-- The list has no buffer twice. -/
theorem Listed.nodup (listed : Listed c order) : order.Nodup :=
  (List.nodup_map_iff (Option.some_injective Buffer)).mp
    (List.nodup_cons.mp listed.circle.distinct).2

theorem Listed.length (listed : Listed c order) : order.length = NBUF := by
  have all : order.toFinset = Finset.univ := by
    ext b
    simp [listed.all b]
  rw [← List.toFinset_card_of_nodup listed.nodup, all, Finset.card_univ, Fintype.card_fin]

theorem circle_binit (bufs order : List Buffer) (c : Bcache P)
    (circle : c.links.Circle none (order.map some)) (fresh : (bufs ++ order).Nodup) :
    (bufs.foldl Bcache.initBuffer c).links.Circle none ((bufs.reverse ++ order).map some) := by
  induction bufs generalizing c order with
  | nil => exact circle
  | cons b bufs ih =>
    obtain ⟨new, rest⟩ := List.nodup_cons.mp fresh
    have notListed : some b ∉ none :: order.map some := by
      simp only [List.mem_cons, reduceCtorEq, List.mem_map, Option.some.injEq, exists_eq_right,
        false_or]
      exact fun member => new (List.mem_append_right bufs member)
    rw [List.foldl_cons, List.reverse_cons, List.append_assoc, List.singleton_append]
    refine ih (b :: order) (c.initBuffer b) ?_ ?_
    · rw [List.map_cons]
      exact circle.pushFront notListed
    · exact List.nodup_middle.mpr fresh

theorem buf_binit (bufs : List Buffer) (c : Bcache P) (unlocked : ∀ b, (c.buf b).lock = none) :
    (bufs.foldl Bcache.initBuffer c).buf = c.buf := by
  induction bufs generalizing c with
  | nil => rfl
  | cons b bufs ih =>
    have same : (c.initBuffer b).buf = c.buf := by
      rw [Bcache.initBuffer, Bcache.set, ← unlocked b]
      exact update_eq_self b c.buf
    rw [List.foldl_cons, ih _ (by rw [same]; exact unlocked), same]

theorem listed_binit (links : Links (Option Buffer)) :
    Listed (Bcache.zeroed links : Bcache P).binit (List.finRange NBUF).reverse := by
  have empty : Links.Circle ⟨update links.next none none,
      update links.prev none none⟩ none (List.map some ([] : List Buffer)) :=
    ⟨by simp, by simp, by simp⟩
  have circle := circle_binit (List.finRange NBUF) []
    (⟨(Bcache.zeroed links : Bcache P).buf, ⟨update links.next none none,
      update links.prev none none⟩⟩ : Bcache P) empty
    (by rw [List.append_nil]; exact List.nodup_finRange NBUF)
  rw [List.append_nil] at circle
  exact ⟨circle, fun b => List.mem_reverse.mpr (List.mem_finRange b)⟩

theorem search_eq {link : Option Buffer → Option Buffer} {nodes : List Buffer}
    (path : Path link none (nodes.map some) none) (length : nodes.length = NBUF)
    (test : Buf P → Bool) : c.search link test = some (nodes.find? fun b => test (c.buf b)) := by
  have found := path.scan_eq (fun x => x.elim true fun b => test (c.buf b)) (NBUF + 1) rfl
    (by rw [List.length_map, length]; exact Nat.lt_succ_self _)
  have same : ∀ x : Option Buffer, (x.map some).getD none = x := by
    intro x
    cases x <;> rfl
  rw [Bcache.search, found, List.find?_map, same]
  rfl

theorem Listed.bget_cases (listed : Listed c order) (dev blockno : Nat) :
    (∃ b, (c.buf b).dev = dev ∧ (c.buf b).blockno = blockno ∧ c.bget dev blockno =
      .ok (b, c.set b { c.buf b with refcnt := (c.buf b).refcnt + 1 })) ∨
    (∀ b, ¬ ((c.buf b).dev = dev ∧ (c.buf b).blockno = blockno)) ∧
      ((∃ b newer older, order = newer ++ b :: older ∧ (c.buf b).refcnt = 0 ∧
          (∀ x ∈ older, (c.buf x).refcnt ≠ 0) ∧ c.bget dev blockno = .ok (b, c.set b
            { c.buf b with dev := dev, blockno := blockno, valid := false, refcnt := 1 })) ∨
        (∀ b, (c.buf b).refcnt ≠ 0) ∧ c.bget dev blockno = .error .noBuffers) := by
  have forward := search_eq (c := c) listed.circle.forward listed.length
    fun buf => buf.dev = dev ∧ buf.blockno = blockno
  have reversed : Path c.links.prev none (order.reverse.map some) none := by
    rw [List.map_reverse]
    exact listed.circle.backward
  have backward := search_eq (c := c) reversed (by rw [List.length_reverse]; exact listed.length)
    fun buf => buf.refcnt = 0
  cases hit : order.find? fun b => (decide ((c.buf b).dev = dev ∧ (c.buf b).blockno = blockno)) with
  | some b =>
    have carries := List.find?_some hit
    refine .inl ⟨b, ?_, ?_, ?_⟩
    · simpa using (of_decide_eq_true carries).1
    · simpa using (of_decide_eq_true carries).2
    · rw [Bcache.bget, forward, hit]
  | none =>
    refine .inr ⟨fun b carries => ?_, ?_⟩
    · exact List.find?_eq_none.mp hit b (listed.all b) (decide_eq_true carries)
    · cases unused : order.reverse.find? fun b => decide ((c.buf b).refcnt = 0) with
      | some b =>
        obtain ⟨zero, older, newer, split, busy⟩ := List.find?_eq_some_iff_append.mp unused
        refine .inl ⟨b, newer.reverse, older.reverse, ?_, of_decide_eq_true zero, ?_, ?_⟩
        · rw [← List.reverse_reverse order, split]
          simp
        · intro x member
          simpa using busy x (List.mem_reverse.mp member)
        · rw [Bcache.bget, forward, hit, backward, unused]
      | none =>
        refine .inr ⟨fun b zero => ?_, ?_⟩
        · exact List.find?_eq_none.mp unused b (List.mem_reverse.mpr (listed.all b))
            (decide_eq_true zero)
        · rw [Bcache.bget, forward, hit, backward, unused]

end List

end Xv6.BufferList
