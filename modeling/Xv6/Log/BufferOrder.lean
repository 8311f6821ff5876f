import Mathlib.Logic.Relation
import Xv6.Log.BufferList

/-!
# The buffer cache in order

However processes interleave their calls, the list holds every buffer once, no two buffers have
one block of a device, a buffer keeps its block while it has references, and the reference count
is the number of its uses.
-/

namespace Xv6.BufferList

open Linked Transition Function

variable {P : Type} {s t : System P} {order : List Buffer} {p : P} {b c : Buffer} {v : Place}

def Counted (s : System P) (b : Buffer) : Prop :=
  ∃ waiting leaving, Tally.Counts (fun p => s.place p = .locking b) waiting ∧
    Tally.Counts (fun p => s.place p = .releasing b) leaving ∧
    (s.cache.buf b).refcnt =
      waiting + leaving + (if (s.cache.buf b).lock.isSome then 1 else 0) + s.pins b

def Apart (buf : Buffer → Buf P) : Prop :=
  ∀ b c, (buf b).dev ≠ 0 → (buf c).dev = (buf b).dev → (buf c).blockno = (buf b).blockno → c = b

structure Invariant (s : System P) (order : List Buffer) : Prop where
  listed : Listed s.cache order
  recent : order.Pairwise fun c b => (s.cache.buf c).refcnt = 0 → (s.cache.buf b).refcnt = 0 →
    s.released b ≤ s.released c
  past : ∀ b, s.released b < WithBot.some s.clock
  apart : Apart s.cache.buf
  counted : ∀ b, Counted s b
  taken : ∀ b, 0 < (s.cache.buf b).refcnt → s.used b = true
  dropped : ∀ b, s.used b = true → (s.cache.buf b).refcnt = 0 → s.released b ≠ ⊥
  unused : ∀ b, s.released b ≠ ⊥ → s.used b = true

theorem Counted.pos_of_lock (counted : Counted s b) (holds : (s.cache.buf b).lock = some p) :
    s.pins b < (s.cache.buf b).refcnt := by
  obtain ⟨waiting, leaving, -, -, total⟩ := counted
  simp only [holds, Option.isSome_some, if_true] at total
  omega

theorem Counted.pos_of_releasing (counted : Counted s b) (here : s.place p = .releasing b) :
    0 < (s.cache.buf b).refcnt := by
  obtain ⟨waiting, leaving, -, counts, total⟩ := counted
  have := counts.pos here
  omega

theorem invariant_boot (links : Links (Option Buffer)) :
    Invariant (System.boot links : System P) (List.finRange NBUF).reverse := by
  have blank : (System.boot links : System P).cache.buf = fun _ => ⟨0, 0, false, 0, none⟩ :=
    buf_binit _ _ fun _ => rfl
  refine ⟨listed_binit links, ?_, ?_, ?_, ?_, ?_, ?_, ?_⟩
  · exact List.pairwise_of_forall fun _ _ _ _ => le_rfl
  · exact fun b => WithBot.bot_lt_coe 0
  · intro b c device
    rw [blank] at device
    exact absurd rfl device
  · intro b
    refine ⟨0, 0, Tally.counts_none fun p => ?_, Tally.counts_none fun p => ?_, ?_⟩
    · simp [System.boot]
    · simp [System.boot]
    · rw [blank]
      rfl
  · intro b positive
    rw [blank] at positive
    exact absurd positive (Nat.lt_irrefl 0)
  · simp [System.boot]
  · simp [System.boot]

theorem Invariant.frame (inv : Invariant s order) (links : t.cache.links = s.cache.links)
    (released : t.released = s.released) (clock : t.clock = s.clock)
    (zero : ∀ b, (t.cache.buf b).refcnt = 0 → (s.cache.buf b).refcnt = 0 ∧ t.used b = s.used b)
    (taken : ∀ b, 0 < (t.cache.buf b).refcnt → t.used b = true)
    (kept : ∀ b, s.used b = true → t.used b = true)
    (apart : Apart t.cache.buf)
    (counted : ∀ b, Counted t b) : Invariant t order := by
  refine ⟨⟨?_, inv.listed.all⟩, ?_, ?_, apart, counted, taken, ?_, ?_⟩
  · rw [links]
    exact inv.listed.circle
  · rw [released]
    exact inv.recent.imp fun older first second => older (zero _ first).1 (zero _ second).1
  · rw [released, clock]
    exact inv.past
  · intro b used none
    rw [released]
    rw [(zero b none).2] at used
    exact inv.dropped b used (zero b none).1
  · intro b some
    rw [released] at some
    exact kept b (inv.unused b some)

variable {cache : Bcache P} {buf : Buf P}

theorem set_other (other : c ≠ b) :
    (cache.set b buf).buf c = cache.buf c :=
  update_of_ne other _ _

@[simp] theorem set_self : (cache.set b buf).buf b = buf :=
  update_self _ _ _

theorem set_block (device : buf.dev = (cache.buf b).dev)
    (block : buf.blockno = (cache.buf b).blockno) (c : Buffer) :
    ((cache.set b buf).buf c).dev = (cache.buf c).dev ∧
      ((cache.set b buf).buf c).blockno = (cache.buf c).blockno := by
  by_cases this : c = b
  · subst this
    rw [set_self]
    exact ⟨device, block⟩
  · rw [set_other this]
    exact ⟨rfl, rfl⟩

theorem Apart.set (apart : Apart cache.buf) (device : buf.dev = (cache.buf b).dev)
    (block : buf.blockno = (cache.buf b).blockno) :
    Apart (cache.set b buf).buf := by
  have same := set_block device block
  intro b₁ b₂
  rw [(same b₁).1, (same b₂).1, (same b₁).2, (same b₂).2]
  exact apart b₁ b₂

theorem Invariant.repinned (inv : Invariant s order) (holds : (s.cache.buf b).lock = some p)
    {refcnt pins : Nat} (total : refcnt + s.pins b = (s.cache.buf b).refcnt + pins)
    (positive : 0 < refcnt) :
    Invariant { s with
      cache := s.cache.set b { s.cache.buf b with refcnt := refcnt }
      pins := update s.pins b pins } order := by
  refine inv.frame rfl rfl rfl ?_ ?_ (fun _ used => used) ?_ ?_
  · intro c zero
    by_cases this : c = b
    · subst this
      simp only [set_self] at zero
      omega
    · simp only [set_other this] at zero
      exact ⟨zero, rfl⟩
  · intro c more
    by_cases this : c = b
    · subst this
      exact inv.taken c (Nat.zero_lt_of_lt ((inv.counted c).pos_of_lock holds))
    · simp only [set_other this] at more
      exact inv.taken c more
  · exact inv.apart.set rfl rfl
  · intro c
    obtain ⟨waiting, leaving, waits, leaves, sum⟩ := inv.counted c
    refine ⟨waiting, leaving, waits, leaves, ?_⟩
    by_cases this : c = b
    · subst this
      simp only [set_self, update_self]
      omega
    · simp only [set_other this, update_of_ne this]
      exact sum

theorem unref_eq (cache : Bcache P) (b : Buffer) :
    cache.unref b = if (cache.buf b).refcnt - 1 = 0 then
      { cache.bunpin b with links := (cache.links.unlink (some b)).pushFront none (some b) }
    else cache.bunpin b := by
  simp only [Bcache.unref, Bcache.bunpin, set_self]
  rfl

theorem buf_unref (cache : Bcache P) (b : Buffer) :
    (cache.unref b).buf = (cache.bunpin b).buf := by
  rw [unref_eq]
  split <;> rfl

/-- The releases after `brelse`. -/
theorem released_past (inv : Invariant s order) (c : Buffer) :
    update s.released b (WithBot.some s.clock) c <
      WithBot.some (s.clock + 1) := by
  by_cases this : c = b
  · subst this
    rw [update_self]
    exact WithBot.coe_lt_coe.mpr (Nat.lt_succ_self _)
  · rw [update_of_ne this]
    exact (inv.past c).trans (WithBot.coe_lt_coe.mpr (Nat.lt_succ_self _))

theorem Invariant.unref_order (inv : Invariant s order) (b : Buffer) :
    ∃ order', Listed (s.cache.unref b) order' ∧
      order'.Pairwise fun x y => ((s.cache.unref b).buf x).refcnt = 0 →
        ((s.cache.unref b).buf y).refcnt = 0 →
        update s.released b (WithBot.some s.clock) y ≤
          update s.released b (WithBot.some s.clock) x := by
  have others : ∀ x, x ≠ b → ((s.cache.unref b).buf x).refcnt = (s.cache.buf x).refcnt := by
    intro x other
    rw [buf_unref, Bcache.bunpin, set_other other]
  have self : ((s.cache.unref b).buf b).refcnt = (s.cache.buf b).refcnt - 1 := by
    rw [buf_unref, Bcache.bunpin, set_self]
  by_cases last : (s.cache.buf b).refcnt - 1 = 0
  · have links : (s.cache.unref b).links =
        (s.cache.links.unlink (some b)).pushFront none (some b) := by
      rw [unref_eq, if_pos last]
    have member : some b ∈ order.map some := List.mem_map_of_mem (inv.listed.all b)
    refine ⟨b :: order.erase b, ⟨?_, fun c => ?_⟩, ?_⟩
    · have moved := inv.listed.circle.moveFront member
      have erased := @List.map_erase Buffer (Option Buffer) _ _ instBEqOfDecidableEq _ some
        (Option.some_injective Buffer) b order
      rw [links, List.map_cons, erased]
      exact moved
    · by_cases this : c = b
      · simp [this]
      · exact List.mem_cons_of_mem b ((List.mem_erase_of_ne this).mpr (inv.listed.all c))
    · refine List.pairwise_cons.mpr ⟨fun y old _ _ => ?_, ?_⟩
      · have other : y ≠ b := by
          rintro rfl
          exact inv.listed.nodup.not_mem_erase old
        rw [update_self, update_of_ne other]
        exact (inv.past y).le
      · refine (inv.recent.sublist List.erase_sublist).imp_of_mem fun {x y} inX inY older => ?_
        have otherX : x ≠ b := by
          rintro rfl
          exact inv.listed.nodup.not_mem_erase inX
        have otherY : y ≠ b := by
          rintro rfl
          exact inv.listed.nodup.not_mem_erase inY
        rw [others x otherX, others y otherY, update_of_ne otherX,
          update_of_ne otherY]
        exact older
  · have links : (s.cache.unref b).links = s.cache.links := by
      rw [unref_eq, if_neg last]
      rfl
    refine ⟨order, ⟨by rw [links]; exact inv.listed.circle, inv.listed.all⟩, ?_⟩
    refine inv.recent.imp fun {x y} older zeroX zeroY => ?_
    have otherX : x ≠ b := by
      rintro rfl
      exact last (self ▸ zeroX)
    have otherY : y ≠ b := by
      rintro rfl
      exact last (self ▸ zeroY)
    rw [update_of_ne otherX, update_of_ne otherY]
    exact older (others x otherX ▸ zeroX) (others y otherY ▸ zeroY)

theorem Invariant.recycled (inv : Invariant s order) {dev blockno : Nat}
    (found : s.cache.bget dev blockno = .ok (b, cache))
    (missing : ∀ x, ¬ ((s.cache.buf x).dev = dev ∧ (s.cache.buf x).blockno = blockno)) :
    (s.cache.buf b).refcnt = 0 ∧ ∀ x, (s.cache.buf x).refcnt = 0 →
      s.released b ≤ s.released x ∧ (s.used b = true → s.used x = true) := by
  rcases inv.listed.bget_cases dev blockno with
    ⟨b', device, block, -⟩ | ⟨-, ⟨b', newer, older, split, zero, busy, recycles⟩ | ⟨-, none⟩⟩
  · exact absurd ⟨device, block⟩ (missing b')
  · rw [found] at recycles
    cases recycles
    refine ⟨zero, fun x unreferenced => ?_⟩
    have oldest : s.released b ≤ s.released x := by
      have member := inv.listed.all x
      have recent := inv.recent
      rw [split] at member recent
      rcases List.mem_append.mp member with before | after
      · exact (List.pairwise_append.mp recent).2.2 x before b (by simp) unreferenced zero
      · rcases List.mem_cons.mp after with rfl | beyond
        · exact le_rfl
        · exact absurd unreferenced (busy x beyond)
    refine ⟨oldest, fun used => inv.unused x fun never => ?_⟩
    rw [never, le_bot_iff] at oldest
    exact inv.dropped b used zero oldest
  · rw [found] at none
    cases none

variable [DecidableEq P]

theorem Counted.other (counted : Counted s c) (place : t.place = update s.place p v)
    (buf : t.cache.buf c = s.cache.buf c) (pins : t.pins c = s.pins c)
    (before : s.place p ≠ .locking c ∧ s.place p ≠ .releasing c)
    (after : v ≠ .locking c ∧ v ≠ .releasing c) : Counted t c := by
  obtain ⟨waiting, leaving, waits, leaves, total⟩ := counted
  refine ⟨waiting, leaving, ?_, ?_, by rw [buf, pins]; exact total⟩
  · rw [place]
    exact waits.update_other before.1 after.1
  · rw [place]
    exact leaves.update_other before.2 after.2

theorem Invariant.bget_counted (inv : Invariant s order) (here : s.place p = .idle)
    (refcnt : buf.refcnt = (s.cache.buf b).refcnt + 1) (lock : buf.lock = (s.cache.buf b).lock)
    (used : Buffer → Bool) (c : Buffer) :
    Counted ({ s with cache := s.cache.set b buf, used := used }.move p (.locking b)) c := by
  by_cases this : c = b
  · subst this
    obtain ⟨waiting, leaving, waits, leaves, total⟩ := inv.counted c
    refine ⟨waiting + 1, leaving, ?_, ?_, ?_⟩
    · exact waits.update_enter (by rw [here]; simp)
    · exact leaves.update_other (by rw [here]; simp) (by simp)
    · simp only [System.move, set_self, refcnt, lock, total]
      omega
  · exact (inv.counted c).other rfl (set_other this) rfl (by rw [here]; simp)
      (by simp [Ne.symm this])

/-- A new reference keeps the invariant if blocks stay apart. -/
theorem Invariant.referenced (inv : Invariant s order) (here : s.place p = .idle)
    (refcnt : buf.refcnt = (s.cache.buf b).refcnt + 1) (lock : buf.lock = (s.cache.buf b).lock)
    (apart : ∀ c, c ≠ b → buf.dev ≠ 0 →
      ¬ ((s.cache.buf c).dev = buf.dev ∧ (s.cache.buf c).blockno = buf.blockno)) :
    Invariant ({ s with
      cache := s.cache.set b buf
      used := update s.used b true }.move p (.locking b)) order := by
  refine inv.frame rfl rfl rfl ?_ ?_ ?_ ?_ (inv.bget_counted here refcnt lock _)
  · intro c zero
    by_cases this : c = b
    · subst this
      simp only [System.move, set_self, refcnt] at zero
      omega
    · simp only [System.move, set_other this] at zero ⊢
      exact ⟨zero, update_of_ne this _ _⟩
  · intro c positive
    by_cases this : c = b
    · subst this
      exact update_self _ _ _
    · simp only [System.move, set_other this] at positive ⊢
      rw [update_of_ne this]
      exact inv.taken c positive
  · intro c used
    by_cases this : c = b
    · subst this
      exact update_self _ _ _
    · simp only [System.move, update_of_ne this]
      exact used
  · intro b₁ b₂ device sameDevice sameBlock
    simp only [System.move] at device sameDevice sameBlock
    by_cases first : b₁ = b
    · subst first
      by_contra other
      rw [set_self] at device
      rw [set_self, set_other other] at sameDevice sameBlock
      exact apart b₂ other device ⟨sameDevice, sameBlock⟩
    · by_cases second : b₂ = b
      · subst second
        rw [set_other first] at device
        rw [set_self, set_other first] at sameDevice sameBlock
        exact absurd ⟨sameDevice.symm, sameBlock.symm⟩ (apart b₁ first (by rwa [sameDevice]))
      · rw [set_other first] at device
        rw [set_other first, set_other second] at sameDevice sameBlock
        exact inv.apart b₁ b₂ device sameDevice sameBlock

theorem Invariant.bget (inv : Invariant s order) (here : s.place p = .idle) {dev blockno : Nat}
    (found : s.cache.bget dev blockno = .ok (b, cache)) :
    Invariant ({ s with cache := cache, used := update s.used b true }.move p (.locking b))
      order := by
  rcases inv.listed.bget_cases dev blockno with
    ⟨b', -, -, hit⟩ | ⟨missing, ⟨b', newer, older, split, zero, busy, recycled⟩ | ⟨-, none⟩⟩
  · rw [found] at hit
    cases hit
    refine inv.referenced here rfl rfl fun c other device same => other ?_
    exact inv.apart b c device same.1 same.2
  · rw [found] at recycled
    cases recycled
    exact inv.referenced here (by rw [zero]) rfl fun c _ _ same => missing c same
  · rw [found] at none
    cases none

theorem Invariant.relocked (inv : Invariant s order) {lock : Option P}
    (counted : ∀ c, Counted ({ s with cache := s.cache.setLock b lock }.move p v) c) :
    Invariant ({ s with cache := s.cache.setLock b lock }.move p v) order := by
  have references : ∀ c, ((s.cache.setLock b lock).buf c).refcnt = (s.cache.buf c).refcnt := by
    intro c
    by_cases this : c = b
    · subst this
      simp [Bcache.setLock]
    · simp [Bcache.setLock, set_other this]
  refine inv.frame rfl rfl rfl ?_ ?_ (fun _ used => used) ?_ counted
  · intro c zero
    exact ⟨references c ▸ zero, rfl⟩
  · intro c positive
    exact inv.taken c (references c ▸ positive)
  · exact inv.apart.set rfl rfl

theorem Invariant.lock (inv : Invariant s order) (here : s.place p = .locking b)
    (free : (s.cache.buf b).lock = none) :
    Invariant ({ s with cache := s.cache.setLock b (some p) }.move p .idle) order := by
  refine inv.relocked fun c => ?_
  by_cases this : c = b
  · subst this
    obtain ⟨waiting, leaving, waits, leaves, total⟩ := inv.counted c
    obtain ⟨fewer, rfl⟩ := Nat.exists_eq_add_of_lt (waits.pos here)
    refine ⟨fewer, leaving, ?_, ?_, ?_⟩
    · rw [Nat.zero_add] at waits
      exact waits.update_leave here (by simp)
    · exact leaves.update_other (by rw [here]; simp) (by simp)
    · simp only [System.move, Bcache.setLock, set_self, free, total, Option.isSome_some,
        Option.isSome_none, if_true]
      simp
      omega
  · exact (inv.counted c).other rfl (set_other this) rfl (by rw [here]; simp [Ne.symm this])
      (by simp)

theorem Invariant.brelse (inv : Invariant s order) (here : s.place p = .idle)
    (holds : (s.cache.buf b).lock = some p) :
    Invariant ({ s with cache := s.cache.setLock b none }.move p (.releasing b)) order := by
  refine inv.relocked fun c => ?_
  by_cases this : c = b
  · subst this
    obtain ⟨waiting, leaving, waits, leaves, total⟩ := inv.counted c
    refine ⟨waiting, leaving + 1, ?_, ?_, ?_⟩
    · exact waits.update_other (by rw [here]; simp) (by simp)
    · exact leaves.update_enter (by rw [here]; simp)
    · simp only [System.move, Bcache.setLock, set_self, holds, total, Option.isSome_some,
        Option.isSome_none, if_true]
      simp
      omega
  · exact (inv.counted c).other rfl (set_other this) rfl (by rw [here]; simp)
      (by simp [Ne.symm this])

theorem Invariant.unref (inv : Invariant s order) (here : s.place p = .releasing b) :
    ∃ order', Invariant ({ s with
      cache := s.cache.unref b
      released := update s.released b (WithBot.some s.clock)
      clock := s.clock + 1 }.move p .idle) order' := by
  obtain ⟨order', listed, recent⟩ := inv.unref_order b
  have positive := (inv.counted b).pos_of_releasing here
  have others : ∀ x, x ≠ b → (s.cache.unref b).buf x = s.cache.buf x := by
    intro x other
    rw [buf_unref, Bcache.bunpin, set_other other]
  refine ⟨order', listed, recent, released_past inv, ?_, ?_, ?_, ?_, ?_⟩
  · simp only [System.move, buf_unref]
    exact inv.apart.set rfl rfl
  · intro c
    by_cases this : c = b
    · subst this
      obtain ⟨waiting, leaving, waits, leaves, total⟩ := inv.counted c
      obtain ⟨fewer, rfl⟩ := Nat.exists_eq_add_of_lt (leaves.pos here)
      refine ⟨waiting, fewer, ?_, ?_, ?_⟩
      · exact waits.update_other (by rw [here]; simp) (by simp)
      · rw [Nat.zero_add] at leaves
        exact leaves.update_leave here (by simp)
      · simp only [System.move, buf_unref, Bcache.bunpin, set_self, total]
        omega
    · exact (inv.counted c).other rfl (others c this) rfl (by rw [here]; simp [Ne.symm this])
        (by simp)
  · intro c more
    by_cases this : c = b
    · subst this
      exact inv.taken c positive
    · simp only [System.move, others c this] at more
      exact inv.taken c more
  · intro c used zero
    by_cases this : c = b
    · subst this
      simp [System.move]
    · simp only [System.move, others c this, update_of_ne this] at used zero ⊢
      exact inv.dropped c used zero
  · intro c some
    by_cases this : c = b
    · subst this
      exact inv.taken c positive
    · simp only [System.move, update_of_ne this] at some
      exact inv.unused c some

theorem Invariant.step (inv : Invariant s order) (step : Step s t) :
    ∃ order', Invariant t order' := by
  cases step with
  | bget p dev blockno b c here found => exact ⟨order, inv.bget here found⟩
  | lock p b here free => exact ⟨order, inv.lock here free⟩
  | brelse p b here holds => exact ⟨order, inv.brelse here holds⟩
  | unref p b here => exact inv.unref here
  | bpin p b here holds =>
    exact ⟨order, inv.repinned holds (by omega) (Nat.succ_pos _)⟩
  | bunpin p b here holds pinned =>
    have more := (inv.counted b).pos_of_lock holds
    exact ⟨order, inv.repinned holds (by omega) (by omega)⟩

/-- A buffer that has references keeps its block. -/
theorem Invariant.block_kept (inv : Invariant s order) (step : Step s t)
    (positive : 0 < (s.cache.buf b).refcnt) :
    (t.cache.buf b).dev = (s.cache.buf b).dev ∧
      (t.cache.buf b).blockno = (s.cache.buf b).blockno := by
  cases step with
  | bget p dev blockno x c here found =>
    rcases inv.listed.bget_cases dev blockno with
      ⟨x', -, -, hit⟩ | ⟨-, ⟨x', newer, older, -, zero, -, recycled⟩ | ⟨-, none⟩⟩
    · rw [found] at hit
      cases hit
      refine set_block ?_ ?_ b <;> rfl
    · rw [found] at recycled
      cases recycled
      have other : b ≠ x := by
        rintro rfl
        omega
      simp only [System.move, set_other other, and_self]
    · rw [found] at none
      cases none
  | lock p x here free | brelse p x here holds | bpin p x here holds
  | bunpin p x here holds pinned => refine set_block ?_ ?_ b <;> rfl
  | unref p x here =>
    simp only [System.move, buf_unref]
    refine set_block ?_ ?_ b <;> rfl

/-- What holds of the buffer cache in a state. -/
structure InOrder (s : System P) : Prop where
  linked : ∃ order : List Buffer, Path s.cache.links.next none (order.map some) none ∧
    Path s.cache.links.prev none (order.reverse.map some) none ∧ order.Nodup ∧ ∀ b, b ∈ order
  apart : Apart s.cache.buf
  kept : ∀ t, Step s t → ∀ b, 0 < (s.cache.buf b).refcnt →
    (t.cache.buf b).dev = (s.cache.buf b).dev ∧ (t.cache.buf b).blockno = (s.cache.buf b).blockno
  counted : ∀ b, Counted s b
  returns : ∀ dev blockno, (∃ b c, s.cache.bget dev blockno = .ok (b, c)) ∨
    s.cache.bget dev blockno = .error .noBuffers ∧ ∀ b, (s.cache.buf b).refcnt ≠ 0
  recycled : ∀ dev blockno b c, s.cache.bget dev blockno = .ok (b, c) →
    (∀ x, ¬ ((s.cache.buf x).dev = dev ∧ (s.cache.buf x).blockno = blockno)) →
    (s.cache.buf b).refcnt = 0 ∧ ∀ x, (s.cache.buf x).refcnt = 0 →
      s.released b ≤ s.released x ∧ (s.used b = true → s.used x = true)

theorem Invariant.inOrder {s : System P} {order : List Buffer} (inv : Invariant s order) :
    InOrder s := by
  refine ⟨⟨order, inv.listed.circle.forward, ?_, inv.listed.nodup, inv.listed.all⟩, inv.apart,
    fun t step b positive => inv.block_kept step positive, inv.counted, ?_,
    fun dev blockno b c found missing => inv.recycled found missing⟩
  · rw [List.map_reverse]
    exact inv.listed.circle.backward
  · intro dev blockno
    rcases inv.listed.bget_cases dev blockno with
      ⟨b, -, -, hit⟩ | ⟨-, ⟨b, newer, older, -, -, -, recycled⟩ | ⟨busy, none⟩⟩
    · exact .inl ⟨b, _, hit⟩
    · exact .inl ⟨b, _, recycled⟩
    · exact .inr ⟨none, busy⟩

/-- However processes use the buffer cache after `binit`, its list and its buffers stay
in order. -/
theorem buffer_cache_in_order (links : Links (Option Buffer)) (s : System P)
    (run : Reaches Step (System.boot links) s) : InOrder s := by
  have kept := run.keeps (fun s => ∃ order, Invariant s order)
    (fun _ _ before step => before.elim fun _ inv => inv.step step) ⟨_, invariant_boot links⟩
  obtain ⟨order, inv⟩ := kept
  exact inv.inOrder

/-- One process gets a block and releases it: its buffer comes first. -/
theorem buffer_cache_in_order_one :
    ∃ s : System Unit, Reaches Step (System.boot ⟨id, id⟩) s ∧
      s.cache.links.next none = some 0 ∧ (s.cache.buf 0).dev = 1 ∧ (s.cache.buf 0).blockno = 7 ∧
      s.released 0 = WithBot.some 0 ∧ InOrder s := by
  have found : ∃ c : Bcache Unit,
      (System.boot ⟨id, id⟩ : System Unit).cache.bget 1 7 = .ok (0, c) ∧ (c.buf 0).dev = 1 ∧
        (c.buf 0).blockno = 7 ∧ (c.buf 0).refcnt = 1 ∧ (c.buf 0).lock = none := by
    have ran : ((System.boot ⟨id, id⟩ : System Unit).cache.bget 1 7).toOption.any (fun r =>
        r.1 = 0 ∧ (r.2.buf 0).dev = 1 ∧ (r.2.buf 0).blockno = 7 ∧ (r.2.buf 0).refcnt = 1 ∧
          (r.2.buf 0).lock = none) = true := by decide +kernel
    cases outcome : (System.boot ⟨id, id⟩ : System Unit).cache.bget 1 7 with
    | error stop => simp [outcome, Except.toOption] at ran
    | ok result =>
      obtain ⟨b, c⟩ := result
      rw [outcome] at ran
      obtain ⟨rfl, facts⟩ := of_decide_eq_true ran
      exact ⟨c, rfl, facts⟩
  obtain ⟨c, found, device, block, one, free⟩ := found
  have got := Step.bget (s := System.boot ⟨id, id⟩) () 1 7 0 c rfl found
  have held := (Relation.ReflTransGen.single got).tail (.lock () 0 (by simp [System.move]) free)
  have run := held.tail (.brelse () 0 (by simp [System.move])
    (by simp [System.move, Bcache.setLock]))
  have all := run.tail (.unref () 0 (by simp [System.move]))
  refine ⟨_, all, ?_, ?_, ?_, ?_, buffer_cache_in_order ⟨id, id⟩ _ all⟩
  · simp only [System.move, unref_eq, Bcache.setLock, set_self, one]
    simp [Links.pushFront]
  · simp [System.move, buf_unref, Bcache.bunpin, Bcache.setLock, device]
  · simp [System.move, buf_unref, Bcache.bunpin, Bcache.setLock, block]
  · simp [System.move, System.boot]

end Xv6.BufferList
