import Xv6.Library.Tally
import Xv6.Log.CommitProgress

/-!
# Who uses a buffer

The reference count of a buffer is the number of processes that wait for its lock or are about
to drop it, plus one if it is locked, plus one if its block is pinned.
-/

namespace Xv6.BufferCache

open Transition
open GroupCommit (InCommit)

def Work.holds {B : Type} (start : Nat) (blocks : List Nat) : Work B → List (B × Nat)
  | .fromCache tail toBuf | .relTo tail toBuf => [(toBuf, start + tail + 1)]
  | .copyLog tail toBuf fromBuf | .bwriteLog tail toBuf fromBuf | .relFrom tail toBuf fromBuf =>
    [(toBuf, start + tail + 1), (fromBuf, blocks.getD tail 0)]
  | .fillHead _ buf | .bwriteHead _ buf | .relHead _ buf => [(buf, start)]
  | .toHome tail lbuf => [(lbuf, start + tail + 1)]
  | .copyHome tail lbuf dbuf | .bwriteHome tail lbuf dbuf | .unpin tail lbuf dbuf
  | .relLbuf tail lbuf dbuf => [(lbuf, start + tail + 1), (dbuf, blocks.getD tail 0)]
  | .relDbuf tail dbuf => [(dbuf, blocks.getD tail 0)]
  | _ => []

variable {P B : Type} {start : Nat}

def System.pins (s : System P B) (b : B) : Nat := (s.pinned.map some).count (s.buf b).block

def Counted (s : System P B) (b : B) : Prop :=
  ∃ waiting, Tally.Counts (fun p => (s.place p).Counts b) waiting ∧
    (s.buf b).refcnt = waiting + (if (s.buf b).lock.isSome then 1 else 0) + s.pins b

structure Holds (s : System P B) (p : P) (b : B) (number : Nat) : Prop where
  lock : (s.buf b).lock = some p
  block : (s.buf b).block = some number
  valid : (s.buf b).valid = true

def PlaceOk (s : System P B) (p : P) : Place B → Prop
  | .doing _ => True
  | .locking b number _ => (s.buf b).block = some number
  | .filling b number _ => (s.buf b).lock = some p ∧ (s.buf b).block = some number
  | .releasing b _ => (s.buf b).valid = true

structure Access (start : Nat) (s : System P B) : Prop where
  unique : ∀ b c number, (s.buf b).block = some number → (s.buf c).block = some number → b = c
  listed : ∀ b, b ∈ s.order
  counted : ∀ b, Counted s b
  settled : ∀ b, (s.buf b).refcnt = 0 → (s.buf b).block ≠ none → (s.buf b).valid = true
  held : ∀ b p, (s.buf b).lock = some p →
    (∃ number, Holds s p b number) ∨ ∃ number work, s.place p = .filling b number work
  place : ∀ p, PlaceOk s p (s.place p)
  works : ∀ p b number, (b, number) ∈ (s.place p).work.holds start s.blocks → Holds s p b number
  pinned : ∀ number ∈ s.pinned, ∃ b, (s.buf b).block = some number ∧ (s.buf b).valid = true

section Frames

variable {s t : System P B} {p q : P} {b c : B} {number : Nat} {work work' : Work B}

theorem Counted.congr (counted : Counted s b)
    (places : ∀ q, (t.place q).Counts b ↔ (s.place q).Counts b)
    (refcnt : (t.buf b).refcnt = (s.buf b).refcnt) (lock : (t.buf b).lock = (s.buf b).lock)
    (pins : t.pins b = s.pins b) : Counted t b := by
  obtain ⟨waiting, counts, total⟩ := counted
  exact ⟨waiting, counts.congr places, by rw [refcnt, lock, pins]; exact total⟩

theorem Counted.unused (counted : Counted s b) (zero : (s.buf b).refcnt = 0) :
    (∀ p, ¬ (s.place p).Counts b) ∧ (s.buf b).lock = none ∧ s.pins b = 0 := by
  obtain ⟨waiting, counts, total⟩ := counted
  rw [zero] at total
  refine ⟨fun p inside => ?_, ?_, by omega⟩
  · have := counts.pos inside
    omega
  · by_contra locked
    obtain ⟨p, holder⟩ := Option.ne_none_iff_exists'.mp locked
    simp only [holder, Option.isSome_some, if_true] at total
    omega

theorem Holds.congr (holds : Holds s p b number) (same : t.buf b = s.buf b) : Holds t p b number :=
  ⟨by rw [same]; exact holds.lock, by rw [same]; exact holds.block, by rw [same]; exact holds.valid⟩

def SameShape (s t : System P B) : Prop :=
  ∀ b, (t.buf b).block = (s.buf b).block ∧ (t.buf b).valid = (s.buf b).valid ∧
    (t.buf b).lock = (s.buf b).lock

theorem SameShape.holds (shape : SameShape s t) (holds : Holds s p b number) :
    Holds t p b number := by
  obtain ⟨block, valid, lock⟩ := shape b
  exact ⟨lock.trans holds.lock, block.trans holds.block, valid.trans holds.valid⟩

theorem SameShape.placeOk (shape : SameShape s t) {place : Place B} (ok : PlaceOk s p place) :
    PlaceOk t p place := by
  cases place with
  | doing work => trivial
  | locking b number work => exact (shape b).1.trans ok
  | filling b number work => exact ⟨(shape b).2.2.trans ok.1, (shape b).1.trans ok.2⟩
  | releasing b work => exact (shape b).2.1.trans ok

theorem Access.sameShape (access : Access start s) (shape : SameShape s t)
    (places : ∀ q, q ≠ p → t.place q = s.place q) (listed : ∀ b, b ∈ t.order)
    (counted : ∀ b, Counted t b)
    (settled : ∀ b, (t.buf b).refcnt = 0 → (s.buf b).refcnt = 0 ∨ (s.buf b).valid = true)
    (blocks : t.blocks = s.blocks ∨ ∀ q, q ≠ p → (s.place q).work = .user)
    (place : PlaceOk s p (t.place p))
    (filled : ∀ b number work, s.place p = .filling b number work → s.place p = t.place p)
    (works : ∀ b number, (b, number) ∈ (t.place p).work.holds start t.blocks → Holds s p b number)
    (pinned : ∀ number ∈ t.pinned, ∃ b, (s.buf b).block = some number ∧ (s.buf b).valid = true) :
    Access start t := by
  refine ⟨?_, listed, counted, ?_, ?_, ?_, ?_, ?_⟩
  · intro b c number first second
    rw [(shape b).1] at first
    rw [(shape c).1] at second
    exact access.unique b c number first second
  · intro b zero used
    rw [(shape b).1] at used
    rw [(shape b).2.1]
    rcases settled b zero with before | valid
    · exact access.settled b before used
    · exact valid
  · intro b q locked
    rw [(shape b).2.2] at locked
    refine (access.held b q locked).imp (fun ⟨number, holds⟩ => ⟨number, shape.holds holds⟩) ?_
    rintro ⟨number, work, filling⟩
    refine ⟨number, work, ?_⟩
    by_cases same : q = p
    · subst same
      rw [← filled b number work filling]
      exact filling
    · rw [places q same]
      exact filling
  · intro q
    by_cases same : q = p
    · rw [same]
      exact shape.placeOk place
    · rw [places q same]
      exact shape.placeOk (access.place q)
  · intro q b number held
    by_cases same : q = p
    · subst same
      exact shape.holds (works b number held)
    · rw [places q same] at held
      rcases blocks with blocks | user
      · rw [blocks] at held
        exact shape.holds (access.works q b number held)
      · rw [user q same] at held
        cases held
  · intro number pin
    obtain ⟨b, block, valid⟩ := pinned number pin
    exact ⟨b, (shape b).1.trans block, (shape b).2.1.trans valid⟩

theorem Access.sameCounts (access : Access start s) (shape : SameShape s t)
    (refcnt : ∀ b, (t.buf b).refcnt = (s.buf b).refcnt) (order : t.order = s.order)
    (places : ∀ q, q ≠ p → t.place q = s.place q) {work work' : Work B}
    (here : s.place p = .doing work) (there : t.place p = .doing work')
    (pinned : t.pinned = s.pinned)
    (blocks : t.blocks = s.blocks ∨ ∀ q, q ≠ p → (s.place q).work = .user)
    (works : ∀ b number, (b, number) ∈ work'.holds start t.blocks → Holds s p b number) :
    Access start t := by
  refine access.sameShape shape places (by rw [order]; exact access.listed) (fun b => ?_) ?_ blocks
    (by rw [there]; trivial) (by rw [here]; simp) (by rw [there]; exact works)
    (by rw [pinned]; exact access.pinned)
  · refine (access.counted b).congr (fun q => ?_) (refcnt b) (shape b).2.2 ?_
    · by_cases same : q = p
      · rw [same, here, there]
        exact Iff.rfl
      · rw [places q same]
    · rw [System.pins, System.pins, pinned, (shape b).1]
  · intro b zero
    rw [refcnt b] at zero
    exact Or.inl zero

theorem sameShape_update [DecidableEq B] {buf : Buf P} (bufs : t.buf = Function.update s.buf b buf)
    (block : buf.block = (s.buf b).block) (valid : buf.valid = (s.buf b).valid)
    (lock : buf.lock = (s.buf b).lock) : SameShape s t := by
  intro c
  by_cases same : c = b
  · subst same
    simp [bufs, block, valid, lock]
  · simp [bufs, same]

theorem refcnt_update [DecidableEq B] {buf : Buf P} (bufs : t.buf = Function.update s.buf b buf)
    (refcnt : buf.refcnt = (s.buf b).refcnt) (c : B) : (t.buf c).refcnt = (s.buf c).refcnt := by
  by_cases same : c = b
  · subst same
    simp [bufs, refcnt]
  · simp [bufs, same]

theorem InStep.others_user (inStep : InStep start s) (commits : InCommit (s.group.pc p)) (q : P)
    (other : q ≠ p) : (s.place q).work = .user :=
  (inStep.process q).work_user fun also => other (inStep.exclusive.unique q p also commits)

def System.fixed (s : System P B) (b : B) : Nat :=
  (if (s.buf b).lock.isSome then 1 else 0) + s.pins b

theorem counted_iff : Counted s b ↔ ∃ waiting,
    Tally.Counts (fun p => (s.place p).Counts b) waiting ∧
      (s.buf b).refcnt = waiting + s.fixed b := by
  simp only [Counted, System.fixed, Nat.add_assoc]

theorem Counted.stay (counted : Counted s b)
    (places : ∀ q, (t.place q).Counts b ↔ (s.place q).Counts b)
    (total : (t.buf b).refcnt + s.fixed b = (s.buf b).refcnt + t.fixed b) : Counted t b := by
  obtain ⟨waiting, counts, refcnt⟩ := counted_iff.mp counted
  exact counted_iff.mpr ⟨waiting, counts.congr places, by omega⟩

theorem Access.holds (access : Access start s) (here : s.place p = .doing work)
    (locked : (s.buf b).lock = some p) : ∃ number, Holds s p b number := by
  refine (access.held b p locked).resolve_right ?_
  rintro ⟨number, work', filling⟩
  rw [here] at filling
  cases filling

theorem Counted.other (counted : Counted s b) (buf : t.buf b = s.buf b) (pins : t.pins b = s.pins b)
    (places : ∀ q, q ≠ p → t.place q = s.place q)
    (counts : (t.place p).Counts b ↔ (s.place p).Counts b) : Counted t b := by
  refine counted.stay (fun q => ?_) (by rw [buf, System.fixed, System.fixed, buf, pins])
  by_cases own : q = p
  · rw [own]
    exact counts
  · rw [places q own]

theorem holds_got {blocks : List Nat} {c : B} {k : Nat}
    (asks : work = .user ∨ work.asks start blocks = some number)
    (held : (c, k) ∈ (work.got b).holds start blocks) :
    (c, k) ∈ work.holds start blocks ∨ c = b ∧ k = number := by
  cases work with
  | user => cases held
  | toLog tail | fromLog tail =>
    simp only [Work.asks, reduceCtorEq, false_or, Option.ite_none_right_eq_some, Option.some.injEq] at asks
    simp only [Work.got, Work.holds, List.mem_singleton, Prod.mk.injEq] at held
    exact Or.inr ⟨held.1, held.2.trans asks.2⟩
  | fromCache tail toBuf | toHome tail toBuf =>
    simp only [Work.asks, reduceCtorEq, false_or] at asks
    simp only [Work.got, Work.holds, List.mem_cons, List.not_mem_nil, or_false, Prod.mk.injEq,
      List.getD_eq_getElem?_getD, asks, Option.getD_some] at held
    exact held.imp_left fun first => by simp [Work.holds, first]
  | head erase =>
    simp only [Work.asks, reduceCtorEq, false_or, Option.some.injEq] at asks
    simp only [Work.got, Work.holds, List.mem_singleton, Prod.mk.injEq] at held
    exact Or.inr ⟨held.1, held.2.trans asks⟩
  | _ => exact Or.inl held

theorem holds_releases {blocks : List Nat} {c : B} {k : Nat}
    (releases : work.releases = some (b, work'))
    (held : (c, k) ∈ work'.holds start blocks) :
    (c, k) ∈ work.holds start blocks ∧ ∃ k', (b, k') ∈ work.holds start blocks ∧
      ∃ tail, (work.stage = .writing (tail + 1) (tail + 1) ∨ work.stage = .installing (tail + 1)) ∧
        (k = start + tail + 1 ∧ k' = blocks.getD tail 0 ∨
          k' = start + tail + 1 ∧ k = blocks.getD tail 0) := by
  cases work <;> simp only [Work.releases, Option.some.injEq, Prod.mk.injEq, reduceCtorEq] at releases
  case relFrom tail toBuf fromBuf =>
    obtain ⟨rfl, rfl⟩ := releases
    simp only [Work.holds, List.mem_singleton, Prod.mk.injEq] at held
    obtain ⟨rfl, rfl⟩ := held
    exact ⟨by simp [Work.holds], _, by simp [Work.holds], tail, Or.inl rfl, Or.inl ⟨rfl, rfl⟩⟩
  case relLbuf tail lbuf dbuf =>
    obtain ⟨rfl, rfl⟩ := releases
    simp only [Work.holds, List.mem_singleton, Prod.mk.injEq] at held
    obtain ⟨rfl, rfl⟩ := held
    exact ⟨by simp [Work.holds], _, by simp [Work.holds], tail, Or.inr rfl, Or.inr ⟨rfl, rfl⟩⟩
  case relHead erase buf =>
    obtain ⟨-, rfl⟩ := releases
    cases erase <;> cases held
  all_goals
    obtain ⟨-, rfl⟩ := releases
    cases held

theorem InStep.apart (inStep : InStep start s) {tail : Nat} (bound : tail < s.blocks.length) :
    s.blocks.getD tail 0 ≠ start + tail + 1 := by
  intro same
  have listed : s.blocks.getD tail 0 ∈ s.blocks := by
    rw [List.getD_eq_getElem?_getD, List.getElem?_eq_getElem bound, Option.getD_some]
    exact List.getElem_mem bound
  have home := inStep.home _ listed
  have length := inStep.length
  rw [same] at home
  unfold Home at home
  omega

end Frames

section Steps

variable [DecidableEq P] [DecidableEq B] {s t : System P B} {p : P} {b : B} {number : Nat}
  {work work' : Work B}

omit [DecidableEq B] in
theorem Counted.enter (counted : Counted s b) (here : ¬ (s.place p).Counts b)
    (there : (t.place p).Counts b) (places : ∀ q, q ≠ p → t.place q = s.place q)
    (total : (t.buf b).refcnt + s.fixed b = (s.buf b).refcnt + t.fixed b + 1) : Counted t b := by
  obtain ⟨waiting, counts, refcnt⟩ := counted_iff.mp counted
  refine counted_iff.mpr ⟨waiting + 1, counts.enter here fun q => ?_, by omega⟩
  by_cases same : q = p
  · subst same
    simp [there]
  · simp [places q same, same]

omit [DecidableEq B] in
theorem Counted.leave (counted : Counted s b) (here : (s.place p).Counts b)
    (there : ¬ (t.place p).Counts b) (places : ∀ q, q ≠ p → t.place q = s.place q)
    (total : 0 < (s.buf b).refcnt →
      (t.buf b).refcnt + 1 + s.fixed b = (s.buf b).refcnt + t.fixed b) : Counted t b := by
  obtain ⟨waiting, counts, refcnt⟩ := counted_iff.mp counted
  have positive := counts.pos here
  obtain ⟨less, rfl⟩ : ∃ less, waiting = less + 1 := ⟨waiting - 1, by omega⟩
  have total := total (by omega)
  refine counted_iff.mpr ⟨less, counts.leave here fun q => ?_, by omega⟩
  by_cases same : q = p
  · subst same
    simp [there]
  · simp [places q same, same]

theorem Access.onlyAt (access : Access start s) {buf : Buf P} {place : Place B}
    (isAfter : (s.set b buf).move p place = t)
    (counts : ∀ c, c ≠ b → (place.Counts c ↔ (s.place p).Counts c)) (counted : Counted t b)
    (settled : buf.refcnt = 0 → buf.block ≠ none → buf.valid = true)
    (fresh : ∀ number, buf.block = some number → (s.buf b).block = some number ∨
      ∀ c, (s.buf c).block ≠ some number)
    (mine : ∀ q, (s.buf b).lock = some q ∨ buf.lock = some q → q = p)
    (users : ∀ q, q ≠ p → (s.place q).Counts b → buf.block = (s.buf b).block ∧
      ((s.buf b).valid = true → buf.valid = true))
    (filling : ∀ c number work, s.place p = .filling c number work → c = b)
    (held : buf.lock = some p →
      (∃ number, Holds t p b number) ∨ ∃ number work, place = .filling b number work)
    (ok : PlaceOk t p place)
    (works : ∀ c number, (c, number) ∈ place.work.holds start s.blocks →
      c ≠ b ∧ Holds s p c number ∨ Holds t p c number)
    (kept : ∀ number ∈ s.pinned, (s.buf b).block = some number → (s.buf b).valid = true →
      buf.block = some number ∧ buf.valid = true) : Access start t := by
  obtain ⟨here, bufs, placed, places⟩ : t.buf b = buf ∧ (∀ c, c ≠ b → t.buf c = s.buf c) ∧
      t.place p = place ∧ ∀ q, q ≠ p → t.place q = s.place q := by
    subst isAfter
    exact ⟨buf_set, fun _ => buf_other, place_move, fun _ => place_other⟩
  obtain ⟨order, blocks, pinned⟩ : t.order = s.order ∧ t.blocks = s.blocks ∧
      t.pinned = s.pinned := by
    subst isAfter
    exact ⟨rfl, rfl, rfl⟩
  -- Other processes have locked other buffers.
  have others : ∀ q c, q ≠ p → (s.buf c).lock = some q ∨ (t.buf c).lock = some q →
      t.buf c = s.buf c := by
    intro q c other locked
    refine bufs c ?_
    rintro rfl
    rw [here] at locked
    exact other (mine q locked)
  refine ⟨?_, by rw [order]; exact access.listed, ?_, ?_, ?_, ?_, ?_, ?_⟩
  · have alone : ∀ c number, c ≠ b → (t.buf b).block = some number →
        (t.buf c).block = some number → False := by
      intro c number different first second
      rw [bufs c different] at second
      rw [here] at first
      rcases fresh number first with before | never
      · exact different (access.unique c b number second before)
      · exact never c second
    intro c d number first second
    by_cases isC : c = b <;> by_cases isD : d = b
    · rw [isC, isD]
    · subst isC
      exact (alone d number isD first second).elim
    · subst isD
      exact (alone c number isC second first).elim
    · rw [bufs c isC] at first
      rw [bufs d isD] at second
      exact access.unique c d number first second
  · intro c
    by_cases same : c = b
    · rw [same]
      exact counted
    · refine (access.counted c).other (bufs c same) ?_ places (by rw [placed]; exact counts c same)
      rw [System.pins, System.pins, pinned, bufs c same]
  · intro c zero used
    by_cases same : c = b
    · rw [same, here] at zero used ⊢
      exact settled zero used
    · rw [bufs c same] at zero used ⊢
      exact access.settled c zero used
  · intro c q locked
    by_cases own : q = p
    · subst own
      rw [placed]
      by_cases same : c = b
      · subst same
        exact held (by rwa [here] at locked)
      · rw [bufs c same] at locked
        rcases access.held c q locked with ⟨number, holds⟩ | ⟨number, work, fills⟩
        · exact Or.inl ⟨number, holds.congr (bufs c same)⟩
        · exact absurd (filling c number work fills) same
    · have same := others q c own (Or.inr locked)
      rw [same] at locked
      rw [places q own]
      exact (access.held c q locked).imp_left fun ⟨number, holds⟩ => ⟨number, holds.congr same⟩
  · intro q
    by_cases own : q = p
    · rw [own, placed]
      exact ok
    · have before := access.place q
      have user := users q own
      rw [places q own]
      cases place' : s.place q with
      | doing work => trivial
      | locking c number work =>
        rw [place'] at before user
        by_cases same : c = b
        · subst same
          rw [PlaceOk, here]
          exact (user rfl).1.trans before
        · simpa only [PlaceOk, bufs c same] using before
      | filling c number work =>
        rw [place'] at before
        simpa only [PlaceOk, others q c own (Or.inl before.1)] using before
      | releasing c work =>
        rw [place'] at before user
        by_cases same : c = b
        · subst same
          rw [PlaceOk, here]
          exact (user rfl).2 before
        · simpa only [PlaceOk, bufs c same] using before
  · intro q c number uses
    rw [blocks] at uses
    by_cases own : q = p
    · subst own
      rw [placed] at uses
      rcases works c number uses with ⟨different, holds⟩ | holds
      · exact holds.congr (bufs c different)
      · exact holds
    · rw [places q own] at uses
      have holds := access.works q c number uses
      exact holds.congr (others q c own (Or.inl holds.lock))
  · rw [pinned]
    intro number pin
    obtain ⟨c, block, valid⟩ := access.pinned number pin
    by_cases same : c = b
    · subst same
      exact ⟨c, by rw [here]; exact kept number pin block valid⟩
    · exact ⟨c, by rw [bufs c same]; exact ⟨block, valid⟩⟩

/-- `bget` of a block that a buffer has. -/
theorem Access.hit (access : Access start s) (here : s.place p = .doing work)
    (has : (s.buf b).block = some number) :
    Access start ((s.set b (s.buf b).hit).move p (.locking b number work)) := by
  refine access.sameShape (sameShape_update (t := (s.set b (s.buf b).hit).move p _) rfl rfl rfl rfl)
    (fun _ other => place_other other) access.listed (fun c => ?_) (fun c zero => ?_) (Or.inl rfl)
    (by rw [place_move]; exact has) (by rw [here]; simp) ?_ access.pinned
  · by_cases same : c = b
    · subst same
      refine (access.counted c).enter (p := p) (by rw [here]; exact id) (by rw [place_move]; rfl)
        (fun _ other => place_other other) ?_
      simp [System.fixed, System.pins, Buf.hit]
      omega
    · refine (access.counted c).other (p := p) (buf_other same) (by simp [System.pins, buf_other same])
        (fun _ other => place_other other) ?_
      rw [place_move, here]
      simp [Place.Counts, Ne.symm same]
  · by_cases same : c = b
    · subst same
      simp [Buf.hit] at zero
    · exact Or.inl (by simpa [buf_other same] using zero)
  · rw [place_move]
    intro c k held
    exact access.works p c k (by rw [here]; exact held)

/-- `bget` of a block that no buffer has. -/
theorem Access.recycle (access : Access start s) (here : s.place p = .doing work)
    (missing : ∀ c, (s.buf c).block ≠ some number) (free : (s.buf b).refcnt = 0) :
    Access start ((s.set b ((s.buf b).recycle number)).move p (.locking b number work)) := by
  obtain ⟨unused, unlocked, unpinned⟩ := (access.counted b).unused free
  have notPinned : number ∉ s.pinned := by
    intro pin
    obtain ⟨c, block, -⟩ := access.pinned number pin
    exact missing c block
  have nobody : ∀ q, (s.buf b).lock ≠ some q := by simp [unlocked]
  refine access.onlyAt rfl ?_ ?_ (by simp [Buf.recycle]) ?_ ?_
    (fun q _ uses => absurd uses (unused q)) (by simp [here]) (fun locked => absurd locked (nobody p))
    (by simp [PlaceOk, Buf.recycle]) ?_ ?_
  · intro c other
    rw [here]
    simp [Place.Counts, Ne.symm other]
  · refine (access.counted b).enter (p := p) (unused p) (by rw [place_move]; rfl)
      (fun _ other => place_other other) ?_
    have before : s.fixed b = 0 := by simp [System.fixed, unlocked, unpinned]
    have after : ((s.set b ((s.buf b).recycle number)).move p (.locking b number work)).fixed b = 0 := by
      have none : (s.pinned.map some).count (some number) = 0 :=
        List.count_eq_zero.mpr (by simpa using notPinned)
      simpa [System.fixed, System.pins, Buf.recycle, unlocked] using none
    rw [before, after, free]
    simp [Buf.recycle]
  · rintro k ⟨⟩
    exact Or.inr missing
  · rintro q (locked | locked)
    · exact absurd locked (nobody q)
    · exact absurd locked (nobody q)
  · intro c k held
    have holds := access.works p c k (by rw [here]; exact held)
    refine Or.inl ⟨?_, holds⟩
    rintro rfl
    exact nobody p holds.lock
  · intro k pin block valid
    have positive : 0 < s.pins b := by
      rw [System.pins, block]
      exact List.count_pos_iff.mpr (List.mem_map_of_mem pin)
    omega

/-- The end of `brelse`. -/
theorem Access.unref (access : Access start s) (here : s.place p = .releasing b work) :
    Access start ((s.unref b).move p (.doing work)) := by
  have valid : (s.buf b).valid = true := by
    have ok := access.place p
    rwa [here] at ok
  refine access.sameShape (sameShape_update (t := (s.unref b).move p _) rfl rfl rfl rfl)
    (fun _ other => place_other other) (fun c => ?_) (fun c => ?_) (fun c zero => ?_) (Or.inl rfl)
    (by rw [place_move]; trivial) (by rw [here]; simp) ?_ access.pinned
  · simp only [System.unref, System.move]
    split
    · by_cases same : c = b
      · rw [same]
        exact List.mem_cons_self
      · exact List.mem_cons_of_mem _ ((List.mem_erase_of_ne same).mpr (access.listed c))
    · exact access.listed c
  · by_cases same : c = b
    · subst same
      refine (access.counted c).leave (p := p) (by rw [here]; rfl) (by rw [place_move]; exact id)
        (fun _ other => place_other other) ?_
      intro positive
      simp only [System.unref, System.set, System.move, System.fixed, System.pins, System.pinned,
        System.blocks, Function.update_self]
      omega
    · refine (access.counted c).other (p := p) (by simp [System.unref, System.set, System.move, same])
        (by simp [System.pins, System.pinned, System.blocks, System.unref, System.set, System.move, same])
        (fun _ other => place_other other) ?_
      rw [place_move, here]
      simp [Place.Counts, Ne.symm same]
  · by_cases same : c = b
    · rw [same]
      exact Or.inr valid
    · exact Or.inl (by simpa [System.unref, System.set, System.move, same] using zero)
  · rw [place_move]
    intro c k held
    exact access.works p c k (by rw [here]; exact held)

omit [DecidableEq P] in
/-- `log_write` pins the buffer if its block is new in the log. -/
theorem Access.logWrite (access : Access start s) (inStep : InStep start s) {op : Nat}
    {log : GroupCommit.Log} (here : s.place p = .doing .user)
    (operating : s.group.pc p = .operating op) (locked : (s.buf b).lock = some p)
    (blocks : log.blocks = GroupCommit.absorb (s.buf b).blockno s.blocks) :
    Access start (s.note op b log ((s.buf b).bpinNew s.blocks)) := by
  obtain ⟨number, holds⟩ := access.holds here locked
  have blockno : (s.buf b).blockno = number := by simp [Buf.blockno, holds.block]
  have idle := inStep.idle_of_operating operating
  have installed : s.installed = 0 := (inStep.idle idle).2
  have before : s.pinned = s.blocks := by rw [System.pinned, installed, List.drop_zero]
  have after : (s.note op b log ((s.buf b).bpinNew s.blocks)).pinned =
      if number ∈ s.blocks then s.blocks else s.blocks ++ [number] := by
    change log.blocks.drop s.installed = _
    rw [installed, List.drop_zero, blocks, blockno, GroupCommit.absorb_eq]
  have others : ∀ c, c ≠ b → (s.buf c).block ≠ some number :=
    fun c different block => different (access.unique c b number block holds.block)
  have pins : ∀ c, c ≠ b → (s.note op b log ((s.buf b).bpinNew s.blocks)).pins c = s.pins c := by
    intro c different
    have same : (s.note op b log ((s.buf b).bpinNew s.blocks)).buf c = s.buf c := buf_other different
    rw [System.pins, System.pins, after, before, same]
    split
    · rfl
    · simp [Ne.symm (others c different)]
  refine access.sameShape (p := p) (sameShape_update (t := s.note op b log ((s.buf b).bpinNew s.blocks)) rfl rfl rfl rfl)
    (fun _ _ => rfl) access.listed (fun c => ?_) (fun c zero => ?_) ?_ ?_ (by rw [here]; simp)
    ?_ ?_
  · by_cases same : c = b
    · subst same
      refine (access.counted c).stay (fun _ => Iff.rfl) ?_
      have refcnt : ((s.note op c log ((s.buf c).bpinNew s.blocks)).buf c).refcnt =
          if number ∈ s.blocks then (s.buf c).refcnt else (s.buf c).refcnt + 1 := by
        simp [System.note, Buf.bpinNew, System.set, blockno]
      have lock : ((s.note op c log ((s.buf c).bpinNew s.blocks)).buf c).lock = (s.buf c).lock := by
        simp [System.note, Buf.bpinNew, System.set]
      have block : ((s.note op c log ((s.buf c).bpinNew s.blocks)).buf c).block = some number := by
        simp [System.note, Buf.bpinNew, System.set, holds.block]
      rw [refcnt, System.fixed, System.fixed, lock, System.pins, System.pins, after, before, block,
        holds.block]
      split
      · rfl
      · simp
        omega
    · exact (access.counted c).other (p := p) (buf_other same) (pins c same) (fun _ _ => rfl) Iff.rfl
  · by_cases same : c = b
    · rw [same]
      exact Or.inr holds.valid
    · exact Or.inl (by simpa [System.note, Buf.bpinNew, System.set, same] using zero)
  · exact Or.inr fun q _ => (inStep.process q).work_user (inStep.none_commits idle q)
  · change PlaceOk s p (s.place p)
    exact access.place p
  · change ∀ c k, (c, k) ∈ (s.place p).work.holds start _ → _
    rw [here]
    rintro _ _ ⟨⟩
  · rw [after]
    intro k listed
    have old : k ∈ s.blocks ∨ k = number := by
      split at listed
      · exact Or.inl listed
      · simpa using listed
    rcases old with old | rfl
    · exact access.pinned k (by rwa [before])
    · exact ⟨b, holds.block, holds.valid⟩

/-- `bunpin` in `install_trans`. -/
theorem Access.unpin (access : Access start s) (inStep : InStep start s) {tail : Nat} {lbuf dbuf : B}
    (here : s.place p = .doing (.unpin tail lbuf dbuf)) :
    Access start ((s.bunpin tail dbuf).move p (.doing (.relLbuf tail lbuf dbuf))) := by
  obtain ⟨⟨-, -, -, installed⟩, index, -⟩ := (processInStep_iff here).mp (inStep.process p)
  have bound := index tail rfl
  have holds : Holds s p dbuf (s.blocks.getD tail 0) :=
    access.works p dbuf _ (by rw [here]; simp [Place.work, Work.holds])
  have before : s.pinned = s.blocks.getD tail 0 :: s.blocks.drop (tail + 1) := by
    rw [System.pinned, installed, List.drop_eq_getElem_cons bound, List.getD_eq_getElem?_getD,
      List.getElem?_eq_getElem bound, Option.getD_some]
  have after : ((s.bunpin tail dbuf).move p (.doing (.relLbuf tail lbuf dbuf))).pinned =
      s.blocks.drop (tail + 1) := rfl
  refine access.sameShape (sameShape_update (t := (s.bunpin tail dbuf).move p _) rfl rfl rfl rfl)
    (fun _ other => place_other other) access.listed (fun c => ?_) (fun c zero => ?_)
    (Or.inl rfl) (by rw [place_move]; trivial) (by rw [here]; simp) ?_ ?_
  · by_cases same : c = dbuf
    · subst same
      refine (access.counted c).stay (fun q => ?_) ?_
      · by_cases own : q = p
        · rw [own, place_move, here]
          exact Iff.rfl
        · rw [place_other own]
          exact Iff.rfl
      · have buf : ((s.bunpin tail c).move p (.doing (.relLbuf tail lbuf c))).buf c =
            { s.buf c with refcnt := (s.buf c).refcnt - 1 } := by simp [System.bunpin, System.set]
        have positive : s.pins c = (((s.blocks.drop (tail + 1)).map some).count
            (some (s.blocks.getD tail 0))) + 1 := by
          rw [System.pins, before, holds.block, List.map_cons, List.count_cons_self]
        have fewer : ((s.bunpin tail c).move p (.doing (.relLbuf tail lbuf c))).pins c =
            ((s.blocks.drop (tail + 1)).map some).count (some (s.blocks.getD tail 0)) := by
          rw [System.pins, after, buf]
          simp only [holds.block]
        obtain ⟨waiting, -, total⟩ := counted_iff.mp (access.counted c)
        rw [System.fixed, positive] at total
        rw [System.fixed, System.fixed, positive, fewer, buf]
        simp only
        omega
    · refine (access.counted c).other (p := p) (buf_other same) ?_ (fun _ other => place_other other)
        (by rw [place_move, here]; exact Iff.rfl)
      have unchanged : ((s.bunpin tail dbuf).move p (.doing (.relLbuf tail lbuf dbuf))).buf c =
          s.buf c := buf_other same
      rw [System.pins, System.pins, after, before, unchanged, List.map_cons, List.count_cons_of_ne]
      exact fun block => same (access.unique c dbuf _ block.symm holds.block)
  · by_cases same : c = dbuf
    · rw [same]
      exact Or.inr holds.valid
    · exact Or.inl (by simpa [System.bunpin, System.set, same] using zero)
  · rw [place_move]
    intro c k held
    exact access.works p c k (by rw [here]; exact held)
  · intro k pin
    refine access.pinned k ?_
    rw [before]
    exact List.mem_cons_of_mem _ pin

/-- `acquiresleep` in `bget`. -/
theorem Access.lock (access : Access start s) (here : s.place p = .locking b number work)
    (free : (s.buf b).lock = none) :
    Access start ((s.set b { s.buf b with lock := some p }).move p (.filling b number work)) := by
  have block : (s.buf b).block = some number := by
    have ok := access.place p
    rwa [here] at ok
  refine access.onlyAt rfl ?_ ?_ (access.settled b) (fun _ => Or.inl) ?_ (fun _ _ _ => ⟨rfl, id⟩)
    (by simp [here]) (fun _ => Or.inr ⟨number, work, rfl⟩) (by simp [PlaceOk, block]) ?_
    fun _ _ block valid => ⟨block, valid⟩
  · intro c other
    rw [here]
    simp [Place.Counts, Ne.symm other]
  · refine (access.counted b).leave (p := p) (by rw [here]; rfl) (by rw [place_move]; exact id)
      (fun _ other => place_other other) fun _ => ?_
    simp [System.fixed, System.pins, free]
    omega
  · rintro q (before | after)
    · rw [free] at before
      cases before
    · exact (Option.some.inj after).symm
  · intro c k held
    have holds := access.works p c k (by rw [here]; exact held)
    refine Or.inl ⟨?_, holds⟩
    rintro rfl
    rw [holds.lock] at free
    cases free

/-- `bread` returns a valid buffer. -/
theorem Access.fill (access : Access start s) (inStep : InStep start s)
    (here : s.place p = .filling b number work) :
    Access start ((s.fill b).move p (.doing (work.got b))) := by
  obtain ⟨locked, block⟩ : (s.buf b).lock = some p ∧ (s.buf b).block = some number := by
    have ok := access.place p
    rwa [here] at ok
  obtain ⟨-, -, asked⟩ := (processInStep_iff here).mp (inStep.process p)
  obtain ⟨locked', block', valid', refcnt'⟩ : ((s.buf b).fill s.disk).lock = some p ∧
      ((s.buf b).fill s.disk).block = some number ∧ ((s.buf b).fill s.disk).valid = true ∧
      ((s.buf b).fill s.disk).refcnt = (s.buf b).refcnt := by
    unfold Buf.fill
    split
    · rename_i valid
      exact ⟨locked, block, valid, rfl⟩
    · exact ⟨locked, block, rfl, rfl⟩
  have mine : Holds ((s.fill b).move p (.doing (work.got b))) p b number :=
    ⟨by simpa [System.fill] using locked', by simpa [System.fill] using block',
      by simpa [System.fill] using valid'⟩
  refine access.onlyAt rfl ?_ ?_ (fun _ _ => valid') ?_ ?_
    (fun _ _ _ => ⟨block'.trans block.symm, fun _ => valid'⟩) ?_ (fun _ => Or.inl ⟨number, mine⟩)
    trivial ?_ ?_
  · intro c _
    rw [here]
    exact Iff.rfl
  · refine (access.counted b).stay (fun q => ?_) ?_
    · by_cases own : q = p
      · rw [own, place_move, here]
        exact Iff.rfl
      · rw [place_other own]
        exact Iff.rfl
    · simp [System.fixed, System.pins, System.fill, locked, locked', block, block', refcnt']
  · intro k same
    rw [block'] at same
    rw [block]
    exact Or.inl same
  · rw [locked, locked']
    rintro q (same | same)
    · exact (Option.some.inj same).symm
    · exact (Option.some.inj same).symm
  · intro c k work' filling
    rw [here, Place.filling.injEq] at filling
    exact filling.1.symm
  · intro c k held
    rcases holds_got asked held with old | ⟨rfl, rfl⟩
    · have holds := access.works p c k (by rw [here]; exact old)
      by_cases same : c = b
      · subst same
        obtain rfl : k = number := Option.some.inj (holds.block.symm.trans block)
        exact Or.inr mine
      · exact Or.inl ⟨same, holds⟩
    · exact Or.inr mine
  · intro k _ same _
    rw [block] at same
    exact ⟨block'.trans same, valid'⟩

/-- `releasesleep` in `brelse`. -/
theorem Access.brelse (access : Access start s) (inStep : InStep start s)
    (here : s.place p = .doing work) (locked : (s.buf b).lock = some p)
    (asks : work' = .user ∨ work.releases = some (b, work')) :
    Access start ((s.set b { s.buf b with lock := none }).move p (.releasing b work')) := by
  obtain ⟨number, holds⟩ := access.holds here locked
  obtain ⟨stage, -⟩ := (processInStep_iff here).mp (inStep.process p)
  refine access.onlyAt rfl ?_ ?_ (access.settled b) (fun _ => Or.inl) ?_ (fun _ _ _ => ⟨rfl, id⟩)
    (by simp [here]) (by simp) (by simpa [PlaceOk] using holds.valid) ?_
    fun _ _ block valid => ⟨block, valid⟩
  · intro c other
    rw [here]
    simp [Place.Counts, Ne.symm other]
  · refine (access.counted b).enter (p := p) (by rw [here]; exact id) (by rw [place_move]; rfl)
      (fun _ other => place_other other) ?_
    simp [System.fixed, System.pins, locked]
    omega
  · rintro q (before | after)
    · rw [locked] at before
      exact (Option.some.inj before).symm
    · cases after
  · intro c k held
    rcases asks with rfl | releases
    · cases held
    obtain ⟨before, k', also, tail, at_, numbers⟩ := holds_releases releases held
    have mine := access.works p c k (by rw [here]; exact before)
    have released := access.works p b k' (by rw [here]; exact also)
    have bound : tail < s.blocks.length := by
      rcases at_ with at_ | at_
      all_goals
        rw [show (Place.doing work).work.stage = _ from at_] at stage
        exact stage.2.1
    refine Or.inl ⟨?_, mine⟩
    rintro rfl
    have same : k = k' := Option.some.inj (mine.block.symm.trans released.block)
    subst same
    rcases numbers with ⟨first, second⟩ | ⟨first, second⟩
    · exact inStep.apart bound (second.symm.trans first)
    · exact inStep.apart bound (second.symm.trans first)

theorem Access.step (access : Access start s) (inStep : InStep start s) (step : Step start s t) :
    Access start t := by
  cases step with
  | beginOp p log here entering room =>
    obtain ⟨-, rfl⟩ := GroupCommit.beginOp_some room
    exact access.sameCounts (p := p) (fun _ => ⟨rfl, rfl, rfl⟩) (fun _ => rfl) rfl (fun _ _ => rfl)
      here here rfl (Or.inl rfl) (by rintro _ _ ⟨⟩)
  | wait p here entering full =>
    exact access.sameCounts (p := p) (fun _ => ⟨rfl, rfl, rfl⟩) (fun _ => rfl) rfl (fun _ _ => rfl)
      here here rfl (Or.inl rfl) (by rintro _ _ ⟨⟩)
  | endOp p op log here operating others =>
    obtain ⟨-, -, rfl⟩ := GroupCommit.endOp_ok others
    exact access.sameCounts (p := p) (fun _ => ⟨rfl, rfl, rfl⟩) (fun _ => rfl) rfl (fun _ _ => rfl)
      here here rfl (Or.inl rfl) (by rintro _ _ ⟨⟩)
  | lastOp p op log here operating alone =>
    obtain ⟨-, -, rfl⟩ := GroupCommit.endOp_ok alone
    exact access.sameCounts (fun _ => ⟨rfl, rfl, rfl⟩) (fun _ => rfl) rfl
      (fun _ other => place_other other) here place_move rfl (Or.inl rfl) (by rintro _ _ ⟨⟩)
  | clear p here done | begin p here some | logged p tail here all =>
    exact access.sameCounts (fun _ => ⟨rfl, rfl, rfl⟩) (fun _ => rfl) rfl
      (fun _ other => place_other other) here place_move rfl (Or.inl rfl) (by rintro _ _ ⟨⟩)
  | modify p b data here holds home =>
    exact access.sameCounts (sameShape_update rfl rfl rfl rfl) (refcnt_update rfl rfl) rfl
      (fun _ _ => rfl) here here rfl (Or.inl rfl) (by rintro _ _ ⟨⟩)
  | empty p copied here copying none =>
    refine access.sameCounts (fun _ => ⟨rfl, rfl, rfl⟩) (fun _ => rfl) rfl
      (fun _ other => place_other other) here place_move ?_ ?_ (by rintro _ _ ⟨⟩)
    · change List.drop s.installed [] = s.pinned
      rw [System.pinned, none]
    · exact Or.inr (inStep.others_user (by rw [copying]; trivial))
  | copyLog p tail toBuf fromBuf copied number here copying next | fillHead p erase buf here
  | copyHome p tail lbuf dbuf here =>
    refine access.sameCounts (sameShape_update rfl rfl rfl rfl) (refcnt_update rfl rfl) rfl
      (fun _ other => place_other other) here place_move rfl (Or.inl rfl) fun c k held => ?_
    exact access.works p c k (by rw [here]; exact held)
  | bwrite p b work work' here holds asks =>
    refine access.sameCounts (sameShape_update rfl rfl rfl rfl) (refcnt_update rfl rfl) rfl
      (fun _ other => place_other other) here place_move rfl (Or.inl rfl) fun c k held => ?_
    refine access.works p c k ?_
    rw [here]
    cases work <;> cases asks <;> exact held
  | erase p tail copied here copying all =>
    obtain ⟨⟨-, -, -, installed⟩, -⟩ := (processInStep_iff here).mp (inStep.process p)
    refine access.sameCounts (fun _ => ⟨rfl, rfl, rfl⟩) (fun _ => rfl) rfl
      (fun _ other => place_other other) here place_move ?_ ?_ (by rintro _ _ ⟨⟩)
    · change List.drop 0 [] = s.pinned
      rw [System.pinned, installed, all, List.drop_length]
      rfl
    · exact Or.inr (inStep.others_user (by rw [copying]; trivial))
  | bget p number work b t here asks found =>
    rcases (bget_some found).2 with ⟨has, rfl⟩ | ⟨missing, free, rfl⟩
    · exact access.hit here has
    · exact access.recycle here (fun c => missing c (access.listed c)) free
  | unref p b work here => exact access.unref here
  | logWrite p op b log buf here operating holds home wrote =>
    obtain ⟨-, -, rfl, rfl⟩ := logWrite_ok wrote
    exact access.logWrite inStep here operating holds rfl
  | unpin p tail lbuf dbuf here => exact access.unpin inStep here
  | lock p b number work here free => exact access.lock here free
  | fill p b number work here => exact access.fill inStep here
  | brelse p b work work' here holds asks =>
    exact access.brelse inStep here holds (asks.imp_left fun user => user.2.1)

end Steps

end Xv6.BufferCache
