import Xv6.Log.BufferUse

/-!
# What buffers hold

A valid buffer that is not being changed holds what was last logged for its block, or for a
block of the log area what the disk holds.
-/

namespace Xv6.BufferCache

open Transition Function
open GroupCommit (InCommit)

def Work.dirties {B : Type} : Work B → Option B
  | .bwriteLog _ toBuf _ => some toBuf
  | .bwriteHead _ buf => some buf
  | _ => none

variable {P B : Type} {start : Nat}

def System.expected (start : Nat) (s : System P B) (number : Nat) : Block :=
  if Home start number then s.group.cache number else s.disk number

def Copied (s : System P B) : Work B → Prop
  | .bwriteLog tail toBuf _ => (s.buf toBuf).data = s.group.cache (s.blocks.getD tail 0)
  | .unpin tail _ _ => s.disk (s.blocks.getD tail 0) = s.group.cache (s.blocks.getD tail 0)
  | _ => True

structure Contents (start : Nat) (s : System P B) : Prop where
  clean : ∀ b, (s.buf b).lock = none → (s.buf b).dirty = false
  filling : ∀ p b number work, s.place p = .filling b number work → (s.buf b).dirty = false
  works : ∀ p b number, (b, number) ∈ (s.place p).work.holds start s.blocks →
    (s.buf b).dirty = true → (s.place p).work.dirties = some b
  contents : ∀ b number, (s.buf b).block = some number → (s.buf b).valid = true →
    (s.buf b).dirty = false → (s.buf b).data = s.expected start number
  disk : ∀ number, Home start number → number ∉ s.pinned → s.disk number = s.group.cache number
  written : ∀ tail, tail < s.written → tail < s.blocks.length →
    s.disk (start + tail + 1) = s.group.cache (s.blocks.getD tail 0)
  copied : ∀ p, Copied s (s.place p).work

section Frames

variable {s t : System P B} {p : P} {b : B} {number : Nat} {work work' : Work B}

structure Beside (p : P) (s t : System P B) : Prop where
  places : ∀ q, q ≠ p → t.place q = s.place q
  disk : t.disk = s.disk
  cache : t.group.cache = s.group.cache
  blocks : t.blocks = s.blocks
  written : t.written = s.written
  installed : t.installed = s.installed

theorem Beside.expected (beside : Beside p s t) (number : Nat) :
    t.expected start number = s.expected start number := by
  simp only [System.expected, beside.cache, beside.disk]

theorem Beside.disk_pinned (beside : Beside p s t) (contents : Contents start s) (number : Nat)
    (home : Home start number) (unpinned : number ∉ t.pinned) :
    t.disk number = t.group.cache number := by
  rw [System.pinned, beside.blocks, beside.installed] at unpinned
  rw [beside.disk, beside.cache]
  exact contents.disk number home unpinned

theorem Beside.disk_written (beside : Beside p s t) (contents : Contents start s) (tail : Nat)
    (earlier : tail < t.written) (within : tail < t.blocks.length) :
    t.disk (start + tail + 1) = t.group.cache (t.blocks.getD tail 0) := by
  rw [beside.written] at earlier
  rw [beside.blocks] at within ⊢
  rw [beside.disk, beside.cache]
  exact contents.written tail earlier within

theorem Beside.copied (beside : Beside p s t) (copied : Copied s work)
    (data : ∀ tail toBuf fromBuf, work = .bwriteLog tail toBuf fromBuf →
      (t.buf toBuf).data = (s.buf toBuf).data) : Copied t work := by
  cases work with
  | bwriteLog tail toBuf fromBuf =>
    simpa only [Copied, data _ _ _ rfl, beside.cache, beside.blocks] using copied
  | unpin tail lbuf dbuf =>
    simpa only [Copied, beside.disk, beside.cache, beside.blocks] using copied
  | _ => trivial

theorem Contents.advance (contents : Contents start s) (access : Access start s)
    (beside : Beside p s t) (touched : B → Prop) (bufs : ∀ c, ¬ touched c → t.buf c = s.buf c)
    (mine : ∀ c q, touched c → (s.buf c).lock = some q → q = p)
    (clean : ∀ c, touched c → (t.buf c).lock = none → (t.buf c).dirty = false)
    (filling : ∀ c number work, t.place p = .filling c number work → (t.buf c).dirty = false)
    (works : ∀ c number, (c, number) ∈ (t.place p).work.holds start s.blocks →
      (t.buf c).dirty = true → (t.place p).work.dirties = some c)
    (holds : ∀ c number, touched c → (t.buf c).block = some number → (t.buf c).valid = true →
      (t.buf c).dirty = false → (t.buf c).data = s.expected start number)
    (copied : Copied t (t.place p).work) : Contents start t := by
  -- Buffers that other processes have locked are as they were.
  have others : ∀ q c, q ≠ p → (s.buf c).lock = some q → t.buf c = s.buf c := by
    intro q c other locked
    exact bufs c fun hit => other (mine c q hit locked)
  refine ⟨fun c unlocked => ?_, fun q c k w here => ?_, fun q c k uses dirty => ?_,
    fun c k block valid undirty => ?_, beside.disk_pinned contents, beside.disk_written contents,
    fun q => ?_⟩
  · by_cases hit : touched c
    · exact clean c hit unlocked
    · rw [bufs c hit] at unlocked ⊢
      exact contents.clean c unlocked
  · by_cases own : q = p
    · subst own
      exact filling c k w here
    · rw [beside.places q own] at here
      have locked := access.place q
      rw [here] at locked
      rw [others q c own locked.1]
      exact contents.filling q c k w here
  · rw [beside.blocks] at uses
    by_cases own : q = p
    · subst own
      exact works c k uses dirty
    · rw [beside.places q own] at uses ⊢
      rw [others q c own (access.works q c k uses).lock] at dirty
      exact contents.works q c k uses dirty
  · rw [beside.expected]
    by_cases hit : touched c
    · exact holds c k hit block valid undirty
    · rw [bufs c hit] at block valid undirty ⊢
      exact contents.contents c k block valid undirty
  · by_cases own : q = p
    · rw [own]
      exact copied
    · rw [beside.places q own]
      refine beside.copied (contents.copied q) fun tail toBuf fromBuf works => ?_
      have holds := access.works q toBuf (start + tail + 1)
      rw [others q toBuf own (holds (by simp [works, Work.holds])).lock]

theorem Contents.sameData (contents : Contents start s)
    (data : ∀ c, (t.buf c).data = (s.buf c).data) (dirty : ∀ c, (t.buf c).dirty = (s.buf c).dirty)
    (clean : ∀ c, (t.buf c).lock = none → (s.buf c).lock = none ∨ (s.buf c).dirty = false)
    (same : ∀ c number, (t.buf c).block = some number → (t.buf c).valid = true →
      (s.buf c).block = some number ∧ (s.buf c).valid = true)
    (beside : Beside p s t)
    (filling : ∀ c number work, t.place p = .filling c number work → (s.buf c).dirty = false)
    (works : ∀ c number, (c, number) ∈ (t.place p).work.holds start s.blocks →
      (s.buf c).dirty = true → (t.place p).work.dirties = some c)
    (copied : Copied s (t.place p).work) : Contents start t := by
  refine ⟨fun c unlocked => ?_, fun q c k w here => ?_, fun q c k uses marked => ?_,
    fun c k block valid undirty => ?_, beside.disk_pinned contents, beside.disk_written contents,
    fun q => beside.copied ?_ fun _ toBuf _ _ => data toBuf⟩
  · rw [dirty]
    exact (clean c unlocked).elim (contents.clean c) id
  · rw [dirty]
    by_cases own : q = p
    · subst own
      exact filling c k w here
    · rw [beside.places q own] at here
      exact contents.filling q c k w here
  · rw [beside.blocks] at uses
    rw [dirty] at marked
    by_cases own : q = p
    · subst own
      exact works c k uses marked
    · rw [beside.places q own] at uses ⊢
      exact contents.works q c k uses marked
  · rw [dirty] at undirty
    rw [data, beside.expected]
    obtain ⟨before, valid⟩ := same c k block valid
    exact contents.contents c k before valid undirty
  · by_cases own : q = p
    · rw [own]
      exact copied
    · rw [beside.places q own]
      exact contents.copied q

theorem Contents.still (contents : Contents start s) (bufs : t.buf = s.buf)
    (beside : Beside p s t) (there : t.place p = .doing work')
    (none : work'.holds start s.blocks = []) : Contents start t := by
  refine contents.sameData (fun _ => by rw [bufs]) (fun _ => by rw [bufs])
    (by rw [bufs]; exact fun _ => Or.inl) (by rw [bufs]; exact fun _ _ => And.intro) beside
    (by rw [there]; simp) ?_ ?_
  · rw [there]
    intro c number uses
    change (c, number) ∈ work'.holds start s.blocks at uses
    rw [none] at uses
    cases uses
  · rw [there]
    cases work' <;> trivial

/-- A step while only one process is in `commit`. -/
theorem Contents.alone (users : ∀ q, q ≠ p → (s.place q).work = .user)
    (places : ∀ q, q ≠ p → t.place q = s.place q) (there : t.place p = .doing work')
    (clean : ∀ c, (t.buf c).lock = none → (t.buf c).dirty = false)
    (filling : ∀ q c number work, s.place q = .filling c number work → (t.buf c).dirty = false)
    (works : ∀ c number, (c, number) ∈ work'.holds start t.blocks → (t.buf c).dirty = true →
      work'.dirties = some c)
    (contents : ∀ c number, (t.buf c).block = some number → (t.buf c).valid = true →
      (t.buf c).dirty = false → (t.buf c).data = t.expected start number)
    (disk : ∀ number, Home start number → number ∉ t.pinned → t.disk number = t.group.cache number)
    (written : ∀ tail, tail < t.written → tail < t.blocks.length →
      t.disk (start + tail + 1) = t.group.cache (t.blocks.getD tail 0))
    (copied : Copied t work') : Contents start t := by
  refine ⟨clean, fun q c k w here => ?_, fun q c k uses dirty => ?_, contents, disk, written,
    fun q => ?_⟩
  · by_cases own : q = p
    · rw [own, there] at here
      cases here
    · rw [places q own] at here
      exact filling q c k w here
  · by_cases own : q = p
    · subst own
      rw [there] at uses ⊢
      exact works c k uses dirty
    · rw [places q own, users q own] at uses
      cases uses
  · by_cases own : q = p
    · rw [own, there]
      exact copied
    · rw [places q own, users q own]
      trivial

theorem releases_clean (start : Nat) (blocks : List Nat) (releases : work.releases = some (b, work')) :
    (∃ number, (b, number) ∈ work.holds start blocks) ∧ work.dirties = none ∧
      ∀ s : System P B, Copied s work' := by
  cases work <;> simp only [Work.releases, Option.some.injEq, Prod.mk.injEq, reduceCtorEq] at releases
  case relFrom | relTo | relLbuf | relDbuf =>
    obtain ⟨rfl, rfl⟩ := releases
    exact ⟨by simp [Work.holds], rfl, fun _ => trivial⟩
  case relHead erase buf =>
    obtain ⟨rfl, rfl⟩ := releases
    refine ⟨by simp [Work.holds], rfl, fun _ => ?_⟩
    cases erase <;> trivial

theorem asks_clean {blocks : List Nat}
    (asks : work = .user ∨ work.asks start blocks = some number) (b : B) :
    work.dirties = none ∧ ∀ s : System P B, Copied s (work.got b) := by
  cases work <;> first | exact ⟨rfl, fun _ => trivial⟩ | simp [Work.asks] at asks

theorem Contents.filled (contents : Contents start s) (access : Access start s)
    (here : s.place p = .filling b number work) :
    ((s.buf b).fill s.disk).data = s.expected start number := by
  obtain ⟨-, block⟩ : (s.buf b).lock = some p ∧ (s.buf b).block = some number := by
    have ok := access.place p
    rwa [here] at ok
  unfold Buf.fill
  split
  · rename_i valid
    exact contents.contents b number block valid (contents.filling p b number work here)
  · rename_i invalid
    simp only [Buf.blockno, block, Option.getD_some]
    unfold System.expected
    split
    · rename_i home
      -- A buffer that is not valid is not pinned, so the disk has what was last logged.
      refine contents.disk number home fun pin => ?_
      obtain ⟨c, has, valid⟩ := access.pinned number pin
      rw [access.unique c b number has block] at valid
      exact invalid valid
    · rfl

theorem Contents.read (contents : Contents start s) (access : Access start s)
    (here : s.place p = .doing work) (undirty : work.dirties = none) (b : B) (number : Nat)
    (held : (b, number) ∈ work.holds start s.blocks) :
    Holds s p b number ∧ (s.buf b).dirty = false ∧ (s.buf b).data = s.expected start number := by
  have holds := access.works p b number (by rw [here]; exact held)
  have clean : (s.buf b).dirty = false := by
    by_contra dirty
    have marked := contents.works p b number (by rw [here]; exact held) (by simpa using dirty)
    rw [here] at marked
    exact absurd (undirty.symm.trans marked) (by simp)
  exact ⟨holds, clean, contents.contents b number holds.block holds.valid clean⟩

theorem InStep.areas (inStep : InStep start s) {tail : Nat} (bound : tail < s.blocks.length) :
    ¬ Home start (start + tail + 1) ∧ Home start (s.blocks.getD tail 0) := by
  have length := inStep.length
  refine ⟨by unfold Home; omega, inStep.home _ ?_⟩
  rw [List.getD_eq_getElem?_getD, List.getElem?_eq_getElem bound, Option.getD_some]
  exact List.getElem_mem bound

/-- The three writes of `commit`. -/
theorem writes_some (writes : work.writes = some (b, work')) :
    (∃ tail fromBuf, work = .bwriteLog tail b fromBuf ∧ work' = .relFrom tail b fromBuf) ∨
      (∃ erase, work = .bwriteHead erase b ∧ work' = .relHead erase b) ∨
      ∃ tail lbuf, work = .bwriteHome tail lbuf b ∧ work' = .unpin tail lbuf b := by
  cases work <;> simp only [Work.writes, Option.some.injEq, Prod.mk.injEq, reduceCtorEq] at writes
  case bwriteLog tail toBuf fromBuf =>
    obtain ⟨rfl, rfl⟩ := writes
    exact Or.inl ⟨tail, fromBuf, rfl, rfl⟩
  case bwriteHead erase buf =>
    obtain ⟨rfl, rfl⟩ := writes
    exact Or.inr (Or.inl ⟨erase, rfl, rfl⟩)
  case bwriteHome tail lbuf dbuf =>
    obtain ⟨rfl, rfl⟩ := writes
    exact Or.inr (Or.inr ⟨tail, lbuf, rfl, rfl⟩)

end Frames

section Steps

variable [DecidableEq P] [DecidableEq B] {s t : System P B} {p : P} {b : B} {number : Nat}
  {work work' : Work B}

omit [DecidableEq P] in
theorem Contents.keepData (contents : Contents start s) {x : Buf P}
    (bufs : t.buf = update s.buf b x) (data : x.data = (s.buf b).data)
    (dirty : x.dirty = (s.buf b).dirty)
    (clean : x.lock = none → (s.buf b).lock = none ∨ (s.buf b).dirty = false)
    (same : ∀ number, x.block = some number → x.valid = true →
      (s.buf b).block = some number ∧ (s.buf b).valid = true) (beside : Beside p s t)
    (filling : ∀ c number work, t.place p = .filling c number work → (s.buf c).dirty = false)
    (works : ∀ c number, (c, number) ∈ (t.place p).work.holds start s.blocks →
      (s.buf c).dirty = true → (t.place p).work.dirties = some c)
    (copied : Copied s (t.place p).work) : Contents start t := by
  have here : t.buf b = x := by simp [bufs]
  have other : ∀ c, c ≠ b → t.buf c = s.buf c := fun c other => by simp [bufs, other]
  refine contents.sameData (fun c => ?_) (fun c => ?_) (fun c => ?_) (fun c => ?_) beside filling
    works copied
  · by_cases hit : c = b
    · rwa [hit, here]
    · rw [other c hit]
  · by_cases hit : c = b
    · rwa [hit, here]
    · rw [other c hit]
  · by_cases hit : c = b
    · rwa [hit, here]
    · rw [other c hit]
      exact Or.inl
  · by_cases hit : c = b
    · rwa [hit, here]
    · rw [other c hit]
      exact fun _ => And.intro

omit [DecidableEq P] in
theorem Contents.keepWork (contents : Contents start s) {x : Buf P}
    (bufs : t.buf = update s.buf b x) (data : x.data = (s.buf b).data)
    (dirty : x.dirty = (s.buf b).dirty)
    (clean : x.lock = none → (s.buf b).lock = none ∨ (s.buf b).dirty = false)
    (same : ∀ number, x.block = some number → x.valid = true →
      (s.buf b).block = some number ∧ (s.buf b).valid = true) (beside : Beside p s t)
    (work : (t.place p).work = (s.place p).work)
    (filling : ∀ c number work, t.place p = .filling c number work → (s.buf c).dirty = false) :
    Contents start t :=
  contents.keepData bufs data dirty clean same beside filling (by rw [work]; exact contents.works p)
    (by rw [work]; exact contents.copied p)

theorem Contents.fill (contents : Contents start s) (access : Access start s) (inStep : InStep start s)
    (here : s.place p = .filling b number work) :
    Contents start ((s.fill b).move p (.doing (work.got b))) := by
  obtain ⟨locked, block⟩ : (s.buf b).lock = some p ∧ (s.buf b).block = some number := by
    have ok := access.place p
    rwa [here] at ok
  obtain ⟨-, -, asked⟩ := (processInStep_iff here).mp (inStep.process p)
  obtain ⟨undirtied, uncopied⟩ := asks_clean (P := P) asked b
  have undirty := contents.filling p b number work here
  have works := contents.works p
  rw [here] at works
  have data := contents.filled access here
  have dirty : ((s.buf b).fill s.disk).dirty = false := by
    unfold Buf.fill
    split <;> exact undirty
  have stays : ((s.buf b).fill s.disk).block = (s.buf b).block ∧
      ((s.buf b).fill s.disk).lock = (s.buf b).lock := by
    unfold Buf.fill
    split <;> exact ⟨rfl, rfl⟩
  refine contents.advance access (p := p) ⟨fun _ => place_other, rfl, rfl, rfl, rfl, rfl⟩ (· = b)
    (fun _ => buf_other) ?_ ?_ ?_ ?_ ?_ ?_
  · rintro c q rfl holder
    rw [locked] at holder
    exact (Option.some.inj holder).symm
  · rintro c rfl -
    simpa [System.fill] using dirty
  · rw [place_move]
    simp
  · rw [place_move]
    intro c k held marked
    by_cases same : c = b
    · subst same
      simp [System.fill, dirty] at marked
    · rcases holds_got asked held with old | ⟨rfl, -⟩
      · have before := works c k old (by simpa [System.fill, buf_other same] using marked)
        exact absurd (undirtied.symm.trans before) (by simp)
      · exact absurd rfl same
  · rintro c k rfl has - -
    rw [show (((s.fill c).move p (.doing (work.got c))).buf c) = (s.buf c).fill s.disk by
      simp [System.fill]] at has ⊢
    rw [stays.1, block, Option.some.injEq] at has
    rw [data, has]
  · rw [place_move]
    exact uncopied _

omit [DecidableEq P] in
theorem Contents.change (contents : Contents start s) (access : Access start s)
    (locked : (s.buf b).lock = some p) {x : Buf P} (bufs : t.buf = update s.buf b x)
    (lock : x.lock = (s.buf b).lock) (beside : Beside p s t) (there : t.place p = .doing work')
    (works : ∀ c number, (c, number) ∈ work'.holds start s.blocks → (t.buf c).dirty = true →
      work'.dirties = some c)
    (holds : ∀ number, x.block = some number → x.valid = true → x.dirty = false →
      x.data = s.expected start number)
    (copied : Copied t work') : Contents start t := by
  have here : t.buf b = x := by simp [bufs]
  refine contents.advance access beside (· = b) (fun c other => by simp [bufs, other]) ?_ ?_
    (by rw [there]; simp) (by rw [there]; exact works) ?_ (by rw [there]; exact copied)
  · rintro c q rfl holder
    rw [locked] at holder
    exact (Option.some.inj holder).symm
  · rintro c rfl unlocked
    rw [here, lock, locked] at unlocked
    cases unlocked
  · rintro c k rfl
    rw [here]
    exact holds k

omit [DecidableEq P] in
/-- The committing process writes a buffer that it has locked. -/
theorem Contents.write (contents : Contents start s) (access : Access start s)
    (users : ∀ q, q ≠ p → (s.place q).work = .user) (holds : Holds s p b number)
    (bufs : t.buf = update s.buf b { s.buf b with dirty := false })
    (places : ∀ q, q ≠ p → t.place q = s.place q)
    (disk : t.disk = update s.disk (s.buf b).blockno (s.buf b).data)
    (cache : t.group.cache = s.group.cache) (blocks : t.blocks = s.blocks)
    (installed : t.installed = s.installed) (there : t.place p = .doing work')
    (works : ∀ c k, (c, k) ∈ work'.holds start s.blocks → c ≠ b → (s.buf c).dirty = false)
    (home : Home start number → (s.buf b).data = s.group.cache number)
    (written : ∀ tail, tail < t.written → tail < s.blocks.length →
      update s.disk number (s.buf b).data (start + tail + 1) = s.group.cache (s.blocks.getD tail 0))
    (copied : t.disk number = (s.buf b).data → Copied t work') : Contents start t := by
  rw [Buf.blockno, holds.block, Option.getD_some] at disk
  have here : t.buf b = { s.buf b with dirty := false } := by simp [bufs]
  have other : ∀ c, c ≠ b → t.buf c = s.buf c := fun c other => by simp [bufs, other]
  have wrote : t.disk number = (s.buf b).data := by simp [disk]
  have kept : ∀ k, k ≠ number → t.disk k = s.disk k := fun k other => by simp [disk, other]
  refine Contents.alone users places there (fun c unlocked => ?_) (fun q c k w filling => ?_)
    (fun c k uses dirty => ?_) (fun c k block valid undirty => ?_) (fun k home' unpinned => ?_)
    (by rw [disk, cache, blocks]; exact written) (copied wrote)
  · by_cases same : c = b
    · rw [same, here]
    · rw [other c same] at unlocked ⊢
      exact contents.clean c unlocked
  · by_cases same : c = b
    · rw [same, here]
    · rw [other c same]
      exact contents.filling q c k w filling
  · rw [blocks] at uses
    by_cases same : c = b
    · rw [same, here] at dirty
      cases dirty
    · rw [other c same, works c k uses same] at dirty
      cases dirty
  · by_cases same : c = b
    · subst same
      rw [here] at block valid ⊢
      obtain rfl : number = k := Option.some.inj (holds.block.symm.trans block)
      rw [System.expected, cache, wrote]
      split
      · exact home ‹_›
      · rfl
    · rw [other c same] at block valid undirty ⊢
      have apart : k ≠ number := by
        rintro rfl
        exact same (access.unique c b k block holds.block)
      rw [System.expected, cache, kept k apart]
      exact contents.contents c k block valid undirty
  · rw [cache]
    by_cases same : k = number
    · rw [same] at home' ⊢
      rw [wrote]
      exact home home'
    · rw [kept k same]
      refine contents.disk k home' ?_
      rwa [System.pinned, blocks, installed] at unpinned

/-- `bwrite` of each of the three kinds of block. -/
theorem Contents.bwrite (contents : Contents start s) (access : Access start s)
    (inStep : InStep start s) (here : s.place p = .doing work)
    (asks : work.writes = some (b, work')) :
    Contents start ({ s.bwrite b with
        written := match work with
          | .bwriteLog tail _ _ => tail + 1
          | _ => s.written }.move p (.doing work')) := by
  obtain ⟨stage, index, -⟩ := (processInStep_iff here).mp (inStep.process p)
  have users : ∀ q, q ≠ p → (s.place q).work = .user := by
    refine inStep.others_user (stage.inCommit ?_)
    intro none
    rw [show work = .user from none] at asks
    cases asks
  have works := access.works p
  have dirties := contents.works p
  have copied := contents.copied p
  rw [here] at works dirties copied
  have clean : ∀ c, work.dirties ≠ some c → ∀ k, (c, k) ∈ work.holds start s.blocks →
      (s.buf c).dirty = false := by
    intro c undirty k held
    by_contra dirty
    exact undirty (dirties c k held (by simpa using dirty))
  rcases writes_some asks with ⟨tail, fromBuf, rfl, rfl⟩ | ⟨erase, rfl, rfl⟩ | ⟨tail, lbuf, rfl, rfl⟩
  · have bound : tail < s.blocks.length := stage.2.1
    have holds := works b (start + tail + 1) (by simp [Place.work, Work.holds])
    refine contents.write access users holds rfl (fun _ => place_other) rfl rfl rfl rfl place_move
      ?_ (fun home => absurd home (inStep.areas bound).1) ?_ fun _ => trivial
    · intro c k held other
      exact clean c (by simp [Work.dirties, other.symm]) k held
    · intro index earlier within
      change index < tail + 1 at earlier
      rcases Nat.lt_succ_iff_lt_or_eq.mp earlier with before | rfl
      · rw [update_of_ne (by omega)]
        exact contents.written index (by rw [stage.2.2.2.1]; exact before) within
      · rw [update_self]
        exact copied
  · have holds := works b start (by simp [Place.work, Work.holds])
    refine contents.write access users holds rfl (fun _ => place_other) rfl rfl rfl rfl place_move
      ?_ ?_ ?_ fun _ => trivial
    · intro c k held other
      exact clean c (by simp [Work.dirties, other.symm]) k held
    · intro home
      unfold Home at home
      omega
    · intro index earlier within
      rw [update_of_ne (by omega)]
      exact contents.written index earlier within
  · obtain ⟨-, home⟩ := inStep.areas (index tail rfl)
    have holds := works b (s.blocks.getD tail 0) (by simp [Place.work, Work.holds])
    have undirty := clean b (by rintro ⟨⟩) (s.blocks.getD tail 0) (by simp [Work.holds])
    have data : (s.buf b).data = s.group.cache (s.blocks.getD tail 0) := by
      have expected := contents.contents b _ holds.block holds.valid undirty
      rwa [System.expected, if_pos home] at expected
    refine contents.write access users holds rfl (fun _ => place_other) rfl rfl rfl rfl place_move
      ?_ (fun _ => data) ?_ fun wrote => wrote.trans data
    · intro c k held other
      exact clean c (by rintro ⟨⟩) k held
    · intro index earlier within
      have apart : start + index + 1 ≠ s.blocks.getD tail 0 := by
        intro same
        exact (inStep.areas within).1 (same ▸ home)
      rw [update_of_ne apart]
      exact contents.written index earlier within

omit [DecidableEq P] in
theorem Contents.logWrite (contents : Contents start s) (access : Access start s)
    (inStep : InStep start s) {op : Nat} {log : GroupCommit.Log} (here : s.place p = .doing .user)
    (operating : s.group.pc p = .operating op) (locked : (s.buf b).lock = some p)
    (home : Home start (s.buf b).blockno)
    (blocks : log.blocks = GroupCommit.absorb (s.buf b).blockno s.blocks) :
    Contents start (s.note op b log ((s.buf b).bpinNew s.blocks)) := by
  obtain ⟨number, holds⟩ := access.holds here locked
  have blockno : (s.buf b).blockno = number := by simp [Buf.blockno, holds.block]
  rw [blockno] at home blocks
  have idle := inStep.idle_of_operating operating
  obtain ⟨written, installed⟩ := inStep.idle idle
  have users : ∀ q, (s.place q).work = .user := fun q =>
    (inStep.process q).work_user (inStep.none_commits idle q)
  have after : ((s.note op b log ((s.buf b).bpinNew s.blocks)).buf b).dirty = false ∧
      ((s.note op b log ((s.buf b).bpinNew s.blocks)).buf b).lock = (s.buf b).lock ∧
      ((s.note op b log ((s.buf b).bpinNew s.blocks)).buf b).block = (s.buf b).block ∧
      ((s.note op b log ((s.buf b).bpinNew s.blocks)).buf b).data = (s.buf b).data := by
    simp [System.note, Buf.bpinNew, System.set]
  have other : ∀ c, c ≠ b → (s.note op b log ((s.buf b).bpinNew s.blocks)).buf c = s.buf c := fun c other => buf_other other
  have logged : (s.note op b log ((s.buf b).bpinNew s.blocks)).group.cache number = (s.buf b).data := by
    simp [System.note, Buf.bpinNew, blockno]
  have kept : ∀ k, k ≠ number → (s.note op b log ((s.buf b).bpinNew s.blocks)).group.cache k = s.group.cache k := by
    intro k other
    simp [System.note, Buf.bpinNew, blockno, other]
  have pinned : ∀ k, k ∈ (s.note op b log ((s.buf b).bpinNew s.blocks)).pinned ↔ k ∈ s.pinned ∨ k = number := by
    intro k
    have pins : (s.note op b log ((s.buf b).bpinNew s.blocks)).pinned = log.blocks.drop s.installed := rfl
    have was : s.pinned = s.blocks.drop s.installed := rfl
    rw [pins, was, installed, List.drop_zero, List.drop_zero, blocks, GroupCommit.mem_absorb]
  refine ⟨fun c unlocked => ?_, fun q c k w filling => ?_, fun q c k uses => ?_,
    fun c k block valid undirty => ?_, fun k home' unpinned => ?_, ?_, fun q => ?_⟩
  · by_cases same : c = b
    · rw [same]
      exact after.1
    · rw [other c same] at unlocked ⊢
      exact contents.clean c unlocked
  · by_cases same : c = b
    · rw [same]
      exact after.1
    · rw [other c same]
      exact contents.filling q c k w filling
  · have none : (c, k) ∈ (s.place q).work.holds start log.blocks := uses
    rw [users q] at none
    cases none
  · by_cases same : c = b
    · subst same
      rw [after.2.2.1] at block
      obtain rfl : number = k := Option.some.inj (holds.block.symm.trans block)
      rw [after.2.2.2, System.expected, if_pos home, logged]
    · rw [other c same] at block valid undirty ⊢
      have apart : k ≠ number := by
        rintro rfl
        exact same (access.unique c b k block holds.block)
      rw [System.expected, kept k apart]
      exact contents.contents c k block valid undirty
  · rw [pinned, not_or] at unpinned
    rw [kept k unpinned.2]
    exact contents.disk k home' unpinned.1
  · intro tail earlier
    have none : tail < s.written := earlier
    omega
  · change Copied _ (s.place q).work
    rw [users q]
    trivial

theorem Contents.unpin (contents : Contents start s) (inStep : InStep start s) {tail : Nat}
    {lbuf dbuf : B} (here : s.place p = .doing (.unpin tail lbuf dbuf)) :
    Contents start ((s.bunpin tail dbuf).move p (.doing (.relLbuf tail lbuf dbuf))) := by
  obtain ⟨stage, index, -⟩ := (processInStep_iff here).mp (inStep.process p)
  have users := inStep.others_user (stage.inCommit (by rintro ⟨⟩))
  have installed : s.installed = tail := stage.2.2.2
  have bound := index tail rfl
  have works := contents.works p
  have copied := contents.copied p
  rw [here] at works copied
  have same : ∀ c, ((s.bunpin tail dbuf).buf c).block = (s.buf c).block ∧
      ((s.bunpin tail dbuf).buf c).valid = (s.buf c).valid ∧
      ((s.bunpin tail dbuf).buf c).lock = (s.buf c).lock ∧
      ((s.bunpin tail dbuf).buf c).dirty = (s.buf c).dirty ∧
      ((s.bunpin tail dbuf).buf c).data = (s.buf c).data := by
    intro c
    by_cases hit : c = dbuf
    · subst hit
      simp [System.bunpin, System.set]
    · simp [System.bunpin, System.set, hit]
  -- The first pinned block is the installed one.
  have pinned : s.pinned = s.blocks.getD tail 0 :: s.blocks.drop (tail + 1) := by
    rw [System.pinned, installed, List.drop_eq_getElem_cons bound, List.getD_eq_getElem?_getD,
      List.getElem?_eq_getElem bound, Option.getD_some]
  refine Contents.alone users (fun _ => place_other) place_move (fun c unlocked => ?_)
    (fun q c k w filling => (same c).2.2.2.1.trans (contents.filling q c k w filling))
    (fun c k uses dirty => ?_) (fun c k block valid undirty => ?_) (fun k home unpinned => ?_)
    contents.written trivial
  · have unlocked := (same c).2.2.1.symm.trans unlocked
    exact (same c).2.2.2.1.trans (contents.clean c unlocked)
  · exact absurd (works c k uses ((same c).2.2.2.1.symm.trans dirty)) (by rintro ⟨⟩)
  · have block := (same c).1.symm.trans block
    have valid := (same c).2.1.symm.trans valid
    have undirty := (same c).2.2.2.1.symm.trans undirty
    exact (same c).2.2.2.2.trans (contents.contents c k block valid undirty)
  · by_cases first : k = s.blocks.getD tail 0
    · rw [first]
      exact copied
    · refine contents.disk k home ?_
      rw [pinned, List.mem_cons, not_or]
      exact ⟨first, unpinned⟩

omit [DecidableEq B] in
theorem Contents.erase (contents : Contents start s) (inStep : InStep start s) {tail : Nat}
    {copied : List (Nat × Block)} (here : s.place p = .doing (.fromLog tail))
    (all : tail = s.blocks.length) :
    Contents start ({ s.finish p copied with written := 0, installed := 0 }.move p
      (.doing (.head true))) := by
  obtain ⟨stage, -, -⟩ := (processInStep_iff here).mp (inStep.process p)
  have users := inStep.others_user (stage.inCommit (by rintro ⟨⟩))
  have none : s.pinned = [] := by
    have installed : s.installed = tail := stage.2.2.2
    rw [System.pinned, installed, all, List.drop_length]
  exact Contents.alone users (fun _ => place_other) place_move contents.clean contents.filling
    (by rintro _ _ ⟨⟩) contents.contents (fun k home _ => contents.disk k home (by rw [none]; simp))
    (by rintro _ ⟨⟩) trivial

theorem Contents.bget (contents : Contents start s) {number : Nat} {work : Work B} {b : B}
    (here : s.place p = .doing work) (found : s.bget number = some (b, t)) :
    Contents start (t.move p (.locking b number work)) := by
  rcases (bget_some found).2 with ⟨-, rfl⟩ | ⟨-, -, rfl⟩
  · exact contents.keepWork (x := (s.buf b).hit) rfl rfl rfl Or.inl (fun _ => And.intro)
      ⟨fun _ => place_other, rfl, rfl, rfl, rfl, rfl⟩ (by rw [place_move, here]; rfl) (by simp)
  · exact contents.keepWork (x := (s.buf b).recycle number) rfl rfl rfl Or.inl
      (fun _ _ => (by rintro ⟨⟩)) ⟨fun _ => place_other, rfl, rfl, rfl, rfl, rfl⟩
      (by rw [place_move, here]; rfl) (by simp)

theorem Contents.lock (contents : Contents start s) {number : Nat} {work : Work B} {b : B}
    (here : s.place p = .locking b number work) (free : (s.buf b).lock = none) :
    Contents start ((s.set b { s.buf b with lock := some p }).move p (.filling b number work)) := by
  refine contents.keepWork (x := { s.buf b with lock := some p }) rfl rfl rfl (by simp)
    (fun _ => And.intro) ⟨fun _ => place_other, rfl, rfl, rfl, rfl, rfl⟩
    (by rw [place_move, here]; rfl) ?_
  rw [place_move]
  rintro c k w ⟨⟩
  exact contents.clean b free

theorem Contents.brelse (contents : Contents start s) {work work' : Work B} {b : B}
    (here : s.place p = .doing work)
    (asks : (work = .user ∧ work' = .user ∧ (s.buf b).dirty = false) ∨
      work.releases = some (b, work')) :
    Contents start ((s.set b { s.buf b with lock := none }).move p (.releasing b work')) := by
  have works := contents.works p
  rw [here] at works
  refine contents.keepData (x := { s.buf b with lock := none }) rfl rfl rfl (fun _ => Or.inr ?_)
    (fun _ => And.intro) ⟨fun _ => place_other, rfl, rfl, rfl, rfl, rfl⟩ (by simp) ?_ ?_
  · rcases asks with ⟨-, -, clean⟩ | releases
    · exact clean
    · obtain ⟨⟨number, held⟩, undirty, -⟩ := releases_clean (P := P) start s.blocks releases
      by_contra dirty
      have marked := works b number held (by simpa using dirty)
      exact absurd (undirty.symm.trans marked) (by simp)
  · rw [place_move]
    intro c k held dirty
    rcases asks with ⟨-, rfl, -⟩ | releases
    · cases held
    · have marked := works c k (holds_releases releases held).1 dirty
      have undirty := (releases_clean (P := P) start s.blocks releases).2.1
      exact absurd (undirty.symm.trans marked) (by simp)
  · rw [place_move]
    rcases asks with ⟨-, rfl, -⟩ | releases
    · trivial
    · exact (releases_clean start s.blocks releases).2.2 s

theorem Contents.copyLog (contents : Contents start s) (access : Access start s)
    (inStep : InStep start s) {tail : Nat} {toBuf fromBuf : B} {pc : GroupCommit.Pc}
    (here : s.place p = .doing (.copyLog tail toBuf fromBuf)) :
    Contents start ({ s.set toBuf { s.buf toBuf with data := (s.buf fromBuf).data, dirty := true } with
      group := s.group.move p pc }.move p (.doing (.bwriteLog tail toBuf fromBuf))) := by
  obtain ⟨-, index, -⟩ := (processInStep_iff here).mp (inStep.process p)
  have home := (inStep.areas (index tail rfl)).2
  have read := contents.read access here rfl
  have data := (read fromBuf (s.blocks.getD tail 0) (by simp [Work.holds])).2.2
  refine contents.change access (read toBuf _ (by simp [Work.holds]; exact Or.inl rfl)).1.lock
    (x := { s.buf toBuf with data := (s.buf fromBuf).data, dirty := true }) rfl rfl
    ⟨fun _ => place_other, rfl, rfl, rfl, rfl, rfl⟩ place_move ?_ (fun _ _ _ => (by simp)) ?_
  · intro c k held dirty
    by_cases same : c = toBuf
    · rw [same]
      rfl
    · have clean := (read c k held).2.1
      simp [buf_other same, clean] at dirty
  · rw [System.expected, if_pos home] at data
    change ((s.set toBuf _).buf toBuf).data = _
    rw [buf_set]
    exact data

theorem Contents.fillHead (contents : Contents start s) (access : Access start s) {erase : Bool}
    {buf : B} (here : s.place p = .doing (.fillHead erase buf)) :
    Contents start ((s.set buf { s.buf buf with
      data := RedoLog.storeHead s.header (s.buf buf).data, dirty := true }).move p
        (.doing (.bwriteHead erase buf))) := by
  have read := contents.read access here rfl
  refine contents.change access (read buf start (by simp [Work.holds])).1.lock
    (x := { s.buf buf with
      data := RedoLog.storeHead s.header (s.buf buf).data, dirty := true }) rfl rfl
    ⟨fun _ => place_other, rfl, rfl, rfl, rfl, rfl⟩ place_move ?_ (fun _ _ _ => (by simp)) trivial
  intro c k held dirty
  simp only [Work.holds, List.mem_singleton, Prod.mk.injEq] at held
  rw [held.1]
  rfl

theorem Contents.copyHome (contents : Contents start s) (access : Access start s)
    (inStep : InStep start s) {tail : Nat} {lbuf dbuf : B}
    (here : s.place p = .doing (.copyHome tail lbuf dbuf)) :
    Contents start ((s.set dbuf { s.buf dbuf with data := (s.buf lbuf).data }).move p
      (.doing (.bwriteHome tail lbuf dbuf))) := by
  obtain ⟨stage, index, -⟩ := (processInStep_iff here).mp (inStep.process p)
  have bound := index tail rfl
  obtain ⟨log, home⟩ := inStep.areas bound
  have read := contents.read access here rfl
  obtain ⟨holds, clean, -⟩ := read dbuf (s.blocks.getD tail 0) (by simp [Work.holds])
  have source := (read lbuf (start + tail + 1) (by simp [Work.holds])).2.2
  have data : (s.buf lbuf).data = s.group.cache (s.blocks.getD tail 0) := by
    rw [source, System.expected, if_neg log]
    exact contents.written tail (by rw [stage.2.2.1]; exact bound) bound
  refine contents.change access holds.lock (x := { s.buf dbuf with data := (s.buf lbuf).data }) rfl rfl
    ⟨fun _ => place_other, rfl, rfl, rfl, rfl, rfl⟩ place_move ?_ ?_ trivial
  · intro c k held dirty
    have undirty := (read c k held).2.1
    by_cases same : c = dbuf
    · subst same
      simp [clean] at dirty
    · simp [buf_other same, undirty] at dirty
  · intro k block _ _
    obtain rfl : s.blocks.getD tail 0 = k := Option.some.inj (holds.block.symm.trans block)
    rw [System.expected, if_pos home]
    exact data

/-- Every step keeps the contents of buffers and of the disk. -/
theorem Contents.step (contents : Contents start s) (access : Access start s)
    (inStep : InStep start s) (step : Step start s t) : Contents start t := by
  cases step with
  | beginOp p log here entering room =>
    obtain ⟨-, rfl⟩ := GroupCommit.beginOp_some room
    exact contents.still (p := p) rfl ⟨fun _ _ => rfl, rfl, rfl, rfl, rfl, rfl⟩ here rfl
  | wait p here entering full =>
    exact contents.still (p := p) rfl ⟨fun _ _ => rfl, rfl, rfl, rfl, rfl, rfl⟩ here rfl
  | endOp p op log here operating others =>
    obtain ⟨-, -, rfl⟩ := GroupCommit.endOp_ok others
    exact contents.still (p := p) rfl ⟨fun _ _ => rfl, rfl, rfl, rfl, rfl, rfl⟩ here rfl
  | lastOp p op log here operating alone =>
    obtain ⟨-, -, rfl⟩ := GroupCommit.endOp_ok alone
    exact contents.still rfl ⟨fun _ => place_other, rfl, rfl, rfl, rfl, rfl⟩ place_move rfl
  | clear p here done | begin p here some | logged p tail here all =>
    exact contents.still rfl ⟨fun _ => place_other, rfl, rfl, rfl, rfl, rfl⟩ place_move rfl
  | empty p copied here copying none =>
    exact contents.still rfl ⟨fun _ => place_other, rfl, rfl, none.symm, rfl, rfl⟩ place_move rfl
  | bget p number work b t here asks found => exact contents.bget here found
  | lock p b number work here free => exact contents.lock here free
  | fill p b number work here => exact contents.fill access inStep here
  | modify p b data here holds home =>
    exact contents.change access holds (x := { s.buf b with data := data, dirty := true }) rfl rfl
      ⟨fun _ _ => rfl, rfl, rfl, rfl, rfl, rfl⟩ here nofun (fun _ _ _ => nofun) trivial
  | logWrite p op b log buf here operating holds home wrote =>
    obtain ⟨-, -, rfl, rfl⟩ := logWrite_ok wrote
    exact contents.logWrite access inStep here operating holds home rfl
  | brelse p b work work' here holds asks => exact contents.brelse here asks
  | unref p b work here =>
    exact contents.keepWork (x := { s.buf b with refcnt := (s.buf b).refcnt - 1 }) rfl rfl rfl Or.inl
      (fun _ => And.intro) ⟨fun _ => place_other, rfl, rfl, rfl, rfl, rfl⟩
      (by rw [place_move, here]; rfl) (by simp)
  | copyLog p tail toBuf fromBuf copied number here copying next =>
    exact contents.copyLog access inStep here
  | fillHead p erase buf here => exact contents.fillHead access here
  | copyHome p tail lbuf dbuf here => exact contents.copyHome access inStep here
  | bwrite p b work work' here holds asks => exact contents.bwrite access inStep here asks
  | unpin p tail lbuf dbuf here => exact contents.unpin inStep here
  | erase p tail copied here copying all => exact contents.erase inStep here all

end Steps

end Xv6.BufferCache
