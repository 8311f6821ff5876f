import Xv6.Log.GroupCommit
import Xv6.Log.RedoLog

/-!
# The buffer cache under the log

The procedures of `bio.c` and the body of `commit`, at the granularity of `bcache.lock`, the
sleep-locks of buffers, `log.lock` and single disk operations.
-/

namespace Xv6.BufferCache

open Transition
open GroupCommit (Log Entering beginOp endOp absorb)

/-- `struct buf` with its sleep-lock. -/
structure Buf (P : Type) where
  block : Option Nat
  valid : Bool
  refcnt : Nat
  lock : Option P
  data : Block
  dirty : Bool

namespace Buf

variable {P : Type} (buf : Buf P)

/-- `b->blockno`. -/
def blockno : Nat := buf.block.getD 0

def hit : Buf P := { buf with refcnt := buf.refcnt + 1 }

def recycle (number : Nat) : Buf P :=
  { buf with block := some number, valid := false, refcnt := 1 }

def bpinNew (blocks : List Nat) : Buf P :=
  { buf with refcnt := if buf.blockno ∈ blocks then buf.refcnt else buf.refcnt + 1 }

def fill (disk : Disk) : Buf P :=
  if buf.valid then buf else { buf with data := disk buf.blockno, valid := true }

end Buf

def logWrite {P : Type} (log : Log) (buf : Buf P) : Except GroupCommit.Panic (Log × Buf P) :=
  (GroupCommit.logWrite log buf.blockno).map fun after => (after, buf.bpinNew log.blocks)

inductive Work (B : Type) where
  | user
  | start
  | toLog (tail : Nat)
  | fromCache (tail : Nat) (toBuf : B)
  | copyLog (tail : Nat) (toBuf fromBuf : B)
  | bwriteLog (tail : Nat) (toBuf fromBuf : B)
  | relFrom (tail : Nat) (toBuf fromBuf : B)
  | relTo (tail : Nat) (toBuf : B)
  | head (erase : Bool)
  | fillHead (erase : Bool) (buf : B)
  | bwriteHead (erase : Bool) (buf : B)
  | relHead (erase : Bool) (buf : B)
  | fromLog (tail : Nat)
  | toHome (tail : Nat) (lbuf : B)
  | copyHome (tail : Nat) (lbuf dbuf : B)
  | bwriteHome (tail : Nat) (lbuf dbuf : B)
  | unpin (tail : Nat) (lbuf dbuf : B)
  | relLbuf (tail : Nat) (lbuf dbuf : B)
  | relDbuf (tail : Nat) (dbuf : B)
  | finished

inductive Place (B : Type) where
  | doing (work : Work B)
  | locking (b : B) (number : Nat) (work : Work B)
  | filling (b : B) (number : Nat) (work : Work B)
  | releasing (b : B) (work : Work B)

namespace Place

variable {B : Type}

def work : Place B → Work B
  | .doing work | .locking _ _ work | .filling _ _ work | .releasing _ work => work

def Counts (b : B) : Place B → Prop
  | .locking b' _ _ | .releasing b' _ => b' = b
  | _ => False

end Place

namespace Work

variable {B : Type}

def asks (start : Nat) (blocks : List Nat) : Work B → Option Nat
  | .toLog tail | .fromLog tail => if tail < blocks.length then some (start + tail + 1) else none
  | .fromCache tail _ | .toHome tail _ => blocks[tail]?
  | .head _ => some start
  | _ => none

def got (b : B) : Work B → Work B
  | .toLog tail => .fromCache tail b
  | .fromCache tail toBuf => .copyLog tail toBuf b
  | .head erase => .fillHead erase b
  | .fromLog tail => .toHome tail b
  | .toHome tail lbuf => .copyHome tail lbuf b
  | work => work

def releases : Work B → Option (B × Work B)
  | .relFrom tail toBuf fromBuf => some (fromBuf, .relTo tail toBuf)
  | .relTo tail toBuf => some (toBuf, .toLog (tail + 1))
  | .relHead erase buf => some (buf, if erase then .finished else .fromLog 0)
  | .relLbuf tail lbuf dbuf => some (lbuf, .relDbuf tail dbuf)
  | .relDbuf tail dbuf => some (dbuf, .fromLog (tail + 1))
  | _ => none

def writes : Work B → Option (B × Work B)
  | .bwriteLog tail toBuf fromBuf => some (toBuf, .relFrom tail toBuf fromBuf)
  | .bwriteHead erase buf => some (buf, .relHead erase buf)
  | .bwriteHome tail lbuf dbuf => some (dbuf, .unpin tail lbuf dbuf)
  | _ => none

end Work

structure System (P B : Type) where
  group : GroupCommit.System P
  buf : B → Buf P
  order : List B
  disk : Disk
  place : P → Place B
  written : Nat
  installed : Nat

variable {P B : Type} [DecidableEq P] [DecidableEq B]

namespace System

variable (s : System P B)

/-- Change one buffer. -/
def set (b : B) (buf : Buf P) : System P B := { s with buf := Function.update s.buf b buf }

def move (p : P) (place : Place B) : System P B :=
  { s with place := Function.update s.place p place }

def blocks : List Nat := s.group.log.blocks

def pinned : List Nat := s.blocks.drop s.installed

def bget (number : Nat) : Option (B × System P B) :=
  match s.order.find? fun b => (s.buf b).block = some number with
  | some b => some (b, s.set b (s.buf b).hit)
  | none =>
    match s.order.reverse.find? fun b => (s.buf b).refcnt = 0 with
    | some b => some (b, s.set b ((s.buf b).recycle number))
    | none => none

def fill (b : B) : System P B := s.set b ((s.buf b).fill s.disk)

def unref (b : B) : System P B :=
  let buf := { s.buf b with refcnt := (s.buf b).refcnt - 1 }
  { s.set b buf with order := if buf.refcnt = 0 then b :: s.order.erase b else s.order }

/-- `bwrite`. -/
def bwrite (b : B) : System P B :=
  { s.set b { s.buf b with dirty := false } with
    disk := Function.update s.disk (s.buf b).blockno (s.buf b).data }

def bunpin (tail : Nat) (b : B) : System P B :=
  { s.set b { s.buf b with refcnt := (s.buf b).refcnt - 1 } with installed := tail + 1 }

def note (op : Nat) (b : B) (log : Log) (buf : Buf P) : System P B :=
  let number := (s.buf b).blockno
  let entry : GroupCommit.Entry := ⟨op, number, (s.buf b).data⟩
  { s.set b { buf with dirty := false } with
    group := { s.group with
      log := log
      cache := Function.update s.group.cache number (s.buf b).data
      logged := s.group.logged ++ [entry]
      history := s.group.history ++ [entry] } }

def finish (p : P) (copied : List (Nat × Block)) : System P B :=
  { s with group := { s.group.move p .committed with
      log := { s.group.log with blocks := [] }
      logged := []
      commits := s.group.commits ++ [⟨s.group.logged, copied⟩] } }

def header : RedoLog.LogHeader := ⟨s.blocks.length, fun index => s.blocks.getD index 0⟩

end System

def Home (start number : Nat) : Prop := number < start ∨ start + LOGBLOCKS < number

instance (start number : Nat) : Decidable (Home start number) := inferInstanceAs (Decidable (_ ∨ _))

/-- One step of one process. -/
inductive Step (start : Nat) : System P B → System P B → Prop
  | beginOp {s} (p : P) (log : Log) (here : s.place p = .doing .user)
      (entering : Entering (s.group.pc p)) (room : GroupCommit.beginOp s.group.log = some log) :
      Step start s { s with group := { s.group.move p (.operating s.group.nextOp) with
        log := log, nextOp := s.group.nextOp + 1 } }
  | wait {s} (p : P) (here : s.place p = .doing .user) (entering : Entering (s.group.pc p))
      (full : GroupCommit.beginOp s.group.log = none) :
      Step start s { s with group := s.group.move p .waiting }
  | endOp {s} (p : P) (op : Nat) (log : Log) (here : s.place p = .doing .user)
      (operating : s.group.pc p = .operating op)
      (others : GroupCommit.endOp s.group.log = .ok (log, false)) :
      Step start s { s with group := { s.group.move p .outside with log := log } }
  | lastOp {s} (p : P) (op : Nat) (log : Log) (here : s.place p = .doing .user)
      (operating : s.group.pc p = .operating op)
      (alone : GroupCommit.endOp s.group.log = .ok (log, true)) :
      Step start s ({ s with group := { s.group.move p (.copying []) with log := log } }.move p
        (.doing .start))
  | clear {s} (p : P) (here : s.place p = .doing .finished) (done : s.group.pc p = .committed) :
      Step start s ({ s with group := { s.group.move p .outside with
        log := { s.group.log with committing := false } } }.move p (.doing .user))
  | bget {s} (p : P) (number : Nat) (work : Work B) (b : B) (t : System P B)
      (here : s.place p = .doing work)
      (asks : work = .user ∨ work.asks start s.blocks = some number)
      (found : s.bget number = some (b, t)) : Step start s (t.move p (.locking b number work))
  | lock {s} (p : P) (b : B) (number : Nat) (work : Work B)
      (here : s.place p = .locking b number work) (free : (s.buf b).lock = none) :
      Step start s ((s.set b { s.buf b with lock := some p }).move p (.filling b number work))
  | fill {s} (p : P) (b : B) (number : Nat) (work : Work B)
      (here : s.place p = .filling b number work) :
      Step start s ((s.fill b).move p (.doing (work.got b)))
  | modify {s} (p : P) (b : B) (data : Block) (here : s.place p = .doing .user)
      (holds : (s.buf b).lock = some p) (home : Home start (s.buf b).blockno) :
      Step start s (s.set b { s.buf b with data := data, dirty := true })
  | logWrite {s} (p : P) (op : Nat) (b : B) (log : Log) (buf : Buf P)
      (here : s.place p = .doing .user)
      (operating : s.group.pc p = .operating op) (holds : (s.buf b).lock = some p)
      (home : Home start (s.buf b).blockno)
      (wrote : logWrite s.group.log (s.buf b) = .ok (log, buf)) :
      Step start s (s.note op b log buf)
  | brelse {s} (p : P) (b : B) (work work' : Work B) (here : s.place p = .doing work)
      (holds : (s.buf b).lock = some p)
      (asks : (work = .user ∧ work' = .user ∧ (s.buf b).dirty = false) ∨
        work.releases = some (b, work')) :
      Step start s ((s.set b { s.buf b with lock := none }).move p (.releasing b work'))
  | unref {s} (p : P) (b : B) (work : Work B) (here : s.place p = .releasing b work) :
      Step start s ((s.unref b).move p (.doing work))
  | empty {s} (p : P) (copied : List (Nat × Block)) (here : s.place p = .doing .start)
      (copying : s.group.pc p = .copying copied) (none : s.blocks = []) :
      Step start s ((s.finish p copied).move p (.doing .finished))
  | begin {s} (p : P) (here : s.place p = .doing .start) (some : s.blocks ≠ []) :
      Step start s (s.move p (.doing (.toLog 0)))
  | logged {s} (p : P) (tail : Nat) (here : s.place p = .doing (.toLog tail))
      (all : tail = s.blocks.length) : Step start s (s.move p (.doing (.head false)))
  | copyLog {s} (p : P) (tail : Nat) (toBuf fromBuf : B) (copied : List (Nat × Block)) (number : Nat)
      (here : s.place p = .doing (.copyLog tail toBuf fromBuf))
      (copying : s.group.pc p = .copying copied) (next : s.blocks[copied.length]? = some number) :
      Step start s ({ s.set toBuf { s.buf toBuf with data := (s.buf fromBuf).data, dirty := true } with
        group := s.group.move p (.copying (copied ++ [(number, s.group.cache number)])) }.move p
          (.doing (.bwriteLog tail toBuf fromBuf)))
  | fillHead {s} (p : P) (erase : Bool) (buf : B) (here : s.place p = .doing (.fillHead erase buf)) :
      Step start s ((s.set buf { s.buf buf with
        data := RedoLog.storeHead s.header (s.buf buf).data, dirty := true }).move p
          (.doing (.bwriteHead erase buf)))
  | copyHome {s} (p : P) (tail : Nat) (lbuf dbuf : B)
      (here : s.place p = .doing (.copyHome tail lbuf dbuf)) :
      Step start s ((s.set dbuf { s.buf dbuf with data := (s.buf lbuf).data }).move p
        (.doing (.bwriteHome tail lbuf dbuf)))
  | bwrite {s} (p : P) (b : B) (work work' : Work B) (here : s.place p = .doing work)
      (holds : (s.buf b).lock = some p) (asks : work.writes = some (b, work')) :
      Step start s ({ s.bwrite b with
        written := match work with
          | .bwriteLog tail _ _ => tail + 1
          | _ => s.written }.move p (.doing work'))
  | unpin {s} (p : P) (tail : Nat) (lbuf dbuf : B)
      (here : s.place p = .doing (.unpin tail lbuf dbuf)) :
      Step start s ((s.bunpin tail dbuf).move p (.doing (.relLbuf tail lbuf dbuf)))
  | erase {s} (p : P) (tail : Nat) (copied : List (Nat × Block))
      (here : s.place p = .doing (.fromLog tail)) (copying : s.group.pc p = .copying copied)
      (all : tail = s.blocks.length) :
      Step start s ({ s.finish p copied with written := 0, installed := 0 }.move p
        (.doing (.head true)))

section Updates

variable {s : System P B} {p q : P} {b c : B} {place : Place B} {buf : Buf P}

omit [DecidableEq B] in
@[simp] theorem place_move : (s.move p place).place p = place := by simp [System.move]

omit [DecidableEq B] in
theorem place_other (other : q ≠ p) : (s.move p place).place q = s.place q := by
  simp [System.move, other]

omit [DecidableEq B] in
@[simp] theorem buf_move : (s.move p place).buf = s.buf := rfl

omit [DecidableEq B] in
@[simp] theorem blocks_move : (s.move p place).blocks = s.blocks := rfl

omit [DecidableEq B] in
@[simp] theorem pinned_move : (s.move p place).pinned = s.pinned := rfl

omit [DecidableEq P]

/-- The buffer that was set. -/
@[simp] theorem buf_set : (s.set b buf).buf b = buf := by simp [System.set]

theorem buf_other (other : c ≠ b) : (s.set b buf).buf c = s.buf c := by simp [System.set, other]

@[simp] theorem blocks_set : (s.set b buf).blocks = s.blocks := rfl

@[simp] theorem pinned_set : (s.set b buf).pinned = s.pinned := rfl

end Updates

theorem logWrite_ok {P : Type} {log after : Log} {buf buf' : Buf P}
    (wrote : logWrite log buf = .ok (after, buf')) :
    log.blocks.length < LOGBLOCKS ∧ 1 ≤ log.outstanding ∧
      after = { log with blocks := absorb buf.blockno log.blocks } ∧
      buf' = buf.bpinNew log.blocks := by
  unfold logWrite at wrote
  cases done : GroupCommit.logWrite log buf.blockno with
  | error reason => simp [done, Except.map] at wrote
  | ok result =>
    simp only [done, Except.map, Except.ok.injEq, Prod.mk.injEq] at wrote
    obtain ⟨rfl, rfl⟩ := wrote
    obtain ⟨room, inside, listed⟩ := GroupCommit.logWrite_ok done
    exact ⟨room, inside, listed, rfl⟩

theorem logWrite_group {P : Type} {log after : Log} {buf buf' : Buf P}
    (wrote : logWrite log buf = .ok (after, buf')) :
    GroupCommit.logWrite log buf.blockno = .ok after := by
  obtain ⟨room, inside, rfl, -⟩ := logWrite_ok wrote
  rw [GroupCommit.logWrite, if_neg (by omega), if_neg (by omega)]

theorem logWrite_of_group {P : Type} {log after : Log} {buf : Buf P}
    (wrote : GroupCommit.logWrite log buf.blockno = .ok after) :
    logWrite log buf = .ok (after, buf.bpinNew log.blocks) := by
  rw [logWrite, wrote]
  rfl

section Lookup

variable {s t : System P B} {b : B} {number : Nat}

omit [DecidableEq P] in
theorem bget_some (found : s.bget number = some (b, t)) :
    b ∈ s.order ∧ (((s.buf b).block = some number ∧ t = s.set b (s.buf b).hit) ∨
      ((∀ c ∈ s.order, (s.buf c).block ≠ some number) ∧ (s.buf b).refcnt = 0 ∧
        t = s.set b ((s.buf b).recycle number))) := by
  unfold System.bget at found
  split at found
  · rename_i c hit
    cases found
    exact ⟨List.mem_of_find?_eq_some hit, Or.inl ⟨by simpa using List.find?_some hit, rfl⟩⟩
  · rename_i miss
    split at found
    · rename_i c free
      cases found
      refine ⟨List.mem_reverse.mp (List.mem_of_find?_eq_some free), Or.inr ⟨?_, ?_, rfl⟩⟩
      · simpa using List.find?_eq_none.mp miss
      · simpa using List.find?_some free
    · cases found

end Lookup

end Xv6.BufferCache
