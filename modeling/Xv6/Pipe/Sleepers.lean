import Xv6.Pipe.Fifo
import Xv6.Proc.Conditions

/-!
# Sleeping readers and writers of a pipe

`pipewrite`, `piperead` and `pipeclose` as code that sleeps and wakes under the pipe lock, for
any number of processes and with `copyin` and `copyout` failing at any byte.
-/

namespace Xv6.Pipes

open Transition Proc

/-- The channels `&pi->nread` and `&pi->nwrite`. -/
inductive PipeChan where
  | nread
  | nwrite
  deriving DecidableEq

/-- Where a process is in the pipe code. -/
inductive PipeTask where
  | idle
  | writing (source : Nat → UInt8) (n : Int) (i : Nat) (fresh : Bool)
  | full (source : Nat → UInt8) (n : Int) (i : Nat)
  | written
  | waiting (n : Int)
  | reading (n : Int) (i : Nat)
  | readAll
  | read
  | closing (writable : Bool)
  | shut (writable : Bool)
  | closed (writable : Bool)

/-- The calls start by taking the pipe lock. -/
inductive PipeCallStarts : PipeTask → PipeTask → Prop
  | pipewrite (source : Nat → UInt8) (n : Int) : PipeCallStarts .idle (.writing source n 0 false)
  | piperead (n : Int) : PipeCallStarts .idle (.waiting n)
  | pipeclose (writable : Bool) : PipeCallStarts .idle (.closing writable)

variable {n : Nat}

def closeChan (writable : Bool) : PipeChan := if writable then .nread else .nwrite

/-- The bodies of the calls under the pipe lock. -/
inductive PipeCode (p : Fin n) (v : View n Pipe) :
    PipeTask → Next n PipeChan PipeTask Pipe → Prop
  | writeStop {source} {m : Int} {i : Nat} {fresh} (more : (i : Int) < m)
      (stop : v.data.readopen = false ∨ v.killed p = true) :
      PipeCode p v (.writing source m i fresh) (.release .idle)
  | writeFull {source} {m : Int} {i : Nat} {fresh} (more : (i : Int) < m) (open_ : v.data.readopen = true)
      (alive : v.killed p = false) (full : v.data.full) :
      PipeCode p v (.writing source m i fresh) (.wakeup .nread (.full source m i))
  | writeSleep {source} {m : Int} {i : Nat} :
      PipeCode p v (.full source m i) (.sleep .nwrite (.writing source m i false))
  | writeByte {source} {m : Int} {i : Nat} {fresh} (more : (i : Int) < m) (open_ : v.data.readopen = true)
      (alive : v.killed p = false) (room : ¬ v.data.full) :
      PipeCode p v (.writing source m i fresh)
        (.go (.writing source m (i + 1) true) { v with data := v.data.append (source i) })
  | writeBreak {source} {m : Int} {i : Nat} {fresh} (more : (i : Int) < m) (open_ : v.data.readopen = true)
      (alive : v.killed p = false) (room : ¬ v.data.full) :
      PipeCode p v (.writing source m i fresh) (.wakeup .nread .written)
  | writeDone {source} {m : Int} {i : Nat} {fresh} (all : ¬ (i : Int) < m) :
      PipeCode p v (.writing source m i fresh) (.wakeup .nread .written)
  | writeReturn : PipeCode p v .written (.release .idle)
  | readKilled {m} (empty : v.data.empty) (open_ : v.data.writeopen = true)
      (dead : v.killed p = true) : PipeCode p v (.waiting m) (.release .idle)
  | readSleep {m} (empty : v.data.empty) (open_ : v.data.writeopen = true)
      (alive : v.killed p = false) : PipeCode p v (.waiting m) (.sleep .nread (.waiting m))
  | readStart {m} (ready : ¬ (v.data.empty ∧ v.data.writeopen = true)) :
      PipeCode p v (.waiting m) (.go (.reading m 0) v)
  | readByte {m : Int} {i : Nat} (more : (i : Int) < m) (some : ¬ v.data.empty) :
      PipeCode p v (.reading m i) (.go (.reading m (i + 1)) { v with data := v.data.advance })
  | readBreak {m : Int} {i : Nat} (more : (i : Int) < m) (some : ¬ v.data.empty) :
      PipeCode p v (.reading m i) (.go .readAll { v with data := v.data.advance })
  | readDone {m : Int} {i : Nat} (done : ¬ (i : Int) < m ∨ v.data.empty) :
      PipeCode p v (.reading m i) (.go .readAll v)
  | readWake : PipeCode p v .readAll (.wakeup .nwrite .read)
  | readReturn : PipeCode p v .read (.release .idle)
  | closeEnd {writable} : PipeCode p v (.closing writable) (.go (.shut writable) { v with
      data := if writable then { v.data with writeopen := false }
        else { v.data with readopen := false } })
  | closeWake {writable} : PipeCode p v (.shut writable) (.wakeup (closeChan writable)
      (.closed writable))
  | closeReturn {writable} : PipeCode p v (.closed writable) (.release .idle)

def pipeUsers (n : Nat) (mayKill : PipeTask → Prop) : Client n Unit PipeChan PipeTask Pipe where
  outside _ _ _ _ _ _ := False
  enter _ l _ _ l' := PipeCallStarts l l'
  code p _ _ l v next := PipeCode p v l next
  mayKill _ _ l := mayKill l

def PipeTask.Fresh : PipeTask → Prop
  | .writing _ _ _ fresh => fresh = true
  | _ => False

theorem pipeUsers_tame {mayKill : PipeTask → Prop} : (pipeUsers n mayKill).Tame := by
  refine ⟨fun _ _ _ _ _ _ act => act.elim, ?_⟩
  intro p free lk l v l' v' act q
  cases act <;> exact Or.inl rfl

def PipeWaits (v : View n Pipe) : PipeChan → Prop
  | .nread => v.data.empty ∧ v.data.writeopen = true
  | .nwrite => v.data.full ∧ v.data.readopen = true

def PipeAllows (l : PipeTask) (v : View n Pipe) (chan : PipeChan) : Prop :=
  match l, chan with
  | .writing _ _ _ fresh, .nread => fresh = true ∨ PipeWaits v .nread
  | .full .., .nread | .written, .nread => False
  | .reading .., .nread | .readAll, .nread | .read, .nread => False
  | .reading .., .nwrite | .readAll, .nwrite => True
  | .read, .nwrite => False
  | .shut writable, chan => chan = closeChan writable ∨ PipeWaits v chan
  | .closed writable, chan => chan ≠ closeChan writable ∧ PipeWaits v chan
  | _, chan => PipeWaits v chan

structure PipeLocal (p : Fin n) (o : Option Unit) (l : PipeTask) (v : View n Pipe) : Prop where
  fresh : l.Fresh → o = some () ∧ v.data.readopen = true ∧ v.killed p = false
  full : ∀ source m i, l = .full source m i → o = some () ∧ PipeWaits v .nwrite

theorem pipe_effect {mayKill : PipeTask → Prop} {p : Fin n} {o : Option Unit} {l : PipeTask}
    {v v' : View n Pipe} (effect : (pipeUsers n mayKill).Effect p o l v v') : o = some () := by
  cases effect with
  | outside alive act => exact act.elim
  | go alive act => rfl
  | exit alive act => rfl

def pipeContract (n : Nat) : Contract (pipeUsers n fun l => ¬ l.Fresh) where
  Inv _ := True
  Local := PipeLocal
  Waits _ chan v := PipeWaits v chan
  Allows _ := PipeAllows
  effect_inv _ _ _ := trivial
  effect_local := by
    intro p o l v v' q o' l' effect _ _ _ apart known
    have lock := pipe_effect effect
    have none : o' ≠ some () := fun same => apart () same lock
    exact ⟨fun fresh => absurd (known.fresh fresh).1 none,
      fun source m i same => absurd (known.full source m i same).1 none⟩
  effect_waits effect _ _ other := absurd (pipe_effect effect) other
  effect_allows effect _ _ other := absurd (pipe_effect effect) other
  kill_inv _ := trivial
  kill_own may known := ⟨fun fresh => absurd fresh may, known.full⟩
  kill_local := by
    intro p q o l v other known
    refine ⟨fun fresh => ?_, known.full⟩
    obtain ⟨lock, open_, alive⟩ := known.fresh fresh
    exact ⟨lock, open_, by simpa [View.kill, other] using alive⟩
  kill_waits waits := waits
  kill_allows allows := allows
  outside act := act.elim
  enter := by
    intro p l v lk l' act _ known
    cases act with
    | pipewrite source m =>
      refine ⟨⟨nofun, nofun⟩, fun chan waits => ?_⟩
      cases chan with
      | nread => exact Or.inr waits
      | nwrite => exact waits
    | piperead m | pipeclose writable => exact ⟨⟨nofun, nofun⟩, fun chan waits => waits⟩
  go := by
    intro p free lk l v l' v' act _ known
    cases act with
    | writeByte more open_ alive room =>
      refine ⟨⟨fun _ => ⟨rfl, open_, alive⟩, (by simp)⟩, fun chan allows => ?_⟩
      cases chan with
      | nread => exact Or.inl rfl
      | nwrite => exact absurd allows.1 room
    | readStart ready =>
      refine ⟨⟨nofun, nofun⟩, fun chan allows => ?_⟩
      cases chan with
      | nread => exact absurd allows ready
      | nwrite => trivial
    | readByte more some | readBreak more some | readDone done =>
      refine ⟨⟨nofun, nofun⟩, fun chan allows => ?_⟩
      cases chan with
      | nread => exact allows
      | nwrite => trivial
    | @closeEnd writable =>
      refine ⟨⟨nofun, nofun⟩, fun chan allows => ?_⟩
      cases writable with
      | true =>
        cases chan with
        | nread => exact Or.inl rfl
        | nwrite => exact Or.inr allows
      | false =>
        cases chan with
        | nread => exact Or.inr allows
        | nwrite => exact Or.inl rfl
  wakeup := by
    intro p free lk l v chan l' act _ known
    cases act with
    | writeFull more open_ alive full =>
      refine ⟨⟨(by rintro ⟨⟩), fun _ _ _ _ => ⟨rfl, full, open_⟩⟩, fun other different allows => ?_⟩
      cases other with
      | nread => exact absurd rfl different
      | nwrite => exact allows
    | writeBreak more open_ alive room | writeDone all =>
      refine ⟨⟨nofun, nofun⟩, fun other different allows => ?_⟩
      cases other with
      | nread => exact absurd rfl different
      | nwrite => exact allows
    | readWake =>
      refine ⟨⟨nofun, nofun⟩, fun other different allows => ?_⟩
      cases other with
      | nread => exact allows
      | nwrite => exact absurd rfl different
    | closeWake =>
      refine ⟨⟨nofun, nofun⟩, fun other different allows => ?_⟩
      exact ⟨different, allows.resolve_left different⟩
  sleep := by
    intro p free lk l v chan l' act _ known
    cases act with
    | @writeSleep source m i =>
      refine ⟨⟨nofun, nofun⟩, (known.full source m i rfl).2, fun other allows => ?_,
        fun v' _ _ => ⟨⟨nofun, nofun⟩, fun other waits => ?_⟩⟩
      · cases other with
        | nread => exact allows.elim
        | nwrite => exact allows
      · cases other with
        | nread => exact Or.inr waits
        | nwrite => exact waits
    | readSleep empty open_ alive =>
      exact ⟨⟨nofun, nofun⟩, ⟨empty, open_⟩, fun other allows => allows,
        fun v' _ _ => ⟨⟨nofun, nofun⟩, fun other waits => waits⟩⟩
  release := by
    intro p free lk l v l' act _ known
    refine ⟨?_, fun chan allows => ?_⟩
    · cases act <;> exact ⟨nofun, nofun⟩
    · cases act with
      | @writeStop source m i fresh more stop =>
        cases chan with
        | nwrite => exact allows
        | nread =>
          refine allows.resolve_left fun marked => ?_
          obtain ⟨-, open_, alive⟩ := known.fresh marked
          rcases stop with shut | dead
          · rw [open_] at shut
            cases shut
          · rw [alive] at dead
            cases dead
      | writeReturn =>
        cases chan with
        | nread => exact allows.elim
        | nwrite => exact allows
      | readKilled empty open_ dead => exact allows
      | readReturn => cases chan <;> exact allows.elim
      | closeReturn => exact allows.2
  exit := by
    intro p free lk l v l' data act
    cases act

/-- No process is in a call on the pipe. -/
structure PipeAtRest (s : Proc.System n Unit PipeChan PipeTask Pipe) : Prop where
  rest : AtRest s
  idle : ∀ p, s.place p = .outside .idle

/-- In every run in which no process is killed in the loop of `pipewrite` between a
byte it has appended and its next `wakeup`, in every state in which the pipe lock
is free: a process asleep on `&pi->nread` finds the pipe empty and open for
writing, and one asleep on `&pi->nwrite` finds it full and open for reading. -/
theorem pipe_sleepers_wait {s t : Proc.System n Unit PipeChan PipeTask Pipe} (start : PipeAtRest s)
    (run : Reaches (Proc.Step (pipeUsers n fun l => ¬ l.Fresh)) s t) (free : t.holder () = none)
    (p : Fin n) (asleep : (t.table p).state = .SLEEPING) :
    ((t.table p).chan = some .nread → t.data.empty ∧ t.data.writeopen = true) ∧
    ((t.table p).chan = some .nwrite → t.data.full ∧ t.data.readopen = true) := by
  have idle : ∀ p l, s.place p = .outside l → PipeLocal p none l s.view := by
    intro p l here
    rw [start.idle p, Place.outside.injEq] at here
    subst here
    exact ⟨nofun, nofun⟩
  obtain ⟨coherent, kept⟩ :=
    (pipeContract n).run_kept pipeUsers_tame start.rest trivial idle run
  have waits : ∀ chan, (t.table p).chan = some chan → PipeWaits t.view chan := by
    intro chan on
    obtain ⟨lk, chan', there, waiting⟩ := coherent.waiting_of_asleep asleep
    obtain rfl : chan = chan' := Option.some.inj (on.symm.trans there)
    exact kept.free free waiting
  exact ⟨waits .nread, waits .nwrite⟩

def readerAndWriter : Proc.System 2 Unit PipeChan PipeTask Pipe where
  table _ := ⟨.RUNNING, none, false⟩
  place _ := .outside .idle
  holder _ := none
  data := ⟨⟨fun _ => 0, 0, 0⟩, true, true⟩

theorem readerAndWriter_atRest : PipeAtRest readerAndWriter :=
  ⟨⟨fun _ => ⟨_, rfl⟩, (by rintro _ ⟨⟩), fun _ => rfl⟩, fun _ => rfl⟩

theorem reader_sleeps (mayKill : PipeTask → Prop) :
    ∃ s, Reaches (Proc.Step (pipeUsers 2 mayKill)) readerAndWriter s ∧ s.holder () = none ∧
      s.table 0 = ⟨.SLEEPING, some .nread, false⟩ ∧ s.data = readerAndWriter.data ∧
      s.table 1 = ⟨.RUNNING, none, false⟩ ∧ s.place 1 = .outside .idle := by
  have run : Reaches (Proc.Step (pipeUsers 2 mayKill)) readerAndWriter _ :=
    (((Relation.ReflTransGen.refl.tail
      (.acquire 0 () _ _ rfl rfl (.piperead 1) rfl)).tail
      (.sleep 0 () .nread (.waiting 1) _ rfl (by exact .readSleep rfl rfl rfl))).tail
      (.unlock 0 () .nread _ rfl)).tail
      (.suspend 0 () .nread _ rfl)
  exact ⟨_, run, rfl, rfl, rfl, rfl, rfl⟩

/-- While the reader is asleep the pipe is empty. -/
theorem sleeping_reader_waits :
    ∃ s, Reaches (Proc.Step (pipeUsers 2 fun l => ¬ l.Fresh)) readerAndWriter s ∧
      (s.table 0).state = .SLEEPING ∧ s.data.empty ∧ s.data.writeopen = true := by
  obtain ⟨s, run, free, asleep, -⟩ := reader_sleeps fun l => ¬ l.Fresh
  have waits := pipe_sleepers_wait readerAndWriter_atRest run free 0 (by rw [asleep])
  exact ⟨s, run, by rw [asleep], waits.1 (by rw [asleep])⟩

/-- A writer that has appended one byte of two is killed and returns; the reader stays asleep
although there is a byte to read. -/
theorem killed_writer_leaves_reader :
    ∃ s, Reaches (Proc.Step (pipeUsers 2 fun _ => True)) readerAndWriter s ∧
      s.holder () = none ∧ (s.table 0).state = .SLEEPING ∧ (s.table 0).chan = some .nread ∧
      ¬ s.data.empty := by
  have run : Reaches (Proc.Step (pipeUsers 2 fun _ => True)) readerAndWriter _ :=
    (((((((Relation.ReflTransGen.refl.tail
      (.acquire 0 () _ _ rfl rfl (.piperead 1) rfl)).tail
      (.sleep 0 () .nread (.waiting 1) _ rfl (by exact .readSleep rfl rfl rfl))).tail
      (.unlock 0 () .nread _ rfl)).tail
      (.suspend 0 () .nread _ rfl)).tail
      (.acquire 1 () _ _ rfl rfl (.pipewrite (fun _ => 7) 2) rfl)).tail
      (.go 1 () (.writing (fun _ => 7) 2 0 false) _ _ rfl
        (by exact .writeByte (by decide) rfl rfl (by decide)))).tail
      (.kill 1 rfl trivial)).tail
      (.release 1 () (.writing (fun _ => 7) 2 1 true) _ rfl
        (by exact .writeStop (by decide) (Or.inr rfl)))
  exact ⟨_, run, rfl, rfl, rfl, by decide⟩

end Xv6.Pipes
