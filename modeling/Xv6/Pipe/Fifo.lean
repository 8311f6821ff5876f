import Xv6.Library.Ring
import Xv6.Library.Transition

/-!
# Pipes are bounded first-in first-out queues

`pipewrite` and `piperead` as steps of any number of processes under the pipe lock.
-/

namespace Xv6.Pipes

open RingBuffer Transition Function

abbrev PIPESIZE : Nat := 512

abbrev WRAP : Nat := 2 ^ 32

structure Pipe where
  ring : Buffer UInt8
  readopen : Bool
  writeopen : Bool

namespace Pipe

def full (pi : Pipe) : Prop := pi.ring.nwrite = (pi.ring.nread + PIPESIZE) % WRAP

def empty (pi : Pipe) : Prop := pi.ring.nread = pi.ring.nwrite

instance (pi : Pipe) : Decidable pi.full := inferInstanceAs (Decidable (_ = _))

instance (pi : Pipe) : Decidable pi.empty := inferInstanceAs (Decidable (_ = _))

def append (pi : Pipe) (ch : UInt8) : Pipe := { pi with ring := put PIPESIZE WRAP pi.ring ch }

def next (pi : Pipe) : UInt8 := front PIPESIZE pi.ring

def advance (pi : Pipe) : Pipe := { pi with ring := drop WRAP pi.ring }

end Pipe

inductive Phase where
  | running
  | asleep
  | woken

inductive Pc where
  | outside
  | writing (call : Nat) (source : Nat → UInt8) (n : Int) (i : Nat) (phase : Phase)
  | waiting (n : Int) (phase : Phase)
  | reading (n : Int) (i : Nat)

/-- A `pipewrite` that returned. -/
structure Return where
  call : Nat
  source : Nat → UInt8
  value : Int

structure System (P : Type) where
  pipe : Pipe
  lock : Option P
  pc : P → Pc
  nextCall : Nat
  written : List (Nat × UInt8)
  delivered : List UInt8
  returns : List Return

variable {P : Type} [DecidableEq P]

namespace System

def move (s : System P) (p : P) (pc : Pc) (lock : Option P) : System P :=
  { s with pc := update s.pc p pc, lock := lock }

end System

def initial (data : Nat → UInt8) : System P :=
  ⟨⟨⟨data, 0, 0⟩, true, true⟩, none, fun _ => .outside, 0, [], [], []⟩

inductive Step : System P → System P → Prop
  | beginWrite {s : System P} (p : P) (source : Nat → UInt8) (n : Int)
      (out : s.pc p = .outside) (free : s.lock = none) :
      Step s { s.move p (.writing s.nextCall source n 0 .running) (some p) with
        nextCall := s.nextCall + 1 }
  | writeFail {s : System P} (p : P) (call : Nat) (source : Nat → UInt8) (n : Int) (i : Nat)
      (killed : Bool) (holding : s.lock = some p)
      (here : s.pc p = .writing call source n i .running) (more : (i : Int) < n)
      (stop : s.pipe.readopen = false ∨ killed = true) :
      Step s { s.move p .outside none with returns := s.returns ++ [⟨call, source, -1⟩] }
  | writeSleep {s : System P} (p : P) (call : Nat) (source : Nat → UInt8) (n : Int) (i : Nat)
      (holding : s.lock = some p) (here : s.pc p = .writing call source n i .running)
      (more : (i : Int) < n) (live : s.pipe.readopen = true) (full : s.pipe.full) :
      Step s (s.move p (.writing call source n i .asleep) none)
  | writeByte {s : System P} (p : P) (call : Nat) (source : Nat → UInt8) (n : Int) (i : Nat)
      (holding : s.lock = some p) (here : s.pc p = .writing call source n i .running)
      (more : (i : Int) < n) (live : s.pipe.readopen = true) (room : ¬ s.pipe.full) :
      Step s { s.move p (.writing call source n (i + 1) .running) s.lock with
        pipe := s.pipe.append (source i)
        written := s.written ++ [(call, source i)] }
  | writeDone {s : System P} (p : P) (call : Nat) (source : Nat → UInt8) (n : Int) (i : Nat)
      (holding : s.lock = some p) (here : s.pc p = .writing call source n i .running)
      (all : ¬ (i : Int) < n) :
      Step s { s.move p .outside none with returns := s.returns ++ [⟨call, source, i⟩] }
  | writeWake {s : System P} (p : P) (call : Nat) (source : Nat → UInt8) (n : Int) (i : Nat)
      (here : s.pc p = .writing call source n i .asleep) :
      Step s (s.move p (.writing call source n i .woken) s.lock)
  | writeResume {s : System P} (p : P) (call : Nat) (source : Nat → UInt8) (n : Int) (i : Nat)
      (here : s.pc p = .writing call source n i .woken) (free : s.lock = none) :
      Step s (s.move p (.writing call source n i .running) (some p))
  | beginRead {s : System P} (p : P) (n : Int) (out : s.pc p = .outside) (free : s.lock = none) :
      Step s (s.move p (.waiting n .running) (some p))
  | readKilled {s : System P} (p : P) (n : Int) (holding : s.lock = some p)
      (here : s.pc p = .waiting n .running) (nothing : s.pipe.empty)
      (live : s.pipe.writeopen = true) :
      Step s (s.move p .outside none)
  | readSleep {s : System P} (p : P) (n : Int) (holding : s.lock = some p)
      (here : s.pc p = .waiting n .running) (nothing : s.pipe.empty)
      (live : s.pipe.writeopen = true) :
      Step s (s.move p (.waiting n .asleep) none)
  | readWake {s : System P} (p : P) (n : Int) (here : s.pc p = .waiting n .asleep) :
      Step s (s.move p (.waiting n .woken) s.lock)
  | readResume {s : System P} (p : P) (n : Int) (here : s.pc p = .waiting n .woken)
      (free : s.lock = none) :
      Step s (s.move p (.waiting n .running) (some p))
  | readReady {s : System P} (p : P) (n : Int) (holding : s.lock = some p)
      (here : s.pc p = .waiting n .running)
      (ready : ¬ (s.pipe.empty ∧ s.pipe.writeopen = true)) :
      Step s (s.move p (.reading n 0) s.lock)
  | readByte {s : System P} (p : P) (n : Int) (i : Nat) (holding : s.lock = some p)
      (here : s.pc p = .reading n i) (more : (i : Int) < n) (left : ¬ s.pipe.empty) :
      Step s { s.move p (.reading n (i + 1)) s.lock with
        pipe := s.pipe.advance
        delivered := s.delivered ++ [s.pipe.next] }
  | readDone {s : System P} (p : P) (n : Int) (i : Nat) (holding : s.lock = some p)
      (here : s.pc p = .reading n i) (ends : ¬ (i : Int) < n ∨ s.pipe.empty) :
      Step s (s.move p .outside none)
  | closeRead {s : System P} (free : s.lock = none) :
      Step s { s with pipe := { s.pipe with readopen := false } }
  | closeWrite {s : System P} (free : s.lock = none) :
      Step s { s with pipe := { s.pipe with writeopen := false } }

def appendedBy (written : List (Nat × UInt8)) (call : Nat) : List UInt8 :=
  (written.filter fun entry => entry.1 = call).map Prod.snd

def Queue (s : System P) : Prop :=
  Holds PIPESIZE WRAP s.pipe.ring s.delivered (s.written.map Prod.snd)

theorem Queue.step {s t : System P} (queue : Queue s) (step : Step s t) : Queue t := by
  have divides : PIPESIZE ∣ WRAP := by decide
  have below : PIPESIZE < WRAP := by decide
  cases step with
  | writeByte p call source n i holding here more live room =>
    have more : (s.written.map Prod.snd).length ≠ s.delivered.length + PIPESIZE :=
      fun full => room ((Holds.full_iff queue below).mpr full)
    have put := Holds.put_holds queue divides more (source i)
    simpa [Queue, System.move, Pipe.append] using put
  | readByte p n i holding here more left =>
    have unread : s.delivered.length ≠ (s.written.map Prod.snd).length :=
      fun drained => left ((Holds.empty_iff queue below).mpr drained)
    exact Holds.drop_holds queue divides unread
  | _ => exact queue

def Pc.call : Pc → Option (Nat × (Nat → UInt8) × Nat)
  | .writing call source _ i _ => some (call, source, i)
  | _ => none

structure Calls (s : System P) : Prop where
  numbered : ∀ entry ∈ s.written, entry.1 < s.nextCall
  counted : ∀ p call source i, (s.pc p).call = some (call, source, i) →
    call < s.nextCall ∧ appendedBy s.written call = (List.range i).map source
  distinct : ∀ p q call source other i j, (s.pc p).call = some (call, source, i) →
    (s.pc q).call = some (call, other, j) → p = q
  returned : ∀ result ∈ s.returns, result.call < s.nextCall ∧
    (0 ≤ result.value →
      appendedBy s.written result.call = (List.range result.value.toNat).map result.source) ∧
    ∀ p source i, (s.pc p).call ≠ some (result.call, source, i)

theorem call_move {pc : P → Pc} {p : P} {target : Pc} (same : target.call = (pc p).call) (q : P) :
    (update pc p target q).call = (pc q).call := by
  by_cases here : q = p
  · subst here
    simpa using same
  · simp [here]

omit [DecidableEq P] in
theorem Calls.same {s t : System P} (calls : Calls s) (pcs : ∀ q, (t.pc q).call = (s.pc q).call)
    (next : t.nextCall = s.nextCall) (written : t.written = s.written)
    (returns : t.returns = s.returns) : Calls t := by
  refine ⟨?_, ?_, ?_, ?_⟩
  · rw [written, next]
    exact calls.numbered
  · intro p call source i held
    rw [written, next]
    exact calls.counted p call source i (by rwa [← pcs])
  · intro p q call source other i j first second
    exact calls.distinct p q call source other i j (by rwa [← pcs]) (by rwa [← pcs])
  · intro result member
    rw [returns] at member
    obtain ⟨old, same, gone⟩ := calls.returned result member
    rw [written, next]
    exact ⟨old, same, fun p source i => by rw [pcs]; exact gone p source i⟩

theorem appendedBy_snoc (written : List (Nat × UInt8)) (call tested : Nat) (byte : UInt8) :
    appendedBy (written ++ [(call, byte)]) tested =
      if call = tested then appendedBy written tested ++ [byte] else appendedBy written tested := by
  by_cases same : call = tested <;> simp [appendedBy, List.filter_append, same]

omit [DecidableEq P] in
theorem Calls.unused {s : System P} (calls : Calls s) : appendedBy s.written s.nextCall = [] := by
  have none : s.written.filter (fun entry => entry.1 = s.nextCall) = [] := by
    rw [List.filter_eq_nil_iff]
    intro entry member same
    have old := calls.numbered entry member
    simp only [decide_eq_true_eq] at same
    omega
  rw [appendedBy, none, List.map_nil]

theorem Calls.finish {s : System P} (calls : Calls s) {p : P} {call i : Nat}
    {source : Nat → UInt8} (here : (s.pc p).call = some (call, source, i)) (value : Int)
    (counts : 0 ≤ value → value.toNat = i) :
    Calls { s.move p .outside none with returns := s.returns ++ [⟨call, source, value⟩] } := by
  have others : ∀ q found, (update s.pc p .outside q).call = some found →
      q ≠ p ∧ (s.pc q).call = some found := by
    intro q found held
    by_cases same : q = p
    · subst same
      simp [Pc.call] at held
    · exact ⟨same, by simpa [same] using held⟩
  refine ⟨calls.numbered, ?_, ?_, ?_⟩
  · intro q other given j held
    exact calls.counted q other given j (others q _ held).2
  · intro q r other given taken j k first second
    exact calls.distinct q r other given taken j k (others q _ first).2 (others r _ second).2
  · intro result member
    rcases List.mem_append.mp member with old | new
    · obtain ⟨known, same, gone⟩ := calls.returned result old
      exact ⟨known, same, fun q given j held => gone q given j (others q _ held).2⟩
    · rw [List.mem_singleton.mp new]
      obtain ⟨known, bytes⟩ := calls.counted p call source i here
      refine ⟨known, fun positive => ?_, fun q given j held => ?_⟩
      · simpa [System.move, counts positive] using bytes
      · obtain ⟨other, still⟩ := others q _ held
        exact other (calls.distinct q p call given source j i still here)

/-- Every step keeps the calls. -/
theorem Calls.step {s t : System P} (calls : Calls s) (step : Step s t) : Calls t := by
  cases step with
  | beginWrite p source n out free =>
    have place : ∀ q found, (update s.pc p
        (.writing s.nextCall source n 0 .running) q).call = some found →
        (q = p ∧ found = (s.nextCall, source, 0)) ∨ (s.pc q).call = some found := by
      intro q found held
      by_cases same : q = p
      · subst same
        exact Or.inl ⟨rfl, by simpa [Pc.call] using held.symm⟩
      · exact Or.inr (by simpa [same] using held)
    have fresh : ∀ q given j, (s.pc q).call ≠ some (s.nextCall, given, j) := by
      intro q given j held
      exact Nat.lt_irrefl _ (calls.counted q _ given j held).1
    refine ⟨fun entry member => Nat.lt_succ_of_lt (calls.numbered entry member), ?_, ?_, ?_⟩
    · intro q call given j held
      rcases place q _ held with ⟨-, new⟩ | old
      · cases new
        exact ⟨Nat.lt_succ_self _, calls.unused⟩
      · obtain ⟨known, bytes⟩ := calls.counted q call given j old
        exact ⟨Nat.lt_succ_of_lt known, bytes⟩
    · intro q r call given taken j k first second
      rcases place q _ first with ⟨rfl, new⟩ | old
      · cases new
        rcases place r _ second with ⟨rfl, -⟩ | older
        · rfl
        · exact (fresh r _ _ older).elim
      · rcases place r _ second with ⟨rfl, new⟩ | older
        · cases new
          exact (fresh q _ _ old).elim
        · exact calls.distinct q r call given taken j k old older
    · intro result member
      obtain ⟨known, same, gone⟩ := calls.returned result member
      refine ⟨Nat.lt_succ_of_lt known, same, fun q given j held => ?_⟩
      rcases place q _ held with ⟨-, new⟩ | old
      · have reused : result.call = s.nextCall := congrArg Prod.fst new
        omega
      · exact gone q given j old
  | writeFail p call source n i killed holding here more stop =>
    exact calls.finish (p := p) (i := i) (by simp [here, Pc.call]) (-1) (by simp)
  | writeDone p call source n i holding here all =>
    exact calls.finish (p := p) (i := i) (by simp [here, Pc.call]) i (by simp)
  | writeByte p call source n i holding here more live room =>
    have mine : (s.pc p).call = some (call, source, i) := by simp [here, Pc.call]
    obtain ⟨known, bytes⟩ := calls.counted p call source i mine
    have place : ∀ q found, (update s.pc p
        (.writing call source n (i + 1) .running) q).call = some found →
        (q = p ∧ found = (call, source, i + 1)) ∨ (q ≠ p ∧ (s.pc q).call = some found) := by
      intro q found held
      by_cases same : q = p
      · subst same
        exact Or.inl ⟨rfl, by simpa [Pc.call] using held.symm⟩
      · exact Or.inr ⟨same, by simpa [same] using held⟩
    refine ⟨?_, ?_, ?_, ?_⟩
    · intro entry member
      rcases List.mem_append.mp member with old | new
      · exact calls.numbered entry old
      · rw [List.mem_singleton.mp new]
        exact known
    · intro q other given j held
      rcases place q _ held with ⟨rfl, new⟩ | ⟨apart, old⟩
      · cases new
        exact ⟨known, by simp [appendedBy_snoc, bytes, List.range_succ]⟩
      · have different : call ≠ other := by
          rintro rfl
          exact apart (calls.distinct q p call given source j i old mine)
        simpa [System.move, appendedBy_snoc, different] using calls.counted q other given j old
    · intro q r other given taken j k first second
      rcases place q _ first with ⟨rfl, new⟩ | ⟨-, old⟩
      · cases new
        rcases place r _ second with ⟨rfl, -⟩ | ⟨-, older⟩
        · rfl
        · exact calls.distinct q r call source taken i k mine older
      · rcases place r _ second with ⟨rfl, new⟩ | ⟨-, older⟩
        · cases new
          exact calls.distinct q r call given source j i old mine
        · exact calls.distinct q r other given taken j k old older
    · intro result member
      obtain ⟨old, same, gone⟩ := calls.returned result member
      have different : call ≠ result.call := by
        rintro rfl
        exact gone p source i mine
      refine ⟨old, fun positive => ?_, fun q given j held => ?_⟩
      · simpa [appendedBy_snoc, different] using same positive
      · rcases place q _ held with ⟨-, new⟩ | ⟨-, still⟩
        · cases new
          exact different rfl
        · exact gone q given j still
  | writeSleep p call source n i holding here more live full | writeWake p call source n i here
  | writeResume p call source n i here free | readKilled p n holding here nothing live
  | readSleep p n holding here nothing live | readResume p n here free
  | readReady p n holding here ready | readByte p n i holding here more left
  | readDone p n i holding here ends =>
    exact calls.same (call_move (by simp [here, Pc.call])) rfl rfl rfl
  | beginRead p n out free => exact calls.same (call_move (by simp [out, Pc.call])) rfl rfl rfl
  | readWake p n here => exact calls.same (call_move (by simp [here, Pc.call])) rfl rfl rfl
  | closeRead free | closeWrite free => exact calls.same (fun _ => rfl) rfl rfl rfl

theorem reached {data : Nat → UInt8} {s : System P} (run : Reaches Step (initial data) s) :
    Queue s ∧ Calls s := by
  refine run.keeps (fun s => Queue s ∧ Calls s) ?_ ⟨?_, ?_⟩
  · rintro before after ⟨queue, calls⟩ step
    exact ⟨queue.step step, calls.step step⟩
  · exact ⟨rfl, rfl, List.prefix_rfl, Nat.zero_le _, by simp [initial]⟩
  · exact ⟨by simp [initial], by simp [initial, Pc.call], by simp [initial, Pc.call],
      by simp [initial]⟩

/-- A pipe is a bounded queue, however often its counters have wrapped: the delivered bytes
are a prefix of the appended ones, the rest lies in the buffer in order, and a `pipewrite`
that returned `k ≥ 0` appended exactly the first `k` bytes of its source. -/
theorem pipe_is_fifo {data : Nat → UInt8} {s : System P} (run : Reaches Step (initial data) s) :
    let stored := (s.pipe.ring.nwrite + (WRAP - s.pipe.ring.nread)) % WRAP
    let appended := s.written.map Prod.snd
    stored ≤ PIPESIZE ∧
    s.delivered <+: appended ∧
    appended.length = s.delivered.length + stored ∧
    (∀ k < stored, appended[s.delivered.length + k]? =
      some (s.pipe.ring.data ((s.pipe.ring.nread + k) % WRAP % PIPESIZE))) ∧
    (∀ result ∈ s.returns, 0 ≤ result.value →
      appendedBy s.written result.call = (List.range result.value.toNat).map result.source) := by
  have below : PIPESIZE < WRAP := by decide
  have divides : PIPESIZE ∣ WRAP := by decide
  obtain ⟨queue, calls⟩ := reached run
  intro stored appended
  have shorter : s.delivered.length ≤ appended.length := Holds.length_le queue
  have bounded : appended.length ≤ s.delivered.length + PIPESIZE := Holds.bounded queue
  have counted : stored = appended.length - s.delivered.length := Holds.gap queue below
  refine ⟨by omega, Holds.initial queue, by omega, ?_, ?_⟩
  · intro k inside
    have within : s.delivered.length + k < appended.length := by omega
    have slot : (s.pipe.ring.nread + k) % WRAP % PIPESIZE =
        (s.delivered.length + k) % PIPESIZE := by
      rw [Holds.reads queue, Nat.mod_add_mod, wrapped_index divides]
    rw [slot, Holds.stored queue _ (by omega) within, List.getElem?_eq_getElem within]
  · intro result member positive
    exact (calls.returned result member).2.1 positive

/-- One process writes two bytes, another takes the first of them. -/
theorem sample_pipe_fifo :
    ∃ s : System Bool, Reaches Step (initial fun _ => 0) s ∧ s.delivered = [7] ∧
      s.delivered <+: s.written.map Prod.snd := by
  have run : Reaches Step (initial fun _ => 0 : System Bool) _ :=
    (((((((Relation.ReflTransGen.refl.tail
      (.beginWrite true (fun i => UInt8.ofNat (7 + i)) 2 rfl rfl)).tail
      (.writeByte true 0 _ 2 0 rfl rfl (by decide) rfl (by decide))).tail
      (.writeByte true 0 _ 2 1 rfl rfl (by decide) rfl (by decide))).tail
      (.writeDone true 0 _ 2 2 rfl rfl (by decide))).tail
      (.beginRead false 1 rfl rfl)).tail
      (.readReady false 1 rfl rfl (by decide))).tail
      (.readByte false 1 0 rfl rfl (by decide) (by decide)))
  exact ⟨_, run, rfl, (pipe_is_fifo run).2.1⟩

end Xv6.Pipes
