import Xv6.File.Writing
import Xv6.Library.Transition

/-!
# Writers that share an open file

Processes that inherited one open file write to it through one offset, which has no lock of its
own: `filewrite` reads and advances it while it holds the lock of the inode.
-/

namespace Xv6.Files

open Command Bytes Fs Transition Function

structure Call where
  src : Source
  n : Int
  i : Nat

structure Finished where
  src : Source
  n : Int
  written : Nat
  ret : Int

/-- What one round wrote, and the offset at which it did. -/
structure Chunk where
  pid : Nat
  start : Nat
  data : List UInt8

structure Shared where
  fs : State
  off : UInt32
  running : Nat → Option Call
  finished : Nat → List Finished
  chunks : List Chunk

def Call.leave (call : Call) (extra : Nat) : Finished :=
  ⟨call.src, call.n, call.i + extra, if (call.i : Int) = call.n then call.n else -1⟩

def Call.bytes (call : Call) : List UInt8 := string call.src.byte call.i

def Finished.bytes (call : Finished) : List UInt8 := string call.src.byte call.written

def Shared.turn (s : Shared) (p : Nat) (running : Option Call) (finished : List Finished) :
    Shared :=
  { s with
    running := update s.running p running
    finished := update s.finished p finished }

def Shared.wrote (s : Shared) (p : Nat) (call : Call) (r : Int) (off : UInt32) (fs : State) :
    Shared :=
  { s with
    fs := fs
    off := off
    chunks := s.chunks ++ [⟨p, s.off.toNat, string (sourceFrom call.src call.i).byte r.toNat⟩] }

def Shared.round (s : Shared) (p : Nat) (call : Call) (r : Int) (off : UInt32) (fs : State) :
    Shared :=
  if r = chunkLength call.n.toNat call.i then
    (s.wrote p call r off fs).turn p (some { call with i := call.i + r.toNat }) (s.finished p)
  else (s.wrote p call r off fs).turn p none (s.finished p ++ [call.leave r.toNat])

structure Shows (sb : Superblock) (ip inum : Nat) (fs : State) : Prop where
  consistent : Consistent sb fs
  slot : ip < NINODE
  ref : 0 < (fs.itable ip).ref
  number : (fs.itable ip).inum = inum
  live : Live sb (dinodeOf sb fs.disk) inum

structure Elsewhere (sb : Superblock) (ip inum off : Nat) (fs after : State) : Prop where
  shows : Shows sb ip inum after
  size : (dinodeOf sb after.disk inum).size = (dinodeOf sb fs.disk inum).size
  bytes : ∀ k, k < off → fileByte sb after.disk inum k = fileByte sb fs.disk inum k

/-- One step of the writers or of everybody else. -/
inductive Step (sb : Superblock) (ip inum : Nat) : Shared → Shared → Prop
  | call {s : Shared} (p : Nat) (src : Source) (n : Int) (idle : s.running p = none) :
      Step sb ip inum s (s.turn p (some ⟨src, n, 0⟩) (s.finished p))
  | round {s : Shared} {p : Nat} {call : Call} {r : Int} {off : UInt32} {fs : State}
      (running : s.running p = some call) (more : (call.i : Int) < call.n)
      (ran : (writeChunk sb ip call.src s.off call.n.toNat call.i).run s.fs = .ok ((r, off), fs)) :
      Step sb ip inum s (s.round p call r off fs)
  | leave {s : Shared} {p : Nat} {call : Call} (running : s.running p = some call)
      (done : ¬ (call.i : Int) < call.n) :
      Step sb ip inum s (s.turn p none (s.finished p ++ [call.leave 0]))
  | other {s : Shared} {fs : State} (elsewhere : Elsewhere sb ip inum s.off.toNat s.fs fs) :
      Step sb ip inum s { s with fs := fs }

def written (chunks : List Chunk) : List UInt8 := chunks.flatMap (·.data)

def ownBytes (p : Nat) (chunks : List Chunk) : List UInt8 :=
  written (chunks.filter (·.pid = p))

def Consecutive (start : Nat) : List Chunk → Prop
  | [] => True
  | chunk :: rest => chunk.start = start ∧ Consecutive (start + chunk.data.length) rest

theorem written_append (left right : List Chunk) :
    written (left ++ right) = written left ++ written right :=
  List.flatMap_append

theorem written_single (chunk : Chunk) : written [chunk] = chunk.data := by
  simp only [written, List.flatMap_cons, List.flatMap_nil, List.append_nil]

theorem Consecutive.snoc {start : Nat} {chunks : List Chunk} {chunk : Chunk}
    (before : Consecutive start chunks) (here : chunk.start = start + (written chunks).length) :
    Consecutive start (chunks ++ [chunk]) := by
  induction chunks generalizing start with
  | nil => exact ⟨here, trivial⟩
  | cons first rest ih =>
    obtain ⟨at_, later⟩ := before
    refine ⟨at_, ih later ?_⟩
    rw [here, written, List.flatMap_cons, List.length_append, ← Nat.add_assoc]
    rfl

theorem ownBytes_snoc_self (chunks : List Chunk) (p start : Nat) (data : List UInt8) :
    ownBytes p (chunks ++ [⟨p, start, data⟩]) = ownBytes p chunks ++ data := by
  simp [ownBytes, List.filter_append, written_append, written_single]

theorem ownBytes_snoc_of_ne {p q : Nat} (chunks : List Chunk) (start : Nat) (data : List UInt8)
    (other : q ≠ p) : ownBytes p (chunks ++ [⟨q, start, data⟩]) = ownBytes p chunks := by
  simp [ownBytes, List.filter_append, other]

theorem string_add (bytes : ByteMap) (first second : Nat) :
    string bytes (first + second) =
      string bytes first ++ string (fun k => bytes (first + k)) second := by
  simp only [string, List.range_add, List.map_append, List.map_map]
  rfl

variable {sb : Superblock} {ip inum : Nat} {fs : State}

structure Advanced (sb : Superblock) (ip inum : Nat) (disk : Disk) (src : Source) (off : UInt32)
    (i : Nat) (r : Int) (off' : UInt32) (after : State) : Prop where
  shows : Shows sb ip inum after
  offset : off'.toNat = off.toNat + r.toNat
  reached : r.toNat = 0 ∨ off'.toNat ≤ (dinodeOf sb after.disk inum).size.toNat
  size : (dinodeOf sb disk inum).size.toNat ≤ (dinodeOf sb after.disk inum).size.toNat
  before : ∀ k, k < off.toNat → fileByte sb after.disk inum k = fileByte sb disk inum k
  data : ∀ k, k < r.toNat → fileByte sb after.disk inum (off.toNat + k) = src.byte (i + k)

/-- An accepted write advances the offset by what it reports. -/
theorem advanced_of_accepted {src : Source} {off n : UInt32} {i t : Nat} {after : State}
    (accepted : Accepted sb fs ip (sourceFrom src i) off n t after) (consistent : Consistent sb fs)
    (locked : Locked fs ip) (fine : ¬ Rejected (fs.itable ip).d.size off n) :
    Advanced sb ip (fs.itable ip).inum fs.disk src off i t
      (if 0 < (t : Int) then off + UInt32.ofNat (t : Int).toNat else off) after := by
  obtain ⟨extent, addrs, low, -, -, rewritten⟩ := accepted.effect
  obtain ⟨locked', sameInum⟩ := rewritten.locked locked
  obtain ⟨inFile, range⟩ := not_rejected fine
  have reported := accepted.reported
  have small := locked.bounded consistent
  have offset : (if 0 < (t : Int) then off + UInt32.ofNat (t : Int).toNat else off).toNat =
      off.toNat + t := by
    split
    · rw [UInt32.toNat_add, UInt32.toNat_ofNat', Int.toNat_natCast]
      simp only [MAXFILE, NDIRECT, NINDIRECT, BSIZE] at *
      omega
    · omega
  have size : (dinodeOf sb after.disk (fs.itable ip).inum).size.toNat =
      max (dinodeOf sb fs.disk (fs.itable ip).inum).size.toNat (off.toNat + t) := by
    rw [rewritten.dinode, ← locked.copy consistent, UInt32.toNat_ofNat']
    simp only [MAXFILE, NDIRECT, NINDIRECT, BSIZE] at *
    omega
  have type : (dinodeOf sb after.disk (fs.itable ip).inum).type ≠ 0 := by
    rw [rewritten.dinode]
    exact (locked.opened consistent).type
  refine ⟨⟨rewritten.consistent, locked.slot, locked'.ref, sameInum,
    ⟨(locked.live consistent).1, type⟩⟩, ?_, ?_, ?_, ?_, ?_⟩
  · rw [offset, Int.toNat_natCast]
  · rw [offset, size]
    exact Or.inr (Nat.le_max_right ..)
  · rw [size]
    exact Nat.le_max_left ..
  · intro k below
    rw [rewritten.bytes, if_pos rfl, if_neg (by omega)]
  · intro k below
    rw [Int.toNat_natCast] at below
    rw [rewritten.bytes, if_pos rfl, if_pos (by omega), Nat.add_sub_cancel_left]
    rfl

theorem Shows.wp_writeChunk (shows : Shows sb ip inum fs) (src : Source) (off : UInt32)
    (n i : Nat) :
    wp (writeChunk sb ip src off n i)
      (fun out after => Advanced sb ip inum fs.disk src off i out.1 out.2 after)
      (· = .tooBigTransaction) fs := by
  obtain ⟨consistent, slot, ref, rfl, live⟩ := shows
  rw [writeChunk, wp_bind]
  refine consistent.wp_ilock slot ref live.1 (fun none => absurd none live.2) ?_
  intro middle isMiddle consistent' locked
  have disk : middle.disk = fs.disk := by rw [isMiddle, setSlot_disk]
  have number : (middle.itable ip).inum = (fs.itable ip).inum := by
    rw [isMiddle, setSlot_self]
  rw [wp_bind, ← number, ← disk]
  refine consistent'.wp_writei locked (fun _ _ _ _ => Room.of_stop rfl _) ?_ ?_
  · intro _
    rw [wp_bind]
    refine wp_iunlock locked.ref ?_
    rw [wp_pure]
    exact ⟨⟨consistent', slot, locked.ref, rfl, by rw [disk, number]; exact live⟩, by simp,
      Or.inl rfl, Nat.le_refl _, fun _ _ => rfl, fun k below => absurd below (by simp)⟩
  · intro t after fine accepted
    have advanced := advanced_of_accepted accepted consistent' locked fine
    rw [wp_bind]
    refine wp_iunlock advanced.shows.ref ?_
    rw [wp_pure]
    exact advanced

structure Accounted (own : List UInt8) (running : Option Call) (finished : List Finished) :
    Prop where
  order : own = finished.flatMap Finished.bytes ++ (running.map Call.bytes).getD []
  counted : ∀ call, running = some call → call.i ≤ call.n.toNat
  complete : ∀ call ∈ finished, call.ret = call.n → call.written = call.n.toNat

section Accounted

variable {own : List UInt8} {call : Call} {finished : List Finished}

theorem Accounted.enter (accounted : Accounted own none finished) (src : Source) (n : Int) :
    Accounted own (some ⟨src, n, 0⟩) finished := by
  refine ⟨accounted.order, fun call isCall => ?_, accounted.complete⟩
  obtain rfl := Option.some.inj isCall
  exact Nat.zero_le _

/-- A complete round. -/
theorem Accounted.goOn (accounted : Accounted own (some call) finished) {r : Nat}
    (short : r ≤ call.n.toNat - call.i) :
    Accounted (own ++ string (sourceFrom call.src call.i).byte r)
      (some { call with i := call.i + r }) finished := by
  refine ⟨?_, fun next isNext => ?_, accounted.complete⟩
  · rw [accounted.order, List.append_assoc]
    exact congrArg _ (string_add ..).symm
  · obtain rfl := Option.some.inj isNext
    have := accounted.counted call rfl
    simp only
    omega

theorem Accounted.leave (accounted : Accounted own (some call) finished) {r : Nat}
    (last : (call.i : Int) < call.n ∨ r = 0) :
    Accounted (own ++ string (sourceFrom call.src call.i).byte r) none
      (finished ++ [call.leave r]) := by
  refine ⟨?_, fun next isNext => (nomatch isNext), fun other member returned => ?_⟩
  · rw [accounted.order, List.append_assoc, List.flatMap_append, List.append_assoc]
    refine congrArg _ ?_
    simp only [Option.map_some, Option.getD_some, Option.map_none, Option.getD_none,
      List.flatMap_cons, List.flatMap_nil, List.append_nil]
    exact (string_add ..).symm
  · have counted := accounted.counted call rfl
    rcases List.mem_append.mp member with old | new
    · exact accounted.complete other old returned
    · obtain rfl := List.mem_singleton.mp new
      simp only [Call.leave] at returned ⊢
      split at returned <;> omega

end Accounted

structure Lossless (sb : Superblock) (ip inum off₀ : Nat) (s : Shared) : Prop where
  shows : Shows sb ip inum s.fs
  offset : s.off.toNat = off₀ + (written s.chunks).length
  reached : written s.chunks = [] ∨ s.off.toNat ≤ (dinodeOf sb s.fs.disk inum).size.toNat
  consecutive : Consecutive off₀ s.chunks
  content : string (fun k => fileByte sb s.fs.disk inum (off₀ + k)) (written s.chunks).length =
    written s.chunks
  accounted : ∀ p, Accounted (ownBytes p s.chunks) (s.running p) (s.finished p)

theorem Lossless.content_round {s : Shared} {off₀ i : Nat} {src : Source} {r : Int} {off : UInt32}
    {fs : State} (lossless : Lossless sb ip inum off₀ s)
    (advanced : Advanced sb ip inum s.fs.disk src s.off i r off fs) :
    string (fun k => fileByte sb fs.disk inum (off₀ + k)) ((written s.chunks).length + r.toNat) =
      written s.chunks ++ string (sourceFrom src i).byte r.toNat := by
  have offset := lossless.offset
  have old : string (fun k => fileByte sb fs.disk inum (off₀ + k)) (written s.chunks).length =
      written s.chunks := by
    refine Eq.trans (List.map_congr_left fun k member => ?_) lossless.content
    have below := List.mem_range.mp member
    exact advanced.before (off₀ + k) (by omega)
  have new : string (fun k => fileByte sb fs.disk inum (off₀ + ((written s.chunks).length + k)))
      r.toNat = string (sourceFrom src i).byte r.toNat := by
    refine List.map_congr_left fun k member => ?_
    rw [← Nat.add_assoc, ← offset]
    exact advanced.data k (List.mem_range.mp member)
  rw [string_add, old, new]

theorem Lossless.turn {s : Shared} {off₀ p : Nat} {running : Option Call}
    {finished : List Finished} (lossless : Lossless sb ip inum off₀ s)
    (accounted : Accounted (ownBytes p s.chunks) running finished) :
    Lossless sb ip inum off₀ (s.turn p running finished) := by
  refine ⟨lossless.shows, lossless.offset, lossless.reached, lossless.consecutive,
    lossless.content, fun q => ?_⟩
  by_cases same : q = p
  · subst same
    simp only [Shared.turn, update_self]
    exact accounted
  · simp only [Shared.turn, update_of_ne same]
    exact lossless.accounted q

theorem Lossless.wrote {s : Shared} {off₀ p : Nat} {call : Call} {r : Int} {off : UInt32}
    {fs : State} {running : Option Call} {finished : List Finished}
    (lossless : Lossless sb ip inum off₀ s)
    (advanced : Advanced sb ip inum s.fs.disk call.src s.off call.i r off fs)
    (accounted : Accounted (ownBytes p s.chunks ++
      string (sourceFrom call.src call.i).byte r.toNat) running finished) :
    Lossless sb ip inum off₀ ((s.wrote p call r off fs).turn p running finished) := by
  have all : written (s.wrote p call r off fs).chunks =
      written s.chunks ++ string (sourceFrom call.src call.i).byte r.toNat := by
    rw [Shared.wrote, written_append, written_single]
  have length : (written (s.wrote p call r off fs).chunks).length =
      (written s.chunks).length + r.toNat := by
    rw [all, List.length_append, length_string]
  refine ⟨advanced.shows, ?_, ?_, lossless.consecutive.snoc lossless.offset, ?_, fun q => ?_⟩
  · show off.toNat = off₀ + (written (s.wrote p call r off fs).chunks).length
    rw [advanced.offset, lossless.offset, length, Nat.add_assoc]
  · show written (s.wrote p call r off fs).chunks = [] ∨ off.toNat ≤ _
    rcases advanced.reached with none | reached
    · rw [advanced.offset, all, none]
      simp only [string, List.range_zero, List.map_nil, List.append_nil, Nat.add_zero]
      exact lossless.reached.imp_right fun inFile => inFile.trans advanced.size
    · exact Or.inr reached
  · show string _ (written (s.wrote p call r off fs).chunks).length = _
    rw [length]
    exact (lossless.content_round advanced).trans all.symm
  · by_cases same : q = p
    · subst same
      simp only [Shared.turn, update_self, Shared.wrote]
      rw [ownBytes_snoc_self]
      exact accounted
    · simp only [Shared.turn, update_of_ne same, Shared.wrote]
      rw [ownBytes_snoc_of_ne _ _ _ (Ne.symm same)]
      exact lossless.accounted q

theorem Step.lossless {s after : Shared} {off₀ : Nat} (step : Step sb ip inum s after)
    (lossless : Lossless sb ip inum off₀ s) : Lossless sb ip inum off₀ after := by
  cases step with
  | call p src n idle =>
    have accounted := lossless.accounted p
    rw [idle] at accounted
    exact lossless.turn (accounted.enter src n)
  | @round p call r off fs running more ran =>
    have accounted := lossless.accounted p
    rw [running] at accounted
    have advanced := wp_returned (lossless.shows.wp_writeChunk _ _ _ _) ran
    unfold Shared.round
    split
    · rename_i whole
      have short := (chunkLength_le call.n.toNat call.i).2
      exact lossless.wrote advanced (accounted.goOn (by omega))
    · exact lossless.wrote advanced (accounted.leave (Or.inl more))
  | @leave p call running done =>
    have accounted := lossless.accounted p
    rw [running] at accounted
    have ended := accounted.leave (Or.inr rfl)
    rw [string, List.range_zero, List.map_nil, List.append_nil] at ended
    exact lossless.turn ended
  | other elsewhere =>
    refine ⟨elsewhere.shows, lossless.offset, ?_, lossless.consecutive, ?_, lossless.accounted⟩
    · rw [elsewhere.size]
      exact lossless.reached
    · refine Eq.trans (List.map_congr_left fun k member => ?_) lossless.content
      have below : k < (written s.chunks).length := List.mem_range.mp member
      have offset := lossless.offset
      exact elsewhere.bytes (off₀ + k) (by omega)

/-- Writers that share an open file lose nothing. However their calls interleave, the rounds
write consecutive stretches from the initial offset on, the file has their bytes there,
and the bytes of each process are in order what its calls wrote of their sources. -/
theorem shared_writers_lose_nothing (sb : Superblock) (ip inum : Nat) (first s : Shared)
    (shows : Shows sb ip inum first.fs) (idle : ∀ p, first.running p = none)
    (none : ∀ p, first.finished p = []) (nothing : first.chunks = [])
    (run : Reaches (Step sb ip inum) first s) :
    Consecutive first.off.toNat s.chunks ∧
    s.off.toNat = first.off.toNat + (written s.chunks).length ∧
    (written s.chunks = [] ∨ s.off.toNat ≤ (dinodeOf sb s.fs.disk inum).size.toNat) ∧
    string (fun k => fileByte sb s.fs.disk inum (first.off.toNat + k)) (written s.chunks).length =
      written s.chunks ∧
    (∀ p, ownBytes p s.chunks =
      (s.finished p).flatMap Finished.bytes ++ ((s.running p).map Call.bytes).getD []) ∧
    ∀ p, ∀ call ∈ s.finished p, call.ret = call.n → call.written = call.n.toNat := by
  have initially : Lossless sb ip inum first.off.toNat first := by
    refine ⟨shows, by rw [nothing]; rfl, Or.inl (by rw [nothing]; rfl), by rw [nothing]; trivial,
      by rw [nothing]; rfl, fun p => ?_⟩
    rw [nothing, none p, idle p]
    exact ⟨rfl, fun _ running => (nomatch running), fun _ member => (nomatch member)⟩
  have lossless := run.keeps (Lossless sb ip inum first.off.toNat)
    (fun _ _ before step => step.lossless before) initially
  exact ⟨lossless.consecutive, lossless.offset, lossless.reached, lossless.content,
    fun p => (lossless.accounted p).order, fun p => (lossless.accounted p).complete⟩

/-- Two processes write two bytes each to a new file on the blank disk. The second
one gets the lock of the inode first. -/
theorem two_writers_lose_nothing : ∃ first s, Shows blankSuperblock 0 1 first.fs ∧
    Reaches (Step blankSuperblock 0 1) first s ∧
    string (fun k => fileByte blankSuperblock s.fs.disk 1 (0 + k)) 4 = [9, 9, 7, 7] := by
  obtain ⟨made, fs, one, two, first, second, ⟨reference, inum⟩, ⟨ref, number, live⟩, third, fourth⟩ :
      ∃ made fs one two,
        (serve blankSuperblock (.ialloc T_FILE)).run blankState = .ok (⟨⟩, made) ∧
        (serve blankSuperblock (.ilock 0)).run made = .ok (⟨⟩, fs) ∧
        ((made.itable 0).ref = 1 ∧ (made.itable 0).inum = 1) ∧
        ((fs.itable 0).ref = 1 ∧ (fs.itable 0).inum = 1 ∧
          (dinodeOf blankSuperblock fs.disk 1).type = T_FILE) ∧
        (writeChunk blankSuperblock 0 ⟨fun _ => 9, 2⟩ 0 2 0).run fs = .ok ((2, 2), one) ∧
        (writeChunk blankSuperblock 0 ⟨fun _ => 7, 2⟩ 2 2 0).run one = .ok ((2, 4), two) :=
    ⟨_, _, _, _, rfl, rfl, ⟨rfl, rfl⟩, ⟨rfl, rfl, rfl⟩, rfl, rfl⟩
  have shows : Shows blankSuperblock 0 1 fs :=
    ⟨blank_file_consistent first second reference inum, by decide, by omega, number, by decide,
      by rw [live]; decide⟩
  let start : Shared := ⟨fs, 0, fun _ => none, fun _ => [], []⟩
  let seven : Call := ⟨⟨fun _ => 7, 2⟩, 2, 0⟩
  let nine : Call := ⟨⟨fun _ => 9, 2⟩, 2, 0⟩
  let called := (start.turn 1 (some seven) []).turn 2 (some nine) []
  have calls : Reaches (Step blankSuperblock 0 1) start called :=
    (Relation.ReflTransGen.single (Step.call 1 _ 2 rfl)).tail (Step.call 2 _ 2 rfl)
  have round : Step blankSuperblock 0 1 called (called.round 2 nine 2 2 one) :=
    Step.round rfl (by decide) third
  obtain ⟨half, isHalf, offset, file, chunks, running⟩ : ∃ half,
      half = called.round 2 nine 2 2 one ∧ half.off = 2 ∧ half.fs = one ∧
      half.chunks = [⟨2, 0, [9, 9]⟩] ∧ half.running 1 = some seven :=
    ⟨_, rfl, rfl, rfl, rfl, rfl⟩
  have again : Step blankSuperblock 0 1 half (half.round 1 seven 2 4 two) := by
    refine Step.round running (by decide) ?_
    rw [offset, file]
    exact fourth
  have all : written (half.round 1 seven 2 4 two).chunks = [9, 9, 7, 7] := by
    have whole : (2 : Int) = chunkLength seven.n.toNat seven.i := by decide
    rw [Shared.round, if_pos whole]
    show written (half.chunks ++ _) = _
    rw [chunks]
    rfl
  have run := (calls.tail (isHalf ▸ round)).tail again
  obtain ⟨-, -, -, content, -⟩ := shared_writers_lose_nothing blankSuperblock 0 1 start _ shows
    (fun _ => rfl) (fun _ => rfl) rfl run
  rw [all] at content
  exact ⟨start, _, shows, run, content⟩

end Xv6.Files
