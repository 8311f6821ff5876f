import Xv6.Console.LineEditor
import Xv6.Fs.ByteArrays
import Xv6.Pipe.ReadLoss

/-!
# Reading from an open file

`fileread` passes the signed length of the caller on to a pipe, to the console or to an inode.
-/

namespace Xv6.Files

open Command Bytes Fs

/-- The types of an open file. -/
inductive FileType where
  | FD_NONE
  | FD_PIPE
  | FD_INODE
  | FD_DEVICE
  deriving DecidableEq, Repr

/-- The fields of `struct file` that reading uses. -/
structure OpenFile where
  type : FileType
  readable : Bool
  ip : Nat
  off : UInt32
  major : Int16

abbrev LivePipe := { pi : Pipes.Pipe // pi.Counted }

structure World where
  pipe : List (Bool × LivePipe)
  console : List (Bool × Console.Cons)
  fs : State

inductive Outcome where
  | asleep
  | stops
  | returns (value : Int) (dst : ByteMap) (off : UInt32)

abbrev CONSOLE : Int16 := 1

def pipeCall (writable : Nat) (n : Int) (dst : ByteMap) :
    List (Bool × LivePipe) → Option (Int × ByteMap)
  | [] => none
  | (killed, pi) :: later =>
    match Pipes.piperead killed (fun i => decide (i < writable)) n pi.1 dst with
    | .sleeps => pipeCall writable n dst later
    | .returns value _ dst => some (value, dst)

def consoleCall (writable target : Nat) :
    Nat → List UInt8 → List (Bool × Console.Cons) → Option (Int × List UInt8)
  | _, _, [] => none
  | n, bytes, (killed, cons) :: later =>
    match (Console.consoleread killed writable target n bytes cons).1 with
    | (.returned count, bytes) => some (count, bytes)
    | (.asleep n, bytes) => consoleCall writable target n bytes later

def readLocked (sb : Superblock) (ip : Nat) (dst : Destination) (off n : UInt32) :
    FsM (Int × ByteMap) := do
  ilock sb ip
  let result ← readi sb ip dst off n
  iunlock ip
  pure result

/-- Read from a file. -/
def fileread (sb : Superblock) (world : World) (f : OpenFile) (dst : Destination) (n : Int32) :
    Outcome :=
  if f.readable = false then .returns (-1) dst.byte f.off
  else
    match f.type with
    | .FD_PIPE =>
      match pipeCall dst.writable n.toInt dst.byte world.pipe with
      | none => .asleep
      | some (r, dst) => .returns r dst f.off
    | .FD_DEVICE =>
      if f.major < 0 ∨ NDEV ≤ f.major ∨ f.major ≠ CONSOLE then .returns (-1) dst.byte f.off
      else
        match consoleCall dst.writable n.toInt.toNat n.toInt.toNat [] world.console with
        | none => .asleep
        | some (r, bytes) => .returns r (copy dst.byte 0 (bytes.getD · 0) 0 bytes.length) f.off
    | .FD_INODE =>
      match (readLocked sb f.ip dst f.off n.toUInt32).run world.fs with
      | .ok ((r, dst), _) =>
        .returns r dst (if 0 < r then f.off + UInt32.ofNat r.toNat else f.off)
      | .error _ => .stops
    | .FD_NONE => .stops

theorem pipeCall_within {writable : Nat} {n r : Int} {dst dst' : ByteMap}
    {found : List (Bool × LivePipe)} (returned : pipeCall writable n dst found = some (r, dst')) :
    ∀ k, n.toNat ≤ k → dst' k = dst k := by
  induction found with
  | nil => exact absurd returned (by simp [pipeCall])
  | cons first later ih =>
    obtain ⟨killed, pi, counted⟩ := first
    rw [pipeCall] at returned
    split at returned
    · exact ih returned
    · rename_i value pi' bytes stretch
      injection returned with both
      injection both with _ same
      subst same
      exact Pipes.piperead_within counted stretch

def wanted : Console.Outcome → Nat
  | .returned _ => 0
  | .asleep n => n

theorem consoleread_within (killed : Bool) (writable target n : Nat) (bytes : List UInt8)
    (cons : Console.Cons) :
    (Console.consoleread killed writable target n bytes cons).1.2.length +
      wanted (Console.consoleread killed writable target n bytes cons).1.1 ≤ bytes.length + n := by
  induction n generalizing bytes cons with
  | zero => exact Nat.le_refl _
  | succ n ih =>
    have longer (c : UInt8) : (bytes ++ [c]).length = bytes.length + 1 := by
      rw [List.length_append, List.length_singleton]
    rw [Console.consoleread]
    split
    · cases killed with
      | true => exact Nat.le_add_right _ _
      | false => exact Nat.le_refl _
    · simp only
      split
      · exact Nat.le_add_right _ _
      · split
        · exact Nat.le_add_right _ _
        · split
          · simp only [longer, wanted]
            omega
          · refine Nat.le_trans (ih _ _) ?_
            rw [longer]
            omega

theorem consoleCall_within {writable target n : Nat} {bytes out : List UInt8} {r : Int}
    {found : List (Bool × Console.Cons)}
    (returned : consoleCall writable target n bytes found = some (r, out)) :
    out.length ≤ bytes.length + n := by
  induction found generalizing n bytes with
  | nil => exact absurd returned (by simp [consoleCall])
  | cons first later ih =>
    obtain ⟨killed, cons⟩ := first
    have stretch := consoleread_within killed writable target n bytes cons
    rw [consoleCall] at returned
    generalize (Console.consoleread killed writable target n bytes cons).1 = outcome at *
    obtain ⟨leaves, stored⟩ := outcome
    cases leaves with
    | returned count =>
      simp only [Option.some.injEq, Prod.mk.injEq] at returned
      rw [← returned.2]
      exact stretch
    | asleep m =>
      simp only [wanted] at returned stretch
      have rest := ih returned
      omega

theorem wp_readRounds_within {sb : Superblock} {ip writable n : Nat} (rounds tot off : Nat)
    (out : ByteMap) (fs : State) (sofar : tot ≤ n) :
    wp (readRounds sb ip writable n rounds tot off out) (fun result _ =>
      result.1 ≤ n ∧ ∀ k, n ≤ k → result.2 k = out k) (fun _ => True) fs := by
  induction rounds generalizing tot off out fs with
  | zero =>
    rw [readRounds, wp_pure]
    exact ⟨by simp only; omega, fun _ _ => rfl⟩
  | succ rounds ih =>
    unfold readRounds
    split
    · rename_i more
      rw [wp_bind]
      refine wp_post wp_any ?_
      intro addr middle _
      split
      · rw [wp_pure]
        exact ⟨by simp only; omega, fun _ _ => rfl⟩
      · simp only [wp_bind, wp_bread]
        have chunk : min (n - tot) (BSIZE - off % BSIZE) ≤ n - tot := Nat.min_le_left ..
        generalize min (n - tot) (BSIZE - off % BSIZE) = m at chunk
        split
        · refine wp_post (ih (tot + m) (off + m) _ middle (by omega)) ?_
          rintro result after ⟨bounded, outside⟩
          refine ⟨bounded, fun k beyond => ?_⟩
          rw [outside k beyond]
          exact copy_outside _ _ (Or.inr (by omega))
        · rename_i tight
          rw [wp_pure]
          refine ⟨by simp only; omega, fun k beyond => ?_⟩
          exact copy_outside _ _ (Or.inr (by omega))
    · rw [wp_pure]
      exact ⟨by simp only; omega, fun _ _ => rfl⟩

/-- The law of `readi` for any inode. -/
theorem wp_readi_within {sb : Superblock} {ip : Nat} (dst : Destination) (off n : UInt32)
    (fs : State) :
    wp (readi sb ip dst off n) (fun result _ =>
      result.1 ≤ n.toNat ∧ (0 < result.1 → off.toNat + result.1 < 2 ^ 32) ∧
        ∀ k, n.toNat ≤ k → result.2 k = dst.byte k) (fun _ => True) fs := by
  simp only [readi, wp_bind, wp_inode]
  split
  · rw [wp_pure]
    exact ⟨Int.natCast_nonneg _, fun positive => absurd positive (Int.lt_irrefl 0), fun _ _ => rfl⟩
  · rename_i accepted
    rw [not_or, UInt32.lt_iff_toNat_lt, UInt32.lt_iff_toNat_lt, UInt32.toNat_add] at accepted
    generalize isCount : (if (fs.itable ip).d.size < off + n then (fs.itable ip).d.size - off
      else n) = count
    have offBound := off.toNat_lt
    have nBound := n.toNat_lt
    have sizeBound := (fs.itable ip).d.size.toNat_lt
    have small : count.toNat ≤ n.toNat ∧ off.toNat + count.toNat < 2 ^ 32 := by
      rw [← isCount]
      split
      · rename_i beyond
        rw [UInt32.lt_iff_toNat_lt, UInt32.toNat_add] at beyond
        rw [UInt32.toNat_sub_of_le _ _ (UInt32.le_iff_toNat_le.mpr (by omega))]
        omega
      · omega
    refine wp_post (wp_readRounds_within count.toNat 0 off.toNat dst.byte fs (Nat.zero_le _)) ?_
    rintro result after ⟨bounded, outside⟩
    exact ⟨by omega, fun _ => by omega, fun k beyond => outside k (by omega)⟩

theorem wp_readLocked (sb : Superblock) (ip : Nat) (dst : Destination) (off n : UInt32)
    (fs : State) :
    wp (readLocked sb ip dst off n) (fun result _ =>
      result.1 ≤ n.toNat ∧ (0 < result.1 → off.toNat + result.1 < 2 ^ 32) ∧
        ∀ k, n.toNat ≤ k → result.2 k = dst.byte k) (fun _ => True) fs := by
  rw [readLocked, wp_bind]
  refine wp_post wp_any ?_
  intro _ locked _
  rw [wp_bind]
  refine wp_post (wp_readi_within dst off n locked) ?_
  intro result read facts
  rw [wp_bind]
  refine wp_post wp_any ?_
  intro _ after _
  rw [wp_pure]
  exact facts

theorem toUInt32_of_nonneg {n : Int32} (nonneg : 0 ≤ n.toInt) :
    n.toUInt32.toNat = n.toInt.toNat := by
  have value : n.toInt = n.toBitVec.toInt := rfl
  have word : n.toUInt32.toNat = n.toBitVec.toNat := rfl
  have small := n.toBitVec.isLt
  rw [value] at nonneg ⊢
  rw [word]
  rw [BitVec.toInt_eq_toNat_cond] at nonneg ⊢
  split at nonneg
  · rename_i low
    rw [if_pos low]
    omega
  · omega

def RespectsLength (sb : Superblock) (world : World) (f : OpenFile) (writable : Nat) (n : Int32) :
    Prop :=
  ∀ byte value dst' off', fileread sb world f ⟨byte, writable⟩ n = .returns value dst' off' →
    (∀ k, (max n.toInt 0).toNat ≤ k → dst' k = byte k) ∧
    (f.type = .FD_INODE →
      (0 < value → value ≤ n.toInt ∧ (off'.toNat : Int) = f.off.toNat + value) ∧
      (value ≤ 0 → off' = f.off))

section Length

variable {sb : Superblock} {world : World} {f : OpenFile} {writable : Nat} {n : Int32}

theorem respectsLength_of_nonneg (nonneg : f.type = .FD_INODE → 0 ≤ n.toInt) :
    RespectsLength sb world f writable n := by
  intro byte value dst' off' returned
  have clipped : (max n.toInt 0).toNat = n.toInt.toNat := by omega
  rw [clipped]
  rw [fileread] at returned
  split at returned
  · injection returned with isValue isDst isOff
    subst isValue isDst isOff
    exact ⟨fun _ _ => rfl, fun _ => ⟨fun positive => absurd positive (by decide), fun _ => rfl⟩⟩
  · split at returned
    · rename_i isPipe
      split at returned
      · exact absurd returned (by simp)
      · rename_i r bytes call
        injection returned with _ isDst isOff
        subst isDst isOff
        exact ⟨pipeCall_within call, fun other => absurd (isPipe.symm.trans other) (by decide)⟩
    · rename_i isDevice
      split at returned
      · injection returned with _ isDst isOff
        subst isDst isOff
        exact ⟨fun _ _ => rfl, fun other => absurd (isDevice.symm.trans other) (by decide)⟩
      · split at returned
        · exact absurd returned (by simp)
        · rename_i r bytes call
          injection returned with _ isDst isOff
          subst isDst isOff
          have short := consoleCall_within call
          rw [List.length_nil, Nat.zero_add] at short
          refine ⟨fun k beyond => ?_, fun other => absurd (isDevice.symm.trans other) (by decide)⟩
          exact copy_outside _ _ (Or.inr (by omega))
    · rename_i isInode
      have law := wp_readLocked sb f.ip ⟨byte, writable⟩ f.off n.toUInt32 world.fs
      split at returned
      · rename_i r bytes after ran
        injection returned with isValue isDst isOff
        subst isValue isDst isOff
        obtain ⟨bounded, room, outside⟩ := wp_returned law ran
        rw [toUInt32_of_nonneg (nonneg isInode)] at bounded outside
        simp only at bounded room
        refine ⟨outside, fun _ => ⟨fun positive => ⟨by omega, ?_⟩, fun notPositive => ?_⟩⟩
        · have sum := room positive
          rw [if_pos positive, UInt32.toNat_add, UInt32.toNat_ofNat']
          omega
        · rw [if_neg (by omega)]
      · exact absurd returned (by simp)
    · exact absurd returned (by simp)

structure OpenInode (sb : Superblock) (fs : State) (ip : Nat) : Prop where
  slot : ip < NINODE
  ref : 0 < (fs.itable ip).ref
  live : Live sb (dinodeOf sb fs.disk) (fs.itable ip).inum

theorem fileread_inode (consistent : Consistent sb world.fs)
    (opened : OpenInode sb world.fs f.ip) (readable : f.readable = true)
    (isInode : f.type = .FD_INODE) (dst : Destination) :
    ∃ r dst', (r, dst') = delivered (fileByte sb world.fs.disk (world.fs.itable f.ip).inum)
        f.off.toNat (readLength (dinodeOf sb world.fs.disk (world.fs.itable f.ip).inum).size f.off
          n.toUInt32) dst ∧
      fileread sb world f dst n =
        .returns r dst' (if 0 < r then f.off + UInt32.ofNat r.toNat else f.off) := by
  have law : wp (readLocked sb f.ip dst f.off n.toUInt32) (fun result _ =>
      result = delivered (fileByte sb world.fs.disk (world.fs.itable f.ip).inum) f.off.toNat
        (readLength (dinodeOf sb world.fs.disk (world.fs.itable f.ip).inum).size f.off
          n.toUInt32) dst) (fun _ => False) world.fs := by
    rw [readLocked, wp_bind]
    refine consistent.wp_ilock opened.slot opened.ref opened.live.1 opened.live.2 ?_
    rintro _ rfl consistent' locked
    rw [wp_bind]
    refine wp_post (wp_readi f.off n.toUInt32 (locked.mapped consistent')
      (locked.bounded consistent')) ?_
    rintro result _ ⟨rfl, rfl⟩
    have counted : ¬ ((world.fs.setSlot f.ip { world.fs.itable f.ip with
        valid := true, d := dinodeOf sb world.fs.disk (world.fs.itable f.ip).inum }).itable
          f.ip).ref < 1 := by
      have := locked.ref
      omega
    simp only [iunlock, wp_bind, wp_inode, if_neg counted, wp_pure]
    rw [locked.bytes_eq consistent', setSlot_self]
    rfl
  obtain ⟨⟨r, dst'⟩, after, ran, outcome⟩ := wp_total law
  refine ⟨r, dst', outcome, ?_⟩
  simp only [fileread, readable, Bool.true_eq_false, ↓reduceIte, isInode, ran]

theorem toUInt32_of_neg {n : Int32} (negative : n.toInt < 0) :
    (n.toUInt32.toNat : Int) = 2 ^ 32 + n.toInt := by
  have value : n.toInt = n.toBitVec.toInt := rfl
  have word : n.toUInt32.toNat = n.toBitVec.toNat := rfl
  have small := n.toBitVec.isLt
  rw [value] at negative ⊢
  rw [word]
  rw [BitVec.toInt_eq_toNat_cond] at negative ⊢
  split at negative
  · omega
  · rename_i high
    rw [if_neg high]
    omega

theorem readLength_neg (size : UInt32) (negative : n.toInt < 0) :
    readLength size f.off n.toUInt32 = 0 ↔
      size ≤ f.off ∨ 0 ≤ (f.off.toNat : Int) + n.toInt := by
  have word := toUInt32_of_neg negative
  have least := n.le_toInt
  rw [readLength_eq, UInt32.le_iff_toNat_le]
  split <;> omega

end Length

/-- Reads respect their length exactly if the file is a pipe or a device or is not
readable, or the offset and the length together are not negative, or there is nothing
to be read at the offset or nowhere to store it. -/
theorem reads_respect_length (sb : Superblock) (world : World) (f : OpenFile) (writable : Nat)
    (n : Int32) (consistent : Consistent sb world.fs)
    (opened : f.type = .FD_INODE → OpenInode sb world.fs f.ip) :
    RespectsLength sb world f writable n ↔
      f.type ≠ .FD_INODE ∨ f.readable = false ∨ 0 ≤ (f.off.toNat : Int) + n.toInt ∨
        (dinodeOf sb world.fs.disk (world.fs.itable f.ip).inum).size ≤ f.off ∨ writable = 0 := by
  by_cases isInode : f.type = .FD_INODE
  swap
  · exact iff_of_true (respectsLength_of_nonneg fun wrong => absurd wrong isInode) (Or.inl isInode)
  by_cases nonneg : 0 ≤ n.toInt
  · exact iff_of_true (respectsLength_of_nonneg fun _ => nonneg)
      (Or.inr (Or.inr (Or.inl (by omega))))
  by_cases readable : f.readable = false
  · refine iff_of_true ?_ (Or.inr (Or.inl readable))
    intro byte value dst' off' returned
    rw [fileread, if_pos readable] at returned
    injection returned with isValue isDst isOff
    subst isValue isDst isOff
    exact ⟨fun _ _ => rfl, fun _ => ⟨fun positive => absurd positive (by decide), fun _ => rfl⟩⟩
  rw [Bool.not_eq_false] at readable
  rw [Int.not_le] at nonneg
  have none : (max n.toInt 0).toNat = 0 := by omega
  have length := readLength_neg (f := f)
    (dinodeOf sb world.fs.disk (world.fs.itable f.ip).inum).size nonneg
  constructor
  · -- A destination that differs from the file in the first byte shows the store.
    intro respects
    by_contra harmful
    simp only [not_or, isInode, readable, not_false_eq_true, Bool.true_eq_false, true_and,
      ne_eq, not_true_eq_false] at harmful
    obtain ⟨before, inside, writes⟩ := harmful
    have positive : 0 < readLength (dinodeOf sb world.fs.disk (world.fs.itable f.ip).inum).size f.off
        n.toUInt32 := by
      rw [Nat.pos_iff_ne_zero, Ne, length, not_or]
      exact ⟨inside, before⟩
    obtain ⟨r, dst', outcome, ran⟩ := fileread_inode consistent (opened isInode) readable isInode
      (n := n) ⟨fun _ => fileByte sb world.fs.disk (world.fs.itable f.ip).inum f.off.toNat + 1,
        writable⟩
    have kept := (respects _ _ _ _ ran).1 0 (by omega)
    rw [delivered, Prod.mk.injEq] at outcome
    rw [outcome.2, copy_inside _ _ (Nat.zero_le 0) (by simp only; omega)] at kept
    simp at kept
  · intro harmless byte value dst' off' returned
    obtain ⟨r, stored, outcome, ran⟩ := fileread_inode consistent (opened isInode) readable isInode
      (n := n) ⟨byte, writable⟩
    rw [ran] at returned
    injection returned with isValue isDst isOff
    subst isValue isDst isOff
    rw [delivered, Prod.mk.injEq] at outcome
    have nothing : min (readLength (dinodeOf sb world.fs.disk (world.fs.itable f.ip).inum).size f.off
        n.toUInt32) writable = 0 := by
      rcases harmless with other | unreadable | sum | beyond | nowhere
      · exact absurd isInode other
      · exact absurd readable (by rw [unreadable]; decide)
      · rw [length.mpr (Or.inr sum), Nat.zero_min]
      · rw [length.mpr (Or.inl beyond), Nat.zero_min]
      · rw [nowhere, Nat.min_zero]
    have notPositive : ¬ 0 < r := by
      rw [outcome.1]
      simp only
      split <;> omega
    refine ⟨fun k _ => ?_, fun _ => ⟨fun positive => absurd positive notPositive, fun _ => ?_⟩⟩
    · rw [outcome.2, nothing, copy_zero]
    · rw [if_neg notPositive]

def twoBytes : World where
  pipe := []
  console := []
  fs :=
    match (do
      serve blankSuperblock (.ialloc T_FILE)
      serve blankSuperblock (.ilock 0)
      serve blankSuperblock (.writei 0 ⟨fun k => UInt8.ofNat (k + 1), 2⟩ 0 2)).run blankState with
    | .ok (_, fs) => fs
    | .error _ => blankState

theorem twoBytes_opened : Consistent blankSuperblock twoBytes.fs ∧
    OpenInode blankSuperblock twoBytes.fs 0 := by
  obtain ⟨made, fs, first, second, third, ⟨reference, inum⟩, ⟨ref, valid⟩, ref', valid'⟩ :
      ∃ made fs,
        (serve blankSuperblock (.ialloc T_FILE)).run blankState = .ok (⟨⟩, made) ∧
        (serve blankSuperblock (.ilock 0)).run made = .ok (⟨⟩, fs) ∧
        (serve blankSuperblock (.writei 0 ⟨fun k => UInt8.ofNat (k + 1), 2⟩ 0 2)).run fs =
          .ok (⟨⟩, twoBytes.fs) ∧
        ((made.itable 0).ref = 1 ∧ (made.itable 0).inum = 1) ∧
        ((fs.itable 0).ref = 1 ∧ (fs.itable 0).valid = true) ∧
        (twoBytes.fs.itable 0).ref = 1 ∧ (twoBytes.fs.itable 0).valid = true :=
    ⟨_, _, rfl, rfl, rfl, ⟨rfl, rfl⟩, ⟨rfl, rfl⟩, rfl, rfl⟩
  have locked : Locked fs 0 := ⟨by decide, by omega, valid⟩
  have consistent : Consistent blankSuperblock twoBytes.fs :=
    Serves.consistent ⟨.writei 0 ⟨fun k => UInt8.ofNat (k + 1), 2⟩ 0 2, locked, third⟩
      (blank_file_consistent first second reference inum)
  have used : 0 < (twoBytes.fs.itable 0).ref := by omega
  exact ⟨consistent, by decide, used, (consistent.cached 0 (by decide) used valid').1⟩

def atStart : OpenFile := ⟨.FD_INODE, true, 0, 0, 0⟩

/-- Reading one byte of two. -/
theorem reads_respect_length_one_byte :
    ∃ dst', fileread blankSuperblock twoBytes atStart ⟨fun _ => 9, 8⟩ 1 = .returns 1 dst' 1 ∧
      dst' 0 = 1 ∧ dst' 1 = 9 := by
  obtain ⟨dst', ran, first⟩ : ∃ dst', fileread blankSuperblock twoBytes atStart ⟨fun _ => 9, 8⟩ 1 =
      .returns 1 dst' 1 ∧ dst' 0 = 1 := ⟨_, rfl, rfl⟩
  have respects : RespectsLength blankSuperblock twoBytes atStart 8 1 :=
    (reads_respect_length _ _ _ _ _ twoBytes_opened.1 fun _ => twoBytes_opened.2).mpr
      (Or.inr (Or.inr (Or.inl (by decide))))
  obtain ⟨within, -⟩ := respects _ _ _ _ ran
  exact ⟨dst', ran, first, within 1 (by decide)⟩

/-- A read of length -1 at the start of the file stores the whole file. -/
theorem negative_length_reads_file :
    ∃ dst', fileread blankSuperblock twoBytes atStart ⟨fun _ => 9, 8⟩ (-1) = .returns 2 dst' 2 ∧
      dst' 0 = 1 ∧ dst' 1 = 2 :=
  ⟨_, rfl, rfl, rfl⟩

end Xv6.Files
