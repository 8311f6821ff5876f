import Xv6.Exec.Kexec
import Xv6.Fs.BlockOwnership
import Xv6.Fs.Images
import Xv6.Vm.ExecMemory
import Xv6.Vm.ForkIsolation

/-!
# A failed exec is invisible

`kexec` opens a file, reads it under its lock inside an operation of the log, and builds a new
image beside the old one; the file is released before the stack is made.
-/

namespace Xv6.Exec

open Command Bytes Ownership Xv6.Tree Vm Function

variable {sb : Fs.Superblock} {pf : Platform} {h : Holdings} {s after : State} {k k' : Kernel}
  {p cwd : Nat}

/-- Argument strings, as they lie in memory. With exactly `MAXARG` of them the
zero behind the last address would not fit into `ustack`; `sys_exec` passes
fewer. -/
structure Argv where
  strings : List (List UInt8)
  inMemory : ∀ string, string ∈ strings → string.length < 2 ^ 63
  terminated : strings.length ≠ MAXARG

structure Released (sb : Fs.Superblock) (s after : State) : Prop where
  stable : Fs.Stable sb after.walk.fs
  disk : after.walk.fs.disk = s.walk.fs.disk
  refs : ∀ slot, slot < Fs.NINODE →
    (after.walk.fs.itable slot).ref = (s.walk.fs.itable slot).ref
  inodes : ∀ slot, slot < Fs.NINODE → 0 < (s.walk.fs.itable slot).ref →
    (after.walk.fs.itable slot).inum = (s.walk.fs.itable slot).inum
  unlocked : after.walk.held = s.walk.held
  closed : after.outstanding = s.outstanding

structure Invisible (s after : State) : Prop where
  processes : after.kernel.proc = s.kernel.proc
  names : after.names = s.names
  memory : ∀ q, (s.kernel.proc q).pagetable ≠ 0 →
    Untouched s.kernel (s.kernel.proc q).pagetable after.kernel
  trapframes : ∀ q, (s.kernel.proc q).trapframe ≠ 0 →
    SamePage s.kernel.mem after.kernel.mem (s.kernel.proc q).trapframe
  free : ∀ q, OnFreeList after.kernel q ↔ OnFreeList s.kernel q

structure Ended (sb : Fs.Superblock) (pf : Platform) (h : Holdings) (s : State) (result : Int)
    (after : State) : Prop where
  sound : Sound pf h after.kernel
  released : Released sb s after
  invisible : result = -1 → Invisible s after

theorem free_of_quiet {roots : Owner → Option Nat} {kept : Keeper → Option Nat} {o : Owner}
    (accounted : Accounted pf k roots kept) (quiet : Quiet pf k roots kept o k')
    (unowned : roots o = none) (q : Nat) : OnFreeList k' q ↔ OnFreeList k q := by
  obtain ⟨pages, books⟩ := accounted
  obtain ⟨pages', books'⟩ := quiet.accounted
  have same : ∀ place, held k'.mem roots kept place = held k.mem roots kept place := by
    intro place
    cases place with
    | kept keeper => rfl
    | page o' path =>
      by_cases building : o' = o
      · rw [held, held, building, unowned, Option.bind_none, Option.bind_none]
      · have spared : Spared o (fun _ _ => False) (.page o' path) := .inl building
        exact quiet.held_eq spared
  rw [← books'.mem_iff, ← books.mem_iff]
  constructor
  · intro listed
    by_contra used
    obtain ⟨place, holds⟩ := books.balanced.covered q (books'.inside q listed) used
    exact (books'.balanced.inside place q ((same place).trans holds)).2 listed
  · intro listed
    by_contra used
    obtain ⟨place, holds⟩ := books'.balanced.covered q (books.inside q listed) used
    exact (books.balanced.inside place q ((same place).symm.trans holds)).2 listed

theorem invisible_of_quiet (sound : Sound pf h s.kernel) {walk : Fs.Locking.Walk}
    (quiet : Quiet pf s.kernel (rootsOf (spacesOf s.kernel.proc h)) (keptOf s.kernel.proc h)
      .building k) : Invisible s ⟨k, s.names, walk, s.outstanding⟩ where
  processes := quiet.processes
  names := rfl
  memory := by
    intro q live
    exact quiet.untouched (fun _ _ nowhere => nowhere.elim)
      (rootsOf_some (spacesOf_proc (h := h) live)) (by simp)
  trapframes := by
    intro q framed
    have keeps : held s.kernel.mem (rootsOf (spacesOf s.kernel.proc h)) (keptOf s.kernel.proc h)
        (.kept (.trapframe q)) = some (s.kernel.proc q).trapframe := Proc.frame_some framed
    exact quiet.frame (.kept (.trapframe q)) _ ⟨by simp, by simp⟩ keeps
  free := free_of_quiet sound.sane.accounted quiet rfl

theorem Left.released (stable : Fs.Stable sb s.walk.fs) (idle : s.walk.held = []) {fs : Fs.State}
    {names : Nat → List UInt8} (left : Left sb s.walk.fs fs) :
    Released sb s ⟨k, names, ⟨fs, []⟩, s.outstanding⟩ := by
  have refs : ∀ slot, slot < Fs.NINODE → (fs.itable slot).ref = (s.walk.fs.itable slot).ref := by
    intro slot inside
    rw [left.holding.ref slot inside, Fs.taken_nil]
    exact Int.add_zero _
  have nodes := left.holding.nodes
  refine ⟨⟨left.holding.consistent, stable.root, ?_, ?_, ?_, ?_⟩, left.disk, refs,
    fun slot inside inUse => (left.holding.kept slot inside inUse).1, idle.symm, rfl⟩
  · intro slot inside inUse
    rw [refs slot inside] at inUse
    rw [nodes, (left.holding.kept slot inside inUse).1]
    exact stable.live slot inside inUse
  · intro i node there unlinked
    rw [nodes] at there
    obtain ⟨slot, inside, inUse, number, valid⟩ := stable.orphans i node there unlinked
    obtain ⟨same, stays⟩ := left.holding.kept slot inside inUse
    refine ⟨slot, inside, ?_, same.trans number, stays valid⟩
    rw [refs slot inside]
    exact inUse
  · rw [nodes]
    exact stable.ranged
  · rw [nodes]
    exact stable.proper

/-- For every path, file and argument strings, and whichever allocations are turned
down, `kexec` by a process that holds no inode lock returns with the file system
released, or it stops in the lookup of the path. If it returns -1, nothing has
changed. -/
theorem failed_exec_invisible (sound : Sound pf h s.kernel)
    (live : (s.kernel.proc p).pagetable ≠ 0) (stable : Fs.Stable sb s.walk.fs)
    (slot : cwd < Fs.NINODE) (inUse : 0 < (s.walk.fs.itable cwd).ref) (idle : s.walk.held = [])
    (path : List UInt8) (argv : Argv) :
    wp (kexec sb pf p cwd path argv.strings) (Ended sb pf h s) (Stops sb s cwd path) s := by
  have failed : ∀ kernel, Quiet pf s.kernel (rootsOf (spacesOf s.kernel.proc h))
      (keptOf s.kernel.proc h) .building kernel →
      Afterwards sb s p path (Ended sb pf h s) (-1) kernel := by
    intro kernel quiet fs left
    rw [if_pos rfl]
    exact ⟨sound.quiet quiet, left.released stable idle, fun _ => invisible_of_quiet sound quiet⟩
  refine wp_kexec stable (stable.referred slot inUse) idle (fun _ stops => stops) ?_ ?_
  · exact fun _ => failed s.kernel (Quiet.refl sound.sane.accounted)
  · intro i node _ _
    refine wp_post (sound.wp_kexec_cases live (program node) argv.strings argv.inMemory
      fun wrong => absurd wrong argv.terminated) ?_
    rintro result kernel ⟨sound', ⟨rfl, quiet⟩ | ⟨rfl, -⟩⟩
    · exact failed kernel quiet
    · intro fs left
      exact ⟨sound', left.released stable idle, fun wrong => absurd wrong (by omega)⟩

/-! ## A program and a full inode table -/

section Witness

def programSuperblock : Fs.Superblock :=
  { Fs.blankSuperblock with
    size := 11
    ninodes := 52
    bmapstart := 8
    inodes := by decide
    bitmap := by decide
    counted := by decide }

def programPath : List UInt8 := [97]

def programEntries : Block := copy (copy (copy (fun _ => 0) 0 (Fs.dirent [Fs.dot] Fs.ROOTINO) 0 16)
  16 (Fs.dirent [Fs.dot, Fs.dot] Fs.ROOTINO) 0 16) 32 (Fs.dirent programPath 2) 0 16

def programImage (file : Program) (removed : Nat) : Fs.Image where
  dinode i :=
    if i = Fs.ROOTINO then ⟨Fs.T_DIR, 0, 0, 1, 48, fun k => if k.val = 0 then 9 else 0⟩
    else if i = 2 then
      ⟨Fs.T_FILE, 0, 0, 1, UInt32.ofNat file.size, fun k => if k.val = 0 then 10 else 0⟩
    else if 3 ≤ i ∧ i < 3 + removed then { Fs.Dinode.zero with type := Fs.T_FILE }
    else Fs.Dinode.zero
  data b := if b = 9 then programEntries else file.bytes
  limit := 11

def programOpened (removed : Nat) : List Nat := Fs.ROOTINO :: List.range' 3 removed

def callerOf (file : Program) (removed : Nat) (kernel : Kernel) : State :=
  ⟨kernel, fun _ => [], ⟨(programImage file removed).state programSuperblock
    (programOpened removed) 0, []⟩, 0⟩

theorem callerOf_room {file : Program} {removed : Nat} : ¬ (LOGBLOCKS : Int) <
    (callerOf file removed k).walk.fs.logged.card +
      ((callerOf file removed k).outstanding + 1) * MAXOPBLOCKS :=
  show ¬ (LOGBLOCKS : Int) < (∅ : Finset Nat).card + (0 + 1) * MAXOPBLOCKS by decide

def twoHeaders : Program := { oneSegment 119 with bytes := store (oneSegment 119).bytes 56 2 2 }

structure FitsImage (file : Program) : Prop where
  inOrder : (programImage file 0).InOrder programSuperblock (programOpened 0)
  places : (programImage file 0).places programSuperblock = [(Fs.ROOTINO, 0), (2, 0)]
  leads : Fs.resolve (Fs.nodes programSuperblock ((programImage file 0).disk programSuperblock))
    Fs.ROOTINO [programPath] = some 2
  zero : ∀ k, BSIZE ≤ k → file.bytes k = 0

theorem oneSegment_fits : FitsImage (oneSegment 119) where
  inOrder := ⟨by decide, by decide, by decide +kernel, by decide +kernel, by decide +kernel,
    by decide, by decide, by decide +kernel, by decide +kernel⟩
  places := by decide +kernel
  leads := by decide +kernel
  zero k beyond := by
    simp only [BSIZE] at beyond
    simp only [oneSegment, List.foldl_cons, List.foldl_nil, store]
    repeat rw [if_neg (by omega)]

theorem twoHeaders_fits : FitsImage twoHeaders where
  inOrder := ⟨by decide, by decide, by decide +kernel, by decide +kernel, by decide +kernel,
    by decide, by decide, by decide +kernel, by decide +kernel⟩
  places := by decide +kernel
  leads := by decide +kernel
  zero k beyond := by
    rw [twoHeaders]
    simp only [store]
    rw [if_neg (by simp only [BSIZE] at beyond; omega)]
    exact oneSegment_fits.zero k beyond

section FitsImage

variable {file : Program} (fits : FitsImage file)
include fits

/-- The file that the path leads to. -/
theorem FitsImage.program_eq {node : Fs.Node}
    (there : Fs.nodes programSuperblock ((programImage file 0).disk programSuperblock) 2 =
      some node) : program node = file := by
  obtain ⟨-, rfl⟩ := fits.inOrder.nodes_eq_some.mp there
  have size : (UInt32.ofNat file.size).toNat = file.size := by
    rw [UInt32.toNat_ofNat', Nat.mod_eq_of_lt file.word]
  have bytes : Fs.fileByte programSuperblock ((programImage file 0).disk programSuperblock) 2 =
      file.bytes := by
    funext k
    have first : (2, k / BSIZE) ∈ (programImage file 0).places programSuperblock ↔ k < BSIZE := by
      rw [fits.places]
      simp [Nat.div_eq_zero_iff]
    rw [fits.inOrder.fileByte_disk]
    split
    · rename_i inside
      rw [first] at inside
      rw [Nat.div_eq_of_lt inside, Nat.mod_eq_of_lt inside]
      rfl
    · rename_i outside
      rw [first, Nat.not_lt] at outside
      rw [fits.zero k outside]
  obtain ⟨_, _, _⟩ := file
  exact Program.mk.injEq .. ▸ ⟨bytes, size⟩

/-- Nothing stops a call in the lookup of the program. -/
theorem FitsImage.no_stop {reason : Stop} :
    ¬ Stops programSuperblock (callerOf file 0 k) 0 programPath reason := by
  have path : Fs.elements programPath = [programPath] := by decide
  -- The root directory and the program are allocated.
  have there : ∀ i, i = Fs.ROOTINO ∨ i = 2 → Fs.nodes programSuperblock
      ((programImage file 0).disk programSuperblock) i ≠ none := by
    intro i which
    rw [Ne, Fs.nodes_eq_none, not_not, fits.inOrder.live_iff]
    rcases which with rfl | rfl
    · exact ⟨by decide, show Fs.T_DIR ≠ 0 by decide⟩
    · exact ⟨by decide, show Fs.T_FILE ≠ 0 by decide⟩
  -- A walk along a part of the path ends in one of them.
  have reaches : ∀ front back j, [programPath] = front ++ back → Fs.resolve
      (Fs.nodes programSuperblock ((programImage file 0).disk programSuperblock)) Fs.ROOTINO front =
        some j → front = [] ∧ j = Fs.ROOTINO ∨ back = [] ∧ j = 2 := by
    intro front back j whole reached
    cases front with
    | nil => exact .inl ⟨rfl, (Option.some.inj reached).symm⟩
    | cons name rest =>
      obtain ⟨rfl, none⟩ := List.cons.inj whole
      obtain ⟨rfl, rfl⟩ := List.append_eq_nil_iff.mp none.symm
      exact .inr ⟨rfl, Option.some.inj (reached.symm.trans fits.leads)⟩
  rintro (full | ⟨last, only⟩ | ⟨front, back, j, whole, reached, free⟩ |
    ⟨front, back, j, dir, whole, more, reached, isDir, -, odd⟩)
  · exact callerOf_room full
  · have second : 1 = last := (only 1 (by decide) rfl).resolve_right (by simp)
    have third : 2 = last := (only 2 (by decide) rfl).resolve_right (by simp)
    omega
  · rw [path] at whole
    exact there j ((reaches front back j whole reached).imp And.right And.right) free
  · rw [path] at whole
    obtain ⟨-, rfl⟩ | ⟨none, -⟩ := reaches front back j whole reached
    · obtain ⟨-, rfl⟩ := fits.inOrder.nodes_eq_some.mp isDir
      have even : (48 : UInt32).toNat % 16 = 0 := by decide
      exact odd even
    · exact more none

theorem FitsImage.returns {pf : Platform} {argv : List (List UInt8)} {result : Int}
    (ran : (Vm.kexec pf 0 (some file) argv).run k = .ok (result, k')) :
    ∃ after, (kexec programSuperblock pf 0 0 programPath argv).run (callerOf file 0 k) =
      .ok (result, after) := by
  have path : Fs.elements programPath = [programPath] := by decide
  have law : wp (kexec programSuperblock pf 0 0 programPath argv) (fun value _ => value = result)
      (fun _ => False) (callerOf file 0 k) := by
    refine wp_kexec fits.inOrder.stable (fits.inOrder.stable.referred (by decide) Int.one_pos) rfl
      (fun _ stops => fits.no_stop stops) ?_ ?_
    · intro nowhere
      rw [path] at nowhere
      exact absurd (nowhere.symm.trans fits.leads) (by simp)
    · intro i node leads there
      rw [path] at leads
      obtain rfl : i = 2 := Option.some.inj (leads.symm.trans fits.leads)
      rw [fits.program_eq there]
      exact wp_of_run ran fun _ _ => rfl
  obtain ⟨_, after, done, rfl⟩ := wp_total law
  exact ⟨after, done⟩

end FitsImage

/-- One argument, `b`. -/
def oneArgument : Argv := ⟨[[98]], by decide, by decide⟩

/-- The first process of the machine executes a file that promises a second segment. The
first has been loaded when the call fails, and nothing has changed. -/
theorem cut_program_fails : ∃ s after, Sound sixteenPages noHoldings s.kernel ∧
    (kexec programSuperblock sixteenPages 0 0 programPath oneArgument.strings).run s =
      .ok (-1, after) ∧
    Released programSuperblock s after ∧ Invisible s after := by
  have fails : buildsImage sixteenPages twoHeaders oneArgument.strings (-1) = true := by
    decide +kernel
  obtain ⟨-, kernel, _, -, sound, live, ran⟩ :=
    buildsImage_elim oneArgument.inMemory oneArgument.terminated fails
  obtain ⟨after, done⟩ := twoHeaders_fits.returns ran
  have law : wp (kexec programSuperblock sixteenPages 0 0 programPath oneArgument.strings)
      (Ended programSuperblock sixteenPages noHoldings (callerOf twoHeaders 0 kernel))
      (Stops programSuperblock (callerOf twoHeaders 0 kernel) 0 programPath)
      (callerOf twoHeaders 0 kernel) :=
    failed_exec_invisible sound live twoHeaders_fits.inOrder.stable (by decide) Int.one_pos rfl
      programPath oneArgument
  have ended := wp_returned law done
  exact ⟨_, after, sound, done, ended.released, ended.invisible rfl⟩

/-- With forty-nine removed files and the root directory the inode table is full, and `iget` finds
no slot for the program. -/
theorem full_table_stops_exec : ∃ s, Sound sixteenPages noHoldings s.kernel ∧
    (s.kernel.proc 0).pagetable ≠ 0 ∧ Fs.Stable programSuperblock s.walk.fs ∧
    0 < (s.walk.fs.itable 0).ref ∧ s.walk.held = [] ∧
    (kexec programSuperblock sixteenPages 0 0 programPath oneArgument.strings).run s =
      .error (.files (.panic .igetNoInodes)) := by
  have stable : Fs.Stable programSuperblock
      ((programImage (oneSegment 119) 49).state programSuperblock (programOpened 49) 0) :=
    Fs.Image.InOrder.stable ⟨by decide, by decide, by decide +kernel, by decide +kernel,
      by decide +kernel, by decide +kernel, by decide, by decide +kernel, by decide +kernel⟩
  have stops : wp (Fs.Locking.namei programSuperblock 0 programPath) (fun _ _ => False)
      (· = .panic .igetNoInodes) ⟨(programImage (oneSegment 119) 49).state programSuperblock
        (programOpened 49) 0, []⟩ := by decide +kernel
  have made : returns (fun k => (k.proc 0).pagetable ≠ 0)
      ((oneProcess sixteenPages).run (beforeBoot fun _ => 0)) = true := by decide +kernel
  obtain ⟨_, kernel, ran, live⟩ := returns_elim made
  rw [decide_eq_true_eq] at live
  have law : wp (kexec programSuperblock sixteenPages 0 0 programPath oneArgument.strings)
      (fun _ _ => False) (· = .files (.panic .igetNoInodes)) (callerOf (oneSegment 119) 49 kernel) := by
    simp only [kexec, beginOp, wp_bind, wp_get]
    rw [if_neg callerOf_room, wp_modify, wp_onFiles]
    exact wp_mono stops (fun _ _ never => never.elim) fun _ reason => congrArg Stop.files reason
  obtain ⟨_, stopped, rfl⟩ := wp_stops law
  exact ⟨callerOf (oneSegment 119) 49 kernel, sound_oneProcess ran, live, stable, Int.one_pos, rfl,
    stopped⟩

end Witness

structure Runs (sb : Fs.Superblock) (s : State) (p cwd : Nat) (path : List UInt8)
    (argv : List (List UInt8)) (result : Int) (after : State) : Prop where
  count : result = argv.length
  program : ∃ i node, Fs.resolve (Fs.nodes sb s.walk.fs.disk) (Fs.startOf s.walk.fs cwd path)
      (Fs.elements path) = some i ∧ Fs.nodes sb s.walk.fs.disk i = some node ∧
    Executed s.kernel p (program node) argv after.kernel
  name : after.names = update s.names p (programName path)

end Xv6.Exec
