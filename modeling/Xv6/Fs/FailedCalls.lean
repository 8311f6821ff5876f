import Xv6.Fs.FreshImage

/-!
# Failed calls

A call of `sysfile.c` that works on names and returns -1 has changed nothing: the file tree and
the references are those of before, and a block that was allocated on the way belongs to an
inode that was there.
-/

namespace Xv6.Fs

open Command Bytes Ownership

/-- The calls that change names, without `open`. -/
inductive NameCall where
  | link (old new : List UInt8)
  | unlink (path : List UInt8)
  | mkdir (path : List UInt8)
  | mknod (path : List UInt8) (major minor : Int16)

def NameCall.run (sb : Superblock) (p : Nat) : NameCall → SysM Int
  | .link old new => sysLink sb p old new
  | .unlink path => sysUnlink sb p path
  | .mkdir path => sysMkdir sb p path
  | .mknod path major minor => sysMknod sb p path major minor

structure Unchanged (sb : Superblock) (before after : State) : Prop where
  tree : nodes sb after.disk = nodes sb before.disk
  ref : ∀ s, s < NINODE → (after.itable s).ref = (before.itable s).ref
  blocks : ∀ b, b < sb.size → used sb before.disk b = false → used sb after.disk b = true →
    ∃ i pointer, nodes sb before.disk i ≠ none ∧ refs sb after.disk (i, pointer) = some b

def MadeAt (sb : Superblock) (base : State) (cwd : Nat) (path : List UInt8)
    (type major minor : Int16) (after : State) : Prop :=
  ∃ i t, Creates (nodes sb base.disk) (startOf base cwd path) path type major minor i t ∧
    Leaves sb base [] t after

def NameCall.Acts (sb : Superblock) (base : State) (cwd : Nat) (after : State) : NameCall → Prop
  | .link old new => ∃ t, Linked (nodes sb base.disk) (startOf base cwd old) (startOf base cwd new)
      old new t ∧ Leaves sb base [] t after
  | .unlink path => Unlinks sb base (startOf base cwd path) path after
  | .mkdir path => MadeAt sb base cwd path T_DIR 0 0 after
  | .mknod path major minor => MadeAt sb base cwd path T_DEVICE major minor after

variable {sb : Superblock} {base after : State}

theorem Holding.unchanged {freed : List (Nat × Disk)} (stable : Stable sb base)
    (holding : Holding sb base [] freed (Fs.nodes sb base.disk) after) : Unchanged sb base after := by
  refine ⟨holding.nodes, ?_, ?_⟩
  · intro s inside
    rw [holding.ref s inside]
    simp
  · intro b inside wasFree taken
    have data : IsData sb b := by
      refine ⟨Nat.le_of_not_lt fun low => ?_, inside⟩
      rw [stable.consistent.sound.reserved b low] at wasFree
      exact absurd wasFree (by decide)
    obtain ⟨⟨i, pointer⟩, refers⟩ := holding.consistent.sound.books.covered b data taken
    refine ⟨i, pointer, ?_, refers⟩
    rw [← holding.nodes, Ne, nodes_eq_none, not_not]
    exact (pointers_eq_some.mp refers).1

theorem Undoes.unchanged (stable : Stable sb base) (undoes : Undoes sb base after) :
    Unchanged sb base after := by
  cases undoes with
  | nothing left | freed _ _ _ left => exact left.unchanged stable

section Failed

variable {system : System} (stable : Stable sb system.fs) {p cwd : Nat}
  (caller : (system.proc p).cwd = some cwd) (here : Referred sb system.fs cwd)
include stable caller here

theorem Stable.wp_sysLink_failed (old new : List UInt8) :
    wp (sysLink sb p old new) (fun value after => value = -1 → Unchanged sb system.fs after.fs)
      (fun _ => True) system := by
  simp only [sysLink, wp_inOp, wp_bind, wp_myCwd, caller, Option.getD_some, wp_onFs]
  refine stable.wp_link here trivial trivial trivial (fun _ => trivial) ?_ ?_
  · intro after dropped _
    exact dropped.ended.unchanged stable
  · intro _ _ _ _ failed
    exact absurd failed (by decide)

theorem Stable.wp_sysUnlink_failed (path : List UInt8) :
    wp (sysUnlink sb p path) (fun value after => value = -1 → Unchanged sb system.fs after.fs)
      (fun _ => True) system := by
  simp only [sysUnlink, wp_inOp, wp_bind, wp_myCwd, caller, Option.getD_some, wp_onFs]
  refine stable.wp_unlink here trivial trivial trivial trivial trivial (fun _ => trivial)
    (fun _ _ _ _ _ _ _ _ => trivial) ?_ ?_
  · intro after dropped _
    exact dropped.ended.unchanged stable
  · intro _ _ failed
    exact absurd failed (by decide)

theorem Stable.wp_make_failed (path : List UInt8) {type : Int16} (typed : type ≠ 0)
    (major minor : Int16) :
    wp (inOp do
      match ← onFs (create sb (← myCwd p) path type major minor) with
      | none => pure (-1)
      | some ip =>
        onFs (iunlockput sb ip)
        pure 0)
      (fun value after => value = (-1 : Int) → Unchanged sb system.fs after.fs)
      (fun _ => True) system := by
  simp only [wp_inOp, wp_bind, wp_myCwd, caller, Option.getD_some, wp_onFs]
  have succeeds : ∀ ip fs, wp (do onFs (iunlockput sb ip); pure 0 : SysM Int)
      (fun value after => value = -1 → Unchanged sb system.fs after.fs.ended) (fun _ => True)
      { system with fs := fs } := by
    intro ip fs
    rw [wp_bind]
    refine wp_mono wp_any (fun _ _ _ => ?_) fun _ _ => trivial
    rw [wp_pure]
    intro failed
    exact absurd failed (by decide)
  refine stable.wp_create here trivial trivial trivial typed (fun _ => trivial) ?_ ?_ ?_
  · intro after _ undoes
    rw [wp_pure]
    intro _
    exact undoes.ended.unchanged stable
  · intro ip _ _ fs _ _
    exact succeeds ip fs
  · intro ip _ _ fs _ _ _ _
    exact succeeds ip fs

theorem Stable.wp_make_succeeded (path : List UInt8) {type : Int16} (typed : type ≠ 0)
    (notFile : type ≠ T_FILE) (major minor : Int16) :
    wp (inOp do
      match ← onFs (create sb (← myCwd p) path type major minor) with
      | none => pure (-1)
      | some ip =>
        onFs (iunlockput sb ip)
        pure 0)
      (fun value after => value ≠ (-1 : Int) → value = 0 ∧
        MadeAt sb system.fs cwd path type major minor after.fs ∧
          after = { system with fs := after.fs })
      (fun _ => True) system := by
  simp only [wp_inOp, wp_bind, wp_myCwd, caller, Option.getD_some, wp_onFs]
  refine stable.wp_create here trivial trivial trivial typed (fun _ => trivial) ?_ ?_ ?_
  · intro after _ _
    rw [wp_pure]
    exact fun failed => absurd rfl failed
  · intro ip i node fs finds _
    exact absurd finds.file notFile
  · rintro ip i t fs creates - - ⟨freed, t', reaping, holding⟩
    simp only [iunlockput, wp_bind, wp_onFs]
    refine holding.wp_iunlock (holding.wp_iput_reaping reaping trivial ?_)
    intro freed' t'' after reaped left _
    rw [wp_pure]
    exact fun _ => ⟨rfl, ⟨i, t, creates, freed', t'', reaped, left.ended⟩, rfl⟩

end Failed

/-- A call on names that returns -1 has changed nothing, whatever the cause. -/
theorem failed_call_changes_nothing (sb : Superblock) (before after : System) (p cwd : Nat)
    (call : NameCall) (stable : Stable sb before.fs) (caller : (before.proc p).cwd = some cwd)
    (slot : cwd < NINODE) (inUse : 0 < (before.fs.itable cwd).ref)
    (failed : (call.run sb p).run before = .ok (-1, after)) :
    Unchanged sb before.fs after.fs := by
  have here := stable.referred slot inUse
  cases call with
  | link old new => exact wp_returned (stable.wp_sysLink_failed caller here old new) failed rfl
  | unlink path => exact wp_returned (stable.wp_sysUnlink_failed caller here path) failed rfl
  | mkdir path =>
    exact wp_returned (stable.wp_make_failed caller here path (by decide) 0 0) failed rfl
  | mknod path major minor =>
    exact wp_returned (stable.wp_make_failed caller here path (by decide) major minor) failed rfl

/-- On a full disk `mkdir` has made an inode when it finds no block for its entries. -/
theorem mkdir_on_full_disk : ∃ after,
    ((NameCall.mkdir [97]).run (freshSuperblock 0) 0).run (freshSystem 0 0) =
      .ok (-1, after) ∧
    Unchanged (freshSuperblock 0) (freshState 0 0) after.fs := by
  have returns : ∃ after, ((NameCall.mkdir [97]).run (freshSuperblock 0) 0).run
      (freshSystem 0 0) = .ok (-1, after) ∧ True := wp_result (by decide +kernel)
  obtain ⟨after, ran, -⟩ := returns
  exact ⟨after, ran, failed_call_changes_nothing _ (freshSystem 0 0) after 0 0 _
    fresh_stable rfl (by decide) (by decide) ran⟩

/-- A call on names that does not return -1 returns zero. It has acted on the file tree and
on nothing else. -/
theorem successful_call_acts_on_tree (sb : Superblock) (before after : System) (p cwd : Nat)
    (call : NameCall) (result : Int) (stable : Stable sb before.fs)
    (caller : (before.proc p).cwd = some cwd) (slot : cwd < NINODE)
    (inUse : 0 < (before.fs.itable cwd).ref)
    (ran : (call.run sb p).run before = .ok (result, after)) (succeeded : result ≠ -1) :
    result = 0 ∧ call.Acts sb before.fs cwd after.fs ∧ after = { before with fs := after.fs } := by
  have here := stable.referred slot inUse
  have law : wp (call.run sb p) (fun value after => value ≠ -1 → value = 0 ∧
      call.Acts sb before.fs cwd after.fs ∧ after = { before with fs := after.fs })
      (fun _ => True) before := by
    cases call with
    | link old new =>
      simp only [NameCall.run, sysLink, wp_inOp, wp_bind, wp_myCwd, caller, Option.getD_some, wp_onFs]
      refine stable.wp_link here trivial trivial trivial (fun _ => trivial) ?_ ?_
      · exact fun _ _ failed => absurd rfl failed
      · exact fun t fs linked left _ => ⟨rfl, ⟨t, linked, left.ended⟩, trivial⟩
    | unlink path =>
      simp only [NameCall.run, sysUnlink, wp_inOp, wp_bind, wp_myCwd, caller, Option.getD_some,
        wp_onFs]
      refine stable.wp_unlink here trivial trivial trivial trivial trivial (fun _ => trivial)
        (fun _ _ _ _ _ _ _ _ => trivial) ?_ ?_
      · exact fun _ _ failed => absurd rfl failed
      · exact fun fs unlinks _ => ⟨rfl, unlinks.ended, trivial⟩
    | mkdir path => exact stable.wp_make_succeeded caller here path (by decide) (by decide) 0 0
    | mknod path major minor =>
      exact stable.wp_make_succeeded caller here path (by decide) (by decide) major minor
  exact wp_returned law ran succeeded

/-- A directory is made in the root directory. -/
theorem mkdir_makes_directory : ∃ after,
    ((NameCall.mkdir [97]).run (freshSuperblock 1) 0).run (freshSystem 1 0) =
      .ok (0, after) ∧
    (NameCall.mkdir [97]).Acts (freshSuperblock 1) (freshState 1 0) 0
      after.fs := by
  have returns : ∃ after, ((NameCall.mkdir [97]).run (freshSuperblock 1) 0).run
      (freshSystem 1 0) = .ok (0, after) ∧ True := wp_result (by decide +kernel)
  obtain ⟨after, ran, -⟩ := returns
  exact ⟨after, ran, (successful_call_acts_on_tree _ (freshSystem 1 0) after 0 0 _ 0
    fresh_stable rfl (by decide) (by decide) ran (by decide)).2.1⟩

theorem Creates.not_unchanged {start i : Nat} {path : List UInt8} {t : Nodes}
    (creates : Creates (nodes sb base.disk) start path T_FILE 0 0 i t)
    (left : Leaves sb base [] t after) : ¬ Unchanged sb base after := by
  intro unchanged
  obtain ⟨fresh, d, new, made, isNew⟩ := creates.there
  obtain ⟨freed, t', reaping, holding⟩ := left
  have links : new.nlink ≠ 0 := by
    cases made with
    | plain => decide
    | directory wrong => exact absurd wrong (by decide)
  have there := reaping.linked isNew links
  rw [← holding.nodes, unchanged.tree, fresh] at there
  exact absurd there (by simp)

section Open

variable {system : System} (stable : Stable sb system.fs) {p cwd : Nat}
  (caller : (system.proc p).cwd = some cwd) (here : Referred sb system.fs cwd)
  (idle : Idle system)
include stable caller here idle

theorem Stable.wp_sysOpen_failed (path : List UInt8) (omode : UInt32) :
    wp (sysOpen sb p path omode)
      (fun value after => value = -1 →
        ((Unchanged sb system.fs after.fs ∧ after.file = system.file ∧ after.proc = system.proc) ↔
          ¬ (omode &&& O_CREATE ≠ 0 ∧ Exhausted system p ∧
            CanCreate sb system.fs.disk (startOf system.fs cwd path) path)))
      (fun _ => True) system := by
  refine stable.wp_sysOpen caller here trivial trivial trivial idle (fun _ => trivial) ?_ ?_ ?_
  · intro fs cannot undoes _
    refine iff_of_true ⟨undoes.unchanged stable, rfl, rfl⟩ ?_
    rintro ⟨asked, -, can⟩
    exact cannot asked can
  · intro i t fs asked creates can exhausted left _
    refine iff_of_false ?_ (not_not_intro ⟨asked, exhausted, can⟩)
    rintro ⟨unchanged, -⟩
    exact creates.not_unchanged left unchanged
  · intro _ _ _ _ _ _ _ fd _ _ _ _ _ _ _ _ _ failed
    exact absurd failed (by omega)

end Open

/-- An `open` that returns -1 has changed nothing, exactly if it was not to create the
file, or could not have made it, or a `struct file` and a descriptor were free. -/
theorem failed_open_changes_nothing (sb : Superblock) (before after : System) (p cwd : Nat)
    (path : List UInt8) (omode : UInt32) (stable : Stable sb before.fs) (idle : Idle before)
    (caller : (before.proc p).cwd = some cwd) (slot : cwd < NINODE)
    (inUse : 0 < (before.fs.itable cwd).ref)
    (failed : (sysOpen sb p path omode).run before = .ok (-1, after)) :
    (Unchanged sb before.fs after.fs ∧ after.file = before.file ∧ after.proc = before.proc) ↔
      ¬ (omode &&& O_CREATE ≠ 0 ∧ Exhausted before p ∧
        CanCreate sb before.fs.disk (startOf before.fs cwd path) path) := by
  have here := stable.referred slot inUse
  exact wp_returned (stable.wp_sysOpen_failed caller here idle path omode) failed rfl

/-- Opening a directory for writing, with files and descriptors to spare. -/
theorem open_directory_for_writing : ∃ after,
    (sysOpen (freshSuperblock 0) 0 [dot] (O_CREATE ||| O_WRONLY)).run
      (freshSystem 0 3) = .ok (-1, after) ∧
    Unchanged (freshSuperblock 0) (freshState 0 3) after.fs := by
  have returns : ∃ after, (sysOpen (freshSuperblock 0) 0 [dot] (O_CREATE ||| O_WRONLY)).run
      (freshSystem 0 3) = .ok (-1, after) ∧ True := wp_result (by decide +kernel)
  obtain ⟨after, ran, -⟩ := returns
  refine ⟨after, ran, ((failed_open_changes_nothing _ (freshSystem 0 3) after 0 0 _ _
    fresh_stable fresh_idle rfl (by decide) (by decide) ran).mpr ?_).1⟩
  rintro ⟨-, noFile | noDescriptor, -⟩
  · exact noFile 3 (by decide) (by decide)
  · exact noDescriptor 3 (by decide) (by decide)

/-- A process that has used up its descriptors creates a file: the call returns -1, and the file is
there. -/
theorem open_makes_file_without_descriptor :
    let sb := freshSuperblock 0
    let before := freshSystem 0 NOFILE
    Stable sb before.fs ∧ Idle before ∧ (before.proc 0).cwd = some 0 ∧
      0 < (before.fs.itable 0).ref ∧
      ∃ after, (sysOpen sb 0 [97] O_CREATE).run before = .ok (-1, after) ∧
        (nodes sb before.fs.disk 2).isNone ∧ (nodes sb after.fs.disk 2).isSome ∧
        resolve (nodes sb after.fs.disk) ROOTINO [[97]] = some 2 := by
  refine ⟨fresh_stable, fresh_idle, rfl, by decide, ?_⟩
  exact wp_result (by decide +kernel)

end Xv6.Fs
