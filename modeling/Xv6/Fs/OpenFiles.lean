import Xv6.Fs.CallLaws

/-!
# Open files

The laws of the procedures that work on the table of open files and on the descriptors of a
process, and the law of `sys_open`.
-/

namespace Xv6.Fs

open Command Bytes Function

variable {sb : Superblock} {stop : Panic → Prop} {system : System}

@[simp] theorem wp_onFs {α : Type} (command : FsM α) (post : α → System → Prop) :
    wp (onFs command) post stop system ↔
      wp command (fun value fs => post value { system with fs := fs }) stop system.fs :=
  wp_zoom ..

@[simp] theorem wp_inOp {α : Type} (body : SysM α) (post : α → System → Prop) :
    wp (inOp body) post stop system ↔
      wp body (fun value after => post value { after with fs := after.fs.ended }) stop
        system := by
  simp only [inOp, wp_bind, wp_onFs, wp_endOp, wp_pure]

theorem Undoes.ended {base fs : State} (undoes : Undoes sb base fs) :
    Undoes sb base fs.ended := by
  cases undoes with
  | nothing left => exact .nothing left.ended
  | freed fresh unlinked found left => exact .freed fresh unlinked found left.ended

theorem Leaves.ended {base fs : State} {hands : List Handle} {t : Nodes}
    (leaves : Leaves sb base hands t fs) : Leaves sb base hands t fs.ended := by
  obtain ⟨freed, t', reaping, holding⟩ := leaves
  exact ⟨freed, t', reaping, holding.ended⟩

theorem Unlinks.ended {base fs : State} {start : Nat} {path : List UInt8}
    (unlinks : Unlinks sb base start path fs) : Unlinks sb base start path fs.ended := by
  cases unlinks with
  | mk removable links empty first second left =>
    exact .mk removable links empty first second left.ended

@[simp] theorem wp_setFile (f : Nat) (change : File → File) (post : PUnit → System → Prop) :
    wp (setFile f change) post stop system ↔ post ⟨⟩
      { system with file := update system.file f (change (system.file f)) } := by
  simp only [setFile, wp_modify]

@[simp] theorem wp_setProcess (p : Nat) (change : Process → Process)
    (post : PUnit → System → Prop) :
    wp (setProcess p change) post stop system ↔ post ⟨⟩
      { system with proc := update system.proc p (change (system.proc p)) } := by
  simp only [setProcess, wp_modify]

@[simp] theorem wp_myCwd (p : Nat) (post : Nat → System → Prop) :
    wp (myCwd p) post stop system ↔ post ((system.proc p).cwd.getD 0) system := by
  simp only [myCwd, wp_bind, wp_get, wp_pure]

theorem wp_filealloc {post : Option Nat → System → Prop}
    (none : (∀ f, f < NFILE → (system.file f).ref ≠ 0) → post none system)
    (found : ∀ f, f < NFILE → (system.file f).ref = 0 → post (some f)
      { system with file := update system.file f { system.file f with ref := 1 } }) :
    wp filealloc post stop system := by
  simp only [filealloc, wp_bind, wp_get]
  split
  · rename_i f hit
    have inside : f < NFILE := List.mem_range.mp (List.mem_of_find?_eq_some hit)
    have free : (system.file f).ref = 0 := by simpa using List.find?_some hit
    simp only [wp_bind, wp_setFile, wp_pure]
    exact found f inside free
  · rename_i miss
    rw [wp_pure]
    refine none fun f inside => ?_
    simpa using List.find?_eq_none.mp miss f (List.mem_range.mpr inside)

theorem wp_fdalloc {p f : Nat} {post : Option Nat → System → Prop}
    (none : (∀ fd, fd < NOFILE → (system.proc p).ofile fd ≠ none) → post none system)
    (found : ∀ fd, fd < NOFILE → (system.proc p).ofile fd = Option.none → post (some fd)
      { system with proc := update system.proc p { system.proc p with
        ofile := update (system.proc p).ofile fd (some f) } }) :
    wp (fdalloc p f) post stop system := by
  simp only [fdalloc, wp_bind, wp_get]
  split
  · rename_i fd hit
    have inside : fd < NOFILE := List.mem_range.mp (List.mem_of_find?_eq_some hit)
    have free : (system.proc p).ofile fd = Option.none := by simpa using List.find?_some hit
    simp only [wp_bind, wp_setProcess, wp_pure]
    exact found fd inside free
  · rename_i miss
    rw [wp_pure]
    refine none fun fd inside => ?_
    simpa using List.find?_eq_none.mp miss fd (List.mem_range.mpr inside)

section OpenInode

variable {base : State} (stable : Stable sb base) {cwd : Nat} (here : Referred sb base cwd)
  (big : stop .tooBigTransaction) (full : stop .igetNoInodes) (partly : stop .dirlookupRead)
include stable here big full partly

theorem Stable.wp_openInode {path : List UInt8} {omode : UInt32} {post : Option Nat → State → Prop}
    (noType : DeadEnd (nodes sb base.disk) (startOf base cwd path) (elements path) →
      stop .ilockNoType)
    (failed : ∀ after, (omode &&& O_CREATE ≠ 0 →
      ¬ CanCreate sb base.disk (startOf base cwd path) path) → Undoes sb base after →
      post none after)
    (existing : ∀ ip i node after,
      resolve (nodes sb base.disk) (startOf base cwd path) (elements path) = some i →
      nodes sb base.disk i = some node →
      Holding sb base [⟨ip, i, true⟩] [] (nodes sb base.disk) after → post (some ip) after)
    (created : ∀ ip i t after, omode &&& O_CREATE ≠ 0 →
      Creates (nodes sb base.disk) (startOf base cwd path) path T_FILE 0 0 i t →
      CanCreate sb base.disk (startOf base cwd path) path → (base.itable ip).ref = 0 →
      Leaves sb base [⟨ip, i, true⟩] t after → post (some ip) after) :
    wp (openInode sb cwd path omode) post stop base := by
  rw [openInode]
  split
  · rename_i asked
    refine stable.wp_create here big full partly (by decide) noType ?_ ?_ ?_
    · intro after cannot undone
      exact failed after (fun _ => cannot (by decide)) undone
    · intro ip i node after finds holding
      exact existing ip i node after finds.target finds.there holding
    · intro ip i t after creates unused can left
      exact created ip i t after asked creates (can (by decide)) unused left
  · rename_i notAsked
    rw [wp_bind]
    refine stable.start.wp_namei stable.ranged (stable.anchored _) (fun _ => full) stable.root here
      (fun dangles => noType dangles.deadEnd) (fun _ => partly) ?_ ?_
    · intro after _ dropped _
      rw [wp_pure]
      exact failed after (fun asked => absurd asked notAsked) (.nothing dropped)
    intro ip i found target holds _
    simp only [wp_bind]
    refine holds.wp_ilock (fun free => noType (deadEnd_of_resolve target free)) ?_
    intro locked node there loads _
    simp only [wp_inode]
    split
    · simp only [wp_bind]
      refine loads.wp_iunlockput_anchored (stable.anchored _) ?_
      intro after dropped _
      rw [wp_pure]
      exact failed after (fun asked => absurd asked notAsked) (.nothing dropped)
    · rw [wp_pure]
      exact existing ip i node locked target there loads

end OpenInode

def Idle (system : System) : Prop :=
  ∀ f, f < NFILE → (system.file f).ref = 0 → (system.file f).type = .FD_NONE

def Refused (system : System) (p : Nat) (node : Node) : Prop :=
  node.type = T_DEVICE ∧ (node.major < 0 ∨ NDEV ≤ node.major) ∨
    (∀ f, f < NFILE → (system.file f).ref ≠ 0) ∨
    ∀ fd, fd < NOFILE → (system.proc p).ofile fd ≠ none

def openedFile (old : File) (node : Node) (omode : UInt32) (ip : Nat) : File :=
  { old with
    ref := 1
    type := if node.type = T_DEVICE then .FD_DEVICE else .FD_INODE
    major := if node.type = T_DEVICE then node.major else old.major
    off := if node.type = T_DEVICE then old.off else 0
    ip := ip
    readable := omode &&& O_WRONLY = 0
    writable := omode &&& O_WRONLY ≠ 0 ∨ omode &&& O_RDWR ≠ 0 }

def truncatedTree (t : Nodes) (i : Nat) (node : Node) (omode : UInt32) : Nodes :=
  if omode &&& O_TRUNC ≠ 0 ∧ node.type = T_FILE then
    update t i (some { node with size := 0, byte := fun _ => 0 })
  else t

theorem Idle.wp_fileclose (idle : Idle system) {f : Nat} (inside : f < NFILE)
    (free : (system.file f).ref = 0) {post : PUnit → System → Prop} (undone : post ⟨⟩ system) :
    wp (fileclose sb f) post stop
      { system with file := update system.file f { system.file f with ref := 1 } } := by
  have type := idle f inside free
  have same : ({ system.file f with ref := 0, type := .FD_NONE } : File) = system.file f := by
    rw [← free, ← type]
  simp only [fileclose, wp_bind, wp_get, update_self, Int.lt_irrefl, ↓reduceIte,
    Int.sub_self, gt_iff_lt, wp_setFile, update_idem, same, update_eq_self, type,
    wp_pure]
  exact undone

/-- The second half of `sys_open`, with the inode at hand. -/
theorem Holding.wp_openFile {base : State} {freed : List (Nat × Disk)} {t : Nodes} {p ip i : Nat}
    {omode : UInt32} {node : Node} {post : Int → System → Prop}
    (holding : Holding sb base [⟨ip, i, true⟩] freed t system.fs) (there : t i = some node)
    (idle : Idle system) (big : stop .tooBigTransaction)
    (refused : ∀ freed' t' fs, Refused system p node → Reaping sb base freed t freed' t' →
      Holding sb base [] freed' t' fs → post (-1) { system with fs := fs })
    (opened : ∀ f fd fs, f < NFILE → (system.file f).ref = 0 → fd < NOFILE →
      (system.proc p).ofile fd = none →
      Holding sb base [⟨ip, i, true⟩] freed (truncatedTree t i node omode) fs →
      post fd
        { fs := fs
          file := update system.file f (openedFile (system.file f) node omode ip)
          proc := update system.proc p { system.proc p with
            ofile := update (system.proc p).ofile fd (some f) } }) :
    wp (do
      let d := (← onFs (inode ip)).d
      if d.type = T_DEVICE ∧ (d.major < 0 ∨ NDEV ≤ d.major) then
        onFs (iunlockput sb ip)
        pure (-1)
      else
        match ← filealloc with
        | none =>
          onFs (iunlockput sb ip)
          pure (-1)
        | some f =>
          match ← fdalloc p f with
          | none =>
            fileclose sb f
            onFs (iunlockput sb ip)
            pure (-1)
          | some fd =>
            if d.type = T_DEVICE then
              setFile f fun file => { file with type := .FD_DEVICE, major := d.major }
            else
              setFile f fun file => { file with type := .FD_INODE, off := 0 }
            setFile f fun file => { file with
              ip := ip
              readable := omode &&& O_WRONLY = 0
              writable := omode &&& O_WRONLY ≠ 0 ∨ omode &&& O_RDWR ≠ 0 }
            if omode &&& O_TRUNC ≠ 0 ∧ d.type = T_FILE then onFs (itrunc sb ip)
            onFs (iunlock ip)
            pure (fd : Int)) post stop system := by
  have copy := holding.copy there
  have type : (system.fs.itable ip).d.type = node.type := by rw [← copy]; rfl
  have major : (system.fs.itable ip).d.major = node.major := by rw [← copy]; rfl
  have giveBack : Refused system p node → wp (iunlockput sb ip)
      (fun _ fs => post (-1) { system with fs := fs }) stop system.fs := by
    intro reason
    simp only [iunlockput, wp_bind]
    refine holding.wp_iunlock (holding.wp_iput_reaping .done big ?_)
    intro freed' t' fs reaping left _
    exact refused freed' t' fs reason reaping left
  simp only [wp_bind, wp_onFs, wp_inode, type, major]
  split
  · rename_i bad
    simp only [wp_bind, wp_onFs, wp_pure]
    exact giveBack (Or.inl bad)
  simp only [wp_bind]
  refine wp_filealloc ?_ ?_
  · intro none
    simp only [wp_bind, wp_onFs, wp_pure]
    exact giveBack (Or.inr (Or.inl none))
  intro f inside free
  simp only [wp_bind]
  refine wp_fdalloc ?_ ?_
  · intro none
    simp only [wp_bind]
    refine idle.wp_fileclose inside free ?_
    simp only [wp_onFs, wp_pure]
    exact giveBack (Or.inr (Or.inr none))
  · intro fd insideFd freeFd
    have finish : wp (if omode &&& O_TRUNC ≠ 0 ∧ node.type = T_FILE then do
          onFs (itrunc sb ip)
          onFs (iunlock ip)
          pure (fd : Int)
        else do
          onFs (iunlock ip)
          pure (fd : Int)) post stop
        { fs := system.fs
          file := update system.file f (openedFile (system.file f) node omode ip)
          proc := update system.proc p { system.proc p with
            ofile := update (system.proc p).ofile fd (some f) } } := by
      split
      · rename_i empties
        simp only [wp_bind, wp_onFs]
        refine holding.wp_itrunc there big ?_
        intro fs emptied
        refine emptied.wp_iunlock ?_
        rw [wp_pure]
        refine opened f fd fs inside free insideFd freeFd ?_
        rw [truncatedTree, if_pos empties]
        exact emptied
      · rename_i keeps
        simp only [wp_bind, wp_onFs]
        refine holding.wp_iunlock ?_
        rw [wp_pure]
        refine opened f fd system.fs inside free insideFd freeFd ?_
        rw [truncatedTree, if_neg keeps]
        exact holding
    by_cases device : node.type = T_DEVICE
    · simp only [openedFile, device, ↓reduceIte] at finish
      simp only [device, ↓reduceIte, wp_bind, wp_setFile, update_self, update_idem]
      exact finish
    · simp only [openedFile, device, ↓reduceIte] at finish
      simp only [device, ↓reduceIte, wp_bind, wp_setFile, update_self, update_idem]
      exact finish

inductive Target (t : Nodes) (start : Nat) (path : List UInt8) (omode : UInt32) (i : Nat) :
    Nodes → Prop
  | found (target : resolve t start (elements path) = some i) : Target t start path omode i t
  | made {t' : Nodes} (asked : omode &&& O_CREATE ≠ 0)
      (creates : Creates t start path T_FILE 0 0 i t') : Target t start path omode i t'

def Exhausted (system : System) (p : Nat) : Prop :=
  (∀ f, f < NFILE → (system.file f).ref ≠ 0) ∨ ∀ fd, fd < NOFILE → (system.proc p).ofile fd ≠ none

theorem Stable.wp_sysOpen (stable : Stable sb system.fs) {p cwd : Nat}
    (caller : (system.proc p).cwd = some cwd) (here : Referred sb system.fs cwd)
    (big : stop .tooBigTransaction) (full : stop .igetNoInodes) (partly : stop .dirlookupRead)
    (idle : Idle system)
    {path : List UInt8} {omode : UInt32} {post : Int → System → Prop}
    (noType : DeadEnd (nodes sb system.fs.disk) (startOf system.fs cwd path) (elements path) →
      stop .ilockNoType)
    (failed : ∀ fs, (omode &&& O_CREATE ≠ 0 →
      ¬ CanCreate sb system.fs.disk (startOf system.fs cwd path) path) → Undoes sb system.fs fs →
      post (-1) { system with fs := fs })
    (stranded : ∀ i t fs, omode &&& O_CREATE ≠ 0 →
      Creates (nodes sb system.fs.disk) (startOf system.fs cwd path) path T_FILE 0 0 i t →
      CanCreate sb system.fs.disk (startOf system.fs cwd path) path → Exhausted system p → Leaves sb system.fs [] t fs → post (-1) { system with fs := fs })
    (opened : ∀ ip i node t freed t' f fd fs,
      Target (nodes sb system.fs.disk) (startOf system.fs cwd path) path omode i t →
      Reaping sb system.fs [] t freed t' → t' i = some node →
      f < NFILE → (system.file f).ref = 0 → fd < NOFILE → (system.proc p).ofile fd = none →
      Holding sb system.fs [⟨ip, i, true⟩] freed (truncatedTree t' i node omode) fs →
      post fd
        { fs := fs
          file := update system.file f (openedFile (system.file f) node omode ip)
          proc := update system.proc p { system.proc p with
            ofile := update (system.proc p).ofile fd (some f) } }) :
    wp (sysOpen sb p path omode) post stop system := by
  simp only [sysOpen, wp_inOp, wp_bind, wp_myCwd, caller, Option.getD_some, wp_onFs]
  refine stable.wp_openInode here big full partly noType ?_ ?_ ?_
  · intro fs cannot undone
    rw [wp_pure]
    exact failed _ cannot undone.ended
  · intro ip i node fs target there holding
    refine Holding.wp_openFile holding there idle big ?_ ?_
    · intro freed t' fs' _ reaping left
      obtain ⟨rfl, rfl⟩ := reaping.eq_of_anchored (stable.anchored _)
      refine failed _ (fun _ can => ?_) (.nothing left.ended)
      exact absurd (target.symm.trans can.absent) (by simp)
    · intro f fd fs' inside free insideFd freeFd left
      exact opened ip i node _ [] _ f fd _ (.found target) .done there inside free insideFd freeFd
        left.ended
  · intro ip i t fs asked creates can unused left
    obtain ⟨freed, t', reaping, holding⟩ := left
    have there := holding.node_eq
    obtain ⟨-, d, new, made, isNew⟩ := creates.there
    have same := Option.some.inj ((reaping.there there).symm.trans isNew)
    have file : new.type = T_FILE := by
      cases made with
      | plain => rfl
      | directory wrong => exact absurd wrong (by decide)
    refine Holding.wp_openFile holding there idle big ?_ ?_
    · intro freed' t'' fs' refused more left
      refine stranded i t _ asked creates can ?_
        ⟨freed', t'', reaping.trans more, left.ended⟩
      rcases refused with ⟨device, -⟩ | exhausted
      · rw [same, file] at device
        exact absurd device (by decide)
      · exact exhausted
    · intro f fd fs' inside free insideFd freeFd left
      exact opened ip i _ t freed t' f fd _ (.made asked creates) reaping there inside free
        insideFd freeFd left.ended

end Xv6.Fs
