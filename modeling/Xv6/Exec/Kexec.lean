import Xv6.Fs.LogBudget
import Xv6.Fs.PathLocks
import Xv6.Library.Parts
import Xv6.Vm.Exec

/-!
# exec with its file

`kexec` of `exec.c` over the file system and the memory of processes.
-/

namespace Xv6.Exec

open Command Bytes Vm Function

abbrev PNAME : Nat := 16

structure State where
  kernel : Kernel
  names : Nat → List UInt8
  walk : Fs.Locking.Walk
  outstanding : Int

inductive Stop where
  | kernel (reason : Panic)
  | files (halt : Fs.Locking.Halt)
  | waits
  deriving DecidableEq, Repr

abbrev ExecM := Cmd State Stop

def kernelPart : Part State Kernel :=
  ⟨State.kernel, fun kernel s => { s with kernel := kernel }, fun _ _ => rfl, fun _ => rfl,
    fun _ _ _ => rfl⟩

def inKernel {α : Type} (command : VmM α) : ExecM α := zoom kernelPart .kernel command

def onFiles {α : Type} (command : Fs.Locking.LockM α) : ExecM α :=
  zoom ⟨State.walk, fun walk s => { s with walk := walk }, fun _ _ => rfl, fun _ => rfl,
    fun _ _ _ => rfl⟩ .files command

def beginOp : ExecM PUnit := do
  let s ← get
  if (LOGBLOCKS : Int) < s.walk.fs.logged.card + (s.outstanding + 1) * MAXOPBLOCKS then throw .waits
  else modify fun s => { s with outstanding := s.outstanding + 1 }

def endOp : ExecM PUnit := do
  modify fun s => { s with outstanding := s.outstanding - 1 }
  if (← get).outstanding = 0 then onFiles (Fs.Locking.unlocked Fs.endOp)

def readObject (sb : Fs.Superblock) (ip : Nat) (off n : UInt32) : ExecM (Int × ByteMap) :=
  onFiles (Fs.Locking.unlocked (Fs.readi sb ip ⟨fun _ => 0, n.toNat⟩ off n))

def readPage (sb : Fs.Superblock) (ip pa : Nat) (off n : UInt32) : ExecM Int := do
  let mem := (← get).kernel.mem
  let (count, bytes) ← onFiles (Fs.Locking.unlocked
    (Fs.readi sb ip ⟨fun k => mem (pa + k), n.toNat⟩ off n))
  inKernel (setMem fun mem => copy mem pa bytes 0 n.toNat)
  pure count

def loadseg (sb : Fs.Superblock) (pf : Platform) (pagetable va ip : Nat) (offset sz : UInt32) :
    ExecM Int := do
  let failed ← searchRange 0 ((sz.toNat + PGSIZE - 1) / PGSIZE) fun k => do
    let i := k * PGSIZE
    let pa ← inKernel (walkaddr pf pagetable (add64 va i))
    if pa = 0 then throw (.kernel .loadseg)
    else
      let n := min (sz.toNat - i) PGSIZE
      let count ← readPage sb ip pa (offset + UInt32.ofNat i) (UInt32.ofNat n)
      if count ≠ n then pure (some ()) else pure none
  pure (if failed.isSome then -1 else 0)

def loadHeader (sb : Fs.Superblock) (pf : Platform) (pagetable ip : Nat) (off : UInt32) (sz : Nat) :
    ExecM (Nat × Bool) := do
  let (count, bytes) ← readObject sb ip off 56
  if count ≠ 56 then pure (sz, false)
  else
    let ph := loadProghdr bytes 0
    if ph.type ≠ ELF_PROG_LOAD then pure (sz, true)
    else if ph.memsz < ph.filesz then pure (sz, false)
    else if add64 ph.vaddr ph.memsz < ph.vaddr then pure (sz, false)
    else if ph.vaddr % PGSIZE ≠ 0 then pure (sz, false)
    else
      let sz1 ← inKernel
        (uvmalloc pf pagetable sz (add64 ph.vaddr ph.memsz) (flags2perm ph.flags))
      if sz1 = 0 then pure (sz, false)
      else
        let loaded ← loadseg sb pf pagetable ph.vaddr ip (UInt32.ofNat ph.off)
          (UInt32.ofNat ph.filesz)
        pure (sz1, decide (0 ≤ loaded))

def loadHeaders (sb : Fs.Superblock) (pf : Platform) (pagetable ip : Nat) :
    Nat → UInt32 → Nat → ExecM (Nat × Bool)
  | 0, _, sz => pure (sz, true)
  | remaining + 1, off, sz => do
    let (sz, good) ← loadHeader sb pf pagetable ip off sz
    if good then loadHeaders sb pf pagetable ip remaining (off + 56) sz
    else pure (sz, false)

def lastElement (last : List UInt8) : List UInt8 → List UInt8
  | [] => last
  | c :: rest => if c = Fs.slash then lastElement rest rest else lastElement last rest

def programName (path : List UInt8) : List UInt8 := (lastElement path path).take (PNAME - 1)

def setName (p : Nat) (path : List UInt8) : ExecM PUnit :=
  modify fun s => { s with names := update s.names p (programName path) }

def freeImage (pf : Platform) (pagetable sz : Nat) : ExecM PUnit :=
  if pagetable ≠ 0 then inKernel (procFreepagetable pf pagetable sz) else pure ⟨⟩

def releaseFile (sb : Fs.Superblock) : Option Nat → ExecM PUnit
  | none => pure ⟨⟩
  | some ip => do
    onFiles (Fs.Locking.iunlockput sb ip)
    endOp

def bad (sb : Fs.Superblock) (pf : Platform) (pagetable sz : Nat) (ip : Option Nat) : ExecM Int := do
  freeImage pf pagetable sz
  releaseFile sb ip
  pure (-1)

def finishImage (sb : Fs.Superblock) (pf : Platform) (p : Nat) (path : List UInt8)
    (argv : List (List UInt8)) (pagetable sz entry : Nat) : ExecM Int := do
  let (sz, built) ← inKernel (execStack pf p pagetable sz argv)
  match built with
  | none => bad sb pf pagetable sz none
  | some (sp, argc) =>
    setName p path
    inKernel (commitImage pf p pagetable sz sp entry)
    pure argc

def buildImage (sb : Fs.Superblock) (pf : Platform) (p ip : Nat) (path : List UInt8)
    (argv : List (List UInt8)) (pagetable headers : Nat) (off : UInt32) (entry : Nat) :
    ExecM Int := do
  let (sz, good) ← loadHeaders sb pf pagetable ip headers off 0
  if good = false then bad sb pf pagetable sz (some ip)
  else
    releaseFile sb (some ip)
    finishImage sb pf p path argv pagetable sz entry

def execFile (sb : Fs.Superblock) (pf : Platform) (p ip : Nat) (path : List UInt8)
    (argv : List (List UInt8)) : ExecM Int := do
  let (count, elf) ← readObject sb ip 0 64
  if count ≠ 64 then bad sb pf 0 0 (some ip)
  else if load elf 0 4 ≠ ELF_MAGIC then bad sb pf 0 0 (some ip)
  else
    let pagetable ← inKernel (procPagetable pf p)
    if pagetable = 0 then bad sb pf 0 0 (some ip)
    else
      buildImage sb pf p ip path argv pagetable (load elf 56 2) (UInt32.ofNat (load elf 32 8))
        (load elf 24 8)

def kexec (sb : Fs.Superblock) (pf : Platform) (p cwd : Nat) (path : List UInt8)
    (argv : List (List UInt8)) : ExecM Int := do
  beginOp
  match ← onFiles (Fs.Locking.namei sb cwd path) with
  | none =>
    endOp
    pure (-1)
  | some ip =>
    onFiles (Fs.Locking.ilock sb ip)
    execFile sb pf p ip path argv

variable {sb : Fs.Superblock} {pf : Platform} {fs : Fs.State} {s t : State} {file : Program}
  {p cwd ip i pagetable sz : Nat} {path : List UInt8} {argv : List (List UInt8)}
  {stop : Stop → Prop} {α : Type}

@[simp] theorem wp_inKernel (command : VmM α) (post : α → State → Prop) :
    wp (inKernel command) post stop s ↔
      wp command (fun value kernel => post value { s with kernel := kernel })
        (fun reason => stop (.kernel reason)) s.kernel :=
  wp_zoom ..

@[simp] theorem wp_onFiles (command : Fs.Locking.LockM α) (post : α → State → Prop) :
    wp (onFiles command) post stop s ↔
      wp command (fun value walk => post value { s with walk := walk })
        (fun halt => stop (.files halt)) s.walk :=
  wp_zoom ..

/-! ## The operation of the log -/

structure Records (log : GroupCommit.Log) (s : State) : Prop where
  lists : Fs.Lists log s.walk.fs
  outstanding : log.outstanding = s.outstanding
  idle : log.committing = false

theorem beginOp_refines {log : GroupCommit.Log} (records : Records log s) :
    wp beginOp
      (fun _ after => ∃ log', GroupCommit.beginOp log = some log' ∧ Records log' after)
      (fun reason => reason = .waits ∧ GroupCommit.beginOp log = none) s := by
  have length := records.lists.length_eq
  have same := records.outstanding
  simp only [beginOp, wp_bind, wp_get, GroupCommit.beginOp, records.idle, Bool.false_eq_true,
    ↓reduceIte, length, same, gt_iff_lt]
  split
  · rw [wp_throw]
    exact ⟨rfl, rfl⟩
  · rw [wp_modify]
    exact ⟨_, rfl, ⟨records.lists.distinct, records.lists.blocks⟩, rfl, rfl⟩

theorem endOp_refines {log : GroupCommit.Log} (records : Records log s) :
    wp endOp
      (fun _ after => ∃ log' commits, GroupCommit.endOp log = .ok (log', commits) ∧
        Records (if commits then { log' with committing := false, blocks := [] } else log') after)
      (fun _ => False) s := by
  have same := records.outstanding
  simp only [endOp, wp_bind, wp_modify, wp_get, GroupCommit.endOp, records.idle,
    Bool.false_eq_true, ↓reduceIte, same]
  split
  · simp only [wp_onFiles, Fs.Locking.wp_unlocked, Fs.wp_endOp]
    exact ⟨_, true, rfl, ⟨List.nodup_nil, rfl⟩, rfl, rfl⟩
  · rw [wp_pure]
    exact ⟨_, false, rfl, ⟨records.lists.distinct, records.lists.blocks⟩, rfl, rfl⟩

/-! ## Reading the file -/

def ReadsAs (sb : Fs.Superblock) (ip : Nat) (file : Program) (fs : Fs.State) : Prop :=
  ∀ dst off n (post : Int × ByteMap → Fs.State → Prop) stop,
    post (Fs.delivered file.bytes off.toNat (file.count off.toNat n.toNat) dst) fs →
      wp (Fs.readi sb ip dst off n) post stop fs

def program (node : Fs.Node) : Program := ⟨node.byte, node.size.toNat, node.size.toNat_lt⟩

theorem readsAs_of_locked (consistent : Fs.Consistent sb fs) (locked : Fs.Locked fs ip) :
    ReadsAs sb ip (program ((fs.itable ip).d.node
      (Fs.fileByte sb fs.disk (fs.itable ip).inum))) fs := by
  intro dst off n post stop holds
  refine wp_post (Fs.wp_readi off n (locked.mapped consistent) (locked.bounded consistent)) ?_
  rintro result _ ⟨rfl, rfl⟩
  rw [locked.bytes_eq consistent, Fs.readLength_eq]
  exact holds

theorem count_le (file : Program) (off n : Nat) : file.count off n ≤ n := by
  rw [Program.count]
  split
  · exact Nat.zero_le n
  · exact Nat.min_le_left ..

theorem delivered_object (file : Program) (byte : ByteMap) (off n : Nat) :
    Fs.delivered file.bytes off (file.count off n) ⟨byte, n⟩ =
      ((file.count off n : Int), copy byte 0 file.bytes off (file.count off n)) := by
  have within := count_le file off n
  rw [Fs.delivered, if_pos within, Nat.min_eq_left within]

def Reading (sb : Fs.Superblock) (ip : Nat) (file : Program) (s : State) : Prop :=
  ReadsAs sb ip file s.walk.fs

theorem wp_readObject {off n : UInt32} {post : Int × ByteMap → State → Prop}
    (reading : Reading sb ip file s)
    (holds : post ((file.count off.toNat n.toNat : Int),
      copy (fun _ => 0) 0 file.bytes off.toNat (file.count off.toNat n.toNat)) s) :
    wp (readObject sb ip off n) post stop s := by
  rw [readObject, wp_onFiles, Fs.Locking.wp_unlocked]
  refine reading _ _ _ _ _ ?_
  rw [delivered_object]
  exact holds

theorem copy_through (mem source : ByteMap) {pa off len n : Nat} (within : len ≤ n) :
    copy mem pa (copy (fun k => mem (pa + k)) 0 source off len) 0 n =
      copy mem pa source off len := by
  funext index
  by_cases inside : pa ≤ index ∧ index < pa + n
  · rw [copy_inside _ _ inside.1 inside.2, Nat.zero_add]
    by_cases read : index < pa + len
    · rw [copy_inside _ _ (Nat.zero_le _) (by omega), copy_inside _ _ inside.1 read, Nat.sub_zero]
    · rw [copy_outside _ _ (by omega), copy_outside _ _ (by omega), Nat.add_sub_cancel' inside.1]
  · rw [copy_outside _ _ (by omega), copy_outside _ _ (by omega)]

variable {post : Int → State → Prop}

theorem wp_readPage {pa : Nat} {off n : UInt32}
    (reading : Reading sb ip file s)
    (holds : post (file.count off.toNat n.toNat) { s with kernel := { s.kernel with
      mem := copy s.kernel.mem pa file.bytes off.toNat (file.count off.toNat n.toNat) } }) :
    wp (readPage sb ip pa off n) post stop s := by
  simp only [readPage, wp_bind, wp_get, wp_onFiles, Fs.Locking.wp_unlocked]
  refine reading _ _ _ _ _ ?_
  rw [delivered_object]
  simp only [wp_inKernel, setMem, wp_modify, wp_pure, copy_through _ _ (count_le ..)]
  exact holds

/-! ## Loading the program -/

abbrev LoadsAs {α : Type} (sb : Fs.Superblock) (ip : Nat) (file : Program) (command : ExecM α)
    (model : VmM α) : Prop :=
  Mirrors kernelPart Stop.kernel (Reading sb ip file) command model

theorem reading_put (kernel : Kernel) (s : State) (reading : Reading sb ip file s) :
    Reading sb ip file (kernelPart.put kernel s) := reading

theorem load_object (byte source : ByteMap) {off len offset width : Nat}
    (inside : offset + width ≤ len) :
    load (copy byte 0 source off len) offset width = load source (off + offset) width := by
  refine load_shift fun i below => ?_
  rw [copy_inside _ _ (Nat.zero_le _) (by omega)]
  congr 1
  omega

theorem loadProghdr_copy (byte source : ByteMap) (off : Nat) :
    loadProghdr (copy byte 0 source off 56) 0 = loadProghdr source off := by
  simp only [loadProghdr, Proghdr.mk.injEq]
  refine ⟨?_, ?_, ?_, ?_, ?_, ?_⟩ <;> exact load_object _ _ (by decide)

theorem loadseg_loadsAs (pagetable va : Nat) (offset sz : UInt32) :
    LoadsAs sb ip file (loadseg sb pf pagetable va ip offset sz)
      (Vm.loadseg pf pagetable va file offset.toNat sz.toNat) := by
  refine Mirrors.bind reading_put (Mirrors.searchRange reading_put 0 _ fun k _ => ?_)
    fun failed => Mirrors.pure _
  refine Mirrors.bind reading_put (Mirrors.zoom _) fun pa => ?_
  refine Mirrors.ite Iff.rfl (fun _ => Mirrors.throw Panic.loadseg) fun _ => ?_
  intro post stop s reading law
  -- The offset and the number of bytes are words.
  have length : (UInt32.ofNat (min (sz.toNat - k * PGSIZE) PGSIZE)).toNat =
      min (sz.toNat - k * PGSIZE) PGSIZE := by
    rw [UInt32.toNat_ofNat', Nat.mod_eq_of_lt]
    exact Nat.lt_of_le_of_lt (Nat.min_le_right ..) (by decide)
  have position : (offset + UInt32.ofNat (k * PGSIZE)).toNat =
      (offset.toNat + k * PGSIZE) % 2 ^ 32 := by
    rw [UInt32.toNat_add, UInt32.toNat_ofNat', Nat.add_mod_mod]
  simp only [wp_bind, setMem, wp_modify] at law
  rw [wp_bind]
  refine wp_readPage reading ?_
  rw [length, position]
  generalize file.count ((offset.toNat + k * PGSIZE) % 2 ^ 32) (min (sz.toNat - k * PGSIZE) PGSIZE) =
    count at law ⊢
  have test : LoadsAs sb ip file
      (if (count : Int) ≠ (min (sz.toNat - k * PGSIZE) PGSIZE : Nat) then pure (some ()) else pure none)
      (if count ≠ min (sz.toNat - k * PGSIZE) PGSIZE then pure (some ()) else pure none) :=
    Mirrors.ite (not_congr Int.natCast_inj) (fun _ => Mirrors.pure _) fun _ => Mirrors.pure _
  exact test post stop _ reading law

theorem loadHeader_loadsAs (pagetable : Nat) (off : UInt32) (sz : Nat) :
    LoadsAs sb ip file (loadHeader sb pf pagetable ip off sz)
      (Vm.loadHeader pf pagetable file off.toNat sz) := by
  have size : (56 : UInt32).toNat = 56 := rfl
  have header : loadProghdr file.bytes off.toNat = file.proghdr off.toNat := rfl
  rw [loadHeader]
  refine Mirrors.look (fun post stop s reading => wp_readObject reading) ?_
  simp only [size, Vm.loadHeader]
  refine Mirrors.ite (not_congr (by omega)) (fun _ => Mirrors.pure _) fun complete => ?_
  rw [not_not] at complete
  rw [complete, loadProghdr_copy, header]
  generalize file.proghdr off.toNat = ph
  refine Mirrors.ite Iff.rfl (fun _ => Mirrors.pure _) fun _ => ?_
  refine Mirrors.ite Iff.rfl (fun _ => Mirrors.pure _) fun _ => ?_
  refine Mirrors.ite Iff.rfl (fun _ => Mirrors.pure _) fun _ => ?_
  refine Mirrors.ite Iff.rfl (fun _ => Mirrors.pure _) fun _ => ?_
  refine Mirrors.bind reading_put (Mirrors.zoom _) fun sz1 => ?_
  refine Mirrors.ite Iff.rfl (fun _ => Mirrors.pure _) fun _ => ?_
  have segment : LoadsAs sb ip file
      (loadseg sb pf pagetable ph.vaddr ip (UInt32.ofNat ph.off) (UInt32.ofNat ph.filesz))
      (Vm.loadseg pf pagetable ph.vaddr file (ph.off % 2 ^ 32) (ph.filesz % 2 ^ 32)) := by
    rw [← UInt32.toNat_ofNat', ← UInt32.toNat_ofNat']
    exact loadseg_loadsAs _ _ _ _
  exact Mirrors.bind reading_put segment fun loaded => Mirrors.pure _

theorem loadHeaders_loadsAs (pagetable remaining : Nat) (off : UInt32) (sz : Nat) :
    LoadsAs sb ip file (loadHeaders sb pf pagetable ip remaining off sz)
      (Vm.loadHeaders pf pagetable file remaining off.toNat sz) := by
  induction remaining generalizing off sz with
  | zero => exact Mirrors.pure _
  | succ remaining ih =>
    refine Mirrors.bind reading_put (loadHeader_loadsAs pagetable off sz) fun outcome => ?_
    refine Mirrors.ite Iff.rfl (fun _ => ?_) fun _ => Mirrors.pure _
    have next := ih (off + 56) outcome.1
    rw [UInt32.toNat_add] at next
    exact next

/-! ## The law of `kexec` -/

structure Left (sb : Fs.Superblock) (base fs : Fs.State) : Prop where
  holding : Fs.Holding sb base [] [] (Fs.nodes sb base.disk) fs
  disk : fs.disk = base.disk

structure Opened (sb : Fs.Superblock) (s : State) (ip i : Nat) (t : State) : Prop where
  holding : Fs.Holding sb s.walk.fs [⟨ip, i, true⟩] [] (Fs.nodes sb s.walk.fs.disk) t.walk.fs
  disk : t.walk.fs.disk = s.walk.fs.disk
  held : t.walk.held = [ip]
  outstanding : t.outstanding = s.outstanding + 1
  names : t.names = s.names

theorem Opened.put (opened : Opened sb s ip i t) (kernel : Kernel) :
    Opened sb s ip i { t with kernel := kernel } :=
  ⟨opened.holding, opened.disk, opened.held, opened.outstanding, opened.names⟩

theorem Opened.reading (opened : Opened sb s ip i t) {node : Fs.Node}
    (there : Fs.nodes sb s.walk.fs.disk i = some node) : Reading sb ip (program node) t := by
  have reads := readsAs_of_locked opened.holding.consistent opened.holding.locked
  rwa [opened.holding.number, opened.holding.copy there] at reads

theorem wp_endOp {base fs : Fs.State} {held : List Nat} {kernel : Kernel}
    {names : Nat → List UInt8} {outstanding : Int} {post : PUnit → State → Prop}
    (left : Left sb base fs)
    (done : ∀ fs, Left sb base fs → post ⟨⟩ ⟨kernel, names, ⟨fs, held⟩, outstanding⟩) :
    wp endOp post stop ⟨kernel, names, ⟨fs, held⟩, outstanding + 1⟩ := by
  simp only [endOp, wp_bind, wp_modify, wp_get, Int.add_sub_cancel]
  split
  · simp only [wp_onFiles, Fs.Locking.wp_unlocked, Fs.wp_endOp]
    exact done _ ⟨left.holding.ended, left.disk⟩
  · rw [wp_pure]
    exact done _ left

/-- The law of releasing the file. -/
theorem Opened.wp_releaseFile (opened : Opened sb s ip i t) (stable : Fs.Stable sb s.walk.fs)
    {post : PUnit → State → Prop}
    (done : ∀ fs, Left sb s.walk.fs fs → post ⟨⟩ ⟨t.kernel, s.names, ⟨fs, []⟩, s.outstanding⟩) :
    wp (releaseFile sb (some ip)) post stop t := by
  obtain ⟨kernel, names, ⟨fs, held⟩, outstanding⟩ := t
  obtain ⟨holding, disk, rfl, rfl, rfl⟩ := opened
  rw [releaseFile, wp_bind, wp_onFiles, Fs.Locking.wp_iunlockput]
  refine holding.wp_iunlockput_anchored (stable.anchored []) fun after dropped same => ?_
  exact wp_endOp ⟨dropped, same.trans disk⟩ done

/-- Giving up while the file is open. -/
theorem Opened.wp_bad (opened : Opened sb s ip i t) (stable : Fs.Stable sb s.walk.fs)
    (freed : wp (if pagetable ≠ 0 then procFreepagetable pf pagetable sz else pure ⟨⟩)
      (fun _ kernel => ∀ fs, Left sb s.walk.fs fs →
        post (-1) ⟨kernel, s.names, ⟨fs, []⟩, s.outstanding⟩)
      (fun reason => stop (.kernel reason)) t.kernel) :
    wp (bad sb pf pagetable sz (some ip)) post stop t := by
  have free : wp (freeImage pf pagetable sz) (fun _ after => ∃ kernel,
      after = { t with kernel := kernel } ∧ ∀ fs, Left sb s.walk.fs fs →
        post (-1) ⟨kernel, s.names, ⟨fs, []⟩, s.outstanding⟩) stop t := by
    rw [freeImage]
    split at freed
    · rename_i nonzero
      rw [if_pos nonzero, wp_inKernel]
      exact wp_post freed fun _ kernel done => ⟨kernel, rfl, done⟩
    · rename_i zero
      rw [if_neg zero, wp_pure]
      rw [wp_pure] at freed
      exact ⟨t.kernel, rfl, freed⟩
  rw [bad, wp_bind]
  refine wp_post free ?_
  rintro _ _ ⟨kernel, rfl, done⟩
  rw [wp_bind]
  refine (opened.put kernel).wp_releaseFile stable fun fs left => ?_
  rw [wp_pure]
  exact done fs left

def Afterwards (sb : Fs.Superblock) (s : State) (p : Nat) (path : List UInt8)
    (post : Int → State → Prop) (result : Int) (kernel : Kernel) : Prop :=
  ∀ fs, Left sb s.walk.fs fs → post result
    ⟨kernel, if result = -1 then s.names else update s.names p (programName path), ⟨fs, []⟩,
      s.outstanding⟩

theorem wp_finishImage {kernel : Kernel} {fs : Fs.State} {entry : Nat}
    (left : Left sb s.walk.fs fs) (nonzero : pagetable ≠ 0)
    (law : wp (execStack pf p pagetable sz argv) (fun outcome after =>
        wp (match outcome.2 with
          | none => do
            procFreepagetable pf pagetable outcome.1
            pure (-1)
          | some (sp, argc) => do
            commitImage pf p pagetable outcome.1 sp entry
            pure (argc : Int))
          (Afterwards sb s p path post) (fun reason => stop (.kernel reason)) after)
      (fun reason => stop (.kernel reason)) kernel) :
    wp (finishImage sb pf p path argv pagetable sz entry) post stop
      ⟨kernel, s.names, ⟨fs, []⟩, s.outstanding⟩ := by
  rw [finishImage, wp_bind, wp_inKernel]
  refine wp_post law ?_
  rintro ⟨size, built⟩ after law
  cases built with
  | none =>
    simp only [bad, freeImage, if_pos nonzero, releaseFile, wp_bind, wp_inKernel, wp_pure] at law ⊢
    exact wp_post law fun _ _ ends => ends fs left
  | some stack =>
    have succeeded : ((stack.2 : Nat) : Int) ≠ -1 := by omega
    simp only [setName, wp_bind, wp_modify, wp_inKernel, wp_pure] at law ⊢
    refine wp_post law fun _ _ ends => ?_
    have holds := ends fs left
    rwa [if_neg succeeded] at holds

theorem Opened.wp_buildImage (opened : Opened sb s ip i t) (stable : Fs.Stable sb s.walk.fs)
    (reading : Reading sb ip file t) (nonzero : pagetable ≠ 0)
    {headers entry : Nat} {off : UInt32}
    (law : wp (Vm.loadHeaders pf pagetable file headers off.toNat 0) (fun outcome after =>
        wp (if outcome.2 = false then pure (outcome.1, none)
            else execStack pf p pagetable outcome.1 argv) (fun outcome after =>
          wp (match outcome.2 with
            | none => do
              procFreepagetable pf pagetable outcome.1
              pure (-1)
            | some (sp, argc) => do
              commitImage pf p pagetable outcome.1 sp entry
              pure (argc : Int))
            (Afterwards sb s p path post) (fun reason => stop (.kernel reason)) after)
          (fun reason => stop (.kernel reason)) after)
      (fun reason => stop (.kernel reason)) t.kernel) :
    wp (buildImage sb pf p ip path argv pagetable headers off entry) post stop t := by
  rw [buildImage, wp_bind]
  refine loadHeaders_loadsAs pagetable headers off 0 _ _ t reading (wp_post law ?_)
  rintro ⟨sz, good⟩ kernel law
  have still := opened.put kernel
  cases good with
  | false =>
    simp only [↓reduceIte, wp_pure, wp_bind] at law ⊢
    refine still.wp_bad stable ?_
    rw [if_pos nonzero]
    exact wp_post law fun _ _ ends => ends
  | true =>
    simp only [Bool.true_eq_false, ↓reduceIte, wp_bind] at law ⊢
    exact still.wp_releaseFile stable fun fs left => wp_finishImage left nonzero law

theorem Opened.wp_execFile (opened : Opened sb s ip i t) (stable : Fs.Stable sb s.walk.fs)
    (reading : Reading sb ip file t)
    (law : wp (Vm.kexec pf p (some file) argv) (Afterwards sb s p path post)
      (fun reason => stop (.kernel reason)) t.kernel) :
    wp (execFile sb pf p ip path argv) post stop t := by
  have zero : (0 : UInt32).toNat = 0 := rfl
  have size : (64 : UInt32).toNat = 64 := rfl
  -- Giving up without a page table.
  have give : ∀ kernel, Afterwards sb s p path post (-1) kernel →
      wp (bad sb pf 0 0 (some ip)) post stop { t with kernel := kernel } := by
    intro kernel ends
    refine (opened.put kernel).wp_bad stable ?_
    rw [if_neg (by simp), wp_pure]
    exact ends
  rw [execFile, wp_bind]
  refine wp_readObject reading ?_
  simp only [zero, size]
  rw [Vm.kexec] at law
  by_cases complete : file.count 0 64 = 64
  · rw [complete, if_neg (by simp), load_object _ _ (by decide), load_object _ _ (by decide),
      load_object _ _ (by decide), load_object _ _ (by decide)]
    by_cases magic : load file.bytes 0 4 = ELF_MAGIC
    · have elf : file.isElf = true := by simp [Program.isElf, complete, magic]
      rw [Nat.zero_add, if_neg (not_not.mpr magic), wp_bind, wp_inKernel]
      simp only [elf, Bool.true_eq_false, ↓reduceIte, wp_bind] at law
      refine wp_post law fun pagetable kernel law => ?_
      by_cases none : pagetable = 0
      · rw [if_pos none, wp_pure] at law
        rw [if_pos none]
        exact give kernel law
      · rw [if_neg none] at law ⊢
        simp only [execImage, loadProgram, wp_bind, ← UInt32.toNat_ofNat'] at law
        exact (opened.put kernel).wp_buildImage stable reading none law
    · have other : file.isElf = false := by simp [Program.isElf, magic]
      rw [if_pos other, wp_pure] at law
      rw [Nat.zero_add, if_pos magic]
      exact give t.kernel law
  · have short : file.isElf = false := by simp [Program.isElf, complete]
    rw [if_pos short, wp_pure] at law
    rw [if_pos (by omega)]
    exact give t.kernel law

inductive Stops (sb : Fs.Superblock) (s : State) (cwd : Nat) (path : List UInt8) : Stop → Prop
  | waits (full : (LOGBLOCKS : Int) < s.walk.fs.logged.card + (s.outstanding + 1) * MAXOPBLOCKS) :
      Stops sb s cwd path .waits
  | noInodes (scarce : Fs.Scarce s.walk.fs []) : Stops sb s cwd path (.files (.panic .igetNoInodes))
  | noType (free : Fs.DeadEnd (Fs.nodes sb s.walk.fs.disk) (Fs.startOf s.walk.fs cwd path)
      (Fs.elements path)) : Stops sb s cwd path (.files (.panic .ilockNoType))
  | cut (partly : Fs.Cut (Fs.nodes sb s.walk.fs.disk) (Fs.startOf s.walk.fs cwd path)
      (Fs.elements path)) : Stops sb s cwd path (.files (.panic .dirlookupRead))

/-- The law of `kexec` by a process that holds no inode lock. -/
theorem wp_kexec (stable : Fs.Stable sb s.walk.fs)
    (here : Fs.Referred sb s.walk.fs cwd) (idle : s.walk.held = [])
    (stops : ∀ reason, Stops sb s cwd path reason → stop reason)
    (missing : Fs.resolve (Fs.nodes sb s.walk.fs.disk) (Fs.startOf s.walk.fs cwd path)
      (Fs.elements path) = none → Afterwards sb s p path post (-1) s.kernel)
    (found : ∀ i node, Fs.resolve (Fs.nodes sb s.walk.fs.disk) (Fs.startOf s.walk.fs cwd path)
      (Fs.elements path) = some i → Fs.nodes sb s.walk.fs.disk i = some node →
      wp (Vm.kexec pf p (some (program node)) argv) (Afterwards sb s p path post)
        (fun reason => stop (.kernel reason)) s.kernel) :
    wp (kexec sb pf p cwd path argv) post stop s := by
  obtain ⟨kernel, names, ⟨fs, held⟩, outstanding⟩ := s
  obtain rfl : held = [] := idle
  simp only [kexec, beginOp, wp_bind, wp_get]
  split
  · rename_i full
    exact stops _ (.waits full)
  simp only [wp_modify, wp_onFiles]
  refine Fs.Locking.wp_namei (stable.start.wp_namei stable.ranged (stable.anchored _)
    (fun scarce => stops _ (.noInodes scarce)) stable.root here
    (fun dangles => stops _ (.noType dangles.deadEnd)) (fun partly => stops _ (.cut partly)) ?_ ?_)
  · intro after nowhere dropped same
    rw [wp_bind]
    refine wp_endOp ⟨dropped, same⟩ fun fs left => ?_
    rw [wp_pure]
    exact missing nowhere fs left
  · intro ip i after leads taken same
    simp only [wp_bind, wp_onFiles]
    rw [Fs.Locking.wp_ilock List.not_mem_nil]
    refine taken.wp_ilock (fun free => stops _ (.noType (Fs.deadEnd_of_resolve leads free))) ?_
    intro locked node there holding unchanged
    have opened : Opened sb ⟨kernel, names, ⟨fs, []⟩, outstanding⟩ ip i
        ⟨kernel, names, ⟨locked, [ip]⟩, outstanding + 1⟩ :=
      ⟨holding, unchanged.trans same, rfl, rfl, rfl⟩
    exact opened.wp_execFile stable (opened.reading there) (found i node leads there)

end Xv6.Exec
