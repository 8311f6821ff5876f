import Xv6.Vm.Paging

/-!
# The memory of processes

The procedures of `proc.c`, `sysproc.c` and `exec.c` that give memory to processes and take it
back: creation, growth, `fork`, `exec`, `exit` and `wait`.
-/

namespace Xv6.Vm

open Command Bytes

abbrev NPROC : Nat := 64

abbrev MAXARG : Nat := 32

/-- User stack pages. -/
abbrev USERSTACK : Nat := 2

abbrev SBRK_EAGER : Int := 1

abbrev ELF_MAGIC : Nat := 0x464C457F

abbrev ELF_PROG_LOAD : Nat := 1

def setProc (p : Nat) (change : Proc → Proc) : VmM PUnit :=
  modify fun kernel =>
    { kernel with proc := Function.update kernel.proc p (change (kernel.proc p)) }

def procPagetable (pf : Platform) (p : Nat) : VmM Nat := do
  let pagetable ← uvmcreate pf
  if pagetable = 0 then pure 0
  else if (← mappages pf pagetable TRAMPOLINE PGSIZE pf.trampoline (PTE_R ||| PTE_X)) < 0 then
    uvmfree pf pagetable 0
    pure 0
  else
    let trapframe := ((← get).proc p).trapframe
    if (← mappages pf pagetable TRAPFRAME PGSIZE trapframe (PTE_R ||| PTE_W)) < 0 then
      uvmunmap pf pagetable TRAMPOLINE 1 false
      uvmfree pf pagetable 0
      pure 0
    else pure pagetable

def procFreepagetable (pf : Platform) (pagetable sz : Nat) : VmM PUnit := do
  uvmunmap pf pagetable TRAMPOLINE 1 false
  uvmunmap pf pagetable TRAPFRAME 1 false
  uvmfree pf pagetable sz

def freeTrapframe (pf : Platform) (p : Nat) : VmM PUnit := do
  let trapframe := ((← get).proc p).trapframe
  if trapframe ≠ 0 then kfree pf trapframe else pure ⟨⟩

def freePagetable (pf : Platform) (p : Nat) : VmM PUnit := do
  let proc := (← get).proc p
  if proc.pagetable ≠ 0 then procFreepagetable pf proc.pagetable proc.sz else pure ⟨⟩

def freeproc (pf : Platform) (p : Nat) : VmM PUnit := do
  freeTrapframe pf p
  setProc p fun proc => { proc with trapframe := 0 }
  freePagetable pf p
  setProc p fun proc => { proc with
    pagetable := 0, sz := 0, parent := none, xstate := 0, state := .UNUSED }

def allocproc (pf : Platform) : VmM (Option Nat) := do
  let proc := (← get).proc
  match (List.range NPROC).find? fun p => (proc p).state = .UNUSED with
  | none => pure none
  | some p =>
    setProc p fun proc => { proc with state := .USED }
    let trapframe ← kalloc pf
    setProc p fun proc => { proc with trapframe := trapframe }
    if trapframe = 0 then
      freeproc pf p
      pure none
    else
      let pagetable ← procPagetable pf p
      setProc p fun proc => { proc with pagetable := pagetable }
      if pagetable = 0 then
        freeproc pf p
        pure none
      else pure (some p)

def addInt (a : Nat) (n : Int) : Nat := ((a + n) % 2 ^ 64).toNat

def growproc (pf : Platform) (p : Nat) (n : Int) : VmM Int := do
  let proc := (← get).proc p
  if n > 0 then
    let sz ← uvmalloc pf proc.pagetable proc.sz (addInt proc.sz n) PTE_W
    if sz = 0 then pure (-1)
    else
      setProc p fun proc => { proc with sz := sz }
      pure 0
  else if n < 0 then
    let sz ← uvmdealloc pf proc.pagetable proc.sz (addInt proc.sz n)
    setProc p fun proc => { proc with sz := sz }
    pure 0
  else pure 0

def sysSbrk (pf : Platform) (p : Nat) (n t : Int) : VmM Int := do
  let addr := ((← get).proc p).sz
  if t = SBRK_EAGER ∨ n < 0 then
    if (← growproc pf p n) < 0 then pure (-1) else pure addr
  else if addInt addr n < addr then pure (-1)
  else
    setProc p fun proc => { proc with sz := addInt proc.sz n }
    pure addr

abbrev trapframeSize : Nat := 288

abbrev trapframeEpc : Nat := 24

abbrev trapframeSp : Nat := 48

abbrev trapframeA0 : Nat := 112

abbrev trapframeA1 : Nat := 120

def kfork (pf : Platform) (p : Nat) : VmM (Option Nat) := do
  match ← allocproc pf with
  | none => pure none
  | some np =>
    let parent := (← get).proc p
    let child := (← get).proc np
    if (← uvmcopy pf parent.pagetable child.pagetable parent.sz) < 0 then
      freeproc pf np
      pure none
    else
      setProc np fun proc => { proc with sz := parent.sz }
      setMem fun mem => copy mem child.trapframe mem parent.trapframe trapframeSize
      storeWord (child.trapframe + trapframeA0) 0
      setProc np fun proc => { proc with parent := some p, state := .RUNNABLE }
      pure (some np)

def reparent (p : Nat) : VmM PUnit :=
  modify fun kernel => { kernel with
    proc := fun q =>
      if (kernel.proc q).parent = some p then { kernel.proc q with parent := kernel.initproc }
      else kernel.proc q }

def kexit (p : Nat) (status : Int) : VmM PUnit := do
  if (← get).initproc = some p then throw .initExiting
  else
    reparent p
    setProc p fun proc => { proc with xstate := status, state := .ZOMBIE }

def kwait (pf : Platform) (p addr : Nat) : VmM (Option Nat) := do
  let kernel ← get
  match (List.range NPROC).find? fun q =>
    (kernel.proc q).parent = some p && (kernel.proc q).state = .ZOMBIE with
  | none => pure none
  | some q =>
    let status := store (fun _ => 0) 0 4 ((kernel.proc q).xstate % 2 ^ 32).toNat
    let stored ←
      if addr ≠ 0 then copyout pf p (kernel.proc p).pagetable addr status 4 else pure 0
    if stored < 0 then pure none
    else
      freeproc pf q
      pure (some q)

structure Program where
  bytes : ByteMap
  size : Nat
  word : size < 2 ^ 32

def Program.count (file : Program) (off n : Nat) : Nat :=
  if file.size < off ∨ 2 ^ 32 ≤ off + n then 0 else min n (file.size - off)

/-- `struct proghdr`. -/
structure Proghdr where
  type : Nat
  flags : Nat
  off : Nat
  vaddr : Nat
  filesz : Nat
  memsz : Nat

def loadProghdr (bytes : ByteMap) (off : Nat) : Proghdr where
  type := load bytes off 4
  flags := load bytes (off + 4) 4
  off := load bytes (off + 8) 8
  vaddr := load bytes (off + 16) 8
  filesz := load bytes (off + 32) 8
  memsz := load bytes (off + 40) 8

def Program.proghdr (file : Program) (off : Nat) : Proghdr := loadProghdr file.bytes off

def flags2perm (flags : Nat) : Nat :=
  (if hasFlag flags 1 then PTE_X else 0) ||| (if hasFlag flags 2 then PTE_W else 0)

def loadseg (pf : Platform) (pagetable va : Nat) (file : Program) (offset sz : Nat) : VmM Int := do
  let failed ← searchRange 0 ((sz + PGSIZE - 1) / PGSIZE) fun k => do
    let i := k * PGSIZE
    let pa ← walkaddr pf pagetable (add64 va i)
    if pa = 0 then throw .loadseg
    else
      let n := min (sz - i) PGSIZE
      let from' := (offset + i) % 2 ^ 32
      let count := file.count from' n
      setMem fun mem => copy mem pa file.bytes from' count
      if count ≠ n then pure (some ()) else pure none
  pure (if failed.isSome then -1 else 0)

def loadHeader (pf : Platform) (pagetable : Nat) (file : Program) (off sz : Nat) :
    VmM (Nat × Bool) := do
  if file.count off 56 ≠ 56 then pure (sz, false)
  else
    let ph := file.proghdr off
    if ph.type ≠ ELF_PROG_LOAD then pure (sz, true)
    else if ph.memsz < ph.filesz then pure (sz, false)
    else if add64 ph.vaddr ph.memsz < ph.vaddr then pure (sz, false)
    else if ph.vaddr % PGSIZE ≠ 0 then pure (sz, false)
    else
      let sz1 ← uvmalloc pf pagetable sz (add64 ph.vaddr ph.memsz) (flags2perm ph.flags)
      if sz1 = 0 then pure (sz, false)
      else
        let loaded ← loadseg pf pagetable ph.vaddr file (ph.off % 2 ^ 32) (ph.filesz % 2 ^ 32)
        pure (sz1, decide (0 ≤ loaded))

def loadHeaders (pf : Platform) (pagetable : Nat) (file : Program) :
    Nat → Nat → Nat → VmM (Nat × Bool)
  | 0, _, sz => pure (sz, true)
  | remaining + 1, off, sz => do
    let (sz, good) ← loadHeader pf pagetable file off sz
    if good then loadHeaders pf pagetable file remaining ((off + 56) % 2 ^ 32) sz
    else pure (sz, false)

def sub64 (a b : Nat) : Nat := (a + 2 ^ 64 - b) % 2 ^ 64

def push (sp n : Nat) : Nat := sub64 sp n - sub64 sp n % 16

def storeUstack (ustack : List Nat) (word : Nat) : VmM (List Nat) :=
  if ustack.length < MAXARG then pure (ustack ++ [word]) else throw .ustack

def pushArgs (pf : Platform) (p pagetable stackbase : Nat) :
    List (List UInt8) → Nat → List Nat → VmM (Option (Nat × List Nat))
  | [], sp, ustack => pure (some (sp, ustack))
  | arg :: rest, sp, ustack => do
    if MAXARG ≤ ustack.length then pure none
    else
      let sp := push sp (arg.length + 1)
      if sp < stackbase then pure none
      else if (← copyout pf p pagetable sp (fun i => arg.getD i 0) (arg.length + 1)) < 0 then
        pure none
      else pushArgs pf p pagetable stackbase rest sp (← storeUstack ustack sp)

def pushStack (pf : Platform) (p pagetable sz : Nat) (argv : List (List UInt8)) :
    VmM (Option (Nat × Nat)) := do
  let stackbase := sub64 sz (USERSTACK * PGSIZE)
  match ← pushArgs pf p pagetable stackbase argv sz [] with
  | none => pure none
  | some (sp, ustack) =>
    let argc := ustack.length
    let ustack ← storeUstack ustack 0
    let sp := push sp ((argc + 1) * 8)
    let words := storeWords (fun _ => 0) 0 8 (fun i => ustack.getD i 0) (argc + 1)
    if sp < stackbase then pure none
    else if (← copyout pf p pagetable sp words ((argc + 1) * 8)) < 0 then pure none
    else pure (some (sp, argc))

def loadProgram (pf : Platform) (pagetable : Nat) (file : Program) : VmM (Nat × Bool) :=
  loadHeaders pf pagetable file (load file.bytes 56 2) (load file.bytes 32 8 % 2 ^ 32) 0

def execStack (pf : Platform) (p pagetable sz : Nat) (argv : List (List UInt8)) :
    VmM (Nat × Option (Nat × Nat)) := do
  let sz := PGROUNDUP sz
  let sz1 ← uvmalloc pf pagetable sz (add64 sz ((USERSTACK + 1) * PGSIZE)) PTE_W
  if sz1 = 0 then pure (sz, none)
  else
    uvmclear pf pagetable (sub64 sz1 ((USERSTACK + 1) * PGSIZE))
    pure (sz1, ← pushStack pf p pagetable sz1 argv)

def execImage (pf : Platform) (p pagetable : Nat) (file : Program) (argv : List (List UInt8)) :
    VmM (Nat × Option (Nat × Nat)) := do
  let (sz, good) ← loadProgram pf pagetable file
  if good = false then pure (sz, none) else execStack pf p pagetable sz argv

def Program.isElf (file : Program) : Bool :=
  file.count 0 64 = 64 && load file.bytes 0 4 = ELF_MAGIC

def commitImage (pf : Platform) (p pagetable sz sp entry : Nat) : VmM PUnit := do
  let old := (← get).proc p
  storeWord (old.trapframe + trapframeA1) sp
  setProc p fun proc => { proc with pagetable := pagetable, sz := sz }
  storeWord (old.trapframe + trapframeEpc) entry
  storeWord (old.trapframe + trapframeSp) sp
  procFreepagetable pf old.pagetable old.sz

def kexec (pf : Platform) (p : Nat) (file : Option Program) (argv : List (List UInt8)) :
    VmM Int := do
  match file with
  | none => pure (-1)
  | some file =>
    if file.isElf = false then pure (-1)
    else
      let pagetable ← procPagetable pf p
      if pagetable = 0 then pure (-1)
      else
        let (sz, built) ← execImage pf p pagetable file argv
        match built with
        | none =>
          procFreepagetable pf pagetable sz
          pure (-1)
        | some (sp, argc) =>
          commitImage pf p pagetable sz sp (load file.bytes 24 8)
          pure argc

end Xv6.Vm
