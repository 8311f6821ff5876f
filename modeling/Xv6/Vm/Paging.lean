import Mathlib.Logic.Function.Basic
import Xv6.Library.Command
import Xv6.Library.Bytes

/-!
# Physical pages and page tables

The page allocator of `kalloc.c` and the user page tables of `vm.c`, over a byte-addressed
physical memory.
-/

namespace Xv6.Vm

open Command Bytes

abbrev PGSIZE : Nat := 4096

abbrev MAXVA : Nat := 2 ^ 38

abbrev TRAMPOLINE : Nat := MAXVA - PGSIZE

abbrev TRAPFRAME : Nat := TRAMPOLINE - PGSIZE

abbrev KERNBASE : Nat := 0x80000000

abbrev PHYSTOP : Nat := KERNBASE + 128 * 1024 * 1024

abbrev PTE_V : Nat := 1

abbrev PTE_R : Nat := 2

abbrev PTE_W : Nat := 4

abbrev PTE_X : Nat := 8

abbrev PTE_U : Nat := 16

abbrev NPTE : Nat := 512

/-- A sum of two `uint64`. -/
def add64 (a b : Nat) : Nat := (a + b) % 2 ^ 64

def PGROUNDUP (sz : Nat) : Nat := add64 sz (PGSIZE - 1) / PGSIZE * PGSIZE

def PGROUNDDOWN (a : Nat) : Nat := a / PGSIZE * PGSIZE

def PX (level va : Nat) : Nat := va / 2 ^ (12 + 9 * level) % NPTE

def PA2PTE (pa : Nat) : Nat := pa / PGSIZE * 2 ^ 10

def PTE2PA (pte : Nat) : Nat := pte / 2 ^ 10 * PGSIZE % 2 ^ 64

def PTE_FLAGS (pte : Nat) : Nat := pte % 2 ^ 10

def hasFlag (pte flag : Nat) : Bool := pte &&& flag != 0

structure Platform where
  kernelEnd : Nat
  trampoline : Nat
  refuse : Nat → Bool
  aligned : trampoline % PGSIZE = 0
  base : KERNBASE ≤ trampoline
  text : trampoline + PGSIZE ≤ kernelEnd
  ram : kernelEnd ≤ PHYSTOP

inductive ProcState where
  | UNUSED
  | USED
  | SLEEPING
  | RUNNABLE
  | RUNNING
  | ZOMBIE
  deriving DecidableEq, Repr

structure Proc where
  state : ProcState
  parent : Option Nat
  xstate : Int
  sz : Nat
  pagetable : Nat
  trapframe : Nat

structure Kernel where
  mem : ByteMap
  freelist : Nat
  asked : Nat
  denied : Nat
  proc : Nat → Proc
  initproc : Option Nat

/-- The reasons for which this code stops the kernel. -/
inductive Panic where
  | kfree
  | walk
  | mappagesVa
  | mappagesSize
  | mappagesZero
  | mappagesRemap
  | uvmunmap
  | freewalkLeaf
  | freewalkDeep
  | uvmclear
  | copyoutNull
  | loadseg
  | ustack
  | initExiting
  deriving DecidableEq, Repr

abbrev VmM := Cmd Kernel Panic

/-- Read a word of memory. -/
def loadWord (addr : Nat) : VmM Nat := do
  pure (load (← get).mem addr 8)

/-- Change memory. -/
def setMem (change : ByteMap → ByteMap) : VmM PUnit :=
  modify fun kernel => { kernel with mem := change kernel.mem }

/-- Write a word of memory. -/
def storeWord (addr value : Nat) : VmM PUnit := setMem fun mem => store mem addr 8 value

def memset (dst : Nat) (c : UInt8) (n : Nat) : VmM PUnit := setMem fun mem => fill mem dst n c

def kfree (pf : Platform) (pa : Nat) : VmM PUnit := do
  if pa % PGSIZE ≠ 0 ∨ pa < pf.kernelEnd ∨ PHYSTOP ≤ pa then throw .kfree
  else
    memset pa 1 PGSIZE
    storeWord pa (← get).freelist
    modify fun kernel => { kernel with freelist := pa }

def kalloc (pf : Platform) : VmM Nat := do
  let kernel ← get
  let r := if pf.refuse kernel.asked then 0 else kernel.freelist
  if r = 0 then
    set { kernel with asked := kernel.asked + 1, denied := kernel.denied + 1 }
    pure 0
  else
    set { kernel with asked := kernel.asked + 1, freelist := load kernel.mem r 8 }
    memset r 5 PGSIZE
    pure r

def freerange (pf : Platform) (pa_start pa_end : Nat) : VmM PUnit :=
  let first := PGROUNDUP pa_start
  forRange 0 ((pa_end - first) / PGSIZE) fun k => kfree pf (first + k * PGSIZE)

def kinit (pf : Platform) : VmM PUnit := freerange pf pf.kernelEnd PHYSTOP

def walkFrom (pf : Platform) (va : Nat) (alloc : Bool) : Nat → Nat → VmM (Option Nat)
  | 0, pagetable => pure (some (pagetable + 8 * PX 0 va))
  | level + 1, pagetable => do
    let pte := pagetable + 8 * PX (level + 1) va
    let entry ← loadWord pte
    if hasFlag entry PTE_V then walkFrom pf va alloc level (PTE2PA entry)
    else if alloc = false then pure none
    else
      let page ← kalloc pf
      if page = 0 then pure none
      else
        memset page 0 PGSIZE
        storeWord pte (PA2PTE page ||| PTE_V)
        walkFrom pf va alloc level page

def walk (pf : Platform) (pagetable va : Nat) (alloc : Bool) : VmM (Option Nat) :=
  if MAXVA ≤ va then throw .walk else walkFrom pf va alloc 2 pagetable

def walkaddr (pf : Platform) (pagetable va : Nat) : VmM Nat := do
  if MAXVA ≤ va then pure 0
  else
    match ← walk pf pagetable va false with
    | none => pure 0
    | some pte =>
      let entry ← loadWord pte
      if hasFlag entry PTE_V && hasFlag entry PTE_U then pure (PTE2PA entry) else pure 0

def mapRounds (pf : Platform) (pagetable last perm : Nat) : Nat → Nat → Nat → VmM Int
  | 0, _, _ => pure 0
  | rounds + 1, a, pa => do
    match ← walk pf pagetable a true with
    | none => pure (-1)
    | some pte =>
      if hasFlag (← loadWord pte) PTE_V then throw .mappagesRemap
      else
        storeWord pte (PA2PTE pa ||| perm ||| PTE_V)
        if a = last then pure 0
        else mapRounds pf pagetable last perm rounds (add64 a PGSIZE) (add64 pa PGSIZE)

def mappages (pf : Platform) (pagetable va size pa perm : Nat) : VmM Int := do
  if va % PGSIZE ≠ 0 then throw .mappagesVa
  else if size % PGSIZE ≠ 0 then throw .mappagesSize
  else if size = 0 then throw .mappagesZero
  else mapRounds pf pagetable (add64 va (size - PGSIZE)) perm (size / PGSIZE) va pa

def uvmcreate (pf : Platform) : VmM Nat := do
  let pagetable ← kalloc pf
  if pagetable = 0 then pure 0
  else
    memset pagetable 0 PGSIZE
    pure pagetable

def unmapPage (pf : Platform) (pagetable a : Nat) (doFree : Bool) : VmM PUnit := do
  match ← walk pf pagetable a false with
  | none => pure ⟨⟩
  | some pte =>
    let entry ← loadWord pte
    if hasFlag entry PTE_V = false then pure ⟨⟩
    else if doFree then
      kfree pf (PTE2PA entry)
      storeWord pte 0
    else storeWord pte 0

def uvmunmap (pf : Platform) (pagetable va npages : Nat) (doFree : Bool) : VmM PUnit := do
  if va % PGSIZE ≠ 0 then throw .uvmunmap
  else
    forRange 0 ((add64 va (npages * PGSIZE) - va) / PGSIZE) fun k =>
      unmapPage pf pagetable (va + k * PGSIZE) doFree

def throughInt (n : Nat) : Nat :=
  if n % 2 ^ 32 < 2 ^ 31 then n % 2 ^ 32 else 2 ^ 64 - 2 ^ 32 + n % 2 ^ 32

def uvmdealloc (pf : Platform) (pagetable oldsz newsz : Nat) : VmM Nat := do
  if oldsz ≤ newsz then pure oldsz
  else if PGROUNDUP newsz < PGROUNDUP oldsz then
    let npages := throughInt ((PGROUNDUP oldsz - PGROUNDUP newsz) / PGSIZE)
    uvmunmap pf pagetable (PGROUNDUP newsz) npages true
    pure newsz
  else pure newsz

def growPage (pf : Platform) (pagetable a xperm : Nat) : VmM Bool := do
  let mem ← kalloc pf
  if mem = 0 then pure false
  else
    memset mem 0 PGSIZE
    if (← mappages pf pagetable a PGSIZE mem (PTE_R ||| PTE_U ||| xperm)) ≠ 0 then
      kfree pf mem
      pure false
    else pure true

def uvmalloc (pf : Platform) (pagetable oldsz newsz xperm : Nat) : VmM Nat := do
  if newsz < oldsz then pure oldsz
  else
    let first := PGROUNDUP oldsz
    let failed ← searchRange 0 ((newsz - first + PGSIZE - 1) / PGSIZE) fun k => do
      let a := first + k * PGSIZE
      if ← growPage pf pagetable a xperm then pure none
      else
        let _ ← uvmdealloc pf pagetable a first
        pure (some ())
    match failed with
    | some () => pure 0
    | none => pure newsz

def freewalk (pf : Platform) : Nat → Nat → VmM PUnit
  | 0, _ => throw .freewalkDeep
  | levels + 1, pagetable => do
    forRange 0 NPTE fun i => do
      let pte ← loadWord (pagetable + 8 * i)
      if hasFlag pte PTE_V && !hasFlag pte (PTE_R ||| PTE_W ||| PTE_X) then
        freewalk pf levels (PTE2PA pte)
        storeWord (pagetable + 8 * i) 0
      else if hasFlag pte PTE_V then throw .freewalkLeaf
      else pure ⟨⟩
    kfree pf pagetable

def uvmfree (pf : Platform) (pagetable sz : Nat) : VmM PUnit := do
  if sz > 0 then
    uvmunmap pf pagetable 0 (PGROUNDUP sz / PGSIZE) true
    freewalk pf 3 pagetable
  else freewalk pf 3 pagetable

def copyPage (pf : Platform) (old new i : Nat) : VmM Bool := do
  match ← walk pf old i false with
  | none => pure true
  | some pte =>
    let entry ← loadWord pte
    if hasFlag entry PTE_V = false then pure true
    else
      let mem ← kalloc pf
      if mem = 0 then pure false
      else
        setMem fun bytes => copy bytes mem bytes (PTE2PA entry) PGSIZE
        if (← mappages pf new i PGSIZE mem (PTE_FLAGS entry)) ≠ 0 then
          kfree pf mem
          pure false
        else pure true

def uvmcopy (pf : Platform) (old new sz : Nat) : VmM Int := do
  let failed ← searchRange 0 ((sz + PGSIZE - 1) / PGSIZE) fun k => do
    if ← copyPage pf old new (k * PGSIZE) then pure none else pure (some k)
  match failed with
  | some k =>
    uvmunmap pf new 0 k true
    pure (-1)
  | none => pure 0

def uvmclear (pf : Platform) (pagetable va : Nat) : VmM PUnit := do
  match ← walk pf pagetable va false with
  | none => throw .uvmclear
  | some pte =>
    let entry ← loadWord pte
    storeWord pte (entry &&& (2 ^ 64 - 1 - PTE_U))

/-- Has a page been mapped? -/
def ismapped (pf : Platform) (pagetable va : Nat) : VmM Bool := do
  match ← walk pf pagetable va false with
  | none => pure false
  | some pte => pure (hasFlag (← loadWord pte) PTE_V)

def vmfault (pf : Platform) (p pagetable va : Nat) : VmM Nat := do
  let proc := (← get).proc p
  if proc.sz ≤ va then pure 0
  else
    let va := PGROUNDDOWN va
    if ← ismapped pf pagetable va then pure 0
    else
      let mem ← kalloc pf
      if mem = 0 then pure 0
      else
        memset mem 0 PGSIZE
        if (← mappages pf proc.pagetable va PGSIZE mem (PTE_W ||| PTE_U ||| PTE_R)) ≠ 0 then
          kfree pf mem
          pure 0
        else pure mem

def userPage (pf : Platform) (p pagetable va0 : Nat) : VmM Nat := do
  let pa0 ← walkaddr pf pagetable va0
  if pa0 = 0 then vmfault pf p pagetable va0 else pure pa0

def copyoutRounds (pf : Platform) (p pagetable : Nat) (src : ByteMap) :
    Nat → Nat → Nat → Nat → VmM Int
  | 0, _, _, _ => pure 0
  | rounds + 1, dstva, done, len =>
    if len = 0 then pure 0
    else do
      let va0 := PGROUNDDOWN dstva
      if MAXVA ≤ va0 then pure (-1)
      else
        let pa0 ← userPage pf p pagetable va0
        if pa0 = 0 then pure (-1)
        else
          match ← walk pf pagetable va0 false with
          | none => throw .copyoutNull
          | some pte =>
            -- Forbid writing over read-only user text pages.
            if hasFlag (← loadWord pte) PTE_W = false then pure (-1)
            else
              let n := min (PGSIZE - (dstva - va0)) len
              setMem fun mem => copy mem (pa0 + (dstva - va0)) src done n
              copyoutRounds pf p pagetable src rounds (add64 va0 PGSIZE) (done + n) (len - n)

def copyout (pf : Platform) (p pagetable dstva : Nat) (src : ByteMap) (len : Nat) : VmM Int :=
  copyoutRounds pf p pagetable src len dstva 0 len

def copyinRounds (pf : Platform) (p pagetable : Nat) :
    Nat → Nat → Nat → Nat → ByteMap → VmM (Int × ByteMap)
  | 0, _, _, _, dst => pure (0, dst)
  | rounds + 1, srcva, done, len, dst =>
    if len = 0 then pure (0, dst)
    else do
      let va0 := PGROUNDDOWN srcva
      let pa0 ← userPage pf p pagetable va0
      if pa0 = 0 then pure (-1, dst)
      else
        let n := min (PGSIZE - (srcva - va0)) len
        let mem := (← get).mem
        copyinRounds pf p pagetable rounds (add64 va0 PGSIZE) (done + n) (len - n)
          (copy dst done mem (pa0 + (srcva - va0)) n)

def copyin (pf : Platform) (p pagetable srcva len : Nat) : VmM (Int × ByteMap) :=
  copyinRounds pf p pagetable len srcva 0 len fun _ => 0

def copyString (mem : ByteMap) : Nat → Nat → Nat → ByteMap → Bool × ByteMap
  | 0, _, _, dst => (false, dst)
  | n + 1, p, done, dst =>
    if mem p = 0 then (true, Function.update dst done 0)
    else copyString mem n (p + 1) (done + 1) (Function.update dst done (mem p))

def copyinstrRounds (pf : Platform) (pagetable : Nat) :
    Nat → Nat → Nat → Nat → ByteMap → VmM (Int × ByteMap)
  | 0, _, _, _, dst => pure (-1, dst)
  | rounds + 1, srcva, done, max, dst =>
    if max = 0 then pure (-1, dst)
    else do
      let va0 := PGROUNDDOWN srcva
      let pa0 ← walkaddr pf pagetable va0
      if pa0 = 0 then pure (-1, dst)
      else
        let n := min (PGSIZE - (srcva - va0)) max
        let (gotNull, dst) := copyString (← get).mem n (pa0 + (srcva - va0)) done dst
        if gotNull then pure (0, dst)
        else copyinstrRounds pf pagetable rounds (add64 va0 PGSIZE) (done + n) (max - n) dst

def copyinstr (pf : Platform) (pagetable srcva max : Nat) : VmM (Int × ByteMap) :=
  copyinstrRounds pf pagetable max srcva 0 max fun _ => 0

end Xv6.Vm
