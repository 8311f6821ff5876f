import Xv6.Library.Crash
import Xv6.Param

/-!
# The redo log as disk writes

The procedures of `log.c` that touch the disk, in the order in which they write it.
-/

namespace Xv6.RedoLog

open Command Bytes

/-- The in-memory `struct logheader`. -/
structure LogHeader where
  n : Int
  block : Nat → Nat

structure Memory where
  lh : LogHeader
  pinned : Nat → Option Block

abbrev Machine := Crash.Machine Disk Memory

abbrev Job := Crash.Job Disk Memory

@[irreducible] def headCount (block : Block) : Int := Int.bmod (load block 0 4) (2 ^ 32)

def headBlock (block : Block) (index : Nat) : Nat := load block (4 + 4 * index) 4

def storeHead (lh : LogHeader) (block : Block) : Block :=
  storeWords (store block 0 4 (lh.n % 2 ^ 32).toNat) 4 4 lh.block lh.n.toNat

def loadHead (lh : LogHeader) (block : Block) : LogHeader :=
  ⟨headCount block, fun index =>
    if index < (headCount block).toNat then headBlock block index else lh.block index⟩

def bread (number : Nat) : Job Block := do
  let machine ← get
  pure ((machine.memory.pinned number).getD (machine.durable number))

def bwrite (number : Nat) (contents : Block) : Job PUnit :=
  Crash.write fun disk => Function.update disk number contents

def bunpin (number : Nat) : Job PUnit :=
  Crash.remember fun memory =>
    { memory with pinned := Function.update memory.pinned number none }

def setHeader (lh : LogHeader) : Job PUnit :=
  Crash.remember fun memory => { memory with lh := lh }

def installTrans (start : Nat) (recovering : Bool) : Job PUnit := do
  let lh := (← get).memory.lh
  forRange 0 lh.n.toNat fun tail => do
    let lbuf ← bread (start + tail + 1)
    let _dbuf ← bread (lh.block tail)
    bwrite (lh.block tail) lbuf
    if recovering = false then bunpin (lh.block tail)

def readHead (start : Nat) : Job PUnit := do
  let buf ← bread start
  let lh := (← get).memory.lh
  setHeader (loadHead lh buf)

def writeHead (start : Nat) : Job PUnit := do
  let lh := (← get).memory.lh
  let buf ← bread start
  bwrite start (storeHead lh buf)

def clearCount : Job PUnit := do
  let lh := (← get).memory.lh
  setHeader { lh with n := 0 }

def recoverFromLog (start : Nat) : Job PUnit := do
  readHead start
  installTrans start true
  clearCount
  writeHead start

def writeLog (start : Nat) : Job PUnit := do
  let lh := (← get).memory.lh
  forRange 0 lh.n.toNat fun tail => do
    let _to ← bread (start + tail + 1)
    let fromBuf ← bread (lh.block tail)
    bwrite (start + tail + 1) fromBuf

def commit (start : Nat) : Job PUnit := do
  let lh := (← get).memory.lh
  if lh.n > 0 then
    writeLog start
    writeHead start
    installTrans start false
    clearCount
    writeHead start

end Xv6.RedoLog
