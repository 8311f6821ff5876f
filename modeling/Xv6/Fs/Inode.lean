import Mathlib.Data.Finset.Card
import Mathlib.Data.Finset.Lattice.Basic
import Xv6.Fs.Layout

/-!
# Blocks, inodes and their contents

The procedures of `fs.c` below directories.
-/

namespace Xv6.Fs

open Command Bytes Function

structure Inode where
  inum : Nat
  ref : Int
  valid : Bool
  d : Dinode

/-- What the file-system code works on. Pointers into the inode table are slot
numbers. `logged` holds the blocks that the log header lists. `unlogged` holds,
for a block whose buffer was changed and released without being logged, the
contents that the buffer had before. `freedInodes` holds the inodes that `iput`
has freed, each with the disk that it found. No code reads the last two. -/
structure State where
  disk : Disk
  itable : Nat → Inode
  logged : Finset Nat
  freedInodes : List (Nat × Disk)
  unlogged : Nat → Option Block := fun _ => none

inductive Panic where
  | freeingFreeBlock
  | igetNoInodes
  | ilock
  | ilockNoType
  | iunlock
  | bmapOutOfRange
  | dirlookupNotDir
  | dirlookupRead
  | dirlinkRead
  | isdiremptyReadi
  | unlinkNlink
  | unlinkWritei
  | fileclose
  | initExiting
  | tooBigTransaction
  deriving DecidableEq, Repr

abbrev FsM := Cmd State Panic

/-- Read an in-memory inode. -/
def inode (ip : Nat) : FsM Inode := do
  pure ((← get).itable ip)

def setInode (ip : Nat) (change : Inode → Inode) : FsM PUnit :=
  modify fun fs => { fs with itable := update fs.itable ip (change (fs.itable ip)) }

def setDinode (ip : Nat) (change : Dinode → Dinode) : FsM PUnit :=
  setInode ip fun inode => { inode with d := change inode.d }

def bread (number : Nat) : FsM Block := do
  pure ((← get).disk number)

/-- Log a changed buffer. -/
def logWrite (number : Nat) (contents : Block) : FsM PUnit := do
  if LOGBLOCKS ≤ (← get).logged.card then throw .tooBigTransaction
  else modify fun fs => { fs with
    disk := update fs.disk number contents
    logged := fs.logged ∪ {number}
    unlogged := update fs.unlogged number none }

def endOp : FsM PUnit :=
  modify fun fs => { fs with
    logged := ∅
    unlogged := fun b => if b ∈ fs.logged then none else fs.unlogged b }

def bufWrite (number : Nat) (contents : Block) : FsM PUnit :=
  modify fun fs => { fs with
    disk := update fs.disk number contents
    unlogged := update fs.unlogged number
      (some ((fs.unlogged number).getD (fs.disk number))) }

/-- Zero a block. -/
def bzero (bno : Nat) : FsM PUnit := do
  let data ← bread bno
  logWrite bno (fill data 0 BSIZE 0)

def balloc (sb : Superblock) : FsM UInt32 := do
  let found ← searchRange 0 ((sb.size + BPB - 1) / BPB) fun group => do
    let b := group * BPB
    let data ← bread (BBLOCK sb b)
    searchRange 0 (min BPB (sb.size - b)) fun bi =>
      if bitSet data bi then pure none
      else do
        logWrite (BBLOCK sb b) (setBit data bi)
        bzero (b + bi)
        pure (some (b + bi))
  pure (UInt32.ofNat (found.getD 0))

/-- Free a disk block. -/
def bfree (sb : Superblock) (b : UInt32) : FsM PUnit := do
  let data ← bread (BBLOCK sb b.toNat)
  let bi := b.toNat % BPB
  if bitSet data bi then logWrite (BBLOCK sb b.toNat) (clearBit data bi)
  else throw .freeingFreeBlock

def iget (inum : Nat) : FsM Nat := do
  let itable := (← get).itable
  match (List.range NINODE).find? fun ip => (itable ip).ref > 0 && (itable ip).inum = inum with
  | some ip =>
    setInode ip fun inode => { inode with ref := inode.ref + 1 }
    pure ip
  | none =>
    match (List.range NINODE).find? fun ip => (itable ip).ref = 0 with
    | some ip =>
      setInode ip fun inode => { inode with inum := inum, ref := 1, valid := false }
      pure ip
    | none => throw .igetNoInodes

def ialloc (sb : Superblock) (type : Int16) : FsM (Option Nat) :=
  searchRange 1 (sb.ninodes - 1) fun inum => do
    let data ← bread (IBLOCK sb inum)
    if (loadDinode data (inum % IPB)).type = 0 then
      logWrite (IBLOCK sb inum)
        (storeDinode data (inum % IPB) { Dinode.zero with type := type })
      pure (some (← iget inum))
    else pure none

def iupdate (sb : Superblock) (ip : Nat) : FsM PUnit := do
  let inode ← inode ip
  let data ← bread (IBLOCK sb inode.inum)
  logWrite (IBLOCK sb inode.inum) (storeDinode data (inode.inum % IPB) inode.d)

def idup (ip : Nat) : FsM Nat := do
  setInode ip fun inode => { inode with ref := inode.ref + 1 }
  pure ip

def ilock (sb : Superblock) (ip : Nat) : FsM PUnit := do
  let entry ← inode ip
  if entry.ref < 1 then throw .ilock
  else if entry.valid then pure ⟨⟩
  else
    let data ← bread (IBLOCK sb entry.inum)
    let d := loadDinode data (entry.inum % IPB)
    setInode ip fun inode => { inode with d := d, valid := true }
    if d.type = 0 then throw .ilockNoType else pure ⟨⟩

def iunlock (ip : Nat) : FsM PUnit := do
  if (← inode ip).ref < 1 then throw .iunlock else pure ⟨⟩

def bmapAddr (sb : Superblock) (ip k : Nat) : FsM UInt32 := do
  let addr := (← inode ip).d.addr k
  if addr ≠ 0 then pure addr
  else
    let addr ← balloc sb
    if addr = 0 then pure 0
    else
      setDinode ip fun d => d.setAddr k addr
      pure addr

def bmapEntry (sb : Superblock) (table : UInt32) (j : Nat) : FsM UInt32 := do
  let addr := loadUint (← bread table.toNat) (4 * j)
  if addr ≠ 0 then pure addr
  else
    let addr ← balloc sb
    if addr = 0 then pure 0
    else
      let data ← bread table.toNat
      logWrite table.toNat (storeUint data (4 * j) addr)
      pure addr

def bmap (sb : Superblock) (ip bn : Nat) : FsM UInt32 := do
  if bn < NDIRECT then bmapAddr sb ip bn
  else if bn - NDIRECT < NINDIRECT then
    let table ← bmapAddr sb ip NDIRECT
    if table = 0 then pure 0 else bmapEntry sb table (bn - NDIRECT)
  else throw .bmapOutOfRange

def itruncDirect (sb : Superblock) (ip : Nat) : FsM PUnit :=
  forRange 0 NDIRECT fun i => do
    let addr := (← inode ip).d.addr i
    if addr ≠ 0 then
      bfree sb addr
      setDinode ip fun d => d.setAddr i 0

def itruncIndirect (sb : Superblock) (ip : Nat) : FsM PUnit := do
  let table := (← inode ip).d.addr NDIRECT
  if table ≠ 0 then
    let data ← bread table.toNat
    forRange 0 NINDIRECT fun j => do
      let addr := loadUint data (4 * j)
      if addr ≠ 0 then bfree sb addr
    bfree sb table
    setDinode ip fun d => d.setAddr NDIRECT 0

def itrunc (sb : Superblock) (ip : Nat) : FsM PUnit := do
  itruncDirect sb ip
  itruncIndirect sb ip
  setDinode ip fun d => { d with size := 0 }
  iupdate sb ip

def ifree (sb : Superblock) (ip : Nat) : FsM PUnit := do
  let found := (← get).disk
  itrunc sb ip
  setDinode ip fun d => { d with type := 0 }
  iupdate sb ip
  setInode ip fun inode => { inode with valid := false }
  modify fun fs => { fs with freedInodes := ((fs.itable ip).inum, found) :: fs.freedInodes }

def iput (sb : Superblock) (ip : Nat) : FsM PUnit := do
  let entry ← inode ip
  if entry.ref = 1 ∧ entry.valid ∧ entry.d.nlink = 0 then ifree sb ip
  setInode ip fun inode => { inode with ref := inode.ref - 1 }

def iunlockput (sb : Superblock) (ip : Nat) : FsM PUnit := do
  iunlock ip
  iput sb ip

structure Destination where
  byte : ByteMap
  writable : Nat

def readRounds (sb : Superblock) (ip writable n : Nat) :
    Nat → Nat → Nat → ByteMap → FsM (Int × ByteMap)
  | 0, tot, _, out => pure (tot, out)
  | rounds + 1, tot, off, out =>
    if tot < n then do
      let addr ← bmap sb ip (off / BSIZE)
      if addr = 0 then pure (tot, out)
      else
        let data ← bread addr.toNat
        let m := min (n - tot) (BSIZE - off % BSIZE)
        if tot + m ≤ writable then
          readRounds sb ip writable n rounds (tot + m) (off + m) (copy out tot data (off % BSIZE) m)
        else pure (-1, copy out tot data (off % BSIZE) (writable - tot))
    else pure (tot, out)

def readi (sb : Superblock) (ip : Nat) (dst : Destination) (off n : UInt32) :
    FsM (Int × ByteMap) := do
  let size := (← inode ip).d.size
  if size < off ∨ off + n < off then pure (0, dst.byte)
  else
    let n := if size < off + n then size - off else n
    readRounds sb ip dst.writable n.toNat n.toNat 0 off.toNat dst.byte

structure Source where
  byte : ByteMap
  readable : Nat

def copyPart (number : Nat) (data : Block) (position : Nat) (src : Source) (tot : Nat) : FsM PUnit :=
  if tot < src.readable then
    bufWrite number (copy data position src.byte tot (src.readable - tot))
  else pure ⟨⟩

/-- The rounds of `writei`. -/
def writeRounds (sb : Superblock) (ip : Nat) (src : Source) (n : Nat) :
    Nat → Nat → Nat → FsM (Nat × Nat)
  | 0, tot, off => pure (tot, off)
  | rounds + 1, tot, off =>
    if tot < n then do
      let addr ← bmap sb ip (off / BSIZE)
      if addr = 0 then pure (tot, off)
      else
        let data ← bread addr.toNat
        let m := min (n - tot) (BSIZE - off % BSIZE)
        if tot + m ≤ src.readable then
          logWrite addr.toNat (copy data (off % BSIZE) src.byte tot m)
          writeRounds sb ip src n rounds (tot + m) (off + m)
        else
          copyPart addr.toNat data (off % BSIZE) src tot
          pure (tot, off)
    else pure (tot, off)

def writei (sb : Superblock) (ip : Nat) (src : Source) (off n : UInt32) : FsM Int := do
  let size := (← inode ip).d.size
  if size < off ∨ off + n < off then pure (-1)
  else if MAXFILE * BSIZE < (off + n).toNat then pure (-1)
  else
    let (tot, reached) ← writeRounds sb ip src n.toNat n.toNat 0 off.toNat
    if size.toNat < reached then setDinode ip fun d => { d with size := UInt32.ofNat reached }
    iupdate sb ip
    pure tot

end Xv6.Fs
