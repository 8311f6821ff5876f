import Xv6.Library.Command
import Xv6.Param

/-!
# The on-disk layout of the file system

The records of `fs.h` as bytes of a block: the bits of the free map, the sixteen inodes of an
inode block, the words of an indirect block and directory entries.
-/

namespace Xv6.Fs

open Command Bytes

abbrev ROOTINO : Nat := 1

abbrev NDIRECT : Nat := 12

abbrev NINDIRECT : Nat := BSIZE / 4

abbrev MAXFILE : Nat := NDIRECT + NINDIRECT

/-- Inodes per block. -/
abbrev IPB : Nat := BSIZE / 64

abbrev BPB : Nat := BSIZE * 8

abbrev DIRSIZ : Nat := 14

abbrev NINODE : Nat := 50

abbrev T_DIR : Int16 := 1

abbrev T_FILE : Int16 := 2

abbrev T_DEVICE : Int16 := 3

/-- Where the regions of the disk lie. -/
structure Superblock where
  size : Nat
  ninodes : Nat
  nlog : Nat
  logstart : Nat
  inodestart : Nat
  bmapstart : Nat
  boot : 2 ≤ logstart
  log : logstart + nlog ≤ inodestart
  inodes : inodestart + ninodes / IPB < bmapstart
  bitmap : bmapstart + size / BPB < size
  counted : size + BPB ≤ 2 ^ 31

def IBLOCK (sb : Superblock) (i : Nat) : Nat := i / IPB + sb.inodestart

def BBLOCK (sb : Superblock) (b : Nat) : Nat := b / BPB + sb.bmapstart

def Superblock.dataStart (sb : Superblock) : Nat := sb.bmapstart + sb.size / BPB + 1

/-- `struct dinode`. -/
structure Dinode where
  type : Int16
  major : Int16
  minor : Int16
  nlink : Int16
  size : UInt32
  addrs : Fin (NDIRECT + 1) → UInt32

def Dinode.addr (d : Dinode) (i : Nat) : UInt32 := d.addrs (Fin.ofNat (NDIRECT + 1) i)

def Dinode.setAddr (d : Dinode) (i : Nat) (address : UInt32) : Dinode :=
  { d with addrs := Function.update d.addrs (Fin.ofNat (NDIRECT + 1) i) address }

def Dinode.zero : Dinode := ⟨0, 0, 0, 0, 0, fun _ => 0⟩

/-- A `short` of a record. -/
def loadShort (block : Block) (offset : Nat) : Int16 :=
  (UInt16.ofNat (load block offset 2)).toInt16

/-- A `uint` of a record. -/
def loadUint (block : Block) (offset : Nat) : UInt32 := UInt32.ofNat (load block offset 4)

def storeShort (block : Block) (offset : Nat) (value : Int16) : Block :=
  store block offset 2 value.toUInt16.toNat

def storeUint (block : Block) (offset : Nat) (value : UInt32) : Block :=
  store block offset 4 value.toNat

def loadDinode (block : Block) (index : Nat) : Dinode where
  type := loadShort block (64 * index)
  major := loadShort block (64 * index + 2)
  minor := loadShort block (64 * index + 4)
  nlink := loadShort block (64 * index + 6)
  size := loadUint block (64 * index + 8)
  addrs := fun i => loadUint block (64 * index + 12 + 4 * i)

def dinodeBytes (d : Dinode) : ByteMap :=
  let type := storeShort (fun _ => 0) 0 d.type
  let major := storeShort type 2 d.major
  let minor := storeShort major 4 d.minor
  let nlink := storeShort minor 6 d.nlink
  let size := storeUint nlink 8 d.size
  storeWords size 12 4 (fun i => (d.addr i).toNat) (NDIRECT + 1)

def storeDinode (block : Block) (index : Nat) (d : Dinode) : Block :=
  copy block (64 * index) (dinodeBytes d) 0 64

def bitMask (bi : Nat) : UInt8 := 1 <<< UInt8.ofNat (bi % 8)

def bitSet (block : Block) (bi : Nat) : Bool := block (bi / 8) &&& bitMask bi != 0

def setBit (block : Block) (bi : Nat) : Block :=
  Function.update block (bi / 8) (block (bi / 8) ||| bitMask bi)

def clearBit (block : Block) (bi : Nat) : Block :=
  Function.update block (bi / 8) (block (bi / 8) &&& ~~~ bitMask bi)

def direntInum (entry : ByteMap) : Nat := load entry 0 2

def direntName (entry : ByteMap) : List UInt8 := (List.range DIRSIZ).map fun i => entry (2 + i)

def strncmp : Nat → List UInt8 → List UInt8 → Int
  | 0, _, _ => 0
  | n + 1, p, q =>
    if p.headD 0 ≠ 0 ∧ p.headD 0 = q.headD 0 then strncmp n p.tail q.tail
    else (p.headD 0).toNat - (q.headD 0).toNat

def namecmp (s t : List UInt8) : Int := strncmp DIRSIZ s t

def strncpy : Nat → List UInt8 → List UInt8
  | 0, _ => []
  | n + 1, t => if t.headD 0 = 0 then List.replicate (n + 1) 0 else t.headD 0 :: strncpy n t.tail

def dirent (name : List UInt8) (inum : Nat) : ByteMap :=
  store (fun i => (strncpy DIRSIZ name).getD (i - 2) 0) 0 2 inum

end Xv6.Fs
