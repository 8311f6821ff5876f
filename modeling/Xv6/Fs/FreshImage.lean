import Xv6.Fs.BlockOwnership
import Xv6.Fs.Images
import Xv6.Fs.OpenFiles

/-!
# A file system with a root directory only

The smallest images that calls can begin with: eight inodes, one block for the free map, the
root directory with its entries `.` and `..` in one block, and a given number of free blocks.
-/

namespace Xv6.Fs

open Bytes

/-- The parts of the image lie one after the other, with at most one free block. -/
theorem fresh_regions (free : Fin 2) : 4 + 8 / IPB < 5 ∧ 5 + (7 + free.val) / BPB < 7 + free.val ∧
    7 + free.val + BPB ≤ 2 ^ 31 := by
  have few := free.isLt
  refine ⟨by decide, ?_, ?_⟩
  · simp only [BPB, BSIZE]
    omega
  · simp only [BPB, BSIZE]
    omega

def freshSuperblock (free : Fin 2) : Superblock :=
  { blankSuperblock with
    size := 7 + free.val
    inodes := (fresh_regions free).1
    bitmap := (fresh_regions free).2.1
    counted := (fresh_regions free).2.2 }

/-- The root directory. -/
def freshRoot : Dinode :=
  { Dinode.zero with
    type := T_DIR
    nlink := 1
    size := 32
    addrs := fun k => if k.val = 0 then 6 else 0 }

/-- Its entries. -/
def freshEntries : Block := copy (copy (fun _ => 0) 0 (dirent [dot] ROOTINO) 0 16)
  16 (dirent [dot, dot] ROOTINO) 0 16

/-- The image: one inode with one block. -/
def freshImage : Image where
  dinode i := if i = ROOTINO then freshRoot else Dinode.zero
  data _ := freshEntries
  limit := 7

def freshState (free : Fin 2) (more : Nat) : State :=
  freshImage.state (freshSuperblock free) [ROOTINO] more

def freshSystem (free : Fin 2) (opened : Nat) : System where
  fs := freshState free opened
  file f := if f < opened then ⟨.FD_INODE, 1, true, false, 0, 0, 0⟩
    else ⟨.FD_NONE, 0, false, false, 0, 0, 0⟩
  proc p := ⟨if p = 0 then some 0 else none, fun fd => if p = 0 ∧ fd < opened then some fd else none⟩

/-- The image is in order with the root directory opened. -/
theorem fresh_inOrder (free : Fin 2) : freshImage.InOrder (freshSuperblock free) [ROOTINO] :=
  match free with
  | 0 => ⟨by decide, by decide, by decide +kernel, by decide +kernel, by decide +kernel, by decide,
      by decide, by decide, by decide +kernel⟩
  | 1 => ⟨by decide, by decide, by decide +kernel, by decide +kernel, by decide +kernel, by decide,
      by decide, by decide, by decide +kernel⟩

/-- Calls may begin here. -/
theorem fresh_stable {free : Fin 2} {more : Nat} :
    Stable (freshSuperblock free) (freshState free more) :=
  (fresh_inOrder free).stable

theorem fresh_idle {free : Fin 2} {opened : Nat} : Idle (freshSystem free opened) := by
  intro f _ unused
  by_cases inUse : f < opened
  · simp [freshSystem, inUse] at unused
  · simp [freshSystem, inUse]

end Xv6.Fs
