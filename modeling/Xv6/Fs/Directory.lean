import Xv6.Fs.Inode

/-!
# Directories and path names

The procedures of `fs.c` from directories up.
-/

namespace Xv6.Fs

open Command Bytes

def direntCount (size : UInt32) : Nat := (size.toNat + 15) / 16

def readDirent (sb : Superblock) (dp index : Nat) (short : Panic) : FsM ByteMap := do
  let (count, entry) ← readi sb dp ⟨fun _ => 0, 16⟩ (UInt32.ofNat (16 * index)) 16
  if count ≠ 16 then throw short else pure entry

def dirlookup (sb : Superblock) (dp : Nat) (name : List UInt8) : FsM (Option (Nat × Nat)) := do
  let d := (← inode dp).d
  if d.type ≠ T_DIR then throw .dirlookupNotDir
  else
    searchRange 0 (direntCount d.size) fun index => do
      let entry ← readDirent sb dp index .dirlookupRead
      if direntInum entry = 0 then pure none
      else if namecmp name (direntName entry) = 0 then
        pure (some (← iget (direntInum entry), 16 * index))
      else pure none

def dirlink (sb : Superblock) (dp : Nat) (name : List UInt8) (inum : Nat) : FsM Int := do
  match ← dirlookup sb dp name with
  | some (ip, _) =>
    iput sb ip
    pure (-1)
  | none =>
    let count := direntCount (← inode dp).d.size
    let place ← searchRange 0 count fun index => do
      let entry ← readDirent sb dp index .dirlinkRead
      if direntInum entry = 0 then pure (some index) else pure none
    let off := UInt32.ofNat (16 * place.getD count)
    let written ← writei sb dp ⟨dirent name inum, 16⟩ off 16
    if written ≠ 16 then pure (-1) else pure 0

/-- The byte `/`. -/
abbrev slash : UInt8 := 47

def skipelem (path : List UInt8) : Option (List UInt8 × List UInt8) :=
  match path.dropWhile (· = slash) with
  | [] => none
  | start =>
    some ((start.takeWhile (· ≠ slash)).take DIRSIZ,
      (start.dropWhile (· ≠ slash)).dropWhile (· = slash))

def namexRounds (sb : Superblock) (nameiparent : Bool) :
    Nat → Nat → List UInt8 → List UInt8 → FsM (Option (Nat × List UInt8))
  | 0, _, _, _ => pure none
  | rounds + 1, ip, path, last =>
    match skipelem path with
    | none =>
      if nameiparent then do
        iput sb ip
        pure none
      else pure (some (ip, last))
    | some (name, rest) => do
      ilock sb ip
      if (← inode ip).d.type ≠ T_DIR then
        iunlockput sb ip
        pure none
      else if nameiparent ∧ rest = [] then
        iunlock ip
        pure (some (ip, name))
      else
        match ← dirlookup sb ip name with
        | none =>
          iunlockput sb ip
          pure none
        | some (next, _) =>
          iunlockput sb ip
          namexRounds sb nameiparent rounds next rest name

def namex (sb : Superblock) (cwd : Nat) (path : List UInt8) (nameiparent : Bool) :
    FsM (Option (Nat × List UInt8)) := do
  let ip ← if path.head? = some slash then iget ROOTINO else idup cwd
  namexRounds sb nameiparent (path.length + 1) ip path []

def namei (sb : Superblock) (cwd : Nat) (path : List UInt8) : FsM (Option Nat) := do
  pure ((← namex sb cwd path false).map Prod.fst)

def nameiparent (sb : Superblock) (cwd : Nat) (path : List UInt8) :
    FsM (Option (Nat × List UInt8)) :=
  namex sb cwd path true

end Xv6.Fs
