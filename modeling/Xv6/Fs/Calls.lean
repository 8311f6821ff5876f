import Xv6.Fs.Directory
import Xv6.Library.Parts

/-!
# File system calls

The system calls of `sysfile.c` that change names, with the open-file table of `file.c` and the
descriptors and current directory of each process.
-/

namespace Xv6.Fs

open Command Function

abbrev NOFILE : Nat := 16

abbrev NFILE : Nat := 100

abbrev NDEV : Int16 := 10

abbrev O_WRONLY : UInt32 := 0x001

abbrev O_RDWR : UInt32 := 0x002

abbrev O_CREATE : UInt32 := 0x200

abbrev O_TRUNC : UInt32 := 0x400

inductive FileType where
  | FD_NONE
  | FD_INODE
  | FD_DEVICE
  deriving DecidableEq, Repr

/-- `struct file`. -/
structure File where
  type : FileType
  ref : Int
  readable : Bool
  writable : Bool
  ip : Nat
  off : UInt32
  major : Int16

/-- The part of `struct proc` that refers to files. -/
structure Process where
  cwd : Option Nat
  ofile : Nat → Option Nat

structure System where
  fs : State
  file : Nat → File
  proc : Nat → Process

abbrev SysM := Cmd System Panic

def onFs {α : Type} (command : FsM α) : SysM α :=
  zoom ⟨System.fs, fun fs system => { system with fs := fs }, fun _ _ => rfl, fun _ => rfl,
    fun _ _ _ => rfl⟩ id command

def inOp {α : Type} (body : SysM α) : SysM α := do
  let value ← body
  onFs endOp
  pure value

def setFile (f : Nat) (change : File → File) : SysM PUnit :=
  modify fun system => { system with file := update system.file f (change (system.file f)) }

def setProcess (p : Nat) (change : Process → Process) : SysM PUnit :=
  modify fun system => { system with proc := update system.proc p (change (system.proc p)) }

def filealloc : SysM (Option Nat) := do
  let file := (← get).file
  match (List.range NFILE).find? fun f => (file f).ref = 0 with
  | some f =>
    setFile f fun file => { file with ref := 1 }
    pure (some f)
  | none => pure none

def fdalloc (p f : Nat) : SysM (Option Nat) := do
  let ofile := ((← get).proc p).ofile
  match (List.range NOFILE).find? fun fd => (ofile fd).isNone with
  | some fd =>
    setProcess p fun proc => { proc with ofile := update proc.ofile fd (some f) }
    pure (some fd)
  | none => pure none

def fileclose (sb : Superblock) (f : Nat) : SysM PUnit := do
  let file := (← get).file f
  if file.ref < 1 then throw .fileclose
  else if file.ref - 1 > 0 then setFile f fun file => { file with ref := file.ref - 1 }
  else
    setFile f fun file => { file with ref := 0, type := .FD_NONE }
    match file.type with
    | .FD_NONE => pure ⟨⟩
    | .FD_INODE | .FD_DEVICE => inOp (onFs (iput sb file.ip))

def myCwd (p : Nat) : SysM Nat := do
  pure (((← get).proc p).cwd.getD 0)

def link (sb : Superblock) (cwd : Nat) (old new : List UInt8) : FsM Int := do
  match ← namei sb cwd old with
  | none => pure (-1)
  | some ip =>
    ilock sb ip
    if (← inode ip).d.type = T_DIR then
      iunlockput sb ip
      pure (-1)
    else
      setDinode ip fun d => { d with nlink := d.nlink + 1 }
      iupdate sb ip
      iunlock ip
      let linked ← do
        match ← nameiparent sb cwd new with
        | none => pure false
        | some (dp, name) =>
          ilock sb dp
          if (← dirlink sb dp name (← inode ip).inum) < 0 then
            iunlockput sb dp
            pure false
          else
            iunlockput sb dp
            iput sb ip
            pure true
      if linked then pure 0
      else
        ilock sb ip
        setDinode ip fun d => { d with nlink := d.nlink - 1 }
        iupdate sb ip
        iunlockput sb ip
        pure (-1)

def isdirempty (sb : Superblock) (dp : Nat) : FsM Bool := do
  let size := (← inode dp).d.size
  let entry ← searchRange 2 (direntCount size - 2) fun index => do
    let entry ← readDirent sb dp index .isdiremptyReadi
    if direntInum entry ≠ 0 then pure (some index) else pure none
  pure entry.isNone

/-- The byte `.`. -/
abbrev dot : UInt8 := 46

def unlink (sb : Superblock) (cwd : Nat) (path : List UInt8) : FsM Int := do
  match ← nameiparent sb cwd path with
  | none => pure (-1)
  | some (dp, name) =>
    ilock sb dp
    if namecmp name [dot] = 0 ∨ namecmp name [dot, dot] = 0 then
      iunlockput sb dp
      pure (-1)
    else
      match ← dirlookup sb dp name with
      | none =>
        iunlockput sb dp
        pure (-1)
      | some (ip, off) =>
        ilock sb ip
        if (← inode ip).d.nlink < 1 then throw .unlinkNlink
        else
          let directory : Bool := (← inode ip).d.type = T_DIR
          let empty ← if directory then isdirempty sb ip else pure true
          if directory ∧ empty = false then
            iunlockput sb ip
            iunlockput sb dp
            pure (-1)
          else
            let written ← writei sb dp ⟨fun _ => 0, 16⟩ (UInt32.ofNat off) 16
            if written ≠ 16 then throw .unlinkWritei
            else
              if directory then
                setDinode dp fun d => { d with nlink := d.nlink - 1 }
                iupdate sb dp
              iunlockput sb dp
              setDinode ip fun d => { d with nlink := d.nlink - 1 }
              iupdate sb ip
              iunlockput sb ip
              pure 0

def create (sb : Superblock) (cwd : Nat) (path : List UInt8) (type major minor : Int16) :
    FsM (Option Nat) := do
  match ← nameiparent sb cwd path with
  | none => pure none
  | some (dp, name) =>
    ilock sb dp
    match ← dirlookup sb dp name with
    | some (ip, _) =>
      iunlockput sb dp
      ilock sb ip
      let found := (← inode ip).d.type
      if type = T_FILE ∧ (found = T_FILE ∨ found = T_DEVICE) then pure (some ip)
      else
        iunlockput sb ip
        pure none
    | none =>
      match ← ialloc sb type with
      | none =>
        iunlockput sb dp
        pure none
      | some ip =>
        ilock sb ip
        setDinode ip fun d => { d with major := major, minor := minor, nlink := 1 }
        iupdate sb ip
        let made ← do
          if type = T_DIR then
            -- No link count for ".": avoid a cyclic reference count.
            if (← dirlink sb ip [dot] (← inode ip).inum) < 0 then pure false
            else if (← dirlink sb ip [dot, dot] (← inode dp).inum) < 0 then pure false
            else pure true
          else pure true
        let entered ← do
          if made = false then pure false
          else if (← dirlink sb dp name (← inode ip).inum) < 0 then pure false
          else pure true
        if entered then
          if type = T_DIR then
            -- for ".."
            setDinode dp fun d => { d with nlink := d.nlink + 1 }
            iupdate sb dp
          iunlockput sb dp
          pure (some ip)
        else
          setDinode ip fun d => { d with nlink := 0 }
          iupdate sb ip
          iunlockput sb ip
          iunlockput sb dp
          pure none

def sysLink (sb : Superblock) (p : Nat) (old new : List UInt8) : SysM Int := inOp do
  onFs (link sb (← myCwd p) old new)

def sysUnlink (sb : Superblock) (p : Nat) (path : List UInt8) : SysM Int := inOp do
  onFs (unlink sb (← myCwd p) path)

def sysMkdir (sb : Superblock) (p : Nat) (path : List UInt8) : SysM Int := inOp do
  match ← onFs (create sb (← myCwd p) path T_DIR 0 0) with
  | none => pure (-1)
  | some ip =>
    onFs (iunlockput sb ip)
    pure 0

def sysMknod (sb : Superblock) (p : Nat) (path : List UInt8) (major minor : Int16) :
    SysM Int := inOp do
  match ← onFs (create sb (← myCwd p) path T_DEVICE major minor) with
  | none => pure (-1)
  | some ip =>
    onFs (iunlockput sb ip)
    pure 0

def openInode (sb : Superblock) (cwd : Nat) (path : List UInt8) (omode : UInt32) :
    FsM (Option Nat) := do
  if omode &&& O_CREATE ≠ 0 then create sb cwd path T_FILE 0 0
  else
    match ← namei sb cwd path with
    | none => pure none
    | some ip =>
      ilock sb ip
      if (← inode ip).d.type = T_DIR ∧ omode ≠ 0 then
        iunlockput sb ip
        pure none
      else pure (some ip)

def sysOpen (sb : Superblock) (p : Nat) (path : List UInt8) (omode : UInt32) : SysM Int := inOp do
  match ← onFs (openInode sb (← myCwd p) path omode) with
  | none => pure (-1)
  | some ip =>
    let d := (← onFs (inode ip)).d
    if d.type = T_DEVICE ∧ (d.major < 0 ∨ NDEV ≤ d.major) then
      onFs (iunlockput sb ip)
      pure (-1)
    else
      match ← filealloc with
      | none =>
        onFs (iunlockput sb ip)
        pure (-1)
      | some f =>
        match ← fdalloc p f with
        | none =>
          fileclose sb f
          onFs (iunlockput sb ip)
          pure (-1)
        | some fd =>
          if d.type = T_DEVICE then
            setFile f fun file => { file with type := .FD_DEVICE, major := d.major }
          else
            setFile f fun file => { file with type := .FD_INODE, off := 0 }
          setFile f fun file => { file with
            ip := ip
            readable := omode &&& O_WRONLY = 0
            writable := omode &&& O_WRONLY ≠ 0 ∨ omode &&& O_RDWR ≠ 0 }
          if omode &&& O_TRUNC ≠ 0 ∧ d.type = T_FILE then onFs (itrunc sb ip)
          onFs (iunlock ip)
          pure fd

end Xv6.Fs
