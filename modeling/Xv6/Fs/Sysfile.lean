/-
# Calls that change the tree

`create`, `isdirempty`, `sys_link`, `sys_unlink`, `sys_mkdir` and `sys_mknod` of
`sysfile.c`, and the parts of `sys_open`, `sys_chdir` and `exec` that work on
inodes, as programs over the state of the file system.  `cwd` is the entry of the
inode cache that holds the current directory of the caller.

The arguments are those the calls have fetched from the user; a call whose
arguments cannot be fetched returns -1 at once.
-/

import Xv6.Fs.Path
import Xv6.Fs.Transaction

namespace Xv6.Fs

open Lib

/-- The part of `create` that makes the entries of a new directory `ip` in `dp`. -/
def createDots (dp ip : Slot) : Prog State Unit := do
  setInode dp fun i => { i with nlink := i.nlink + 1 }
  iupdate dp
  if (← dirlink ip dot (← getInode ip).inum) < 0 then Prog.panic "create dots"
  if (← dirlink ip dotdot (← getInode dp).inum) < 0 then Prog.panic "create dots"

/-- The part of `create` that makes a new inode with the name `name` in `dp`. -/
def createNew (dp : Slot) (name : Buf DIRSIZ) (type major minor : Int16) : Prog State Slot := do
  let ip ← ialloc (← getInode dp).dev type
  ilock ip
  setInode ip fun i => { i with major := major, minor := minor, nlink := 1 }
  iupdate ip
  if type = T_DIR then createDots dp ip
  if (← dirlink dp name (← getInode ip).inum) < 0 then Prog.panic "create: dirlink"
  iunlockput dp
  return ip

/-- Create the path `path`, or find it if it is a file and a file is asked for.  The
inode is returned locked. -/
def create (cwd : Slot) (path : List UInt8) (type major minor : Int16) :
    Prog State (Option Slot) := do
  match ← nameiparent cwd path with
  | none => return none
  | some (dp, name) => do
      ilock dp
      match ← dirlookup dp name with
      | some (ip, _) => do
          iunlockput dp
          ilock ip
          if type = T_FILE ∧ (← getInode ip).type = T_FILE then return some ip
          else
            iunlockput ip
            return none
      | none => do
          let ip ← createNew dp name type major minor
          return some ip

/-- The exit `bad` of `sys_link`. -/
def linkBad (ip : Slot) : Prog State ℤ := do
  ilock ip
  setInode ip fun i => { i with nlink := i.nlink - 1 }
  iupdate ip
  iunlockput ip
  return -1

/-- Create the path `new` as a link to the same inode as `old`. -/
def sysLink (cwd : Slot) (old new : List UInt8) : Prog State ℤ := inOp do
  match ← namei cwd old with
  | none => return -1
  | some ip => do
      ilock ip
      if (← getInode ip).type = T_DIR then
        iunlockput ip
        return -1
      else
        setInode ip fun i => { i with nlink := i.nlink + 1 }
        iupdate ip
        iunlock ip
        match ← nameiparent cwd new with
        | none => linkBad ip
        | some (dp, name) => do
            ilock dp
            if (← getInode dp).dev ≠ (← getInode ip).dev then
              iunlockput dp
              linkBad ip
            else if (← dirlink dp name (← getInode ip).inum) < 0 then
              iunlockput dp
              linkBad ip
            else
              iunlockput dp
              iput ip
              return 0

/-- Is the directory `dp` empty except for `.` and `..`? -/
def isdirempty (dp : Slot) : Prog State Bool := do
  let n := direntCount (← getInode dp).size
  let found ← (List.range' 2 (n - 2)).findSomeM? fun j => do
    let de ← readDirent dp (16 * j) "isdirempty: readi"
    return if de.inum ≠ 0 then some () else none
  return found.isNone

/-- `!(ip->type == T_DIR && !isdirempty(ip))` -/
def removable (ip : Slot) : Prog State Bool := do
  if (← getInode ip).type = T_DIR then isdirempty ip
  else return true

/-- Remove the entry at `off` of `dp`, which names `ip`. -/
def unlinkEntry (dp ip : Slot) (off : ℕ) : Prog State ℤ := do
  if (← writei dp Dirent.zero.bytes (UInt32.ofNat off) 16) ≠ 16 then Prog.panic "unlink: writei"
  if (← getInode ip).type = T_DIR then
    setInode dp fun i => { i with nlink := i.nlink - 1 }
    iupdate dp
  iunlockput dp
  setInode ip fun i => { i with nlink := i.nlink - 1 }
  iupdate ip
  iunlockput ip
  return 0

/-- Remove the path `path`. -/
def sysUnlink (cwd : Slot) (path : List UInt8) : Prog State ℤ := inOp do
  match ← nameiparent cwd path with
  | none => return -1
  | some (dp, name) => do
      ilock dp
      if namecmp name dot = 0 ∨ namecmp name dotdot = 0 then
        iunlockput dp
        return -1
      else
        match ← dirlookup dp name with
        | none => do
            iunlockput dp
            return -1
        | some (ip, off) => do
            ilock ip
            if (← getInode ip).nlink < 1 then Prog.panic "unlink: nlink < 1"
            else if !(← removable ip) then
              iunlockput ip
              iunlockput dp
              return -1
            else unlinkEntry dp ip off

/-- Create the directory `path`. -/
def sysMkdir (cwd : Slot) (path : List UInt8) : Prog State ℤ := inOp do
  match ← create cwd path T_DIR 0 0 with
  | none => return -1
  | some ip => do
      iunlockput ip
      return 0

/-- Create the device `path`. -/
def sysMknod (cwd : Slot) (path : List UInt8) (major minor : Int32) : Prog State ℤ := inOp do
  match ← create cwd path T_DEV major.toInt16 minor.toInt16 with
  | none => return -1
  | some ip => do
      iunlockput ip
      return 0

/-- The inode that `sys_open` opens, locked. -/
def openInode (cwd : Slot) (path : List UInt8) (omode : UInt32) : Prog State (Option Slot) := do
  if omode &&& O_CREATE ≠ 0 then create cwd path T_FILE 0 0
  else
    match ← namei cwd path with
    | none => return none
    | some ip => do
        ilock ip
        if (← getInode ip).type = T_DIR ∧ omode ≠ O_RDONLY then
          iunlockput ip
          return none
        else return some ip

/-- The new current directory of `sys_chdir`; the old one is released. -/
def chdirInode (cwd : Slot) (path : List UInt8) : Prog State (Option Slot) := inOp do
  match ← namei cwd path with
  | none => return none
  | some ip => do
      ilock ip
      if (← getInode ip).type ≠ T_DIR then
        iunlockput ip
        return none
      else
        iunlock ip
        iput cwd
        return some ip

/-- What `exec` does with the file `path`: it reads the pieces `reads`, which its
headers determine, up to the point where something is wrong.  The result says
whether there is such a file. -/
def execInode (cwd : Slot) (path : List UInt8) (reads : List (UInt32 × UInt32)) :
    Prog State Bool := inOp do
  match ← namei cwd path with
  | none => return false
  | some ip => do
      ilock ip
      forM reads fun (off, n) => do
        let _ ← readi ip off n
      iunlockput ip
      return true

end Xv6.Fs
