/-
# The system calls on files

The calls of `sysfile.c` by any number of processes, and the parts of `fork`,
`exit`, `wait` and `exec` that concern files and current directories, as programs
over the file system, the file table and the processes.  Every call runs to its end
before the next begins.

Pipes are left out here, so no entry of the table is ever an end of a pipe; what
becomes of the table and of the pipes when the calls overlap is the subject of
`File.Table`.
-/

import Xv6.File.Table
import Xv6.Fs.Sysfile

namespace Xv6.Sys

open Function Lib
open Ftable (Slot Fd Entry Life filealloc fdalloc argfd)

/-- What a process has of the files. -/
structure Proc where
  life : Life
  cwd : Fs.Slot
  ofile : Fd → Option Entry

/-- The file system, the file table and the processes. -/
structure State where
  fs : Fs.State
  file : Entry → Ftable.File
  proc : Slot → Proc

section Programs

variable {α : Type}

/-- A program of the file system. -/
def onFs (m : Prog Fs.State α) : Prog State α := fun s =>
  match m s.fs with
  | .ok (a, fs) => .ok (a, { s with fs := fs })
  | .error e => .error e

/-- Replace the entry of process `p`. -/
def setProc (p : Slot) (f : Proc → Proc) : Prog State Unit :=
  modify fun s => { s with proc := update s.proc p (f (s.proc p)) }

/-- Replace the file table. -/
def setFile (t : Entry → Ftable.File) : Prog State Unit := modify fun s => { s with file := t }

/-- The result of a function that can panic. -/
def orPanic : Except String α → Prog State α
  | .ok a => pure a
  | .error msg => Prog.panic msg

/-- `begin_op(); m; end_op();` -/
def inOp (m : Prog State α) : Prog State α := do
  let s ← get
  let a ← m
  match Fs.replay (Fs.opLog s.fs.sb) ((← get).fs.logged.drop s.fs.logged.length) with
  | .ok _ => return a
  | .error msg => Prog.panic msg

end Programs

/-- Increment the count of file `f`. -/
def filedup (f : Entry) : Prog State Unit := do
  setFile (← orPanic (Ftable.filedup (← get).file f))

/-- Close file `f`. -/
def fileclose (f : Entry) : Prog State Unit := do
  let (ff, t) ← orPanic (Ftable.fileclose (← get).file f)
  setFile t
  match ff with
  | none => return
  | some ff =>
      match ff.type with
      | .inode => onFs (Fs.inOp (Fs.iput ff.ip))
      | _ => return

/-- The file as `fileread` and `filewrite` see it; `pipe` is the pipe it is an end of. -/
def openFile (pipe : Fs.Pipe) (f : Ftable.File) : Fs.File :=
  ⟨f.type, f.ref, f.readable, f.writable, pipe, f.ip, f.off⟩

/-- Set the offset of file `f`. -/
def setOff (f : Entry) (off : UInt32) : Prog State Unit := do
  let t := (← get).file
  setFile (update t f { t f with off := off })

/-- `sys_dup` -/
def sysDup (p : Slot) (fd : ℤ) : Prog State ℤ := do
  let o := ((← get).proc p).ofile
  match argfd o fd with
  | none => return -1
  | some (_, f) =>
      match fdalloc o f with
      | none => return -1
      | some (fd', o') => do
          setProc p ({ · with ofile := o' })
          filedup f
          return fd'

/-- `sys_read` -/
def sysRead (p : Slot) (fd n : ℤ) (pipe : Fs.Pipe) : Prog State ℤ := do
  let s ← get
  match argfd (s.proc p).ofile fd with
  | none => return -1
  | some (_, f) => do
      let (r, _, f') ← onFs (Fs.fileread (openFile pipe (s.file f)) n)
      setOff f f'.off
      return r

/-- `sys_write` -/
def sysWrite (p : Slot) (fd : ℤ) (addr : ℕ → UInt8) (n : ℤ) (pipe : Fs.Pipe) : Prog State ℤ := do
  let s ← get
  match argfd (s.proc p).ofile fd with
  | none => return -1
  | some (_, f) => do
      let (r, f') ← onFs (Fs.filewrite (openFile pipe (s.file f)) addr n)
      setOff f f'.off
      return r

/-- `sys_close` -/
def sysClose (p : Slot) (fd : ℤ) : Prog State ℤ := do
  let o := ((← get).proc p).ofile
  match argfd o fd with
  | none => return -1
  | some (fd', f) => do
      setProc p ({ · with ofile := update o fd' none })
      fileclose f
      return 0

/-- `filealloc` and `fdalloc` in `sys_open` with the locked inode `ip`: the file and the
descriptor.  If there is none the inode is released. -/
def openFd (p : Slot) (ip : Fs.Slot) : Prog State (Option (Entry × Fd)) := do
  match filealloc (← get).file with
  | none => do
      onFs (Fs.iunlockput ip)
      return none
  | some (f, t) => do
      setFile t
      match fdalloc ((← get).proc p).ofile f with
      | none => do
          fileclose f
          onFs (Fs.iunlockput ip)
          return none
      | some (fd, o) => do
          setProc p ({ · with ofile := o })
          onFs (Fs.iunlock ip)
          return some (f, fd)

/-- The operation of `sys_open`: the inode, the file and the descriptor. -/
def openOp (p : Slot) (path : List UInt8) (omode : UInt32) :
    Prog State (Option (Fs.Slot × Entry × Fd)) := inOp do
  match ← onFs (Fs.openInode ((← get).proc p).cwd path omode) with
  | none => return none
  | some ip => do
      match ← openFd p ip with
      | none => return none
      | some (f, fd) => return some (ip, f, fd)

/-- `sys_open` -/
def sysOpen (p : Slot) (path : List UInt8) (omode : UInt32) : Prog State ℤ := do
  match ← openOp p path omode with
  | none => return -1
  | some (ip, f, fd) => do
      let t := (← get).file
      setFile (update t f { t f with
        type := .inode
        ip := ip
        off := 0
        readable := omode &&& O_WRONLY = 0
        writable := omode &&& O_WRONLY ≠ 0 ∨ omode &&& O_RDWR ≠ 0 })
      return fd

/-- `sys_chdir` -/
def sysChdir (p : Slot) (path : List UInt8) : Prog State ℤ := do
  match ← onFs (Fs.chdirInode ((← get).proc p).cwd path) with
  | none => return -1
  | some ip => do
      setProc p ({ · with cwd := ip })
      return 0

/-- `exec`; `ok` says whether everything else that it needs succeeds. -/
def exec (p : Slot) (path : List UInt8) (reads : List (UInt32 × UInt32)) (ok : Bool) :
    Prog State ℤ := do
  let found ← onFs (Fs.execInode ((← get).proc p).cwd path reads)
  return if found ∧ ok then 0 else -1

/-- The first entry of the process table that is not in use. -/
def allocproc (s : State) : Option Slot :=
  (List.finRange NPROC).find? fun np => (s.proc np).life = .unused

/-- `fork`; `ok` says whether there is memory.  The entry of the child is returned in place
of its `pid`. -/
def fork (p : Slot) (ok : Bool) : Prog State ℤ := do
  let s ← get
  match allocproc s with
  | none => return -1
  | some np =>
      if !ok then return -1
      else
        forM (List.finRange NOFILE) fun fd => do
          match (s.proc p).ofile fd with
          | none => return
          | some f => filedup f
        let cwd ← onFs (Fs.idup (s.proc p).cwd)
        setProc np fun _ => ⟨.live, cwd, (s.proc p).ofile⟩
        return (np.1 : ℤ)

/-- `exit`, up to the point where the process no longer runs. -/
def exit (p : Slot) : Prog State ℤ := do
  if p = 0 then Prog.panic "init exiting"
  else
    forM (List.finRange NOFILE) fun fd => do
      match ((← get).proc p).ofile fd with
      | none => return
      | some f => do
          fileclose f
          setProc p fun P => { P with ofile := update P.ofile fd none }
    onFs (Fs.inOp (Fs.iput ((← get).proc p).cwd))
    setProc p ({ · with life := .zombie })
    return 0

/-- `wait`, which finds that the child `z` has exited and frees its entry. -/
def wait (z : Slot) : Prog State ℤ := do
  if ((← get).proc z).life = .zombie then
    setProc z ({ · with life := .unused })
    return (z.1 : ℤ)
  else return -1

/-- A call with its arguments. -/
inductive Call where
  | «open» (path : List UInt8) (omode : UInt32)
  | close (fd : ℤ)
  | dup (fd : ℤ)
  | read (fd n : ℤ) (pipe : Fs.Pipe)
  | write (fd : ℤ) (addr : ℕ → UInt8) (n : ℤ) (pipe : Fs.Pipe)
  | fork (ok : Bool)
  | exec (path : List UInt8) (reads : List (UInt32 × UInt32)) (ok : Bool)
  | exit
  | wait (z : Slot)
  | chdir (path : List UInt8)
  | mkdir (path : List UInt8)
  | mknod (path : List UInt8) (major minor : Int32)
  | link (old new : List UInt8)
  | unlink (path : List UInt8)

/-- The program of a call by process `p`. -/
def call (p : Slot) : Call → Prog State ℤ
  | .open path omode => sysOpen p path omode
  | .close fd => sysClose p fd
  | .dup fd => sysDup p fd
  | .read fd n pipe => sysRead p fd n pipe
  | .write fd addr n pipe => sysWrite p fd addr n pipe
  | .fork ok => fork p ok
  | .exec path reads ok => exec p path reads ok
  | .exit => exit p
  | .wait z => wait z
  | .chdir path => sysChdir p path
  | .mkdir path => do onFs (Fs.sysMkdir ((← get).proc p).cwd path)
  | .mknod path major minor => do onFs (Fs.sysMknod ((← get).proc p).cwd path major minor)
  | .link old new => do onFs (Fs.sysLink ((← get).proc p).cwd old new)
  | .unlink path => do onFs (Fs.sysUnlink ((← get).proc p).cwd path)

/-- A completed call by a process that exists; an error where the call does not return. -/
def State.step (s : State) (a : Slot × Call) : Option (Except Fail State) :=
  if (s.proc a.1).life = .live then some ((call a.1 a.2 s).map Prod.snd) else none

/-- The inode cache and the file table before they are used. -/
def bootCache : Fs.Slot → Fs.Inode := fun _ =>
  { Fs.Dinode.zero with dev := 0, inum := 0, ref := 0, locked := false, valid := false }

@[inherit_doc bootCache] def bootFile : Entry → Ftable.File := fun _ =>
  ⟨.none, 0, false, false, 0, ⟨0, ninode_pos⟩, 0⟩

/-- The first process as `userinit` makes it: its current directory is `namei("/")`. -/
def boot (disk : Disk) (devsw : Fin NDEV → Fs.Devsw) : Except Fail State := do
  let fs : Fs.State := ⟨disk, Fs.Superblock.ofBlock (disk 1), bootCache, devsw, [], []⟩
  let (cwd, fs) ← Fs.iget ROOTDEV ROOTINO fs
  return {
    fs := fs
    file := bootFile
    proc := fun p => ⟨if p = 0 then .live else .unused, cwd, fun _ => none⟩ }

end Xv6.Sys
