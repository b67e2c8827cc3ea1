/-
# The file table, descriptors and pipes

`filealloc`, `filedup` and `fileclose` of `file.c`, `pipealloc` and `pipeclose` of
`pipe.c`, `fdalloc`, `sys_dup`, `sys_close`, `sys_pipe` and the end of `sys_open` of
`sysfile.c`, and the loops over the descriptors in `fork` and `exit` of `proc.c`.

Any number of calls are in progress, one a process, and a step is one section under
`ftable.lock` or `p->lock`, or a store that only the calling process can see: its own
descriptors, and files and pages it has just allocated.  `Pc` says where a call is and
holds its local variables; `fileclose` and `pipeclose` return to a `Kont`.

What is left out: the inode calls around `filealloc` in `sys_open` and in `fileclose`
(they do not touch the table), and the part of `fork` before the descriptors.
-/

import Xv6.Fs.File
import Xv6.Proc.Table

namespace Xv6.Ftable

open Function

open Fs (FdType)

/-- A process, a descriptor and an entry of the table. -/
abbrev Slot := Ptable.Slot

@[inherit_doc Slot] abbrev Fd := Fin NOFILE

@[inherit_doc Slot] abbrev Entry := Fin NFILE

/-- `struct file`, with the pipe by its address. -/
structure File where
  type : FdType
  ref : ℕ
  readable : Bool
  writable : Bool
  pipe : ℕ
  ip : Fs.Slot
  off : UInt32

/-- `struct pipe`, without its data. -/
structure Pipe where
  nread : UInt32
  nwrite : UInt32
  readopen : Bool
  writeopen : Bool

/-- `filealloc`: the entry found and the table. -/
def filealloc (t : Entry → File) : Option (Entry × (Entry → File)) :=
  ((List.finRange NFILE).find? fun f => (t f).ref = 0).map fun f =>
    (f, update t f { t f with ref := 1 })

/-- `filedup`. -/
def filedup (t : Entry → File) (f : Entry) : Except String (Entry → File) :=
  if (t f).ref < 1 then .error "filedup"
  else .ok (update t f { t f with ref := (t f).ref + 1 })

/-- The section of `fileclose` under the lock: the table, and the copy `ff` of the entry if this
was the last reference. -/
def fileclose (t : Entry → File) (f : Entry) : Except String (Option File × (Entry → File)) :=
  if (t f).ref < 1 then .error "fileclose"
  else if 0 < (t f).ref - 1 then
    .ok (none, update t f { t f with ref := (t f).ref - 1 })
  else .ok (some (t f), update t f { t f with ref := 0, type := .none })

/-- `fdalloc`: the descriptor and the descriptors of the process. -/
def fdalloc (o : Fd → Option Entry) (f : Entry) : Option (Fd × (Fd → Option Entry)) :=
  ((List.finRange NOFILE).find? fun fd => o fd = none).map fun fd =>
    (fd, update o fd (some f))

/-- Where a `fileclose` returns to. -/
inductive Kont where
  /-- The call returns `r`. -/
  | ret (r : ℤ)
  /-- A failed `sys_pipe` or `pipealloc` has the file `f` left to close. -/
  | pipe (f : Entry)
  /-- The loop of `exit`, at `fd`. -/
  | exit (fd : Fd)
deriving DecidableEq

/-- Where a process is. -/
inductive Pc where
  /-- No call is in progress; the last one returned `r`. -/
  | user (r : ℤ)
  /-- `sys_open` with the inode `ip`, before `filealloc`, before `fdalloc(f)`, and before it sets
  the fields of `f`. -/
  | openAlloc (ip : Fs.Slot) (omode : UInt32)
  | openFd (ip : Fs.Slot) (omode : UInt32) (f : Entry)
  | openSet (ip : Fs.Slot) (omode : UInt32) (f : Entry) (fd : Fd)
  /-- `pipealloc`, before its calls of `filealloc` and before `kalloc`. -/
  | pipeAlloc0
  | pipeAlloc1 (f0 : Entry)
  | pipeKalloc (f0 f1 : Entry)
  /-- `sys_pipe`, before its calls of `fdalloc`. -/
  | pipeFd0 (rf wf : Entry)
  | pipeFd1 (rf wf : Entry) (fd0 : Fd)
  /-- `sys_dup`, before `filedup(f)`. -/
  | dup (f : Entry) (fd : Fd)
  /-- The loop of `fork`, before `filedup` and before the store in `np`. -/
  | forkDup (np : Slot) (fd : ℕ)
  | forkStore (np : Slot) (fd : Fd) (f : Entry)
  /-- The loop of `exit`, and after its `fileclose`. -/
  | exitFd (fd : ℕ)
  | exitStore (fd : Fd)
  /-- Before the section of `fileclose(f)` under the lock, and before its `pipeclose`. -/
  | fileclose (f : Entry) (k : Kont)
  | pipeclose (p : ℕ) (writable : Bool) (k : Kont)
deriving DecidableEq

/-- Whether a process exists. -/
inductive Life where
  | unused
  | embryo
  | live
  | zombie
deriving DecidableEq

/-- What a process has of the files. -/
structure Proc where
  life : Life
  ofile : Fd → Option Entry
  pc : Pc

/-- The processes, the table, and the pages that hold a pipe. -/
structure State where
  proc : Slot → Proc
  file : Entry → File
  page : ℕ → Pipe
  used : ℕ → Bool

/-- A step: a call that begins, the next step of the call in progress, with what `kalloc` gives
it, or a `wait` that frees the entry of an exited process. -/
inductive Act where
  | «open» (p : Slot) (ip : Fs.Slot) (omode : UInt32)
  | pipe (p : Slot)
  | dup (p : Slot) (fd : ℤ)
  | close (p : Slot) (fd : ℤ)
  | fork (p np : Slot)
  | exit (p : Slot)
  | next (p : Slot) (page : Option ℕ)
  | reap (p : Slot)

/-- `argfd`: the descriptor and the file. -/
def argfd (o : Fd → Option Entry) (fd : ℤ) : Option (Fd × Entry) :=
  if h : 0 ≤ fd ∧ fd < NOFILE then
    let fd' : Fd := ⟨fd.toNat, by omega⟩
    (o fd').map fun f => (fd', f)
  else none

/-- Where a process goes when `fileclose` returns. -/
def Kont.resume : Kont → Pc
  | ret r => .user r
  | pipe f => .fileclose f (.ret (-1))
  | exit fd => .exitStore fd

/-- Before any process but init, which has no file open. -/
def State.init : State where
  proc i := ⟨if i = 0 then .live else .unused, fun _ => none, .user 0⟩
  file _ := ⟨.none, 0, false, false, 0, ⟨0, by decide⟩, 0⟩
  page _ := ⟨0, 0, false, false⟩
  used _ := false

namespace State

variable (s : State)

/-- Replace the entry of process `p`. -/
def set (p : Slot) (P : Proc) : State := { s with proc := update s.proc p P }

/-- Process `p` goes to `c`. -/
def goto (p : Slot) (c : Pc) : State := s.set p { s.proc p with pc := c }

/-- The stores of `pipealloc` once the page is allocated. -/
def pipeInit (p : ℕ) (f0 f1 : Entry) : State :=
  let t := update s.file f0 { s.file f0 with
    type := .pipe, readable := true, writable := false, pipe := p }
  { s with
    page := update s.page p ⟨0, 0, true, true⟩
    used := update s.used p true
    file := update t f1 { t f1 with
      type := .pipe, readable := false, writable := true, pipe := p } }

/-- `pipeclose`, without the wakeups. -/
def pipeclose (p : ℕ) (writable : Bool) : State :=
  let q := if writable then { s.page p with writeopen := false }
    else { s.page p with readopen := false }
  { s with
    page := update s.page p q
    used := if q.readopen = false ∧ q.writeopen = false then update s.used p false
      else s.used }

/-- The next step of the call in progress in process `p`.  `fork` returns the entry of the child
here, in place of its `pid`. -/
def next (p : Slot) (page : Option ℕ) : Option (Except String State) :=
  let P := s.proc p
  match P.pc with
  | .user _ => none
  | .openAlloc ip omode =>
      match filealloc s.file with
      | none => some (.ok (s.goto p (.user (-1))))
      | some (f, t) => some (.ok { s.goto p (.openFd ip omode f) with file := t })
  | .openFd ip omode f =>
      match fdalloc P.ofile f with
      | none => some (.ok (s.goto p (.fileclose f (.ret (-1)))))
      | some (fd, o) => some (.ok (s.set p { P with ofile := o, pc := .openSet ip omode f fd }))
  | .openSet ip omode f fd =>
      some (.ok { s.goto p (.user fd) with
        file := update s.file f { s.file f with
          type := .inode
          ip := ip
          off := 0
          readable := omode &&& O_WRONLY = 0
          writable := omode &&& O_WRONLY ≠ 0 ∨ omode &&& O_RDWR ≠ 0 } })
  | .pipeAlloc0 =>
      match filealloc s.file with
      | none => some (.ok (s.goto p (.user (-1))))
      | some (f0, t) => some (.ok { s.goto p (.pipeAlloc1 f0) with file := t })
  | .pipeAlloc1 f0 =>
      match filealloc s.file with
      | none => some (.ok (s.goto p (.fileclose f0 (.ret (-1)))))
      | some (f1, t) => some (.ok { s.goto p (.pipeKalloc f0 f1) with file := t })
  | .pipeKalloc f0 f1 =>
      match page with
      | none => some (.ok (s.goto p (.fileclose f0 (.pipe f1))))
      | some a =>
          -- `kalloc` gives a page that is not in use.
          if s.used a then none else some (.ok ((s.pipeInit a f0 f1).goto p (.pipeFd0 f0 f1)))
  | .pipeFd0 rf wf =>
      match fdalloc P.ofile rf with
      | none => some (.ok (s.goto p (.fileclose rf (.pipe wf))))
      | some (fd0, o) => some (.ok (s.set p { P with ofile := o, pc := .pipeFd1 rf wf fd0 }))
  | .pipeFd1 rf wf fd0 =>
      match fdalloc P.ofile wf with
      | none =>
          some (.ok (s.set p { P with
            ofile := update P.ofile fd0 none
            pc := .fileclose rf (.pipe wf) }))
      | some (_, o) => some (.ok (s.set p { P with ofile := o, pc := .user 0 }))
  | .dup f fd =>
      some ((filedup s.file f).map fun t => { s.goto p (.user fd) with file := t })
  | .forkDup np fd =>
      if h : fd < NOFILE then
        match P.ofile ⟨fd, h⟩ with
        | none => some (.ok (s.goto p (.forkDup np (fd + 1))))
        | some f =>
            some ((filedup s.file f).map fun t =>
              { s.goto p (.forkStore np ⟨fd, h⟩ f) with file := t })
      else
        let s' := s.set np { s.proc np with life := .live }
        some (.ok (s'.goto p (.user np)))
  | .forkStore np fd f =>
      let s' := s.set np { s.proc np with
        ofile := update (s.proc np).ofile fd (some f) }
      some (.ok (s'.goto p (.forkDup np (fd + 1))))
  | .exitFd fd =>
      if h : fd < NOFILE then
        match P.ofile ⟨fd, h⟩ with
        | none => some (.ok (s.goto p (.exitFd (fd + 1))))
        | some f => some (.ok (s.goto p (.fileclose f (.exit ⟨fd, h⟩))))
      else some (.ok (s.set p { P with life := .zombie, pc := .user 0 }))
  | .exitStore fd =>
      some (.ok (s.set p { P with
        ofile := update P.ofile fd none
        pc := .exitFd (fd + 1) }))
  | .fileclose f k =>
      some ((Ftable.fileclose s.file f).map fun (ff, t) =>
        let s' := { s with file := t }
        match ff with
        | none => s'.goto p k.resume
        | some ff =>
            match ff.type with
            | .pipe => s'.goto p (.pipeclose ff.pipe ff.writable k)
            | _ => s'.goto p k.resume)
  | .pipeclose a writable k => some (.ok ((s.pipeclose a writable).goto p k.resume))

/-- The effect of a step: `none` where it cannot be made, an error where the kernel panics. -/
def step : Act → Option (Except String State)
  | .open p ip omode => call p fun _ => s.goto p (.openAlloc ip omode)
  | .pipe p => call p fun _ => s.goto p .pipeAlloc0
  | .dup p fd => call p fun P =>
      match argfd P.ofile fd with
      | none => s.goto p (.user (-1))
      | some (_, f) =>
          match fdalloc P.ofile f with
          | none => s.goto p (.user (-1))
          | some (fd', o) => s.set p { P with ofile := o, pc := .dup f fd' }
  | .close p fd => call p fun P =>
      match argfd P.ofile fd with
      | none => s.goto p (.user (-1))
      | some (fd', f) =>
          s.set p { P with
            ofile := update P.ofile fd' none
            pc := .fileclose f (.ret 0) }
  | .fork p np =>
      if (s.proc np).life = .unused then
        call p fun _ => (s.set np { s.proc np with life := .embryo }).goto p (.forkDup np 0)
      else none
  | .exit p =>
      (call p fun _ => s.goto p (.exitFd 0)).map fun s' =>
        if p = 0 then .error "init exiting" else s'
  | .next p page => s.next p page
  | .reap p =>
      if (s.proc p).life = .zombie then
        some (.ok (s.set p { s.proc p with life := .unused }))
      else none
where
  /-- A call begins in a process that exists and is in no call. -/
  call (p : Slot) (f : Proc → State) : Option (Except String State) :=
    match (s.proc p).life, (s.proc p).pc with
    | .live, .user _ => some (.ok (f (s.proc p)))
    | _, _ => none

end State

end Xv6.Ftable
