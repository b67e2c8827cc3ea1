/-
# Blocks, inodes and their contents

`fs.c` from `readsb` to `writei`, as programs (`Lib.Prog`) over the state of
the file system: the blocks of the disk, the superblock read by `iinit`, the
inode cache and the device switch.

The buffer cache and the log are taken as a plain block store: `bread` reads
the current contents of a block and `log_write` stores them.  The block numbers
passed to `log_write` since `begin_op` are kept in `logged`, so that the log's
own limits can be checked where the operation ends (`inOp`); the lines written
with `cprintf` are kept in `console`.  There is one device, so `bread` has no
`dev` argument.  The locks of the inodes are part of the state: a caller that
waits for a lock it holds itself sleeps for ever.
-/

import Xv6.Fs.Format
import Xv6.Lib.Prog
import Xv6.Log.Ops

namespace Xv6.Fs

open Function Lib UInt32

/-- `struct inode`, the copy of an inode in memory. -/
structure Inode extends Dinode where
  dev : UInt32
  inum : UInt32
  ref : ℤ
  locked : Bool
  valid : Bool

/-- `struct devsw`: the driver's functions, if it has them.  `read n` gives the
result and the bytes stored, `write src n` the result. -/
structure Devsw where
  read : Option (ℤ → ℤ × List UInt8)
  write : Option ((ℕ → UInt8) → ℤ → ℤ)

/-- An entry of the inode cache. -/
abbrev Slot := Fin NINODE

/-- The state of the file system. -/
structure State where
  disk : Disk
  sb : Superblock
  icache : Slot → Inode
  devsw : Fin NDEV → Devsw
  logged : List UInt32
  console : List String

/-- A value of type `uint` taken as an `int`. -/
def toInt (n : UInt32) : ℤ := n.toInt32.toInt

/-! ### Blocks -/

/-- The contents of block `b`. -/
def bread (b : UInt32) : Prog State Block := do
  return (← get).disk b.toNat

/-- The state with `blk` stored in block `b` through the log. -/
def State.store (s : State) (b : UInt32) (blk : Block) : State :=
  { s with disk := update s.disk b.toNat blk, logged := s.logged ++ [b] }

section Store

variable (s : State) (b : UInt32) (blk : Block)

@[simp] theorem store_disk : (s.store b blk).disk = update s.disk b.toNat blk := rfl

@[simp] theorem store_sb : (s.store b blk).sb = s.sb := rfl

@[simp] theorem store_logged : (s.store b blk).logged = s.logged ++ [b] := rfl

end Store

/-- `log_write` of the buffer of block `b`, which holds `blk`. -/
def logWrite (b : UInt32) (blk : Block) : Prog State Unit := modify (·.store b blk)

/-- Print a line. -/
def cprintf (msg : String) : Prog State Unit :=
  modify fun s => { s with console := s.console ++ [msg] }

/-- Read the super block. -/
def readsb : Prog State Superblock := do
  return Superblock.ofBlock (← bread 1)

/-- The inner loop of `balloc`: the first clear bit of a group's bitmap. -/
def firstFree (bp : Block) (bpg : UInt32) : Option ℕ :=
  (List.range (min BPB bpg.toNat)).find? fun bi => !bp.bit bi

/-- The body of the loop of `balloc` over the groups. -/
def ballocGroup (sb : Superblock) (g : ℕ) : Prog State (Option UInt32) := do
  let groupStart := sb.logstart + sb.nlog + ofNat g * sb.bpg
  let bmapBlock := groupStart + sb.ipg / 8
  let bp ← bread bmapBlock
  match firstFree bp sb.bpg with
  | none => return none
  | some bi => do
      logWrite bmapBlock (bp.setBit bi)
      let absBlock := groupStart + ofNat bi
      logWrite absBlock Buf.zero
      return some absBlock

/-- Allocate a zeroed disk block; `0` when there is none. -/
def balloc : Prog State UInt32 := do
  let sb ← readsb
  match ← (List.range sb.ngroups.toNat).findSomeM? (ballocGroup sb) with
  | some absBlock => return absBlock
  | none => do
      cprintf "balloc: out of blocks"
      return 0

/-- Free a disk block. -/
def bfree (b : UInt32) : Prog State Unit := do
  let sb ← readsb
  let globalStart := sb.logstart + sb.nlog
  let bp ← bread (BBLOCK b sb)
  let bi := ((b - globalStart) % sb.bpg).toNat
  if bp.bit bi then logWrite (BBLOCK b sb) (bp.clearBit bi)
  else Prog.panic "freeing free block"

/-! ### Inodes -/

/-- The state with entry `k` of the inode cache changed. -/
def State.setInode (s : State) (k : Slot) (f : Inode → Inode) : State :=
  { s with icache := update s.icache k (f (s.icache k)) }

/-- Change entry `k` of the inode cache. -/
def setInode (k : Slot) (f : Inode → Inode) : Prog State Unit := modify (·.setInode k f)

/-- Entry `k` of the inode cache. -/
def getInode (k : Slot) : Prog State Inode := do
  return (← get).icache k

/-- The entries of the inode cache in the order of the scans. -/
def slots : List Slot := List.finRange NINODE

/-- Find the inode with number `inum` and return the in-memory copy. -/
def iget (dev inum : UInt32) : Prog State Slot := do
  let s ← get
  match slots.find? fun k =>
      0 < (s.icache k).ref ∧ (s.icache k).dev = dev ∧ (s.icache k).inum = inum with
  | some k => do
      setInode k fun ip => { ip with ref := ip.ref + 1 }
      return k
  | none =>
      match slots.find? fun k => (s.icache k).ref = 0 with
      | none => Prog.panic "iget: no inodes"
      | some k => do
          setInode k fun ip => { ip with dev := dev, inum := inum, ref := 1, valid := false }
          return k

/-- Increment the reference count. -/
def idup (k : Slot) : Prog State Slot := do
  setInode k fun ip => { ip with ref := ip.ref + 1 }
  return k

/-- `acquiresleep(&ip->lock)`. -/
def acquiresleep (k : Slot) : Prog State Unit := do
  if (← getInode k).locked then Prog.sleep
  else setInode k fun ip => { ip with locked := true }

/-- `releasesleep(&ip->lock)`. -/
def releasesleep (k : Slot) : Prog State Unit := setInode k fun ip => { ip with locked := false }

/-- The inode numbered `i` on the disk. -/
def State.dinode (s : State) (i : UInt32) : Dinode :=
  getDinode (s.disk (IBLOCK i s.sb).toNat) (i.toNat % IPB)

/-- Store inode `i` on the disk. -/
def storeDinode (i : UInt32) (d : Dinode) : Prog State Unit := do
  let sb := (← get).sb
  let bp ← bread (IBLOCK i sb)
  logWrite (IBLOCK i sb) (putDinode bp (i.toNat % IPB) d)

/-- Allocate an inode with type `type`. -/
def ialloc (dev : UInt32) (type : Int16) : Prog State Slot := do
  let s ← get
  match (List.range' 1 (s.sb.ninodes.toNat - 1)).find? fun inum =>
      (s.dinode (ofNat inum)).type = 0 with
  | some inum => do
      storeDinode (ofNat inum) { Dinode.zero with type := type }
      iget dev (ofNat inum)
  | none => Prog.panic "ialloc: no inodes"

/-- Copy a modified in-memory inode to disk. -/
def iupdate (k : Slot) : Prog State Unit := do
  let ip ← getInode k
  storeDinode ip.inum ip.toDinode

/-- Lock the inode, reading it from disk if necessary. -/
def ilock (k : Slot) : Prog State Unit := do
  if (← getInode k).ref < 1 then Prog.panic "ilock"
  acquiresleep k
  if !(← getInode k).valid then
    let dip := (← get).dinode (← getInode k).inum
    setInode k fun ip => { ip with toDinode := dip, valid := true }
    if dip.type = 0 then Prog.panic "ilock: no type"

/-- Unlock the inode. -/
def iunlock (k : Slot) : Prog State Unit := do
  let ip ← getInode k
  if !ip.locked ∨ ip.ref < 1 then Prog.panic "iunlock"
  releasesleep k

/-- Set a block address of the inode in memory. -/
def Inode.setAddr (ip : Inode) (i : Fin (NDIRECT + 1)) (a : UInt32) : Inode :=
  { ip with toDinode := ip.toDinode.setAddr i a }

/-- `if(ip->addrs[i]){ bfree(ip->dev, ip->addrs[i]); ip->addrs[i] = 0; }` -/
def freeAddr (k : Slot) (i : Fin (NDIRECT + 1)) : Prog State Unit := do
  let a := (← getInode k).addrs i
  if a ≠ 0 then
    bfree a
    setInode k (·.setAddr i 0)

/-- Truncate inode (discard contents). -/
def itrunc (k : Slot) : Prog State Unit := do
  forM (List.finRange NDIRECT) fun i => freeAddr k i.castSucc
  let ind := (← getInode k).addrs (Fin.last NDIRECT)
  if ind ≠ 0 then
    let bp ← bread ind
    forM (List.range NINDIRECT) fun j => do
      if bp.getU32 (4 * j) ≠ 0 then bfree (bp.getU32 (4 * j))
    freeAddr k (Fin.last NDIRECT)
  setInode k fun ip => { ip with size := 0 }
  iupdate k

/-- Drop a reference to an in-memory inode, freeing the inode if it was the last
reference and there are no links. -/
def iput (k : Slot) : Prog State Unit := do
  acquiresleep k
  let ip ← getInode k
  if ip.valid ∧ ip.nlink = 0 ∧ ip.ref = 1 then
    itrunc k
    setInode k fun ip => { ip with type := 0 }
    iupdate k
    setInode k fun ip => { ip with valid := false }
  releasesleep k
  setInode k fun ip => { ip with ref := ip.ref - 1 }

/-- Common idiom: unlock, then put. -/
def iunlockput (k : Slot) : Prog State Unit := do
  iunlock k
  iput k

/-! ### Inode content -/

/-- `if((addr = ip->addrs[i]) == 0) ip->addrs[i] = addr = balloc(ip->dev);` -/
def addrOrAlloc (k : Slot) (i : Fin (NDIRECT + 1)) : Prog State UInt32 := do
  let addr := (← getInode k).addrs i
  if addr = 0 then
    let addr ← balloc
    setInode k (·.setAddr i addr)
    return addr
  else return addr

/-- `if((addr = a[bn]) == 0){ a[bn] = addr = balloc(ip->dev); log_write(bp); }` for
the indirect block `ind`. -/
def entryOrAlloc (ind : UInt32) (bn : ℕ) : Prog State UInt32 := do
  let addr := (← bread ind).getU32 (4 * bn)
  if addr = 0 then
    let addr ← balloc
    logWrite ind ((← bread ind).putU32 (4 * bn) addr)
    return addr
  else return addr

/-- The disk block address of block `bn` of the inode, allocated if there is
none; `0` if that fails or `bn` is out of range. -/
def bmap (k : Slot) (bn : ℕ) : Prog State UInt32 := do
  if h : bn < NDIRECT then addrOrAlloc k ⟨bn, by omega⟩
  else
    let bn := bn - NDIRECT
    if bn < NINDIRECT then
      let ind ← addrOrAlloc k (Fin.last NDIRECT)
      entryOrAlloc ind bn
    else
      cprintf "balloc: out of blocks\n"
      return 0

/-- The bytes copied by one round of the loops of `readi` and `writei`. -/
def chunk (n tot off : ℕ) : ℕ := min (n - tot) (BSIZE - off % BSIZE)

theorem chunk_pos {n tot : ℕ} (off : ℕ) (h : tot < n) : 0 < chunk n tot off := by
  have := Nat.mod_lt off (show 0 < BSIZE by decide)
  unfold chunk
  omega

/-- The loop of `readi`: the bytes it copies. -/
def readLoop (k : Slot) (n tot off : ℕ) : Prog State (List UInt8) := do
  if tot < n then
    let bp ← bread (← bmap k (off / BSIZE))
    let m := chunk n tot off
    let rest ← readLoop k n (tot + m) (off + m)
    return (List.range m).map (fun i => bp.byte (off % BSIZE + i)) ++ rest
  else return []
termination_by n - tot
decreasing_by have := chunk_pos off ‹tot < n›; omega

/-- Read data from the inode: the result and the bytes stored at `dst`. -/
def readi (k : Slot) (off n : UInt32) : Prog State (ℤ × List UInt8) := do
  let s ← get
  let ip := s.icache k
  if ip.type = T_DEV then
    if h : 0 ≤ ip.major.toInt ∧ ip.major.toInt.toNat < NDEV then
      match (s.devsw ⟨_, h.2⟩).read with
      | some read => return read (toInt n)
      | none => return (-1, [])
    else return (-1, [])
  else if ip.size < off ∨ off + n < off then return (-1, [])
  else
    let n := if ip.size < off + n then ip.size - off else n
    let bytes ← readLoop k n.toNat 0 off.toNat
    return (toInt n, bytes)

/-- The loop of `writei`: the offset it stops at. -/
def writeLoop (k : Slot) (src : ℕ → UInt8) (n tot off : ℕ) : Prog State ℕ := do
  if tot < n then
    let addr ← bmap k (off / BSIZE)
    if addr = 0 then return off
    else
      let bp ← bread addr
      let m := chunk n tot off
      logWrite addr (bp.overlay (off % BSIZE) m fun i => src (tot + i))
      writeLoop k src n (tot + m) (off + m)
  else return off
termination_by n - tot
decreasing_by have := chunk_pos off ‹tot < n›; omega

/-- Write data to the inode. -/
def writei (k : Slot) (src : ℕ → UInt8) (off n : UInt32) : Prog State ℤ := do
  let s ← get
  let ip := s.icache k
  if ip.type = T_DEV then
    if h : 0 ≤ ip.major.toInt ∧ ip.major.toInt.toNat < NDEV then
      match (s.devsw ⟨_, h.2⟩).write with
      | some write => return write src (toInt n)
      | none => return -1
    else return -1
  else if ip.size < off ∨ off + n < off then return -1
  else if ofNat (MAXFILE * BSIZE) < off + n then return -1
  else
    let off' ← writeLoop k src n.toNat 0 off.toNat
    if 0 < n ∧ (← getInode k).size.toNat < off' then
      setInode k fun ip => { ip with size := ofNat off' }
      iupdate k
    return toInt n

end Xv6.Fs
