/-
# The image `mkfs` writes

`mkfs.c` from `main` to `iappend`: the file system on the disk image, the
allocation pointers `freeinode` and `freeblock`, and the functions that write
inodes, blocks and bitmaps.  `mkfs` stops (`Prog.panic`) where an `assert` fails or
where the image cannot be read.

The bitmaps are written last, by `balloc`: in every group one that marks the
metadata and all blocks below `freeblock` (`groupBitmap`).  `got` keeps what
`alloc_block` has returned; nothing reads it.
-/

import Xv6.Fs.Path

namespace Xv6.Mkfs

open Fs Lib UInt32

/-- The image being written, the allocation pointers, and the blocks that `alloc_block` has returned
so far. -/
structure Image where
  disk : Disk
  freeinode : UInt32
  freeblock : UInt32
  got : List UInt32

/-- Allocate a data block, skipping the metadata between the groups. -/
def allocBlock : Prog Image UInt32 := do
  let b := (← get).freeblock
  let next := b + 1
  let relative := next - ofNat globalStart
  let next := if relative % ofNat BPG = 0 then next + ofNat metaPerGroup else next
  modify fun m => { m with freeblock := next, got := m.got ++ [b] }
  return b

/-- Write a block of the image. -/
def wsect (sec : UInt32) (buf : Block) : Prog Image Unit :=
  modify fun m => { m with disk := Function.update m.disk sec.toNat buf }

/-- Read a block of the image, which has `FSSIZE` blocks. -/
def rsect (sec : UInt32) : Prog Image Block := do
  if sec.toNat < FSSIZE then return (← get).disk sec.toNat
  else Prog.panic "read"

/-- Write inode `inum`. -/
def winode (inum : UInt32) (ip : Dinode) : Prog Image Unit := do
  let bn := IBLOCK inum sb
  let buf ← rsect bn
  wsect bn (putDinode buf (inum.toNat % IPB) ip)

/-- Read inode `inum`. -/
def rinode (inum : UInt32) : Prog Image Dinode := do
  let bn := IBLOCK inum sb
  let buf ← rsect bn
  return getDinode buf (inum.toNat % IPB)

/-- Allocate an inode. -/
def ialloc (type : Int16) : Prog Image UInt32 := do
  let inum := (← get).freeinode
  modify fun m => { m with freeinode := inum + 1 }
  winode inum { Dinode.zero with type := type, nlink := 1, size := 0 }
  return inum

/-- `if(xint(din.addrs[i]) == 0) din.addrs[i] = xint(alloc_block());` -/
def addrOrAlloc (din : Dinode) (i : Fin (NDIRECT + 1)) : Prog Image Dinode := do
  if din.addrs i = 0 then
    let b ← allocBlock
    return din.setAddr i b
  else return din

/-- The block `x` of `iappend` for block `fbn` of the file, allocated if there is none. -/
def iappendBlock (din : Dinode) (fbn : ℕ) : Prog Image (Dinode × UInt32) := do
  if h : fbn < NDIRECT then
    let din ← addrOrAlloc din ⟨fbn, Nat.lt_succ_of_lt h⟩
    return (din, din.addrs ⟨fbn, Nat.lt_succ_of_lt h⟩)
  else
    let din ← addrOrAlloc din (Fin.last NDIRECT)
    let ind := din.addrs (Fin.last NDIRECT)
    let indirect ← rsect ind
    if indirect.getU32 (4 * (fbn - NDIRECT)) = 0 then
      let b ← allocBlock
      wsect ind (indirect.putU32 (4 * (fbn - NDIRECT)) b)
      return (din, b)
    else return (din, indirect.getU32 (4 * (fbn - NDIRECT)))

/-- The loop of `iappend`: `n` bytes at `p` go to offset `off`. -/
def iappendLoop (p : ℕ → UInt8) (n off : ℕ) (din : Dinode) : Prog Image (Dinode × ℕ) := do
  if 0 < n then
    let fbn := off / BSIZE
    if MAXFILE ≤ fbn then Prog.panic "fbn < MAXFILE"
    else
      let (din, x) ← iappendBlock din fbn
      let n1 := min n ((fbn + 1) * BSIZE - off)
      let buf ← rsect x
      wsect x (buf.overlay (off - fbn * BSIZE) n1 p)
      iappendLoop (fun i => p (n1 + i)) (n - n1) (off + n1) din
  else return (din, off)
termination_by n
decreasing_by
  have := Nat.div_add_mod off BSIZE
  have := Nat.mod_lt off (show 0 < BSIZE by decide)
  have : (off / BSIZE + 1) * BSIZE = BSIZE * (off / BSIZE) + BSIZE := by ring
  omega

/-- Append `n` bytes at `p` to inode `inum`. -/
def iappend (inum : UInt32) (p : ℕ → UInt8) (n : ℕ) : Prog Image Unit := do
  let din ← rinode inum
  let (din, off) ← iappendLoop p n din.size.toNat din
  winode inum { din with size := ofNat off }

/-- The bitmap of group `g` when the blocks below `used` are allocated. -/
def groupBitmap (used g : ℕ) : Block :=
  let grpStart := globalStart + g * BPG
  let buf := (List.range metaPerGroup).foldl Buf.setBit Buf.zero
  (List.range' metaPerGroup (BPG - metaPerGroup)).foldl
    (fun buf i => if grpStart + i < used then buf.setBit i else buf) buf

/-- Write the bitmaps. -/
def balloc (used : UInt32) : Prog Image Unit :=
  forM (List.range ngroups) fun g =>
    wsect (ofNat (globalStart + g * BPG + IPG / IPB)) (groupBitmap used.toNat g)

/-- A file to put into the image: its name, and the pieces in which `read` returns its contents. -/
structure Input where
  name : List UInt8
  pieces : List (List UInt8)

/-- The name without a leading `_`. -/
def Input.base (f : Input) : List UInt8 :=
  if f.name.head? = some 95 then f.name.tail else f.name

/-- The contents. -/
def Input.contents (f : Input) : List UInt8 := f.pieces.flatten

/-- The directory entry for `inum` with a name. -/
def dirent (inum : UInt32) (name : List UInt8) : Dirent :=
  ⟨inum.toUInt16, strncpy (fun i => name.getD i 0) DIRSIZ⟩

/-- The body of the loop of `main` over the files. -/
def addFile (rootino : UInt32) (f : Input) : Prog Image Unit := do
  if slash ∈ f.name then Prog.panic "index(argv[i], '/') == 0"
  else
    let inum ← ialloc T_FILE
    iappend rootino (dirent inum f.base).bytes 16
    forM f.pieces fun buf => iappend inum (fun i => buf.getD i 0) buf.length

/-- Before anything is written. -/
def Image.init : Image := 
  ⟨fun _ => Buf.zero, 1, ofNat (globalStart + metaPerGroup), []⟩

/-- `main`, from the zeroed image on. -/
def main (files : List Input) : Prog Image Unit := do
  wsect 1 sb.toBlock
  let rootino ← ialloc T_DIR
  if rootino ≠ ROOTINO then Prog.panic "rootino == ROOTINO"
  else
    iappend rootino (Dirent.bytes ⟨rootino.toUInt16, dot⟩) 16
    iappend rootino (Dirent.bytes ⟨rootino.toUInt16, dotdot⟩) 16
    forM files (addFile rootino)
    let din ← rinode rootino
    winode rootino { din with size := ofNat ((din.size.toNat / BSIZE + 1) * BSIZE) }
    balloc (← get).freeblock

end Xv6.Mkfs
