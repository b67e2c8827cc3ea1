/-
# Sizes and limits

The constants of `param.h`, `fs.h`, `stat.h` and `fcntl.h` that the file system
and the log read.  `IPB` and `NINDIRECT` are written out: a `struct dinode` has 64
bytes and a `uint` has 4.
-/

import Xv6.Lib.Bytes

namespace Xv6

/-- Most processes. -/
@[simp] abbrev NPROC : ℕ := 64

/-- Open files per process. -/
@[simp] abbrev NOFILE : ℕ := 16

/-- Open files per system. -/
@[simp] abbrev NFILE : ℕ := 100

/-- Block size in bytes. -/
@[simp] abbrev BSIZE : ℕ := 512

/-- Most blocks any file-system operation writes. -/
@[simp] abbrev MAXOPBLOCKS : ℕ := 10

/-- Most data blocks in the on-disk log, `MAXOPBLOCKS*3`. -/
@[simp] abbrev LOGSIZE : ℕ := 30

/-- Size of the disk block cache, `MAXOPBLOCKS*3`. -/
@[simp] abbrev NBUF : ℕ := 30

/-- Size of the file system in blocks. -/
@[simp] abbrev FSSIZE : ℕ := 20000

/-- Inodes the kernel caches. -/
@[simp] abbrev NINODE : ℕ := 50

/-- Entries of the device switch. -/
@[simp] abbrev NDEV : ℕ := 10

/-- Device of the root file system. -/
@[simp] abbrev ROOTDEV : UInt32 := 1

/-- Inode of the root directory. -/
@[simp] abbrev ROOTINO : UInt32 := 1

/-- Direct block addresses of an inode. -/
@[simp] abbrev NDIRECT : ℕ := 12

/-- Block addresses in an indirect block, `BSIZE / sizeof(uint)`. -/
@[simp] abbrev NINDIRECT : ℕ := 128

/-- Most blocks of a file, `NDIRECT + NINDIRECT`. -/
@[simp] abbrev MAXFILE : ℕ := 140

/-- Inodes per block, `BSIZE / sizeof(struct dinode)`. -/
@[simp] abbrev IPB : ℕ := 8

/-- Bitmap bits per block, `BSIZE*8`. -/
@[simp] abbrev BPB : ℕ := 4096

/-- Bytes of a name in a directory entry. -/
@[simp] abbrev DIRSIZ : ℕ := 14

/-- The modes of `open`. -/
@[simp] abbrev O_RDONLY : UInt32 := 0x000

@[inherit_doc O_RDONLY, simp] abbrev O_WRONLY : UInt32 := 0x001

@[inherit_doc O_RDONLY, simp] abbrev O_RDWR : UInt32 := 0x002

@[inherit_doc O_RDONLY, simp] abbrev O_CREATE : UInt32 := 0x200

instance : NeZero NPROC := ⟨by decide⟩

instance : NeZero NINODE := ⟨by decide⟩

instance : NeZero NBUF := ⟨by decide⟩

theorem ninode_pos : 0 < NINODE := by decide

/-- One disk block. -/
abbrev Block := Lib.Buf BSIZE

/-- The contents of a disk, block by block. -/
abbrev Disk := ℕ → Block

end Xv6
