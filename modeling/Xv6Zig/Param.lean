/-
Xv6Zig/Param.lean

The constants the modelled sources share: `kernel/param.h` (and its copy
`common/param.zig`), page size and address limits of `kernel/riscv.h` and
`kernel/memlayout.h`, the ring-buffer sizes of `common/ringbuf.zig`, the
file-system geometry of `kernel/fs.h` and the superblock
`build/MakeFilesystemStep.zig` writes into the image.
-/
import Mathlib.Algebra.Group.Nat.Defs
import Mathlib.Data.Nat.Basic

namespace Xv6Zig

/-! ### `common/ringbuf.zig` and `kernel/riscv.h` -/

/-- `PGSIZE`: bytes per page. -/
def pgSize : ℕ := 4096

theorem pgSize_pos : 0 < pgSize := Nat.succ_pos 4095

/-- `RINGBUF_SIZE`: pages of one ring buffer. -/
def ringbufSize : ℕ := 16

/-- `BUF_CAPACITY`: bytes of one ring buffer. -/
def bufCapacity : ℕ := ringbufSize * pgSize

/-- `MAX_NAME_LEN`: bytes of a ring buffer's name, its terminator included. -/
def maxNameLen : ℕ := 16

/-- `MAX_RINGBUFS`: ring buffers in the system. -/
def maxRingbufs : ℕ := 10

/-- `MAXVA`: one beyond the highest possible virtual address. -/
def maxVA : ℕ := 2 ^ 38

/-! ### `kernel/memlayout.h` -/

/-- `PHYSTOP`: end of physical memory. -/
def physTop : ℕ := 0x80000000 + 128 * 1024 * 1024

/-- `TRAMPOLINE`: the highest user page. -/
def trampolineVA : ℕ := maxVA - pgSize

/-- `TRAPFRAME`: the page below it. -/
def trapframeVA : ℕ := trampolineVA - pgSize

/-! ### `kernel/param.h` -/

/-- `NPROC`: maximum number of processes. -/
abbrev nProc : ℕ := 64

/-- `MAXARG`: max exec arguments. -/
def maxArg : ℕ := 32

/-- `MAXOPBLOCKS`: max # of blocks any FS op writes. -/
def maxOpBlocks : ℕ := 10

/-- `LOGSIZE`: max data blocks in on-disk log. -/
def logSize : ℕ := maxOpBlocks * 3

/-- `NBUF`: size of disk block cache. -/
def nBuf : ℕ := maxOpBlocks * 3

/-- `FSSIZE`: size of file system in blocks. -/
def fsSize : ℕ := 2000

/-! ### `kernel/fs.h` and the image builder -/

/-- `BSIZE`: block size. -/
def bSize : ℕ := 1024

/-- `IPB`: inodes per block; a `struct dinode` is 64 bytes. -/
def ipb : ℕ := bSize / 64

/-- `MAXFILE`: the blocks of the largest file. -/
def maxFile : ℕ := 12 + bSize / 4

/-- `struct superblock`, without the magic number. -/
structure Superblock where
  size : ℕ
  nblocks : ℕ
  ninodes : ℕ
  nlog : ℕ
  logstart : ℕ
  inodestart : ℕ
  bmapstart : ℕ
  deriving DecidableEq, Repr

/-- `NINODES` of the image builder. -/
def nInodes : ℕ := 200

/-- `nbitmap` of the image builder. -/
def nbitmap : ℕ := fsSize / (bSize * 8) + 1

/-- `ninodeblocks` of the image builder. -/
def ninodeblocks : ℕ := nInodes / ipb + 1

/-- `nlog` of the image builder. -/
def nlog : ℕ := logSize

/-- The superblock `make` writes into the image. -/
def mkfsSuperblock : Superblock where
  size := fsSize
  nblocks := fsSize - (2 + nlog + ninodeblocks + nbitmap)
  ninodes := nInodes
  nlog := nlog
  logstart := 2
  inodestart := 2 + nlog
  bmapstart := 2 + nlog + ninodeblocks

end Xv6Zig
