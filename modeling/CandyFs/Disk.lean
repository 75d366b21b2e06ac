import Mathlib.Algebra.Group.Basic
import Mathlib.Logic.Function.Basic
import CandyFs.Bytes
import CandyFs.Geometry

/-! The disk and the structures stored in its blocks. A C structure read from a block is
the block itself: its members are the fields and words at their offsets.
-/
namespace CandyFs
open Bytes

structure Timespec where
  tvSec : Int
  tvNsec : Int
  deriving DecidableEq, Repr

/-- `LONG_MIN`, which serves as `BLOCKNO_EOF` and as `INO_EOF`. -/
def eof : Int := -2 ^ 63

theorem eof_fits : Fits eof := by decide

theorem ne_eof {b : Int} (low : 0 ≤ b) : b ≠ eof := by
  unfold eof
  omega

variable [Geometry]

/-- The state the storage layers run on: the disk, what an uninitialised block buffer
happens to hold, and the readings of `CLOCK_REALTIME` to come. `exhausted` is a history
variable, set when `block_allocate` reports `BLOCKNO_EOF`; no function reads it. -/
structure World where
  nblocks : Nat
  data : Nat → Block
  /-- `disk_open` computes `nblocks` from a byte count of 64 bits. -/
  bytesFit : nblocks * blocksize < 2 ^ 64
  stack : Block
  clock : Nat → Timespec
  exhausted : Bool

/-- Leaves the buffer unchanged when the block number is out of range. -/
def diskRead (disk : World) (blockno : Nat) (block : Block) : Block :=
  if blockno < disk.nblocks then disk.data blockno else block

def diskWrite (disk : World) (blockno : Nat) (block : Block) : World :=
  if blockno < disk.nblocks then { disk with data := Function.update disk.data blockno block }
  else disk

/-- `now`: the next reading of the clock. -/
def now (disk : World) : Timespec × World :=
  (disk.clock 0,{ disk with clock := fun n => disk.clock (n + 1) })

/-! `superblock_t`: the words after the `int magic`. -/
namespace Superblock
abbrev ilistSize : Nat := 1
abbrev freelistStart : Nat := 2
abbrev inoFreelistStart : Nat := 3
abbrev freeBlocks : Nat := 4
abbrev freeInodes : Nat := 5
end Superblock

def candyfsMagic : Nat := 0xCA4D11F5
def inodeMagic : Nat := 0xCA4140DE

def blocknumsPerFreelistBlock : Nat := blocksize / 8 - 1
namespace FreelistBlock
abbrev next : Nat := 0
abbrev blocks (i : Nat) : Nat := i + 1
end FreelistBlock

def inumsPerIlistBlock : Nat := blocksize / 8

/-! `inode_t`: `mode`, `owner`, `group`, padding, `nlinks`, `size`, four `timespec`s,
`magic`, padding, and the block slots from offset 104 on. -/
namespace Inode
def mode (inode : Block) : Nat := field inode 0 4
def setMode (inode : Block) (mode : Nat) : Block := setField inode 0 4 mode
def owner (inode : Block) : Nat := field inode 4 4
def setOwner (inode : Block) (owner : Nat) : Block := setField inode 4 4 owner
def group (inode : Block) : Nat := field inode 8 4
def setGroup (inode : Block) (group : Nat) : Block := setField inode 8 4 group
def nlinks (inode : Block) : Nat := field inode 16 8
def setNlinks (inode : Block) (nlinks : Nat) : Block := setField inode 16 8 nlinks
abbrev size : Nat := 3
abbrev created : Nat := 4
abbrev lastAccess : Nat := 6
abbrev lastChange : Nat := 8
abbrev lastStatchange : Nat := 10
def magic (inode : Block) : Nat := field inode 96 4
def setMagic (inode : Block) (magic : Nat) : Block := setField inode 96 4 magic
/-- The word of `blocks[slot]`; one before the first slot lies `magic`. -/
def slotWord (slot : Int) : Nat := (13 + slot).toNat

def time (inode : Block) (member : Nat) : Timespec :=
  ⟨word inode member,word inode (member + 1)⟩
def setTime (inode : Block) (member : Nat) (ts : Timespec) : Block :=
  setWord (setWord inode member ts.tvSec) (member + 1) ts.tvNsec
end Inode

/-- The contents of block `blockno`. -/
def World.block (w : World) (blockno : Int) : Block := w.data blockno.toNat

/-- The disk with block `blockno` overwritten. -/
def World.put (w : World) (blockno : Int) (block : Block) : World :=
  { w with data := Function.update w.data blockno.toNat block }

section
variable (w : World) (b : Int) (x : Block)

@[simp] theorem put_nblocks : (w.put b x).nblocks = w.nblocks := rfl
@[simp] theorem put_stack : (w.put b x).stack = w.stack := rfl
@[simp] theorem put_clock : (w.put b x).clock = w.clock := rfl
@[simp] theorem put_exhausted : (w.put b x).exhausted = w.exhausted := rfl

@[simp] theorem put_block_self : (w.put b x).block b = x := Function.update_self ..

theorem put_block_ne {c : Int} (low : 0 ≤ b) (low' : 0 ≤ c) (differ : c ≠ b) :
    (w.put b x).block c = w.block c := Function.update_of_ne (by omega) ..

end

theorem nblocks_lt (w : World) : (w.nblocks : Int) < 2 ^ 62 := by
  have large := blocksize_large
  have fits := w.bytesFit
  by_contra many
  have : 2 ^ 62 * 344 ≤ w.nblocks * blocksize := Nat.mul_le_mul (by omega) large
  omega

theorem diskRead_block {w : World} {b : Int} (buffer : Block) (low : 0 ≤ b) (high : b < w.nblocks) :
    diskRead w (ulong b) buffer = w.block b := by
  have few := nblocks_lt w
  rw [ulong_of_nonneg low (by omega),diskRead,if_pos (by omega)]
  rfl

theorem diskRead_zero {w : World} (buffer : Block) (some : 0 < w.nblocks) :
    diskRead w 0 buffer = w.block 0 := if_pos some

theorem diskWrite_block {w : World} {b : Int} (x : Block) (low : 0 ≤ b) (high : b < w.nblocks) :
    diskWrite w (ulong b) x = w.put b x := by
  have few := nblocks_lt w
  rw [ulong_of_nonneg low (by omega),diskWrite,if_pos (by omega)]
  rfl

@[simp] theorem diskWrite_exhausted (w : World) (b : Nat) (x : Block) :
    (diskWrite w b x).exhausted = w.exhausted := by
  unfold diskWrite
  split <;> rfl

theorem diskWrite_zero {w : World} (x : Block) (some : 0 < w.nblocks) :
    diskWrite w 0 x = w.put 0 x := if_pos some

theorem fits_of_range {w : World} {b : Int} (low : 0 ≤ b) (high : b < w.nblocks) : Fits b := by
  have few := nblocks_lt w
  unfold Fits
  omega

end CandyFs
