import CandyFs.Disk
import CandyFs.Fault

/-! The superblock, the inode list and the free list of blocks, as `block.c` keeps them.
-/
namespace CandyFs
open Bytes

variable [Geometry]

def inoGet (disk : World) (inumber : Int) : Int :=
  let myblock := diskRead disk (1 + ulong inumber / inumsPerIlistBlock) disk.stack
  word myblock (ulong inumber % inumsPerIlistBlock)

def inoSet (disk : World) (inumber blocknumber : Int) : World :=
  let myblock := diskRead disk (1 + ulong inumber / inumsPerIlistBlock) disk.stack
  diskWrite disk (1 + ulong inumber / inumsPerIlistBlock)
    (setWord myblock (ulong inumber % inumsPerIlistBlock) blocknumber)

def inoAllocate (disk : World) : Int × World :=
  let superblock := diskRead disk 0 disk.stack
  let result := word superblock Superblock.inoFreelistStart
  if result ≠ eof then
    let superblock := setWord superblock Superblock.inoFreelistStart (-inoGet disk result)
    let superblock := setWord superblock Superblock.freeInodes
      (word superblock Superblock.freeInodes - 1)
    (result,diskWrite disk 0 superblock)
  else (result,disk)

def inoFree (disk : World) (inumber : Int) : World :=
  let superblock := diskRead disk 0 disk.stack
  let disk := inoSet disk inumber (-word superblock Superblock.inoFreelistStart)
  let superblock := setWord superblock Superblock.inoFreelistStart inumber
  let superblock := setWord superblock Superblock.freeInodes
    (word superblock Superblock.freeInodes + 1)
  diskWrite disk 0 superblock

@[irreducible] def blockAllocate (disk : World) : Int × World :=
  let superblock := diskRead disk 0 disk.stack
  let start := word superblock Superblock.freelistStart
  if start = eof then (eof,{ disk with exhausted := true })
  else
    let freelistBlock := diskRead disk (ulong start) disk.stack
    match (List.range blocknumsPerFreelistBlock).find?
        fun i => word freelistBlock (FreelistBlock.blocks i) ≠ eof with
    | some i =>
      let candidate := word freelistBlock (FreelistBlock.blocks i)
      let freelistBlock := setWord freelistBlock (FreelistBlock.blocks i) eof
      let superblock := setWord superblock Superblock.freeBlocks
        (word superblock Superblock.freeBlocks - 1)
      let disk := diskWrite disk 0 superblock
      (candidate,diskWrite disk (ulong start) freelistBlock)
    | none =>
      let superblock := setWord superblock Superblock.freelistStart
        (word freelistBlock FreelistBlock.next)
      let superblock := setWord superblock Superblock.freeBlocks
        (word superblock Superblock.freeBlocks - 1)
      (start,diskWrite disk 0 superblock)

/-- The end of `block_free`: the freed block becomes a new, empty head of the list. -/
def pushFreelistBlock (disk : World) (superblock : Block) (blockno : Int) : World :=
  let vagabondBlock := ofWords fun i =>
    if i = FreelistBlock.next then word superblock Superblock.freelistStart else eof
  let superblock := setWord superblock Superblock.freelistStart blockno
  let superblock := setWord superblock Superblock.freeBlocks
    (word superblock Superblock.freeBlocks + 1)
  diskWrite (diskWrite disk 0 superblock) (ulong blockno) vagabondBlock

@[irreducible] def blockFree (disk : World) (blockno : Int) : World :=
  let superblock := diskRead disk 0 disk.stack
  let start := word superblock Superblock.freelistStart
  if start ≠ eof then
    let freelistHead := diskRead disk (ulong start) disk.stack
    match (List.range blocknumsPerFreelistBlock).reverse.find?
        fun i => word freelistHead (FreelistBlock.blocks i) = eof with
    | some i =>
      let freelistHead := setWord freelistHead (FreelistBlock.blocks i) blockno
      let superblock := setWord superblock Superblock.freeBlocks
        (word superblock Superblock.freeBlocks + 1)
      diskWrite (diskWrite disk 0 superblock) (ulong start) freelistHead
    | none => pushFreelistBlock disk superblock blockno
  else pushFreelistBlock disk superblock blockno

theorem blockAllocate_exhausted (disk : World) (raised : disk.exhausted = true) :
    (blockAllocate disk).2.exhausted = true := by
  unfold blockAllocate
  dsimp only
  split
  · rfl
  · split <;> simpa using raised

@[simp] theorem blockFree_exhausted (disk : World) (blockno : Int) :
    (blockFree disk blockno).exhausted = disk.exhausted := by
  unfold blockFree pushFreelistBlock
  dsimp only
  split
  · split <;> simp
  · simp

/-- The `i`-th block of a fresh inode list of `ilistSize` blocks. -/
def mkfsIlistBlock (ilistSize i : Nat) : Block := ofWords fun j =>
  if i = ilistSize - 1 ∧ j = inumsPerIlistBlock - 1 then eof
  else -((j + inumsPerIlistBlock * i + 1 : Nat) : Int)

def mkfsIlist (ilistSize : Nat) : Nat → World → World
  | 0,disk => disk
  | n + 1,disk =>
    let disk := mkfsIlist ilistSize n disk
    diskWrite disk (n + 1) (mkfsIlistBlock ilistSize n)

/-- The node of a fresh free list written to block `i`. -/
def mkfsFreelistBlock (nblocks : Nat) (i : Int) : Block := ofWords fun j =>
  if j = FreelistBlock.next then
    if i + blocknumsPerFreelistBlock + 1 ≥ nblocks then eof else i + blocknumsPerFreelistBlock + 1
  else
    -- entry `j - 1` names block `i + 1 + (j - 1)`
    if i + j ≥ nblocks then eof else i + j

/-- The loop that lays out the free list, one node in `BLOCKNUMS_PER_FREELIST_BLOCK + 1`. -/
def mkfsFreelist : Nat → Int → World → Run World
  | fuel,i,disk =>
    if i < disk.nblocks then
      match fuel with
      | 0 => .error .stuck
      | fuel + 1 => mkfsFreelist fuel (i + (blocknumsPerFreelistBlock + 1))
          (diskWrite disk (ulong i) (mkfsFreelistBlock disk.nblocks i))
    else .ok disk

/-- `ilistSize` is the number of ilist blocks. -/
def mkfsStorage (disk : World) (ilistSize : Nat) : Run World := do
  let numDataBlocks := ulong (disk.nblocks - ilistSize - 1)
  let firstDataBlock : Int := ilistSize + 1
  check disk.exhausted (numDataBlocks > 0)
  let superblock := setField (ofWords fun _ => 0) 0 4 candyfsMagic
  let superblock := setWord superblock Superblock.ilistSize ilistSize
  let superblock := setWord superblock Superblock.freelistStart firstDataBlock
  let superblock := setWord superblock Superblock.inoFreelistStart 0
  let superblock := setWord superblock Superblock.freeBlocks (disk.nblocks - firstDataBlock)
  let superblock := setWord superblock Superblock.freeInodes (ilistSize * inumsPerIlistBlock)
  let disk := diskWrite disk 0 superblock
  let disk := mkfsIlist ilistSize ilistSize disk
  mkfsFreelist disk.nblocks firstDataBlock disk

end CandyFs
