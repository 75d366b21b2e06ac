import CandyFs.Block
import CandyFs.ChildRange

/-! Inodes and their trees of block pointers, as `inode.c` keeps them. The sum of the position and
the size of a read or a write wraps; other sums of an `off_t` stay below `MAX_FILESIZE` or a few
blocks above it.
-/
namespace CandyFs
open Bytes ChildRange

variable [Geometry]

structure GrowResult where
  disk : World
  dest : Int
  allocated : Int
  success : Bool

structure GrowLoop where
  disk : World
  indirectData : Block
  sum : Int
  success : Bool

/-- The loop of `inode_indirect_grow` over `n` children from child `i` on. -/
def growChildren (grow : World → Int → Int → Run GrowResult) (curblock subCount : Int) :
    Nat → Int → World → Block → Int → Run GrowLoop
  | 0,_,disk,indirectData,sum => .ok ⟨disk,indirectData,sum,true⟩
  | n + 1,i,disk,indirectData,sum => do
    let child ← grow disk (word indirectData i.toNat) (curblock + subCount * i)
    let indirectData := setWord indirectData i.toNat child.dest
    if child.success then
      growChildren grow curblock subCount n (i + 1) child.disk indirectData (sum + child.allocated)
    else .ok ⟨child.disk,indirectData,sum + child.allocated,false⟩

/-- The part of `inode_indirect_grow` for an indirect block that is loaded or fresh. -/
def growIndirect (grow : World → Int → Int → Run GrowResult) (subCount oldBlockcount
    newBlockcount : Int) (disk : World) (blockno : Int) (indirectData : Block)
    (curblock : Int) : Run GrowResult := do
  let start := startIdx curblock subCount oldBlockcount
  let finish := endIdx singleIndirectCount curblock subCount newBlockcount
  let loop ← growChildren grow curblock subCount (finish + 1 - start).toNat start disk indirectData 0
  if loop.success = false ∧ start = 0 ∧ loop.sum = 0 then
    -- the indirect block is given back, whether it is new or not
    .ok ⟨blockFree loop.disk blockno,eof,0,false⟩
  else
    .ok ⟨diskWrite loop.disk (ulong blockno) loop.indirectData,blockno,loop.sum,loop.success⟩

def inodeIndirectGrow (oldBlockcount newBlockcount : Int) :
    Nat → World → Int → Int → Run GrowResult
  | 0,disk,dest,_ =>
    if dest = eof then
      let (blockno,disk) := blockAllocate disk
      if blockno < 0 then .ok ⟨disk,dest,0,false⟩
      else .ok ⟨disk,blockno,1,true⟩
    else .error (.abort disk.exhausted)
  | level + 1,disk,dest,curblock =>
    if dest = eof then
      let (blockno,disk) := blockAllocate disk
      if blockno < 0 then .ok ⟨disk,dest,0,false⟩
      else growIndirect (inodeIndirectGrow oldBlockcount newBlockcount level)
        (indirectCount level) oldBlockcount newBlockcount disk blockno (ofWords fun _ => eof) curblock
    else growIndirect (inodeIndirectGrow oldBlockcount newBlockcount level)
      (indirectCount level) oldBlockcount newBlockcount disk dest
      (diskRead disk (ulong dest) disk.stack) curblock

structure ShrinkResult where
  disk : World
  dest : Int
  freed : Int

structure ShrinkLoop where
  disk : World
  indirectData : Block
  sum : Int

def shrinkChildren (shrink : World → Int → Int → Run ShrinkResult) (curblock subCount : Int) :
    Nat → Int → World → Block → Int → Run ShrinkLoop
  | 0,_,disk,indirectData,sum => .ok ⟨disk,indirectData,sum⟩
  | n + 1,i,disk,indirectData,sum => do
    let child ← shrink disk (word indirectData i.toNat) (curblock + i * subCount)
    shrinkChildren shrink curblock subCount n (i + 1) child.disk
      (setWord indirectData i.toNat child.dest) (sum + child.freed)

def inodeIndirectShrink (oldBlockcount newBlockcount : Int) :
    Nat → World → Int → Int → Run ShrinkResult
  | 0,disk,dest,_ => do
    check disk.exhausted (dest ≠ eof)
    .ok ⟨blockFree disk dest,eof,1⟩
  | level + 1,disk,dest,curblock => do
    check disk.exhausted (dest ≠ eof)
    let indirectData := diskRead disk (ulong dest) disk.stack
    let subCount : Int := indirectCount level
    let start := startIdx curblock subCount newBlockcount
    let finish := endIdx singleIndirectCount curblock subCount oldBlockcount
    let loop ← shrinkChildren (inodeIndirectShrink oldBlockcount newBlockcount level) curblock
      subCount (finish + 1 - start).toNat start disk indirectData 0
    if (List.range singleIndirectCount).all fun i => word loop.indirectData i = eof then
      .ok ⟨blockFree loop.disk dest,eof,loop.sum⟩
    else .ok ⟨diskWrite loop.disk (ulong dest) loop.indirectData,dest,loop.sum⟩

structure ReadwriteResult where
  disk : World
  /-- The caller's buffer; `none` stands for a null pointer. -/
  data : Option Block
  count : Int

def readwriteChildren (readwrite : World → Int → Int → Option Block → Run ReadwriteResult)
    (curblock subCount : Int) (indirectData : Block) :
    Nat → Int → World → Option Block → Int → Run ReadwriteResult
  | 0,_,disk,data,result => .ok ⟨disk,data,result⟩
  | n + 1,i,disk,data,result => do
    let child ← readwrite disk (word indirectData i.toNat) (curblock + i * subCount) data
    readwriteChildren readwrite curblock subCount indirectData n (i + 1) child.disk child.data
      (result + child.count)

/-- `memcpy` from the caller's buffer, or `memset` to zero for a null pointer. -/
def copyIn (block : Block) (doff : Nat) (data : Option Block) (soff n : Nat) : Block :=
  match data with
  | some data => copyBytes block doff data soff n
  | none => copyBytes block doff (fun _ => 0) 0 n

/-- The part of `inode_indirect_readwrite` for a data block. -/
def readwriteBlock (pos endpos : Int) (write : Bool) (disk : World) (blockno curblock : Int)
    (data : Option Block) : ReadwriteResult :=
  let blockpos := curblock * blocksize
  let blockDelta := if blockpos < pos then pos - blockpos else 0
  let dataDelta := if blockpos < pos then 0 else blockpos - pos
  let copySize := blocksize - blockDelta
  let copySize := if endpos < blockpos + blocksize then copySize - (blockpos + blocksize - endpos)
    else copySize
  if write then
    let block := if copySize ≠ blocksize then diskRead disk (ulong blockno) disk.stack else disk.stack
    let block := copyIn block blockDelta.toNat data dataDelta.toNat copySize.toNat
    ⟨diskWrite disk (ulong blockno) block,data,copySize⟩
  else
    let block := diskRead disk (ulong blockno) disk.stack
    ⟨disk,data.map fun data => copyBytes data dataDelta.toNat block blockDelta.toNat copySize.toNat,
      copySize⟩

def inodeIndirectReadwrite (pos endpos : Int) (write : Bool) :
    Nat → World → Int → Int → Option Block → Run ReadwriteResult
  | 0,disk,blockno,curblock,data => do
    check disk.exhausted (blockno ≠ eof)
    .ok (readwriteBlock pos endpos write disk blockno curblock data)
  | level + 1,disk,blockno,curblock,data => do
    check disk.exhausted (blockno ≠ eof)
    let indirectData := diskRead disk (ulong blockno) disk.stack
    let subCount : Int := indirectCount level
    let firstBlock := pos.tdiv blocksize
    let lastBlock := (endpos - 1).tdiv blocksize
    let start := startIdx curblock subCount firstBlock
    let finish := lastIdx singleIndirectCount curblock subCount lastBlock
    readwriteChildren (inodeIndirectReadwrite pos endpos write level) curblock subCount indirectData
      (finish + 1 - start).toNat start disk data 0

/-- The block number and the contents of an inode, when the number names one. -/
def loadInode (disk : World) (inumber : Int) : Option (Int × Block) :=
  let block := inoGet disk inumber
  if block < 0 then none
  else
    let inode := diskRead disk (ulong block) disk.stack
    if Inode.magic inode ≠ inodeMagic then none else some (block,inode)

def blockcount (size : Int) : Int :=
  offset2blockidx size + if size.tmod blocksize ≠ 0 then 1 else 0

structure SizeLoop where
  disk : World
  inode : Block
  blockcount : Int
  lastSlot : Int

def setsizeGrow (oldBlockcount newBlockcount : Int) :
    Nat → World → Block → Int → Int → Run SizeLoop
  | fuel,disk,inode,inodeBlockcount,lastSlot =>
    if inodeBlockcount < newBlockcount then
      match fuel with
      | 0 => .error .stuck
      | fuel + 1 => do
        let indirection := indirectionLevel inodeBlockcount
        let slot := blockidx2blockslot inodeBlockcount
        let curblock := blockslot2firstblockidx slot
        check disk.exhausted (lastSlot = -1 ∨ lastSlot + 1 = slot)
        let grown ← inodeIndirectGrow oldBlockcount newBlockcount indirection.toNat disk
          (word inode (Inode.slotWord slot)) curblock
        let inode := setWord inode (Inode.slotWord slot) grown.dest
        if grown.success then
          setsizeGrow oldBlockcount newBlockcount fuel grown.disk inode
            (inodeBlockcount + grown.allocated) slot
        else .ok ⟨grown.disk,inode,inodeBlockcount + grown.allocated,slot⟩
    else .ok ⟨disk,inode,inodeBlockcount,lastSlot⟩

def setsizeShrink (oldBlockcount newBlockcount : Int) :
    Nat → World → Block → Int → Int → Run SizeLoop
  | fuel,disk,inode,inodeBlockcount,lastSlot =>
    if inodeBlockcount > newBlockcount then
      match fuel with
      | 0 => .error .stuck
      | fuel + 1 => do
        let finalBlockidx := inodeBlockcount - 1
        let indirection := indirectionLevel finalBlockidx
        let slot := blockidx2blockslot finalBlockidx
        let curblock := blockslot2firstblockidx slot
        check disk.exhausted (lastSlot = -1 ∨ lastSlot - 1 = slot)
        let shrunk ← inodeIndirectShrink oldBlockcount newBlockcount indirection.toNat disk
          (word inode (Inode.slotWord slot)) curblock
        let inode := setWord inode (Inode.slotWord slot) shrunk.dest
        setsizeShrink oldBlockcount newBlockcount fuel shrunk.disk inode
          (inodeBlockcount - shrunk.freed) slot
    else .ok ⟨disk,inode,inodeBlockcount,lastSlot⟩

/-- The end of `inode_setsize`: store the size and the time stamps and flush the inode. -/
def storeSize (disk : World) (block : Int) (inode : Block) (size : Int) : Int × World :=
  let oldsize := word inode Inode.size
  let inode := setWord inode Inode.size size
  let size := word inode Inode.size
  if size ≠ oldsize then
    let (ts,disk) := now disk
    let inode := Inode.setTime inode Inode.lastStatchange ts
    let inode := Inode.setTime inode Inode.lastChange ts
    (size,diskWrite disk (ulong block) inode)
  else (size,diskWrite disk (ulong block) inode)

def inodeSetsize (disk : World) (inumber size : Int) : Run (Int × World) :=
  match loadInode disk inumber with
  | none => .ok (-1,disk)
  | some (block,inode) =>
    let size := if size > maxFilesize then (maxFilesize : Int) else size
    let newBlockcount := blockcount size
    let oldBlockcount := blockcount (word inode Inode.size)
    if newBlockcount < 0 then .ok (-1,disk)
    else do
      let loop ← setsizeGrow oldBlockcount newBlockcount (newBlockcount - oldBlockcount).toNat
        disk inode oldBlockcount (-1)
      let loop ← setsizeShrink oldBlockcount newBlockcount (loop.blockcount - newBlockcount).toNat
        loop.disk loop.inode loop.blockcount loop.lastSlot
      if loop.blockcount = newBlockcount then .ok (storeSize loop.disk block loop.inode size)
      else .ok (storeSize loop.disk block loop.inode (loop.blockcount * blocksize))

def clearSlots : Nat → Block → Block
  | 0,inode => inode
  | n + 1,inode => setWord (clearSlots n inode) (Inode.slotWord n) eof

def freshInode (inode : Block) (ts : Timespec) : Block :=
  let inode := Inode.setMagic inode inodeMagic
  let inode := Inode.setMode inode 0o777
  let inode := Inode.setNlinks inode 0
  let inode := Inode.setOwner inode 0
  let inode := Inode.setGroup inode 0
  let inode := setWord inode Inode.size 0
  let inode := Inode.setTime inode Inode.created ts
  let inode := Inode.setTime inode Inode.lastAccess ts
  let inode := Inode.setTime inode Inode.lastChange ts
  let inode := Inode.setTime inode Inode.lastStatchange ts
  clearSlots numBlockSlots inode

def inodeAllocate (disk : World) : Int × World :=
  let (ts,disk) := now disk
  let inode := freshInode disk.stack ts
  let (inumber,disk) := inoAllocate disk
  if inumber < 0 then (-1,disk)
  else
    let (block,disk) := blockAllocate disk
    if block < 0 then (-1,inoFree disk inumber)
    else
      let disk := inoSet disk inumber block
      (inumber,diskWrite disk (ulong block) inode)

def inodeFree (disk : World) (inumber : Int) : Run (Int × World) :=
  match loadInode disk inumber with
  | none => .ok (-1,disk)
  | some (block,inode) =>
    if Inode.nlinks inode ≠ 0 then .ok (-1,disk)
    else do
      let (_,disk) ← inodeSetsize disk inumber 0
      let disk := inoFree disk inumber
      .ok (0,blockFree disk block)

/-- `memcpy` of `sizeof(inode_info_t)` bytes to the caller's `info`. -/
def inodeGetinfo (disk : World) (inumber : Int) (info : Block) : Int × Block :=
  match loadInode disk inumber with
  | none => (-1,info)
  | some (_,inode) => (0,copyBytes info 0 inode 0 96)

/-- Load an inode, change its members, note the time and write it back. -/
def changeInode {α : Type} (disk : World) (inumber : Int) (failed : α) (result : Block → α)
    (change : Timespec → Block → Block) : α × World :=
  match loadInode disk inumber with
  | none => (failed,disk)
  | some (block,inode) =>
    let (ts,disk) := now disk
    let inode := Inode.setTime (change ts inode) Inode.lastStatchange ts
    (result inode,diskWrite disk (ulong block) inode)

def inodeChmod (disk : World) (inumber : Int) (mode : Nat) : Int × World :=
  changeInode disk inumber (-1) (fun _ => 0) fun _ inode => Inode.setMode inode mode

/-- An `owner` or a `group` of `(unsigned int)~0` is left as it is. -/
def inodeChown (disk : World) (inumber : Int) (owner group : Nat) : Int × World :=
  changeInode disk inumber (-1) (fun _ => 0) fun _ inode =>
    let inode := if owner ≠ 2 ^ 32 - 1 then Inode.setOwner inode owner else inode
    if group ≠ 2 ^ 32 - 1 then Inode.setGroup inode group else inode

def utimeNow : Int := 2 ^ 30 - 1
def utimeOmit : Int := 2 ^ 30 - 2

/-- What `inode_utime` makes of one of its two times; `none` is a null pointer. -/
def utimeMember (inode : Block) (member : Nat) (time : Option Timespec) (ts : Timespec) : Block :=
  match time with
  | none => Inode.setTime inode member ts
  | some time =>
    if time.tvNsec = utimeNow then Inode.setTime inode member ts
    else if time.tvNsec ≠ utimeOmit then Inode.setTime inode member time
    else inode

def inodeUtime (disk : World) (inumber : Int) (lastAccess lastChange : Option Timespec) :
    Int × World :=
  changeInode disk inumber (-1) (fun _ => 0) fun ts inode =>
    utimeMember (utimeMember inode Inode.lastAccess lastAccess ts) Inode.lastChange lastChange ts

/-- `-1` as an `nlink_t`. -/
def nlinkError : Nat := 2 ^ 64 - 1

def inodeLink (disk : World) (inumber : Int) : Nat × World :=
  changeInode disk inumber nlinkError Inode.nlinks fun _ inode =>
    Inode.setNlinks inode (Inode.nlinks inode + 1)

def inodeUnlink (disk : World) (inumber : Int) : Nat × World :=
  changeInode disk inumber nlinkError Inode.nlinks fun _ inode =>
    Inode.setNlinks inode (Inode.nlinks inode + (2 ^ 64 - 1))

def writeLoop (pos zeroEndpos endpos : Int) (data : Option Block) (inode : Block) :
    Nat → World → Int → Int → Run (World × Int)
  | fuel,disk,curpos,lastSlot =>
    if curpos < endpos then
      match fuel with
      | 0 => .error .stuck
      | fuel + 1 => do
        let curBlockidx := offset2blockidx curpos
        let indirection := indirectionLevel curBlockidx
        let slot := blockidx2blockslot curBlockidx
        let curblock := blockslot2firstblockidx slot
        check disk.exhausted (lastSlot = -1 ∨ curpos = zeroEndpos ∨ lastSlot + 1 = slot)
        let written ← inodeIndirectReadwrite
          (if curpos < zeroEndpos then pos else zeroEndpos)
          (if curpos < zeroEndpos then zeroEndpos else endpos) true
          indirection.toNat disk (word inode (Inode.slotWord slot)) curblock
          (if curpos < zeroEndpos then none else data)
        writeLoop pos zeroEndpos endpos data inode fuel written.disk (curpos + written.count) slot
    else .ok (disk,curpos)

/-- The end of `inode_write`, once the file has its size. -/
def writeRange (disk : World) (block : Int) (inode : Block) (pos zeroEndpos endpos : Int)
    (data : Option Block) : Run (Int × World) :=
  if endpos ≤ pos then .ok (0,disk)
  else do
    let (disk,curpos) ← writeLoop pos zeroEndpos endpos data inode (endpos - pos).toNat disk pos (-1)
    let (ts,disk) := now disk
    let inode := Inode.setTime inode Inode.lastChange ts
    let disk := diskWrite disk (ulong block) inode
    check disk.exhausted (curpos = endpos)
    check disk.exhausted (endpos - zeroEndpos ≥ 0)
    .ok (endpos - zeroEndpos,disk)

/-- The part of `inode_write` after `inode_setsize` has extended the file. -/
def writeExtended (disk : World) (block : Int) (inode : Block) (pos zeroEndpos endpos : Int)
    (data : Option Block) : Run (Int × World) := do
  let inode := diskRead disk (ulong block) inode
  check disk.exhausted (endpos ≥ word inode Inode.size)
  if endpos > word inode Inode.size then
    let endpos := word inode Inode.size
    let zeroEndpos := if zeroEndpos < word inode Inode.size then word inode Inode.size
      else zeroEndpos
    writeRange disk block inode pos zeroEndpos endpos data
  else writeRange disk block inode pos zeroEndpos endpos data

/-- `data` is the memory at the caller's pointer, `none` for a null pointer, which stands
for zeros. A position of `-1` appends. -/
def inodeWrite (disk : World) (inumber pos : Int) (data : Option Block) (size : Int) :
    Run (Int × World) :=
  match loadInode disk inumber with
  | none => .ok (-1,disk)
  | some (block,inode) =>
    let pos := if pos = -1 then word inode Inode.size else pos
    let endpos := wrap (pos + size)
    let zeroEndpos := pos
    if endpos > word inode Inode.size then do
      let pos := if pos > word inode Inode.size then word inode Inode.size else pos
      let (newsize,disk) ← inodeSetsize disk inumber endpos
      if newsize < 0 then .ok (-1,disk)
      else writeExtended disk block inode pos zeroEndpos endpos data
    else writeRange disk block inode pos zeroEndpos endpos data

def readLoop (pos endpos : Int) (inode : Block) :
    Nat → World → Block → Int → Int → Run (World × Block × Int)
  | fuel,disk,data,curpos,lastSlot =>
    if curpos < endpos then
      match fuel with
      | 0 => .error .stuck
      | fuel + 1 => do
        let curBlockidx := offset2blockidx curpos
        let indirection := indirectionLevel curBlockidx
        let slot := blockidx2blockslot curBlockidx
        let curblock := blockslot2firstblockidx slot
        check disk.exhausted (lastSlot = -1 ∨ lastSlot + 1 = slot)
        let got ← inodeIndirectReadwrite pos endpos false indirection.toNat disk
          (word inode (Inode.slotWord slot)) curblock (some data)
        readLoop pos endpos inode fuel got.disk (got.data.getD data) (curpos + got.count) slot
    else .ok (disk,data,curpos)

/-- Returns the count, the caller's buffer afterwards, and the disk. -/
def inodeRead (disk : World) (inumber pos : Int) (data : Block) (size : Int) :
    Run (Int × Block × World) :=
  match loadInode disk inumber with
  | none => .ok (-1,data,disk)
  | some (block,inode) =>
    let endpos := wrap (pos + size)
    let endpos := if endpos > word inode Inode.size then word inode Inode.size else endpos
    if endpos ≤ pos then .ok (0,data,disk)
    else do
      let (disk,data,curpos) ← readLoop pos endpos inode (endpos - pos).toNat disk data pos (-1)
      let (ts,disk) := now disk
      let disk := diskWrite disk (ulong block) (Inode.setTime inode Inode.lastAccess ts)
      check disk.exhausted (curpos = endpos)
      .ok (endpos - pos,data,disk)

def inodeTruncate (disk : World) (inumber size : Int) : Run (Int × World) :=
  match loadInode disk inumber with
  | none => .ok (-1,disk)
  | some (_,inode) => do
    let (newsize,disk) ← inodeSetsize disk inumber size
    if newsize > word inode Inode.size then
      let (_,disk) ← inodeWrite disk inumber (word inode Inode.size) none
        (newsize - word inode Inode.size)
      .ok (newsize,disk)
    else .ok (newsize,disk)

end CandyFs
