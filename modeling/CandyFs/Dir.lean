import CandyFs.Store

/-! Directories, as `dir.c` keeps them: a block of inode numbers and their names after another.
-/
namespace CandyFs
open Bytes

abbrev ePERM : Int := 1
abbrev eNOENT : Int := 2
abbrev eIO : Int := 5
abbrev eWOULDBLOCK : Int := 11
abbrev eNOMEM : Int := 12
abbrev eACCES : Int := 13
abbrev eEXIST : Int := 17
abbrev eNOTDIR : Int := 20
abbrev eISDIR : Int := 21
abbrev eINVAL : Int := 22
abbrev eNOSPC : Int := 28
abbrev eNAMETOOLONG : Int := 36
abbrev eNOTEMPTY : Int := 39
abbrev eLOOP : Int := 40

abbrev nameMax : Nat := 255
abbrev pathMax : Nat := 4096

abbrev sIFMT : Nat := 0o170000
abbrev sIFDIR : Nat := 0o040000
abbrev sIFREG : Nat := 0o100000
abbrev sIFLNK : Nat := 0o120000

def sISDIR (mode : Nat) : Prop := mode &&& sIFMT = sIFDIR
def sISREG (mode : Nat) : Prop := mode &&& sIFMT = sIFREG
def sISLNK (mode : Nat) : Prop := mode &&& sIFMT = sIFLNK

instance (mode : Nat) : Decidable (sISDIR mode) := inferInstanceAs (Decidable (_ = _))
instance (mode : Nat) : Decidable (sISREG mode) := inferInstanceAs (Decidable (_ = _))
instance (mode : Nat) : Decidable (sISLNK mode) := inferInstanceAs (Decidable (_ = _))

abbrev Name := List UInt8

def dot : Name := [46]
def dotdot : Name := [46,46]

variable [Geometry]

def entriesPerDirBlock : Nat := blocksize / 4 / 8
def namespacePerDirBlock : Nat := blocksize / 4 * 3

/-! `dir_map_block_t`: the numbers, then the names. -/
namespace DirMapBlock

/-- The offset of `names`, behind the numbers. -/
def names : Nat := 8 * entriesPerDirBlock

/-- `strlen(&block.names[nameoff])`. It never gets past the names unless a name is not
terminated, where C leaves open what happens. -/
def strlen (block : Block) (nameoff : Nat) : Try Nat :=
  match (List.range (namespacePerDirBlock - nameoff)).find? fun k =>
      block (names + nameoff + k) = 0 with
  | some curlen => .ok curlen
  | none => .error (.abort ())

/-- The `curlen` bytes of a name. -/
def nameAt (block : Block) (nameoff curlen : Nat) : Name :=
  (List.range curlen).map fun k => block (names + nameoff + k)

/-- No entries and no names. What pads the block behind the names is never read; it is zero here. -/
def empty : Block := fun k => if k < names then ofWords (fun _ => eof) k else 0

def setName (block : Block) (nameoff : Nat) (name : Name) : Block := fun k =>
  if names + nameoff ≤ k ∧ k < names + nameoff + name.length then
    name.getD (k - (names + nameoff)) 0
  else block k

/-- The block without entry `i`, whose name of `namesize` bytes is at `nameoff`. -/
def drop (block : Block) (i nameoff namesize : Nat) : Block := fun k =>
  if k < names then
    ofWords (fun j => if j < i then word block j
      else if j + 1 < entriesPerDirBlock then word block (j + 1) else eof) k
  else if k < names + nameoff then block k
  else if k + (namesize + 1) < names + namespacePerDirBlock then block (k + (namesize + 1))
  else if k < names + namespacePerDirBlock then 0
  else block k

end DirMapBlock
open DirMapBlock

/-- What the search of a block for a name ends with: the index of an entry and the offset of its
name, or those behind the last entry. -/
inductive Scan where
  | hit (i nameoff : Nat)
  | done (i nameoff : Nat)
  deriving DecidableEq

/-- The loop over the entries of a block, with `n` of them to go. -/
def scanBlock (block : Block) (name : Name) : Nat → Nat → Nat → Try Scan
  | 0,i,nameoff => .ok (.done i nameoff)
  | n + 1,i,nameoff =>
    if word block i = eof then .ok (.done i nameoff)
    else do
      let curlen ← strlen block nameoff
      if curlen = name.length ∧ nameAt block nameoff curlen = name then .ok (.hit i nameoff)
      else scanBlock block name n (i + 1) (nameoff + curlen + 1)

/-- A round for every block of the directory and one for the end. -/
def dirFuel (info : Node) : Nat := info.size.toNat / blocksize + 2

def dirCreate (s : Store) (parent : Int) : Try (Int × Store) := do
  let (directory,s) := s.inodeAllocate
  if directory < 0 then .ok (-eNOSPC,s)
  else
    let (res,s) := s.inodeChmod directory (sIFDIR ||| 0o777)
    check () (res = 0)
    let block := setWord (setWord DirMapBlock.empty 0 parent) 1 directory
    let block := setName (setName block 0 dotdot) 3 dot
    let (count,s) ← s.inodeWrite directory 0 (some block) blocksize
    if count ≠ blocksize then do
      let (res,s) := s.inodeFree directory
      check () (res = 0)
      .ok (-eNOSPC,s)
    else .ok (directory,s)

/-- Checks that the directory is empty and then marks it destroyed. -/
def dirDestroy (s : Store) (directory : Int) : Try (Int × Store) :=
  match s.inode directory with
  | none => .ok (-eNOENT,s)
  | some info =>
    if ¬sISDIR info.mode then .ok (-eNOTDIR,s)
    else if info.size < blocksize then .ok (-eNOENT,s)
    else if info.size > blocksize then .ok (-eNOTEMPTY,s)
    else do
      let (count,block) := s.inodeRead directory 0 s.stack blocksize
      check () (count = blocksize)
      if word block 2 ≠ eof then .ok (-eNOTEMPTY,s)
      else
        let (newsize,s) := s.inodeTruncate directory (blocksize - 1)
        check () (newsize = blocksize - 1)
        .ok (0,s)

def dirReparent (s : Store) (directory newParent : Int) : Try (Int × Store) :=
  match s.inode directory with
  | none => .ok (-eNOENT,s)
  | some info =>
    if ¬sISDIR info.mode then .ok (-eNOTDIR,s)
    else if info.size < blocksize then .ok (-eNOENT,s)
    else do
      let (count,block) := s.inodeRead directory 0 s.stack blocksize
      check () (count = blocksize)
      check () (word block 1 = directory)
      let (count,s) ← s.inodeWrite directory 0 (some (setWord block 0 newParent)) blocksize
      check () (count = blocksize)
      .ok (0,s)

def dirLookupLoop (s : Store) (directory : Int) (name : Name) : Nat → Int → Block → Try Int
  | 0,_,_ => .error .stuck
  | fuel + 1,pos,block => do
    let (count,block) := s.inodeRead directory pos block blocksize
    if count > 0 then
      match ← scanBlock block name entriesPerDirBlock 0 0 with
      | .hit i _ => .ok (word block i)
      | .done _ _ => dirLookupLoop s directory name fuel (pos + blocksize) block
    else .ok (-eNOENT)

def dirLookup (s : Store) (directory : Int) (name : Name) : Try Int :=
  match s.inode directory with
  | none => .ok (-eNOENT)
  | some info =>
    if ¬sISDIR info.mode then .ok (-eNOTDIR)
    else if name.length > nameMax then .ok (-eNAMETOOLONG)
    else dirLookupLoop s directory name (dirFuel info) 0 s.stack

/-- Where an entry is to be stored: `bestpos`, `bestblock`, `besti` and `bestnameoff`. -/
structure Best where
  pos : Int
  block : Block
  i : Nat
  nameoff : Nat

/-- Returns the end of the directory and the best block, or nothing when the name is found. -/
def dirInsertLoop (s : Store) (directory : Int) (name : Name) :
    Nat → Int → Block → Best → Try (Option (Int × Best))
  | 0,_,_,_ => .error .stuck
  | fuel + 1,pos,block,best => do
    let (count,block) := s.inodeRead directory pos block blocksize
    if count = blocksize then
      match ← scanBlock block name entriesPerDirBlock 0 0 with
      | .hit _ _ => .ok none
      | .done i nameoff =>
        let best := if i < entriesPerDirBlock ∧ namespacePerDirBlock - nameoff > name.length ∧
          nameoff > best.nameoff then ⟨pos,block,i,nameoff⟩ else best
        dirInsertLoop s directory name fuel (pos + blocksize) block best
    else .ok (some (pos,best))

def dirInsert (s : Store) (directory : Int) (name : Name) (target : Int) : Try (Int × Store) :=
  match s.inode directory with
  | none => .ok (-eNOENT,s)
  | some info =>
    if ¬sISDIR info.mode then .ok (-eNOTDIR,s)
    else if info.size < blocksize then .ok (-eNOENT,s)
    else if name.length > nameMax then .ok (-eNAMETOOLONG,s)
    else do
      match ← dirInsertLoop s directory name (dirFuel info) 0 s.stack ⟨-1,s.stack,0,0⟩ with
      | none => .ok (-eEXIST,s)
      | some (pos,best) =>
        let best : Best := if best.pos = -1 then ⟨pos,DirMapBlock.empty,0,0⟩ else best
        let block := setWord (setName best.block best.nameoff name) best.i target
        let (count,s) ← s.inodeWrite directory best.pos (some block) blocksize
        if count ≠ blocksize then .ok (-eNOSPC,s)
        else .ok (0,s)

/-- `emptyCount` is the number of empty blocks just before `pos`. -/
def dirRemoveLoop (s : Store) (directory : Int) (name : Name) (size : Int) :
    Nat → Int → Block → Int → Try (Int × Store)
  | 0,_,_,_ => .error .stuck
  | fuel + 1,pos,block,emptyCount => do
    let (count,block) := s.inodeRead directory pos block blocksize
    if count = blocksize then
      match ← scanBlock block name entriesPerDirBlock 0 0 with
      | .hit i nameoff =>
        if i = 0 ∧ word block 1 = eof ∧ pos + blocksize = size then do
          let (newsize,s) := s.inodeTruncate directory (pos - emptyCount * blocksize)
          check () (newsize ≥ 0)
          .ok (word block i,s)
        else do
          let (count,s) ← s.inodeWrite directory pos (some (drop block i nameoff name.length)) blocksize
          check () (count = blocksize)
          .ok (word block i,s)
      | .done i _ =>
        -- each entry that is passed sets the count to -1
        let emptyCount := if i = 0 then emptyCount + 1 else 0
        dirRemoveLoop s directory name size fuel (pos + blocksize) block emptyCount
    else .ok (-eNOENT,s)

def dirRemove (s : Store) (directory : Int) (name : Name) : Try (Int × Store) :=
  match s.inode directory with
  | none => .ok (-eNOENT,s)
  | some info =>
    if ¬sISDIR info.mode then .ok (-eNOTDIR,s)
    else if info.size < blocksize then .ok (-eNOENT,s)
    else if name.length > nameMax then .ok (-eNAMETOOLONG,s)
    else if name = dot then .ok (-eINVAL,s)
    else if name = dotdot then .ok (-eNOTEMPTY,s)
    else dirRemoveLoop s directory name info.size (dirFuel info) 0 s.stack 0

/-- The search for a block with an entry at `idx` or, further on, any entry. -/
def dirEnumerateLoop (s : Store) (directory : Int) : Nat → Int → Nat → Block →
    Try (Option (Int × Nat × Block))
  | 0,_,_,_ => .error .stuck
  | fuel + 1,pos,idx,block =>
    let (count,block) := s.inodeRead directory pos block blocksize
    if count = 0 then .ok none
    else if word block idx ≠ eof then .ok (some (pos,idx,block))
    else dirEnumerateLoop s directory fuel (pos + blocksize) 0 block

/-- The offset of the name of an entry, `n` names behind `nameoff`. -/
def skipNames (block : Block) : Nat → Nat → Try Nat
  | 0,nameoff => .ok nameoff
  | n + 1,nameoff => do
    let curlen ← strlen block nameoff
    skipNames block n (nameoff + curlen + 1)

/-- Returns an offset or an error, and the number and the name of the next entry. -/
def dirEnumerate (s : Store) (directory offset : Int) (namesize : Nat) :
    Try (Int × Int × Name) := do
  let pos := wrap (ulong offset / entriesPerDirBlock * blocksize : Nat)
  let idx := ulong offset % entriesPerDirBlock
  match s.inode directory with
  | none => .ok (-eNOENT,0,[])
  | some info =>
    if ¬sISDIR info.mode then .ok (-eNOTDIR,0,[])
    else match ← dirEnumerateLoop s directory (dirFuel info) pos idx s.stack with
      | none => .ok (0,0,[])
      | some (pos,idx,block) =>
        let nameoff ← skipNames block idx 0
        let realNamesize ← strlen block nameoff
        let realNamesize := min realNamesize (ulong (namesize - 1))
        .ok (idx + pos / blocksize * entriesPerDirBlock + 1,word block idx,
          nameAt block nameoff realNamesize)

end CandyFs
