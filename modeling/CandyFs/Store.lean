import CandyFs.ByteList
import CandyFs.ShortWrite

/-! The inode store as the layers above `inode.c` see it: every inode number names its metadata
and an array of bytes, and a file grows as far as the free blocks go. Time stamps are left out:
the layers above only pass them on to `stat`.
-/
namespace CandyFs
open Bytes ByteList

/-- An inode and its bytes. A size below zero goes with no bytes. -/
structure Node where
  mode : Nat
  owner : Nat
  group : Nat
  nlinks : Nat
  size : Int
  data : List UInt8
  filled : data.length = size.toNat
  deriving DecidableEq

namespace Node
variable (node : Node)

def byte (a : Nat) : UInt8 := node.data.getD a 0

/-- The node with `size` bytes, given by their offset. -/
def refill (size : Int) (bytes : Nat → UInt8) : Node where
  __ := node
  size := size
  data := (List.range size.toNat).map bytes
  filled := by simp

/-- Cut to `size` bytes, or padded with zeros. -/
def resize (size : Int) : Node := node.refill size node.byte

@[ext] theorem ext {node other : Node} (mode : node.mode = other.mode) (owner : node.owner = other.owner)
    (group : node.group = other.group) (nlinks : node.nlinks = other.nlinks)
    (size : node.size = other.size) (bytes : ∀ a < node.size.toNat, node.byte a = other.byte a) :
    node = other := by
  have data : node.data = other.data := by
    have filled := node.filled
    have filled' := other.filled
    rw [← size] at filled'
    apply List.ext_getElem (filled.trans filled'.symm)
    intro a low high
    have same := bytes a (by omega)
    simp only [byte,List.getD_eq_getElem?_getD,List.getElem?_eq_getElem low,
      List.getElem?_eq_getElem high,Option.getD_some] at same
    exact same
  obtain ⟨_,_,_,_,_,_,_⟩ := node
  obtain ⟨_,_,_,_,_,_,_⟩ := other
  dsimp only at mode owner group nlinks size data
  subst mode owner group nlinks size data
  rfl

section
variable {node} {size : Int} {bytes : Nat → UInt8} {a : Nat}

@[simp] theorem refill_mode : (node.refill size bytes).mode = node.mode := rfl
@[simp] theorem refill_owner : (node.refill size bytes).owner = node.owner := rfl
@[simp] theorem refill_group : (node.refill size bytes).group = node.group := rfl
@[simp] theorem refill_nlinks : (node.refill size bytes).nlinks = node.nlinks := rfl
@[simp] theorem refill_size : (node.refill size bytes).size = size := rfl
@[simp] theorem resize_mode : (node.resize size).mode = node.mode := rfl
@[simp] theorem resize_owner : (node.resize size).owner = node.owner := rfl
@[simp] theorem resize_group : (node.resize size).group = node.group := rfl
@[simp] theorem resize_nlinks : (node.resize size).nlinks = node.nlinks := rfl
@[simp] theorem resize_size : (node.resize size).size = size := rfl

theorem refill_byte : (node.refill size bytes).byte a = if a < size.toNat then bytes a else 0 := by
  rw [byte,refill,List.getD_eq_getElem?_getD,getElem?_range_map]
  split <;> rfl

theorem resize_byte : (node.resize size).byte a = if a < size.toNat then node.byte a else 0 :=
  refill_byte

theorem refill_refill {size' : Int} {bytes' : Nat → UInt8} :
    (node.refill size bytes).refill size' bytes' = node.refill size' bytes' := rfl

theorem refill_congr {bytes' : Nat → UInt8} (same : ∀ a < size.toNat, bytes a = bytes' a) :
    node.refill size bytes = node.refill size bytes' := by
  refine Node.ext rfl rfl rfl rfl rfl fun a inside => ?_
  rw [refill_size] at inside
  rw [refill_byte,if_pos inside,refill_byte,if_pos inside,same a inside]

@[simp] theorem resize_same : node.resize node.size = node := by
  refine Node.ext rfl rfl rfl rfl rfl fun a inside => ?_
  rw [resize_byte]
  exact if_pos inside

end

end Node

abbrev Try := Except (Fault Unit)

/-- What the layers above work on. `inode` also tells what `inode_getinfo` makes of a number
outside the inode list, where it goes by whatever its buffers hold. `stack` is what an
uninitialised buffer holds. `frees` is a history variable, the numbers `inode_free` was called
with, the latest first; no function reads it. -/
structure Store where
  inode : Int → Option Node
  limit : Nat
  freeInodes : List Int
  freeBlocks : Nat
  stack : Block
  frees : List Int

namespace Store

/-- The store with the inode `inumber` replaced. -/
def set (s : Store) (inumber : Int) (node : Node) : Store :=
  { s with inode := Function.update s.inode inumber (some node) }

section
variable (s : Store) (inumber : Int) (node : Node)

@[simp] theorem set_limit : (s.set inumber node).limit = s.limit := rfl
@[simp] theorem set_freeInodes : (s.set inumber node).freeInodes = s.freeInodes := rfl
@[simp] theorem set_freeBlocks : (s.set inumber node).freeBlocks = s.freeBlocks := rfl
@[simp] theorem set_stack : (s.set inumber node).stack = s.stack := rfl
@[simp] theorem set_frees : (s.set inumber node).frees = s.frees := rfl
@[simp] theorem set_inode_self : (s.set inumber node).inode inumber = some node :=
  Function.update_self ..

theorem set_inode_ne {other : Int} (differ : other ≠ inumber) :
    (s.set inumber node).inode other = s.inode other := Function.update_of_ne differ ..

theorem set_set (node' : Node) : (s.set inumber node).set inumber node' = s.set inumber node' := by
  simp [set]

theorem set_with (node' : Node) (space : Nat) :
    ({ s.set inumber node with freeBlocks := space } : Store).set inumber node' =
      { s.set inumber node' with freeBlocks := space } := by
  simp [set]

theorem set_same (named : s.inode inumber = some node) : s.set inumber node = s := by
  rw [set,← named,Function.update_eq_self]

end

/-- A change of one inode; `-1` when the number names none. -/
def modify (s : Store) (inumber : Int) (change : Node → Node) : Int × Store :=
  match s.inode inumber with
  | none => (-1,s)
  | some node => (0,s.set inumber (change node))

def inodeChmod (s : Store) (inumber : Int) (mode : Nat) : Int × Store :=
  s.modify inumber fun node => { node with mode := mode }

/-- An `owner` or `group` of `~0` leaves the old one. -/
def inodeChown (s : Store) (inumber : Int) (owner group : Nat) : Int × Store :=
  s.modify inumber fun node => { node with
    owner := if owner ≠ 2 ^ 32 - 1 then owner else node.owner
    group := if group ≠ 2 ^ 32 - 1 then group else node.group }

/-- Only the time stamps change. -/
def inodeUtime (s : Store) (inumber : Int) : Int × Store := s.modify inumber id

/-- Returns the new `nlinks`. -/
def inodeLink (s : Store) (inumber : Int) : Int × Store :=
  match s.inode inumber with
  | none => (-1,s)
  | some node => (node.nlinks + 1,s.set inumber { node with nlinks := node.nlinks + 1 })

/-- `nlinks--` of a `nlink_t`. -/
def pred (nlinks : Nat) : Nat := if nlinks = 0 then 2 ^ 64 - 1 else nlinks - 1

def inodeUnlink (s : Store) (inumber : Int) : Int × Store :=
  match s.inode inumber with
  | none => (-1,s)
  | some node => (pred node.nlinks,s.set inumber { node with nlinks := pred node.nlinks })

section
variable [Geometry]

/-- The blocks of an inode of this size, without the inode's own. -/
def cost (size : Int) : Nat := footprint (blockcount size)

def inodeSetsize (s : Store) (inumber size : Int) : Int × Store :=
  match s.inode inumber with
  | none => (-1,s)
  | some node =>
    if blockcount (min size maxFilesize) < 0 then (-1,s)
    else
      let newsize := extent node.size size s.freeBlocks
      (newsize,{ s.set inumber (node.resize newsize) with
        freeBlocks := s.freeBlocks + cost node.size - cost newsize })

def freshNode : Node := ⟨0o777,0,0,0,0,[],rfl⟩

def inodeAllocate (s : Store) : Int × Store :=
  match s.freeInodes with
  | [] => (-1,s)
  | inumber :: rest =>
    if s.freeBlocks = 0 then (-1,s)
    else (inumber,{ s.set inumber freshNode with
      freeInodes := rest
      freeBlocks := s.freeBlocks - 1 })

def inodeFree (s : Store) (inumber : Int) : Int × Store :=
  let s := { s with frees := inumber :: s.frees }
  match s.inode inumber with
  | none => (-1,s)
  | some node =>
    if node.nlinks ≠ 0 then (-1,s)
    else (0,{ s with
      inode := Function.update s.inode inumber none
      freeInodes := inumber :: s.freeInodes
      freeBlocks := s.freeBlocks + cost node.size + 1 })

/-- The loop of `inode_write`: zeros from `pos` to `zeroEndpos`, then the caller's data. -/
def writeRange (s : Store) (inumber : Int) (node : Node) (pos zeroEndpos endpos : Int)
    (data : Option Block) : Try (Int × Store) :=
  if endpos ≤ pos then .ok (0,s)
  else do
    check () (endpos - zeroEndpos ≥ 0)
    .ok (endpos - zeroEndpos,s.set inumber (node.refill node.size fun a =>
      if pos ≤ a ∧ a < zeroEndpos then 0
      else if zeroEndpos ≤ a ∧ a < endpos then source data (a - zeroEndpos).toNat
      else node.byte a))

/-- `data` is the memory at the caller's pointer, `none` for a null pointer, which stands for
zeros. A position of `-1` appends. -/
def inodeWrite (s : Store) (inumber pos : Int) (data : Option Block) (size : Int) :
    Try (Int × Store) :=
  match s.inode inumber with
  | none => .ok (-1,s)
  | some node =>
    let pos := if pos = -1 then node.size else pos
    let endpos := pos + size
    let zeroEndpos := pos
    if endpos > node.size then do
      let pos := if pos > node.size then node.size else pos
      let (newsize,s) := s.inodeSetsize inumber endpos
      if newsize < 0 then .ok (-1,s)
      else
        let node := node.resize newsize
        check () (endpos ≥ newsize)
        if endpos > newsize then
          s.writeRange inumber node pos (if zeroEndpos < newsize then newsize else zeroEndpos)
            newsize data
        else s.writeRange inumber node pos zeroEndpos endpos data
    else s.writeRange inumber node pos zeroEndpos endpos data

/-- Returns the count and the caller's buffer afterwards. -/
def inodeRead (s : Store) (inumber pos : Int) (data : Block) (size : Int) : Int × Block :=
  match s.inode inumber with
  | none => (-1,data)
  | some node =>
    let endpos := min (pos + size) node.size
    if endpos ≤ pos then (0,data)
    else (endpos - pos,copyBytes data 0 node.byte pos.toNat (endpos - pos).toNat)

/-- Here `inodeSetsize` pads with the zeros that `inode_truncate` has `inode_write` put there. -/
def inodeTruncate (s : Store) (inumber size : Int) : Int × Store := s.inodeSetsize inumber size

end

end Store

end CandyFs

/-! What the sizes come to. -/
namespace CandyFs
open Bytes ByteList

variable [Geometry] {len endpos : Int} {n space : Nat}

theorem attainable_all {old new : Int} (nonneg : 0 ≤ new)
    (enough : footprint new ≤ space + footprint old) : (attainable old new space : Int) = new := by
  have cast : (new.toNat : Int) = new := Int.toNat_of_nonneg nonneg
  have found : attainable old new space = new.toNat :=
    Nat.findGreatest_eq (by rw [cast]; exact enough)
  rw [found,cast]

theorem extent_cut (nonneg : 0 ≤ endpos) (le : endpos ≤ len) (top : len ≤ maxFilesize) :
    extent len endpos space = endpos := by
  have small : min endpos (maxFilesize : Int) = endpos := by omega
  have all := attainable_all (blockcount_nonneg nonneg)
    ((footprint_mono (blockcount_mono nonneg le)).trans (Nat.le_add_left _ space))
  rw [extent,small,if_pos all]

namespace Store

/-- There is room for a file of `size` bytes to grow to `newsize`. -/
def Affords (space : Nat) (size newsize : Int) : Prop :=
  newsize ≤ maxFilesize ∧ cost newsize ≤ space + cost size

instance (size newsize : Int) : Decidable (Affords space size newsize) :=
  inferInstanceAs (Decidable (_ ∧ _))

end Store
open Store

theorem extent_afforded (nonneg : 0 ≤ endpos) (afforded : Affords space len endpos) :
    extent len endpos space = endpos := by
  obtain ⟨top,enough⟩ := afforded
  have small : min endpos (maxFilesize : Int) = endpos := by omega
  rw [extent,small,if_pos (attainable_all (blockcount_nonneg nonneg) enough)]

theorem extent_stuck (top : (n * blocksize : Int) ≤ maxFilesize)
    (short : ¬Affords space (n * blocksize) ((n + 1 : Nat) * blocksize)) :
    extent (n * blocksize) ((n + 1 : Nat) * blocksize) space = n * blocksize := by
  have large := blocksize_large
  have same : ((firstUnreachableBlock : Nat) : Int) * blocksize = maxFilesize := by
    rw [maxFilesize,Nat.cast_mul]
  by_cases fits : ((n + 1 : Nat) * blocksize : Int) ≤ maxFilesize
  · have small : min ((n + 1 : Nat) * blocksize : Int) maxFilesize = (n + 1 : Nat) * blocksize := by
      omega
    have costly : ¬footprint (n + 1 : Nat) ≤ space + footprint n := by
      simpa only [Affords,cost,blockcount_mul,fits,true_and] using short
    have found : attainable n (n + 1 : Nat) space = n := by
      refine Nat.findGreatest_eq_iff.mpr ⟨by omega,fun _ => Nat.le_add_left _ _,?_⟩
      intro k above below
      obtain rfl : k = n + 1 := by omega
      exact costly
    rw [extent,small,blockcount_mul,blockcount_mul,found,if_neg (by omega)]
  · have full : (n * blocksize : Int) = maxFilesize := by
      rw [← same] at top fits ⊢
      have := le_of_mul_le_mul_right top (by omega : (0 : Int) < blocksize)
      rw [not_le] at fits
      have := lt_of_mul_lt_mul_right fits (by omega)
      have : (n : Int) = firstUnreachableBlock := by omega
      rw [this]
    have small : min ((n + 1 : Nat) * blocksize : Int) maxFilesize = n * blocksize := by omega
    have all : (attainable n n space : Int) = n := attainable_all (by omega) (Nat.le_add_left _ _)
    rw [extent,small,blockcount_mul,if_pos all]

namespace Store

theorem cost_zero : cost 0 = 0 := by
  have zero : blockcount 0 = 0 := by simpa using blockcount_mul 0
  rw [cost,zero]
  exact Finset.sum_eq_zero fun slot inside =>
    treeSize_none (slotStart_nonneg (Finset.mem_range.mp inside))

/-- What holds of an inode store at any time. A number outside the inode list is negative. -/
structure Sound (s : Store) : Prop where
  used : ∀ n node, 0 ≤ n → s.inode n = some node → n < s.limit ∧ node.size ≤ maxFilesize
  free : ∀ n ∈ s.freeInodes, 0 ≤ n ∧ n < s.limit ∧ s.inode n = none
  nodup : s.freeInodes.Nodup
  fits : (s.limit : Int) < 2 ^ 63

/-- The store once the inode `inumber`, the first free one, is in use. -/
def adopt (s : Store) (inumber : Int) (rest : List Int) (node : Node) : Store :=
  { s.set inumber node with
    freeInodes := rest
    freeBlocks := s.freeBlocks - 1 - cost node.size }

section
variable {s : Store} {inumber : Int} {rest : List Int} {node : Node}

@[simp] theorem adopt_inode_self : (s.adopt inumber rest node).inode inumber = some node :=
  Function.update_self ..

omit [Geometry] in
theorem inodeAllocate_none (none : s.freeInodes = [] ∨ s.freeBlocks = 0) :
    s.inodeAllocate = (-1,s) := by
  rw [inodeAllocate]
  split
  · rfl
  · rename_i first
    exact if_pos (none.resolve_left (by simp [first]))

theorem inodeAllocate_some (first : s.freeInodes = inumber :: rest) (room : s.freeBlocks ≠ 0) :
    s.inodeAllocate = (inumber,s.adopt inumber rest freshNode) := by
  have size : freshNode.size = 0 := rfl
  rw [inodeAllocate,first]
  dsimp only
  rw [if_neg room,adopt,size,cost_zero,Nat.sub_zero]

theorem inodeChmod_adopt (mode : Nat) : (s.adopt inumber rest node).inodeChmod inumber mode =
    (0,s.adopt inumber rest { node with mode := mode }) := by
  rw [inodeChmod,modify,adopt_inode_self]
  dsimp only
  rw [adopt,adopt,set,set]
  simp only [Function.update_idem]
  rfl

theorem inodeFree_adopt (first : s.freeInodes = inumber :: rest) (unused : s.inode inumber = none)
    (unlinked : node.nlinks = 0) (room : 1 + cost node.size ≤ s.freeBlocks) :
    (s.adopt inumber rest node).inodeFree inumber =
      (0,{ s with frees := inumber :: s.frees }) := by
  have blocks : s.freeBlocks - 1 - cost node.size + cost node.size + 1 = s.freeBlocks := by omega
  have number : Function.update s.inode inumber none = s.inode := by
    rw [← unused,Function.update_eq_self]
  rw [inodeFree]
  simp only [adopt_inode_self]
  rw [if_neg (not_not.mpr unlinked)]
  simp only [adopt,set,Function.update_idem,number,blocks,← first]

end

end Store

end CandyFs
