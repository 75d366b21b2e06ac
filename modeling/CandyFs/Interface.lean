import CandyFs.StoreCalls

/-! The calls of `inode.c` as an interface. The disk answers them as the store it is represented by
does, so nothing but the store can be told of a disk through them.
-/
namespace CandyFs
open Bytes Finset Client

inductive Request where
  | getinfo (inumber : Int)
  | allocate
  | free (inumber : Int)
  | read (inumber pos : Int) (data : Block) (size : Int)
  | write (inumber pos : Int) (data : Option Block) (size : Int)
  | truncate (inumber size : Int)
  | chmod (inumber : Int) (mode : Nat)
  | chown (inumber : Int) (owner group : Nat)
  | utime (inumber : Int) (lastAccess lastChange : Option Timespec)
  | link (inumber : Int)
  | unlink (inumber : Int)

/-- `inode_info_t`, less its time stamps. -/
structure Info where
  mode : Nat
  owner : Nat
  group : Nat
  nlinks : Nat
  size : Int
  deriving DecidableEq

def Node.info (node : Node) : Info := ⟨node.mode,node.owner,node.group,node.nlinks,node.size⟩

/-- The count of a read comes with the buffer; `nlink_t` is unsigned. -/
def Request.Reply : Request → Type
  | .getinfo _ => Option Info
  | .read _ _ _ _ => Int × Block
  | .link _ => Nat
  | .unlink _ => Nat
  | _ => Int

section
variable [Geometry]

/-- What the caller of `inode_getinfo` finds in its buffer. -/
def infoRead : Int × Block → Option Info
  | (res,info) =>
    if res < 0 then none
    else some ⟨Inode.mode info,Inode.owner info,Inode.group info,Inode.nlinks info,word info Inode.size⟩

def World.answer (w : World) : (request : Request) → Run (request.Reply × World)
  | .getinfo inumber => .ok (infoRead (inodeGetinfo w inumber w.stack),w)
  | .allocate => .ok (inodeAllocate w)
  | .free inumber => inodeFree w inumber
  | .read inumber pos data size => do
    let (count,data,w) ← inodeRead w inumber pos data size
    .ok ((count,data),w)
  | .write inumber pos data size => inodeWrite w inumber pos data size
  | .truncate inumber size => inodeTruncate w inumber size
  | .chmod inumber mode => .ok (inodeChmod w inumber mode)
  | .chown inumber owner group => .ok (inodeChown w inumber owner group)
  | .utime inumber lastAccess lastChange => .ok (inodeUtime w inumber lastAccess lastChange)
  | .link inumber => .ok (inodeLink w inumber)
  | .unlink inumber => .ok (inodeUnlink w inumber)

def Store.answer (s : Store) : (request : Request) → Try (request.Reply × Store)
  | .getinfo inumber => .ok ((s.inode inumber).map Node.info,s)
  | .allocate => .ok s.inodeAllocate
  | .free inumber => .ok (s.inodeFree inumber)
  | .read inumber pos data size => .ok (s.inodeRead inumber pos data size,s)
  | .write inumber pos data size => s.inodeWrite inumber pos data size
  | .truncate inumber size => .ok (s.inodeTruncate inumber size)
  | .chmod inumber mode => .ok (s.inodeChmod inumber mode)
  | .chown inumber owner group => .ok (s.inodeChown inumber owner group)
  | .utime inumber _ _ => .ok (s.inodeUtime inumber)
  | .link inumber => .ok (ulong (s.inodeLink inumber).1,(s.inodeLink inumber).2)
  | .unlink inumber => .ok (ulong (s.inodeUnlink inumber).1,(s.inodeUnlink inumber).2)

def diskMachine : Machine Request.Reply World (Fault Bool) := ⟨World.answer,fun w => .abort w.exhausted⟩
def storeMachine : Machine Request.Reply Store (Fault Unit) := ⟨Store.answer,fun _ => .abort ()⟩

/-- A call on a number of the inode list, with arguments in range, the end of what is read or written
being an `off_t`. A growth costs the file none of its index blocks, and a count of links does not
overflow. -/
def Request.Admitted (ilistSize : Nat) (s : Store) : Request → Prop
  | .getinfo inumber => Numbered ilistSize inumber
  | .allocate => True
  | .free inumber => Numbered ilistSize inumber
  | .read inumber pos _ size => Numbered ilistSize inumber ∧ 0 ≤ pos ∧ Fits (pos + size)
  | .write inumber pos _ size => Numbered ilistSize inumber ∧ (0 ≤ pos ∨ pos = -1) ∧ 0 ≤ size ∧
      ∀ node, s.inode inumber = some node →
        Fits ((if pos = -1 then node.size else pos) + size) ∧
          s.Solid inumber ((if pos = -1 then node.size else pos) + size)
  | .truncate inumber size => Numbered ilistSize inumber ∧ 0 ≤ size ∧ s.Solid inumber size
  | .chmod inumber mode => Numbered ilistSize inumber ∧ mode < 2 ^ 32
  | .chown inumber owner group => Numbered ilistSize inumber ∧ owner < 2 ^ 32 ∧ group < 2 ^ 32
  | .utime inumber _ _ => Numbered ilistSize inumber
  | .link inumber => Numbered ilistSize inumber ∧
      ∀ node, s.inode inumber = some node → node.nlinks + 1 < 2 ^ 64
  | .unlink inumber => Numbered ilistSize inumber

section
variable {w w' : World} {ilistSize : Nat} {s : Store} {α : Type}

theorem Represents.answer (h : Represents w ilistSize s) (request : Request)
    (admitted : request.Admitted ilistSize s) :
    Alike (fun w s => Represents w ilistSize s) (w.answer request) (s.answer request) := by
  cases request with
  | getinfo inumber =>
    have told := h.getinfo admitted w.stack
    have same : infoRead (inodeGetinfo w inumber w.stack) = (s.inode inumber).map Node.info := by
      rw [told,h.inode inumber admitted,World.nodeAt]
      by_cases used : 0 < inoGet w inumber
      · have copied (off k : Nat) (inside : off + k ≤ 96) : field (copyBytes w.stack 0
            (w.block (inoGet w inumber)) 0 96) off k = field (w.block (inoGet w inumber)) off k :=
          field_congr _ _ _ _ fun j _ high => by
            rw [copyBytes_inside _ _ _ _ _ _ (by omega) (by omega),Nat.zero_add,Nat.sub_zero]
        simp only [if_pos used,infoRead,Option.map_some,Node.info,World.node_mode,World.node_owner,
          World.node_group,World.node_nlinks,World.node_size,lt_irrefl,if_false,Inode.mode,Inode.owner,
          Inode.group,Inode.nlinks,word,Inode.size]
        rw [copied 0 4 (by omega),copied 4 4 (by omega),copied 8 4 (by omega),copied 16 8 (by omega),
          copied (8 * 3) 8 (by omega)]
      · simp only [if_neg used,infoRead]
        rfl
    simp only [World.answer,Store.answer,same]
    exact .ok h
  | allocate =>
    obtain ⟨w',ran,h'⟩ := h.allocate
    simp only [World.answer,Store.answer,ran]
    exact .ok h'
  | free inumber =>
    obtain ⟨w',ran,h'⟩ := h.freed admitted
    simp only [World.answer,Store.answer,ran]
    exact .ok h'
  | read inumber pos data size =>
    obtain ⟨w',ran,h'⟩ := h.read admitted.1 admitted.2.1 admitted.2.2 data
    simp only [World.answer,Store.answer,ran,ok_bind]
    exact .ok h'
  | write inumber pos data size =>
    obtain ⟨numbered,place,sizeNonneg,room⟩ := admitted
    exact h.write numbered place sizeNonneg data room
  | truncate inumber size =>
    obtain ⟨numbered,nonneg,solid⟩ := admitted
    obtain ⟨w',ran,h'⟩ := h.truncate numbered nonneg solid
    simp only [World.answer,Store.answer,ran]
    exact .ok h'
  | chmod inumber mode =>
    obtain ⟨w',ran,h'⟩ := h.chmod admitted.1 admitted.2
    simp only [World.answer,Store.answer,ran]
    exact .ok h'
  | chown inumber owner group =>
    obtain ⟨w',ran,h'⟩ := h.chown admitted.1 admitted.2.1 admitted.2.2
    simp only [World.answer,Store.answer,ran]
    exact .ok h'
  | utime inumber lastAccess lastChange =>
    obtain ⟨w',ran,h'⟩ := h.utime admitted lastAccess lastChange
    simp only [World.answer,Store.answer,ran]
    exact .ok h'
  | link inumber =>
    obtain ⟨w',ran,h'⟩ := h.link admitted.1 admitted.2
    simp only [World.answer,Store.answer,ran]
    exact .ok h'
  | unlink inumber =>
    obtain ⟨w',ran,h'⟩ := h.unlink admitted
    simp only [World.answer,Store.answer,ran]
    exact .ok h'

/-- Whatever is done through the calls of `inode.c`, in any order and depending on their answers,
ends on the disk as it does on the store, and leaves a sound disk that the store represents. -/
theorem disk_refines (h : Represents w ilistSize s) (program : Program Request.Reply α)
    (admitted : program.Admitted storeMachine (fun s request => request.Admitted ilistSize s) s) :
    Alike (fun w s => Represents w ilistSize s) (program.run diskMachine w)
      (program.run storeMachine s) :=
  program.run_alike (fun _ _ request h admitted => h.answer request admitted) w s h admitted

/-- What lies in free blocks or behind the end of a file never comes to light through the calls of
`inode.c`, also when space runs out. -/
theorem remains_hidden {nodes : List Int} {free : Multiset Int} (r : Remains w w' ilistSize nodes)
    (list : FreeList w nodes free) (h : Represents w ilistSize s) (program : Program Request.Reply α)
    (admitted : program.Admitted storeMachine (fun s request => request.Admitted ilistSize s) s) :
    Alike (fun w w' => ∃ s, Represents w ilistSize s ∧ Represents w' ilistSize s)
      (program.run diskMachine w) (program.run diskMachine w') :=
  program.run_twin (fun _ _ request h admitted => h.answer request admitted)
    (fun _ _ request h admitted => h.answer request admitted) h (r.represents list h) admitted

/-- The store of a fresh disk. -/
def Store.fresh (nblocks ilistSize : Nat) : Store where
  inode := fun _ => none
  limit := ilistSize * inumsPerIlistBlock
  freeInodes := (List.range (ilistSize * inumsPerIlistBlock)).map Nat.cast
  freeBlocks := nblocks - (ilistSize + 1)
  stack := fun _ => 0
  frees := []

theorem mkfs_represents {disk : World} (some : 1 ≤ ilistSize) (room : ilistSize + 1 < disk.nblocks) :
    ∃ w, mkfsStorage disk ilistSize = .ok w ∧
      Represents w ilistSize (Store.fresh disk.nblocks ilistSize) := by
  obtain ⟨w,made,_,_,_,storage⟩ := mkfsStorage_spec some room
  have unused (n : Int) (numbered : Numbered ilistSize n) : inoGet w n ≤ 0 := by
    refine (storage.inodes.free n numbered).mpr (.inl ?_)
    exact List.mem_map.mpr ⟨n.toNat,List.mem_range.mpr numbered.toNat_lt,Int.toNat_of_nonneg numbered.1⟩
  refine ⟨w,made,⟨_,storage,?_⟩,fun n numbered used => ?_,rfl,fun n numbered => ?_,fun _ _ => rfl⟩
  · have card : (Multiset.Ico (ilistSize + 1 : Int) disk.nblocks).card =
        (disk.nblocks - (ilistSize + 1 : Int)).toNat := Int.card_Ico _ _
    rw [card]
    dsimp only [Store.fresh]
    omega
  · have := unused n numbered
    omega
  · rw [World.nodeAt_none (unused n numbered)]
    rfl

end

end

end CandyFs

/-! A new file on a fresh disk of six blocks. -/
namespace CandyFs
open Bytes Client
attribute [local instance] Geometry.small

/-- Ten bytes are written behind a gap, and the file is read. -/
def useNew : Program Request.Reply (Int × UInt8 × UInt8) :=
  .ask .allocate fun inumber => .ask (.write inumber 290 (some fun _ => 7) 10) fun _ =>
    .ask (.read inumber 0 (fun _ => 1) 300) fun (count,data) => .done (count,data 289,data 290)

def tinyFresh : Store := Store.fresh tinyDisk.nblocks 1

theorem tinyFresh_allocates {inumber : Int} {s : Store}
    (allocated : storeMachine.answer tinyFresh .allocate = .ok (inumber,s)) :
    inumber = 0 ∧ s.inode 0 = some Store.freshNode ∧ s.freeBlocks = 3 := by
  cases allocated
  exact ⟨rfl,rfl,rfl⟩

theorem useNew_admitted :
    useNew.Admitted storeMachine (fun s request => request.Admitted 1 s) tinyFresh := by
  refine ⟨trivial,fun inumber s allocated => ?_⟩
  obtain ⟨rfl,named,blocks⟩ := tinyFresh_allocates allocated
  refine ⟨⟨by decide,.inl (by decide),by decide,fun node found => ?_⟩,fun _ _ _ =>
    ⟨⟨by decide,le_rfl,by decide⟩,fun _ _ _ => trivial⟩⟩
  obtain rfl := Option.some.inj (named.symm.trans found)
  refine ⟨by decide,fun node found lost => ?_⟩
  obtain rfl := Option.some.inj (named.symm.trans found)
  rw [blocks] at lost
  exact absurd lost.2.2 (by decide +kernel)

set_option maxRecDepth 100000 in
theorem useNew_value : ∃ s, useNew.run storeMachine tinyFresh = .ok ((300,0,7),s) := by
  have ran : (match useNew.run storeMachine tinyFresh with
      | .ok (value,_) => decide (value = (300,0,7))
      | .error _ => false) = true := by decide +kernel
  split at ran
  · rename_i value s same
    exact ⟨s,by rw [same,of_decide_eq_true ran]⟩
  · cases ran

theorem tinyDisk_represents : ∃ w, mkfsStorage tinyDisk 1 = .ok w ∧ Represents w 1 tinyFresh :=
  mkfs_represents (le_refl 1) (by decide)

theorem disk_refines_tiny : ∃ w w' s, mkfsStorage tinyDisk 1 = .ok w ∧
    useNew.run diskMachine w = .ok ((300,0,7),w') ∧ Represents w' 1 s := by
  obtain ⟨w,made,h⟩ := tinyDisk_represents
  obtain ⟨s,value⟩ := useNew_value
  have alike := disk_refines h useNew useNew_admitted
  rw [value] at alike
  obtain ⟨w',ran,h'⟩ := alike.ok_right
  exact ⟨w,w',s,made,ran,h'⟩

set_option maxRecDepth 100000 in
theorem tinyDisk_chain : ∃ w, mkfsStorage tinyDisk 1 = .ok w ∧
    Chain w (word (w.block 0) Superblock.freelistStart) [2] := by
  have ran : (match mkfsStorage tinyDisk 1 with
      | .ok w => decide (word (w.block 0) Superblock.freelistStart = 2) &&
        decide (word (w.block 2) FreelistBlock.next = eof)
      | .error _ => false) = true := by decide +kernel
  split at ran
  · rename_i w made
    simp only [Bool.and_eq_true,decide_eq_true_eq] at ran
    exact ⟨w,made,ran.1,by decide,ran.2⟩
  · cases ran

/-- The blocks 3 to 5 scribbled over. -/
def World.scribble (w : World) : World := ((w.put 3 fun _ => 1).put 4 fun _ => 1).put 5 fun _ => 1

set_option maxRecDepth 100000 in
theorem scribble_value {w : World} (made : mkfsStorage tinyDisk 1 = .ok w) :
    ∃ w', useNew.run diskMachine w.scribble = .ok ((300,0,7),w') := by
  have ran : (match mkfsStorage tinyDisk 1 with
      | .ok w => match useNew.run diskMachine w.scribble with
        | .ok (value,_) => decide (value = (300,0,7))
        | .error _ => false
      | .error _ => false) = true := by decide +kernel
  rw [made] at ran
  dsimp only at ran
  split at ran
  · rename_i value w' same
    exact ⟨w',by rw [same,of_decide_eq_true ran]⟩
  · cases ran

/-- The fresh disk with all its blocks scribbled over that files can get. -/
theorem remains_hidden_tiny : ∃ w w1 w2, mkfsStorage tinyDisk 1 = .ok w ∧
    useNew.run diskMachine w = .ok ((300,0,7),w1) ∧
    useNew.run diskMachine w.scribble = .ok ((300,0,7),w2) := by
  obtain ⟨w,made,h⟩ := tinyDisk_represents
  obtain ⟨w0,made0,_,_,_,storage⟩ := mkfsStorage_spec (le_refl 1)
    (show 1 + 1 < tinyDisk.nblocks by decide)
  obtain rfl : w0 = w := Except.ok.inj (made0.symm.trans made)
  obtain ⟨w1,made1,chain⟩ := tinyDisk_chain
  obtain rfl : w1 = w0 := Except.ok.inj (made1.symm.trans made0)
  obtain ⟨nodes,list⟩ := storage.list
  obtain rfl := list.chain.unique chain
  have r : Remains w1 w1.scribble 1 [2] := by
    refine ⟨rfl,fun b low spare _ => ?_,fun n numbered used => ?_⟩
    · have kept (c : Int) (inside : c = 3 ∨ c = 4 ∨ c = 5) : b ≠ c := by
        rintro rfl
        refine spare.elim (fun outside => outside ?_) fun node => ?_
        · rw [← list.blocks]
          exact Multiset.mem_coe.mpr (by rcases inside with rfl | rfl | rfl <;> decide)
        · have := List.mem_singleton.mp node
          omega
      rw [World.scribble,put_block_ne _ _ _ (by decide) low (kept 5 (by simp)),
        put_block_ne _ _ _ (by decide) low (kept 4 (by simp)),
        put_block_ne _ _ _ (by decide) low (kept 3 (by simp))]
    · have := (storage.inodes.free n numbered).mpr (.inl (List.mem_map.mpr
        ⟨n.toNat,List.mem_range.mpr numbered.toNat_lt,Int.toNat_of_nonneg numbered.1⟩))
      omega
  have alike := remains_hidden r list h useNew useNew_admitted
  obtain ⟨w2,value⟩ := scribble_value made
  rw [value] at alike
  obtain ⟨w3,ran,_⟩ := alike.ok_right
  exact ⟨w1,w3,w2,made,ran,value⟩

end CandyFs
