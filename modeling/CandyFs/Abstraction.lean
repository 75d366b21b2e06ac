import CandyFs.Truncate
import CandyFs.Allocate
import CandyFs.Store

/-! What of a disk the layers above can see: its inodes with their bytes, the numbers to be handed
out and the count of free blocks. What each call does to the disk is what the call of the same
name does to that store.
-/
namespace CandyFs
open Bytes ByteList Finset

section
variable [Geometry]

/-- The inode with these contents, and the bytes of its file. -/
def World.node (w : World) (inode : Block) : Node where
  mode := Inode.mode inode
  owner := Inode.owner inode
  group := Inode.group inode
  nlinks := Inode.nlinks inode
  size := word inode Inode.size
  data := contents w inode
  filled := by rw [contents,List.length_map,List.length_range]

/-- What the number `n` names. -/
def World.nodeAt (w : World) (n : Int) : Option Node :=
  if 0 < inoGet w n then some (w.node (w.block (inoGet w n))) else none

/-- The disk is sound, and the store tells what can be seen of it. -/
structure Represents (w : World) (ilistSize : Nat) (s : Store) : Prop where
  sound : ∃ free, Storage w ilistSize free s.freeInodes ∧ s.freeBlocks = free.card
  mapped : ∀ n, Numbered ilistSize n → 0 < inoGet w n →
    FileMapped w (w.block (inoGet w n)) (blockcount (word (w.block (inoGet w n)) Inode.size))
  limit : s.limit = ilistSize * inumsPerIlistBlock
  inode : ∀ n, Numbered ilistSize n → s.inode n = w.nodeAt n
  beyond : ∀ n, (s.limit : Int) ≤ n → s.inode n = none

section
variable {w w' : World} {ilistSize : Nat} {n : Int} {inode inode' : Block} {s : Store}
  {free free' : Multiset Int} {numbers numbers' : List Int} {node : Node}

@[simp] theorem World.node_size : (w.node inode).size = word inode Inode.size := by
  rw [World.node]

@[simp] theorem World.node_mode : (w.node inode).mode = Inode.mode inode := by
  rw [World.node]

@[simp] theorem World.node_owner : (w.node inode).owner = Inode.owner inode := by
  rw [World.node]

@[simp] theorem World.node_group : (w.node inode).group = Inode.group inode := by
  rw [World.node]

@[simp] theorem World.node_nlinks : (w.node inode).nlinks = Inode.nlinks inode := by
  rw [World.node]

@[simp] theorem World.node_data : (w.node inode).data = contents w inode := by
  rw [World.node]

theorem World.node_byte {a : Nat} : (w.node inode).byte a =
    if (a : Int) < word inode Inode.size then fileByte w inode a else 0 := by
  rw [Node.byte,World.node_data,contents,List.getD_eq_getElem?_getD,getElem?_range_map]
  by_cases inside : (a : Int) < word inode Inode.size
  · rw [if_pos inside,if_pos (by omega)]
    rfl
  · rw [if_neg inside,if_neg (by omega)]
    rfl

theorem World.nodeAt_some (used : 0 < inoGet w n) :
    w.nodeAt n = some (w.node (w.block (inoGet w n))) := if_pos used

theorem World.nodeAt_none (unused : inoGet w n ≤ 0) : w.nodeAt n = none := if_neg (not_lt.mpr unused)

theorem World.node_congr (same : ∀ k, k < 24 → inode' k = inode k)
    (size : word inode' Inode.size = word inode Inode.size)
    (bytes : contents w' inode' = contents w inode) : w'.node inode' = w.node inode := by
  refine Node.ext ?_ ?_ ?_ ?_ (by rw [World.node_size,World.node_size,size]) fun a inside => ?_
  · exact field_congr _ _ _ _ fun k _ high => same k (by omega)
  · exact field_congr _ _ _ _ fun k _ high => same k (by omega)
  · exact field_congr _ _ _ _ fun k _ high => same k (by omega)
  · exact field_congr _ _ _ _ fun k _ high => same k (by omega)
  · rw [Node.byte,Node.byte,World.node_data,World.node_data,bytes]

theorem FreeSet.card_eq (h : FreeSet w free) (h' : FreeSet w free') : free.card = free'.card := by
  obtain ⟨_,list⟩ := h
  obtain ⟨_,list'⟩ := h'
  exact_mod_cast list.count.symm.trans list'.count

theorem Represents.named (h : Represents w ilistSize s) (numbered : Numbered ilistSize n)
    (used : 0 < inoGet w n) : s.inode n = some (w.node (w.block (inoGet w n))) := by
  rw [h.inode n numbered,World.nodeAt_some used]

theorem Represents.unnamed (h : Represents w ilistSize s) (numbered : Numbered ilistSize n)
    (unused : inoGet w n ≤ 0) : s.inode n = none := by
  rw [h.inode n numbered,World.nodeAt_none unused]

theorem Represents.kept (h : Represents w ilistSize s) {free : Multiset Int} {numbers : List Int}
    (storage : Storage w ilistSize free numbers) (numbered : Numbered ilistSize n)
    (used : 0 < inoGet w n) (same : Untouched w w' n) : w'.nodeAt n = w.nodeAt n ∧
      FileMapped w' (w'.block (inoGet w' n)) (blockcount (word (w'.block (inoGet w' n)) Inode.size)) := by
  have inode := (same.slots used).1
  have mapped := same.mapped used (h.mapped n numbered used)
  have bytes := same.sameContents used (storage.file n numbered used) (h.mapped n numbered used)
  rw [same.entry] at bytes mapped ⊢
  rw [World.nodeAt_some (by rw [same.entry]; exact used),World.nodeAt_some used,same.entry]
  refine ⟨congrArg some (World.node_congr (fun k _ => by rw [inode]) (by rw [inode]) bytes),?_⟩
  rwa [inode] at mapped ⊢

theorem Represents.change (h : Represents w ilistSize s) (numbered : Numbered ilistSize n)
    (storage : Storage w ilistSize free numbers) (storage' : Storage w' ilistSize free' numbers')
    (others : ∀ m, Numbered ilistSize m → m ≠ n → 0 < inoGet w m → Untouched w w' m)
    (unused : ∀ m, Numbered ilistSize m → m ≠ n → inoGet w m ≤ 0 → inoGet w' m ≤ 0)
    (mapped : 0 < inoGet w' n →
      FileMapped w' (w'.block (inoGet w' n)) (blockcount (word (w'.block (inoGet w' n)) Inode.size))) :
    Represents w' ilistSize { s with
      inode := Function.update s.inode n (w'.nodeAt n)
      freeInodes := numbers'
      freeBlocks := free'.card } := by
  have low := numbered.1
  have high := numbered.toNat_lt
  have limit := h.limit
  refine ⟨⟨free',storage',rfl⟩,fun m numbered' used => ?_,h.limit,fun m numbered' => ?_,fun m outside => ?_⟩
  · by_cases same : m = n
    · subst same
      exact mapped used
    · by_cases was : 0 < inoGet w m
      · exact (h.kept storage numbered' was (others m numbered' same was)).2
      · have := unused m numbered' same (not_lt.mp was)
        omega
  · by_cases same : m = n
    · subst same
      exact Function.update_self ..
    · dsimp only
      rw [Function.update_of_ne same]
      by_cases was : 0 < inoGet w m
      · rw [(h.kept storage numbered' was (others m numbered' same was)).1,h.inode m numbered']
      · rw [h.unnamed numbered' (not_lt.mp was),
          World.nodeAt_none (unused m numbered' same (not_lt.mp was))]
  · dsimp only at outside ⊢
    rw [Function.update_of_ne (by omega),h.beyond m outside]

theorem Represents.refile (h : Represents w ilistSize s) (storage : Storage w ilistSize free s.freeInodes)
    (numbered : Numbered ilistSize n) (used : 0 < inoGet w n)
    (moved : Moved w w' free (inoGet w n ::ₘ fileBlocks w (w.block (inoGet w n))) free'
      (inoGet w n ::ₘ fileBlocks w' (w'.block (inoGet w n))) (w'.exhausted = false))
    (file : IsFile (w'.block (inoGet w n)))
    (mapped : FileMapped w' (w'.block (inoGet w n)) (blockcount (word (w'.block (inoGet w n)) Inode.size)))
    (turned : w'.node (w'.block (inoGet w n)) = node) :
    Represents w' ilistSize { s.set n node with freeBlocks := free'.card } := by
  obtain ⟨number,renewed⟩ := moved.renewed storage numbered used file fun _ => mapped
  have step := h.change numbered storage (renewed.storage storage numbered).1
    (fun m numbered' differ _ => renewed.untouched storage numbered numbered' differ)
    (fun m numbered' differ unused => by
      rwa [(renewed.untouched storage numbered numbered' differ).entry])
    (fun _ => by rw [number]; exact mapped)
  rw [World.nodeAt_some (by rw [number]; exact used),number,turned] at step
  exact step

theorem Represents.rewritten (h : Represents w ilistSize s)
    (storage : Storage w ilistSize free s.freeInodes) (numbered : Numbered ilistSize n)
    (used : 0 < inoGet w n) (updated : Updated w (inoGet w n) free w')
    (mapped : FileMapped w' (w'.block (inoGet w n)) (blockcount (word (w'.block (inoGet w n)) Inode.size)))
    (list : FreeSet w' free') (turned : w'.node (w'.block (inoGet w n)) = node) :
    Represents w' ilistSize { s.set n node with freeBlocks := free'.card } := by
  obtain ⟨free'',held,moved⟩ := updated.held (storage.held numbered used)
  rw [← moved.list.card_eq list]
  exact h.refile storage numbered used moved ⟨held.names.magic,updated.sizeNonneg,updated.sizeTop⟩ mapped
    turned

theorem Represents.same (h : Represents w ilistSize s) (storage : Storage w ilistSize free s.freeInodes)
    (named : s.inode n = some node) : { s.set n node with freeBlocks := free.card } = s := by
  obtain ⟨free',storage',count⟩ := h.sound
  rw [Store.set_same _ _ _ named,storage.list.card_eq storage'.list,← count]

theorem Represents.getinfo (h : Represents w ilistSize s) (numbered : Numbered ilistSize n) (info : Block) :
    inodeGetinfo w n info = match s.inode n with
      | none => (-1,info)
      | some _ => (0,copyBytes info 0 (w.block (inoGet w n)) 0 96) := by
  obtain ⟨free,storage,_⟩ := h.sound
  by_cases used : 0 < inoGet w n
  · simp only [inodeGetinfo,(storage.held numbered used).names.load,h.named numbered used]
  · simp only [inodeGetinfo,storage.load_none (not_lt.mp used),h.unnamed numbered (not_lt.mp used)]

/-- The members of an inode that hold no size, no magic and no slot. -/
def Member (k : Nat) : Prop := k < 24 ∨ 32 ≤ k ∧ k < 96

/-- The node with the members of an inode in place of its own. -/
def Node.withMembers (node : Node) (inode : Block) : Node where
  __ := node
  mode := Inode.mode inode
  owner := Inode.owner inode
  group := Inode.group inode
  nlinks := Inode.nlinks inode

omit [Geometry] in
@[simp] theorem Node.withMembers_size : (node.withMembers inode).size = node.size := by
  rw [Node.withMembers]

omit [Geometry] in
@[simp] theorem Node.withMembers_data : (node.withMembers inode).data = node.data := by
  rw [Node.withMembers]

omit [Geometry] in
theorem Node.withMembers_eq {other : Node} (mode : other.mode = Inode.mode inode)
    (owner : other.owner = Inode.owner inode) (group : other.group = Inode.group inode)
    (nlinks : other.nlinks = Inode.nlinks inode) (size : other.size = node.size)
    (data : other.data = node.data) : other = node.withMembers inode :=
  Node.ext mode owner group nlinks (by rw [size,Node.withMembers_size])
    fun a _ => by rw [Node.byte,Node.byte,data,Node.withMembers_data]

theorem Represents.changeInode {α : Type} (h : Represents w ilistSize s)
    (numbered : Numbered ilistSize n) (used : 0 < inoGet w n) (failed : α) (result : Block → α)
    (change : Timespec → Block → Block) (node : Node)
    (stays : ∀ ts inode k, ¬Member k → change ts inode k = inode k)
    (turned : ∀ ts, node = (w.node (w.block (inoGet w n))).withMembers (change ts (w.block (inoGet w n)))) :
    ∃ w' ts, changeInode w n failed result change =
        (result (Inode.setTime (change ts (w.block (inoGet w n))) Inode.lastStatchange ts),w') ∧
      Represents w' ilistSize (s.set n node) := by
  obtain ⟨free,storage,count⟩ := h.sound
  have held := storage.held numbered used
  have low := held.names.low
  have high := held.names.high
  have file := storage.file n numbered used
  have mapped := h.mapped n numbered used
  obtain ⟨b,number⟩ : ∃ b, inoGet w n = b := ⟨_,rfl⟩
  rw [number] at held low high file mapped turned ⊢
  have ownedFile : Owned w (fileBlocks w (w.block b)) := held.ownedFile
  have fresh : b ∉ fileBlocks w (w.block b) :=
    (Multiset.nodup_cons.mp (Multiset.nodup_add.mp held.owned.1).2.1).1
  obtain ⟨x,made⟩ : ∃ x, Inode.setTime (change (w.clock 0) (w.block b)) Inode.lastStatchange (w.clock 0) = x :=
    ⟨_,rfl⟩
  have stamped (k : Nat) (other : k < 80 ∨ 96 ≤ k) : x k = change (w.clock 0) (w.block b) k := by
    rw [← made,Inode.setTime,setWord_outside _ _ _ _ (by simp only [Inode.lastStatchange]; omega),
      setWord_outside _ _ _ _ (by simp only [Inode.lastStatchange]; omega)]
  have kept (k : Nat) (other : 24 ≤ k ∧ k < 32 ∨ 96 ≤ k) : x k = w.block b k := by
    rw [stamped k (by omega),stays _ _ _ (by unfold Member; omega)]
  obtain ⟨w1,ticked⟩ : ∃ w1, { w with clock := fun i => w.clock (i + 1) } = w1 := ⟨_,rfl⟩
  have clocked : Edit w w1 (· = b) := by
    rw [← ticked]
    exact ⟨rfl,rfl,rfl,fun _ _ _ => rfl⟩
  have edit : Edit w (w1.put b x) (· = b) := clocked.trans (Edit.put x (by omega))
  have self : (w1.put b x).block b = x := put_block_self _ _ _
  have stored : diskWrite w1 (ulong b) x = w1.put b x :=
    diskWrite_block x (by omega) (by rw [clocked.nblocks]; exact high)
  generalize w1.put b x = w' at *
  have slots (slot : Nat) : slotPtr (w'.block b) slot = slotPtr (w.block b) slot := by
    rw [self]
    exact slotPtr_congr (fun k tail => kept k (by omega)) slot
  have same : ∀ c ∈ fileBlocks w (w.block b), w'.block c = w.block c := by
    intro c inside
    have positive := (ownedFile.2 c inside).1
    refine edit.block c (by omega) ?_
    rintro rfl
    exact fresh inside
  have size : word (w'.block b) Inode.size = word (w.block b) Inode.size := by
    rw [self]
    exact word_congr _ _ _ fun k low' high' => kept k (by simp only [Inode.size] at low' high'; omega)
  have magic : Inode.magic (w'.block b) = inodeMagic := by
    rw [← file.magic,self]
    exact field_congr _ _ _ _ fun k low' high' => kept k (by omega)
  have mapped' : FileMapped w' (w'.block b) (blockcount (word (w'.block b) Inode.size)) := by
    rw [size]
    exact fileMapped_frame slots same mapped
  have bytes : contents w' (w'.block b) = contents w (w.block b) := by
    have top := held.count_top
    have room := le_blockcount file.sizeNonneg
    refine contents_eq (by rw [size,length_contents file.sizeNonneg]) fun i inside => ?_
    have length := length_contents (w := w) file.sizeNonneg
    rw [getElem?_contents file.sizeNonneg,if_pos (by omega)]
    exact congrArg some ((FileKept.frame slots same mapped le_rfl).byte top (by omega) (by omega)).symm
  have moved : Moved w w' free (b ::ₘ fileBlocks w (w.block b)) free (b ::ₘ fileBlocks w' (w'.block b))
      (w'.exhausted = false) :=
    edit.moved held.list held.owned (fun c at' => at' ▸ Multiset.mem_cons_self _ _)
      (by rw [fileBlocks_congr slots same])
  have member (off k : Nat) (inside : off + k ≤ 24) :
      field x off k = field (change (w.clock 0) (w.block b)) off k :=
    field_congr _ _ _ _ fun j _ _ => stamped j (by omega)
  have turned' : w'.node (w'.block b) = node := by
    rw [turned (w.clock 0)]
    refine Node.ext ?_ ?_ ?_ ?_ (by simp only [World.node_size,Node.withMembers_size,size])
      fun a inside => ?_
    · rw [self]
      exact member 0 4 (by omega)
    · rw [self]
      exact member 4 4 (by omega)
    · rw [self]
      exact member 8 4 (by omega)
    · rw [self]
      exact member 16 8 (by omega)
    · rw [Node.byte,Node.byte,World.node_data,Node.withMembers_data,World.node_data,bytes]
  refine ⟨w',w.clock 0,?_,?_⟩
  · simp only [CandyFs.changeInode,held.names.load,now,made,ticked]
    rw [stored]
  · subst number
    have isFile : IsFile (w'.block (inoGet w n)) :=
      ⟨magic,by rw [size]; exact file.sizeNonneg,by rw [size]; exact file.sizeTop⟩
    have step := h.refile storage numbered used moved isFile mapped' turned'
    rw [← count] at step
    exact step

/-- The disk `w'` has what `w` has, but for the contents of free blocks that are no nodes of the free
list and what data blocks hold behind the end of their file. -/
structure Remains (w w' : World) (ilistSize : Nat) (nodes : List Int) : Prop where
  nblocks : w'.nblocks = w.nblocks
  block : ∀ b, 0 ≤ b → b ∉ freeSet w nodes ∨ b ∈ nodes →
    (∀ n, Numbered ilistSize n → 0 < inoGet w n → b ∉ fileLeaves w (w.block (inoGet w n))) →
    w'.block b = w.block b
  bytes : ∀ n, Numbered ilistSize n → 0 < inoGet w n →
    ∀ a, 0 ≤ a → a < word (w.block (inoGet w n)) Inode.size →
      fileByte w' (w.block (inoGet w n)) a = fileByte w (w.block (inoGet w n)) a

theorem Chain.unique {start : Int} {nodes nodes' : List Int} (one : Chain w start nodes)
    (two : Chain w start nodes') : nodes = nodes' := by
  induction nodes generalizing start nodes' with
  | nil =>
    cases nodes' with
    | nil => rfl
    | cons node rest => exact absurd (two.1.symm.trans one) two.2.1
  | cons node rest ih =>
    obtain ⟨first,proper,tail⟩ := one
    cases nodes' with
    | nil => exact absurd (first.symm.trans two) proper
    | cons node' rest' =>
      obtain ⟨first',_,tail'⟩ := two
      obtain rfl : node = node' := first.symm.trans first'
      rw [ih tail tail']

theorem FreeList.unique {nodes nodes' : List Int} (one : FreeList w nodes free)
    (two : FreeList w nodes' free') : nodes = nodes' ∧ free = free' := by
  have same := one.chain.unique two.chain
  exact ⟨same,by rw [one.blocks,two.blocks,same]⟩

section
variable {nodes : List Int}

theorem Remains.kept (r : Remains w w' ilistSize nodes) (storage : Storage w ilistSize free numbers)
    (list : FreeList w nodes free) : (∀ b : Int, 0 ≤ b → b ≤ ilistSize → w'.block b = w.block b) ∧
    (∀ b ∈ nodes, w'.block b = w.block b) ∧
    ∀ n, Numbered ilistSize n → 0 < inoGet w n → ∀ b ∈ inodeBlocks w n,
      b ∉ fileLeaves w (w.block (inoGet w n)) → w'.block b = w.block b := by
  have range := storage.range
  have disjoint := (Multiset.nodup_add.mp storage.nodup).2.2
  have leaf (n : Int) (used : 0 < inoGet w n) (b : Int)
      (member : b ∈ fileLeaves w (w.block (inoGet w n))) : b ∈ inodeBlocks w n := by
    rw [inodeBlocks_pos used]
    exact Multiset.mem_cons_of_mem (Multiset.mem_of_le fileLeaves_le member)
  have inUse (n : Int) (numbered : Numbered ilistSize n) (b : Int) (member : b ∈ inodeBlocks w n) :
      (ilistSize : Int) < b ∧ b ∉ free := by
    have used := mem_usedBlocks.mpr ⟨n,numbered,member⟩
    exact ⟨(range b (Multiset.mem_add.mpr (.inr used))).1,
      fun inFree => Multiset.disjoint_left.mp disjoint inFree used⟩
  have blocks := list.blocks
  refine ⟨fun b low high => ?_,fun b member => ?_,fun n numbered used b member outside => ?_⟩
  · refine r.block b low (.inl fun inFree => ?_) fun n numbered used member => ?_
    · have := (range b (Multiset.mem_add.mpr (.inl (by rw [blocks]; exact inFree)))).1
      omega
    · have := (inUse n numbered b (leaf n used b member)).1
      omega
  · have inFree : b ∈ free := by
      rw [blocks]
      exact mem_freeSet_of_mem member
    have := (range b (Multiset.mem_add.mpr (.inl inFree))).1
    exact r.block b (by omega) (.inr member) fun n numbered used inside =>
      (inUse n numbered b (leaf n used b inside)).2 inFree
  · have apart := inUse n numbered b member
    refine r.block b (by omega) (.inl (by rw [← blocks]; exact apart.2)) fun m numbered' used' inside => ?_
    obtain rfl := storage.disjoint numbered numbered' member (leaf m used' b inside)
    exact outside inside

theorem Remains.represents (r : Remains w w' ilistSize nodes) (list : FreeList w nodes free)
    (h : Represents w ilistSize s) : Represents w' ilistSize s := by
  obtain ⟨free0,storage,count⟩ := h.sound
  obtain ⟨_,list0⟩ := storage.list
  obtain rfl := (list0.unique list).2
  have room := storage.room
  obtain ⟨low,node,used⟩ := r.kept storage list
  have zero : w'.block 0 = w.block 0 := low 0 le_rfl (by omega)
  have entry (n : Int) (numbered : Numbered ilistSize n) : inoGet w' n = inoGet w n := by
    have := ilistBlock_pos n
    have := ilistBlock_le numbered (show ilistSize < w.nblocks by omega)
    rw [inoGet_eq numbered (by rw [r.nblocks]; omega),inoGet_eq numbered (by omega),
      low _ (by omega) (by omega)]
  have shape (n : Int) (numbered : Numbered ilistSize n) (inUse : 0 < inoGet w n) :
      w'.block (inoGet w n) = w.block (inoGet w n) ∧
      fileBlocks w' (w.block (inoGet w n)) = fileBlocks w (w.block (inoGet w n)) ∧
      FileMapped w' (w.block (inoGet w n)) (blockcount (word (w.block (inoGet w n)) Inode.size)) := by
    have held := storage.held numbered inUse
    have fresh := (Multiset.nodup_cons.mp (Multiset.nodup_add.mp held.owned.1).2.1).1
    have same := used n numbered inUse
    rw [inodeBlocks_pos inUse] at same
    have kept : ∀ b ∈ fileBlocks w (w.block (inoGet w n)), b ∉ fileLeaves w (w.block (inoGet w n)) →
        w'.block b = w.block b := fun b member => same b (Multiset.mem_cons_of_mem member)
    obtain ⟨blocks,_,mapped⟩ :=
      fileShape_congr (n := blockcount (word (w.block (inoGet w n)) Inode.size)) held.ownedFile kept
    exact ⟨same _ (Multiset.mem_cons_self _ _) fun leaf => fresh (Multiset.mem_of_le fileLeaves_le leaf),
      blocks,mapped.mpr (h.mapped n numbered inUse)⟩
  have sameBlocks (n : Int) (numbered : Numbered ilistSize n) : inodeBlocks w' n = inodeBlocks w n := by
    have same := entry n numbered
    by_cases inUse : 0 < inoGet w n
    · obtain ⟨inode,blocks,_⟩ := shape n numbered inUse
      rw [inodeBlocks_pos inUse,inodeBlocks_pos (by omega),same,inode,blocks]
    · rw [inodeBlocks_none (by omega),inodeBlocks_none (by omega)]
  have total : usedBlocks w' ilistSize = usedBlocks w ilistSize :=
    sum_congr rfl fun n inside => sameBlocks n (Numbered.natCast (mem_range.mp inside))
  have mapped (n : Int) (numbered : Numbered ilistSize n) (inUse : 0 < inoGet w' n) :
      FileMapped w' (w'.block (inoGet w' n)) (blockcount (word (w'.block (inoGet w' n)) Inode.size)) := by
    rw [entry n numbered] at inUse ⊢
    obtain ⟨inode,_,mapped⟩ := shape n numbered inUse
    rwa [inode]
  refine ⟨⟨free0,⟨by rw [r.nblocks]; exact room,⟨nodes,?_,?_,?_⟩,by rw [total]; exact storage.nodup,
    by rw [total,r.nblocks]; exact storage.range,storage.inodes.congr entry (by rw [zero]) (by rw [zero]),
    by rw [zero]; exact storage.super,fun n numbered inUse => ?_,fun _ => mapped⟩,count⟩,mapped,h.limit,
    fun n numbered => ?_,h.beyond⟩
  · rw [zero]
    exact list.chain.congr node
  · rw [freeSet_congr node]
    exact list.blocks
  · rw [zero]
    exact list.count
  · rw [entry n numbered] at inUse ⊢
    rw [(shape n numbered inUse).1]
    exact storage.file n numbered inUse
  · rw [h.inode n numbered,World.nodeAt,World.nodeAt,entry n numbered]
    by_cases inUse : 0 < inoGet w n
    · rw [if_pos inUse,if_pos inUse,(shape n numbered inUse).1]
      refine congrArg some (World.node_congr (fun _ _ => rfl) rfl ?_)
      refine List.map_congr_left fun a inside => ?_
      rw [List.mem_range] at inside
      exact (r.bytes n numbered inUse a (by omega) (by omega)).symm
    · rw [if_neg inUse,if_neg inUse]

end

end

end

end CandyFs
