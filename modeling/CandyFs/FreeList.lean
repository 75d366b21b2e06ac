import Mathlib
import CandyFs.Block

/-! The free list of blocks as a multiset of block numbers. `block_allocate` takes one
member out of it and `block_free` puts one in; neither touches any block that stays in use.
-/
namespace CandyFs
open Bytes Finset

/-- The block a pointer refers to. -/
def pointer (x : Int) : Multiset Int := if x = eof then 0 else {x}

@[simp] theorem pointer_eof : pointer eof = 0 := if_pos rfl

theorem pointer_of_ne {x : Int} (h : x ≠ eof) : pointer x = {x} := if_neg h

theorem sum_range_change {α : Type} [AddCommMonoid α] (f g : Nat → α) {n i : Nat} (inside : i < n)
    (same : ∀ j, j < n → j ≠ i → g j = f j) :
    ∃ rest, ∑ j ∈ range n, f j = f i + rest ∧ ∑ j ∈ range n, g j = g i + rest := by
  refine ⟨∑ j ∈ (range n).erase i,f j,(add_sum_erase _ _ (mem_range.mpr inside)).symm,?_⟩
  rw [← add_sum_erase _ g (mem_range.mpr inside)]
  congr 1
  apply sum_congr rfl
  intro j member
  exact same j (mem_range.mp (mem_of_mem_erase member)) (ne_of_mem_erase member)

private theorem setCount_outside (b : Block) (x : Int) (j : Nat)
    (outside : j < 16 ∨ 24 ≤ j ∧ j < 32 ∨ 40 ≤ j) : setWord b Superblock.freeBlocks x j = b j :=
  setWord_outside _ _ _ _ (by simp only [Superblock.freeBlocks]; omega)

private theorem setStart_outside (b : Block) (x : Int) (j : Nat)
    (outside : j < 16 ∨ 24 ≤ j ∧ j < 32 ∨ 40 ≤ j) : setWord b Superblock.freelistStart x j = b j :=
  setWord_outside _ _ _ _ (by simp only [Superblock.freelistStart]; omega)

section
variable [Geometry]

/-- A set of blocks of the disk, none of them the superblock. -/
def Owned (w : World) (blocks : Multiset Int) : Prop :=
  blocks.Nodup ∧ ∀ b ∈ blocks, 1 ≤ b ∧ b < w.nblocks

theorem Owned.mono {w : World} {small large : Multiset Int} (h : Owned w large)
    (le : small ≤ large) : Owned w small :=
  ⟨Multiset.nodup_of_le le h.1,fun b member => h.2 b (Multiset.mem_of_le le member)⟩

theorem Owned.card_lt {w : World} {blocks : Multiset Int} (h : Owned w blocks) :
    (blocks.card : Int) < 2 ^ 62 := by
  have le : blocks ≤ Multiset.Ico 1 (w.nblocks : Int) :=
    (Multiset.le_iff_subset h.1).mpr fun b member => Multiset.mem_Ico.mpr (h.2 b member)
  have count := Multiset.card_le_card le
  have size : (Multiset.Ico 1 (w.nblocks : Int)).card = w.nblocks - 1 := by
    have := Int.card_Ico 1 (w.nblocks : Int)
    rw [show (Multiset.Ico 1 (w.nblocks : Int)).card = (Finset.Ico 1 (w.nblocks : Int)).card from rfl]
    omega
  have few := nblocks_lt w
  omega

/-- `w'` agrees with `w` but for the free-list members of the superblock and the blocks
in `touched`. -/
structure Frame (w w' : World) (touched : Int → Prop) : Prop where
  nblocks : w'.nblocks = w.nblocks
  stack : w'.stack = w.stack
  exhausted : w.exhausted = true → w'.exhausted = true
  block : ∀ b, 1 ≤ b → ¬touched b → w'.block b = w.block b
  super : ∀ j, j < 16 ∨ 24 ≤ j ∧ j < 32 ∨ 40 ≤ j → w'.block 0 j = w.block 0 j

theorem Frame.refl (w : World) (touched : Int → Prop) : Frame w w touched :=
  ⟨rfl,rfl,id,fun _ _ _ => rfl,fun _ _ => rfl⟩

theorem Frame.mono {w w' : World} {small large : Int → Prop} (h : Frame w w' small)
    (le : ∀ b, small b → large b) : Frame w w' large :=
  { h with block := fun b low outside => h.block b low fun inside => outside (le b inside) }

theorem Frame.trans {w w' w'' : World} {touched : Int → Prop} (first : Frame w w' touched)
    (second : Frame w' w'' touched) : Frame w w'' touched where
  nblocks := second.nblocks.trans first.nblocks
  stack := second.stack.trans first.stack
  exhausted := fun h => second.exhausted (first.exhausted h)
  block := fun b low outside => (second.block b low outside).trans (first.block b low outside)
  super := fun j outside => (second.super j outside).trans (first.super j outside)

theorem Frame.put {w : World} {b : Int} (x : Block) {touched : Int → Prop} (low : 1 ≤ b)
    (inside : touched b) : Frame w (w.put b x) touched where
  nblocks := rfl
  stack := rfl
  exhausted := id
  block := fun c low' outside =>
    put_block_ne w b x (by omega) (by omega) fun eq => outside (eq ▸ inside)
  super := fun j _ => congrFun (put_block_ne w b x (by omega) le_rfl (by omega)) j

theorem Owned.frame {w w' : World} {touched : Int → Prop} {blocks : Multiset Int}
    (h : Owned w blocks) (frame : Frame w w' touched) : Owned w' blocks :=
  ⟨h.1,fun b member => by rw [frame.nblocks]; exact h.2 b member⟩

/-- The blocks named by the entries of a free-list node. -/
def entries (node : Block) : Multiset Int :=
  ∑ i ∈ range blocknumsPerFreelistBlock, pointer (word node (FreelistBlock.blocks i))

/-- `nodes` are the nodes of the list that starts at `start`, in order. -/
def Chain (w : World) : Int → List Int → Prop
  | start,[] => start = eof
  | start,node :: rest => start = node ∧ node ≠ eof ∧
    Chain w (word (w.block node) FreelistBlock.next) rest

/-- The nodes and their entries. -/
def freeSet (w : World) (nodes : List Int) : Multiset Int :=
  (nodes.map fun node => node ::ₘ entries (w.block node)).sum

theorem freeSet_cons (w : World) (node : Int) (rest : List Int) :
    freeSet w (node :: rest) = node ::ₘ (entries (w.block node) + freeSet w rest) := by
  simp [freeSet,Multiset.cons_add]

theorem mem_freeSet_of_mem {w : World} {nodes : List Int} {node : Int} (member : node ∈ nodes) :
    node ∈ freeSet w nodes := by
  induction nodes with
  | nil => simp at member
  | cons first rest ih =>
    rw [freeSet_cons]
    rcases List.mem_cons.mp member with rfl | member
    · exact Multiset.mem_cons_self _ _
    · exact Multiset.mem_cons_of_mem (Multiset.mem_add.mpr (.inr (ih member)))

theorem Chain.congr {w w' : World} {start : Int} {nodes : List Int}
    (same : ∀ node ∈ nodes, w'.block node = w.block node) (h : Chain w start nodes) :
    Chain w' start nodes := by
  induction nodes generalizing start with
  | nil => exact h
  | cons node rest ih =>
    obtain ⟨first,proper,tail⟩ := h
    refine ⟨first,proper,?_⟩
    rw [same node (by simp)]
    exact ih (fun n member => same n (by simp [member])) tail

theorem freeSet_congr {w w' : World} {nodes : List Int}
    (same : ∀ node ∈ nodes, w'.block node = w.block node) : freeSet w' nodes = freeSet w nodes := by
  refine congrArg List.sum (List.map_congr_left fun node member => ?_)
  rw [same node member]

/-- The superblock heads a chain whose nodes and entries are the blocks `free`, and
counts them. -/
structure FreeList (w : World) (nodes : List Int) (free : Multiset Int) : Prop where
  chain : Chain w (word (w.block 0) Superblock.freelistStart) nodes
  blocks : free = freeSet w nodes
  count : word (w.block 0) Superblock.freeBlocks = free.card

/-- The free list stays when neither its nodes nor its part of the superblock change. -/
theorem FreeList.congr {w w' : World} {nodes : List Int} {free : Multiset Int}
    (h : FreeList w nodes free) (same : ∀ b ∈ free, w'.block b = w.block b)
    (start : word (w'.block 0) Superblock.freelistStart = word (w.block 0) Superblock.freelistStart)
    (count : word (w'.block 0) Superblock.freeBlocks = word (w.block 0) Superblock.freeBlocks) :
    FreeList w' nodes free := by
  have unchanged : ∀ node ∈ nodes, w'.block node = w.block node := fun node member =>
    same node (h.blocks ▸ mem_freeSet_of_mem member)
  refine ⟨?_,?_,?_⟩
  · rw [start]
    exact h.chain.congr unchanged
  · rw [freeSet_congr unchanged]
    exact h.blocks
  · rw [count]
    exact h.count

theorem FreeList.put {w : World} {nodes : List Int} {free : Multiset Int} {b : Int}
    (h : FreeList w nodes free) (owned : Owned w free) (low : 1 ≤ b) (outside : b ∉ free)
    (x : Block) : FreeList (w.put b x) nodes free := by
  have zero : (w.put b x).block 0 = w.block 0 := put_block_ne w b x (by omega) le_rfl (by omega)
  refine h.congr (fun c member => ?_) (by rw [zero]) (by rw [zero])
  have range := owned.2 c member
  exact put_block_ne w b x (by omega) (by omega) fun eq => outside (eq ▸ member)

theorem entries_change (node : Block) {i : Nat} (inside : i < blocknumsPerFreelistBlock) {x : Int}
    (fits : Fits x) :
    ∃ rest, entries node = pointer (word node (FreelistBlock.blocks i)) + rest ∧
      entries (setWord node (FreelistBlock.blocks i) x) = pointer x + rest := by
  obtain ⟨rest,before,after⟩ := sum_range_change
    (fun j => pointer (word node (FreelistBlock.blocks j)))
    (fun j => pointer (word (setWord node (FreelistBlock.blocks i) x) (FreelistBlock.blocks j)))
    inside (fun j _ differ => by rw [word_setWord_ne _ _ _ _ (by simp [FreelistBlock.blocks,differ])])
  refine ⟨rest,before,?_⟩
  rw [entries,after,word_setWord_self,wrap_of_fits fits]

theorem entries_eq_zero {node : Block}
    (empty : ∀ i < blocknumsPerFreelistBlock, word node (FreelistBlock.blocks i) = eof) :
    entries node = 0 := by
  apply sum_eq_zero
  intro i member
  rw [empty i (mem_range.mp member),pointer_eof]

/-- The superblock heads a chain whose nodes and entries are the blocks `free`. -/
structure FreeNodes (w : World) (nodes : List Int) (free : Multiset Int) : Prop where
  chain : Chain w (word (w.block 0) Superblock.freelistStart) nodes
  blocks : free = freeSet w nodes

theorem FreeList.toNodes {w : World} {nodes : List Int} {free : Multiset Int}
    (h : FreeList w nodes free) : FreeNodes w nodes free := ⟨h.chain,h.blocks⟩

theorem FreeNodes.head_facts {w : World} {node : Int} {rest : List Int} {free : Multiset Int}
    (list : FreeNodes w (node :: rest) free) (owned : Owned w free) :
    (1 ≤ node ∧ node < w.nblocks) ∧ (∀ n ∈ rest, n ≠ node ∧ 1 ≤ n) ∧
      Chain w (word (w.block node) FreelistBlock.next) rest ∧
      free = node ::ₘ (entries (w.block node) + freeSet w rest) := by
  obtain ⟨_,_,chain⟩ := list.chain
  have whole := list.blocks
  rw [freeSet_cons] at whole
  have fresh := (Multiset.nodup_cons.mp (whole ▸ owned.1)).1
  refine ⟨owned.2 node (by rw [whole]; exact Multiset.mem_cons_self _ _),fun n member => ⟨?_,?_⟩,
    chain,whole⟩
  · rintro rfl
    exact fresh (Multiset.mem_add.mpr (.inr (mem_freeSet_of_mem member)))
  · exact (owned.2 n (by rw [whole]; simp [mem_freeSet_of_mem member])).1

theorem freeNodes_head {w : World} {node : Int} {rest : List Int} {super x : Block}
    (low : 1 ≤ node) (others : ∀ n ∈ rest, n ≠ node ∧ 1 ≤ n)
    (start : word super Superblock.freelistStart = node)
    (chain : Chain w (word x FreelistBlock.next) rest) :
    FreeNodes ((w.put 0 super).put node x) (node :: rest) (node ::ₘ (entries x + freeSet w rest)) ∧
      ((w.put 0 super).put node x).block 0 = super := by
  have zero : ((w.put 0 super).put node x).block 0 = super := by
    rw [put_block_ne _ _ _ (by omega) le_rfl (by omega),put_block_self]
  have unchanged : ∀ n ∈ rest, ((w.put 0 super).put node x).block n = w.block n := by
    intro n member
    obtain ⟨differ,low'⟩ := others n member
    rw [put_block_ne _ _ _ (by omega) (by omega) differ,
      put_block_ne _ _ _ le_rfl (by omega) (by omega)]
  refine ⟨⟨?_,?_⟩,zero⟩
  · rw [zero]
    refine ⟨start,ne_eof (by omega),?_⟩
    rw [put_block_self]
    exact chain.congr unchanged
  · rw [freeSet_cons,put_block_self,freeSet_congr unchanged]

theorem freeNodes_super {w : World} {nodes : List Int} {super : Block}
    (low : ∀ n ∈ nodes, 1 ≤ n) (chain : Chain w (word super Superblock.freelistStart) nodes) :
    FreeNodes (w.put 0 super) nodes (freeSet w nodes) := by
  have unchanged : ∀ n ∈ nodes, (w.put 0 super).block n = w.block n := by
    intro n member
    have := low n member
    exact put_block_ne _ _ _ le_rfl (by omega) (by omega)
  refine ⟨?_,(freeSet_congr unchanged).symm⟩
  rw [put_block_self]
  exact chain.congr unchanged

/-- Every change of the superblock here is to its words 2 and 4. -/
private theorem frame_super {w : World} {x : Block} {touched : Int → Prop}
    (same : ∀ j, j < 16 ∨ 24 ≤ j ∧ j < 32 ∨ 40 ≤ j → x j = w.block 0 j) :
    Frame w (w.put 0 x) touched where
  nblocks := rfl
  stack := rfl
  exhausted := id
  block := fun c low _ => put_block_ne w 0 x le_rfl (by omega) (by omega)
  super := fun j outside => by rw [put_block_self]; exact same j outside

/-- The count of free blocks, as the superblock has it. -/
def freeCount (w : World) : Int := word (w.block 0) Superblock.freeBlocks

/-- A block is handed out when there is one; of the data blocks only the head of the list is
written, and that only when it stays on the list. -/
theorem blockAllocate_nodes {w : World} {nodes : List Int} {free : Multiset Int}
    (list : FreeNodes w nodes free) (owned : Owned w free) (some : 0 < w.nblocks) :
    (free = 0 ∧ (blockAllocate w).1 = eof ∧
      (blockAllocate w).2 = { w with exhausted := true }) ∨
    ∃ nodes' free', free = (blockAllocate w).1 ::ₘ free' ∧
      FreeNodes (blockAllocate w).2 nodes' free' ∧
      Frame w (blockAllocate w).2 (fun b => nodes.head? = b ∧ b ∈ free') ∧
      (blockAllocate w).2.exhausted = w.exhausted ∧
      freeCount (blockAllocate w).2 = wrap (freeCount w - 1) := by
  cases nodes with
  | nil =>
    have start : word (w.block 0) Superblock.freelistStart = eof := list.chain
    refine .inl ⟨by rw [list.blocks]; rfl,?_⟩
    simp only [blockAllocate,diskRead_zero _ some,start,if_pos,and_self]
  | cons node rest =>
    obtain ⟨start,proper,_⟩ := list.chain
    obtain ⟨range,others,chain,whole⟩ := list.head_facts owned
    right
    unfold blockAllocate
    simp only [diskRead_zero _ some,start,proper,if_false]
    rw [diskRead_block _ (by omega) range.2]
    split
    · -- an entry is handed out and its place cleared
      rename_i i found
      have inside := List.mem_range.mp (List.mem_of_find?_eq_some found)
      have taken : word (w.block node) (FreelistBlock.blocks i) ≠ eof := by
        simpa using List.find?_some found
      obtain ⟨left,before,after⟩ := entries_change (w.block node) inside eof_fits
      rw [pointer_of_ne taken,Multiset.singleton_add] at before
      rw [pointer_eof,zero_add] at after
      rw [before,Multiset.cons_add,Multiset.cons_swap] at whole
      rw [diskWrite_zero _ some,diskWrite_block _ (by omega) (by simpa using range.2)]
      dsimp only
      have kept : word (setWord (w.block node) (FreelistBlock.blocks i) eof) FreelistBlock.next =
          word (w.block node) FreelistBlock.next :=
        word_setWord_ne _ _ _ _ (by simp [FreelistBlock.blocks])
      rw [← kept] at chain
      have start' : word (setWord (w.block 0) Superblock.freeBlocks
          (word (w.block 0) Superblock.freeBlocks - 1)) Superblock.freelistStart = node := by
        rw [word_setWord_ne _ _ _ _ (by decide),start]
      obtain ⟨list',zero⟩ := freeNodes_head range.1 others start' chain
      rw [after] at list'
      refine ⟨node :: rest,_,whole,list',?_,rfl,?_⟩
      · exact (frame_super (setCount_outside _ _)).trans
          (Frame.put _ range.1 ⟨rfl,Multiset.mem_cons_self _ _⟩)
      · rw [freeCount,zero,word_setWord_self]
        rfl
    · -- the node itself is handed out
      rename_i found
      have empty : entries (w.block node) = 0 := entries_eq_zero fun i inside => by
        simpa using List.find?_eq_none.mp found i (List.mem_range.mpr inside)
      rw [empty,zero_add] at whole
      rw [diskWrite_zero _ some]
      dsimp only
      refine ⟨rest,freeSet w rest,whole,?_,?_,rfl,?_⟩
      · apply freeNodes_super fun n member => (others n member).2
        rw [word_setWord_ne _ _ _ _ (by decide),word_setWord_self,wrap_of_fits (word_fits _ _)]
        exact chain
      · exact frame_super fun j outside => by
          rw [setCount_outside _ _ _ outside,setStart_outside _ _ _ outside]
      · rw [freeCount,put_block_self,word_setWord_self,word_setWord_ne _ _ _ _ (by decide)]
        rfl

theorem blockAllocate_spec {w : World} {nodes : List Int} {free : Multiset Int}
    (list : FreeList w nodes free) (owned : Owned w free) (some : 0 < w.nblocks) :
    (free = 0 ∧ (blockAllocate w).1 = eof ∧
      (blockAllocate w).2 = { w with exhausted := true }) ∨
    ∃ nodes' free', free = (blockAllocate w).1 ::ₘ free' ∧
      FreeList (blockAllocate w).2 nodes' free' ∧
      Frame w (blockAllocate w).2 (· ∈ free') ∧ (blockAllocate w).2.exhausted = w.exhausted := by
  have few := owned.card_lt
  have total : freeCount w = free.card := list.count
  rcases blockAllocate_nodes list.toNodes owned some with none |
      ⟨nodes',free',taken,list',frame,same,count⟩
  · exact .inl none
  · have smaller := congrArg Multiset.card taken
    rw [Multiset.card_cons] at smaller
    rw [total,wrap_of_fits (by unfold Fits; omega)] at count
    exact .inr ⟨nodes',free',taken,⟨list'.chain,list'.blocks,count.trans (by omega)⟩,
      frame.mono fun _ => And.right,same⟩

private theorem pushFreelistBlock_nodes {w : World} {nodes : List Int} {free : Multiset Int}
    {b : Int} (list : FreeNodes w nodes free) (owned : Owned w (b ::ₘ free)) (some : 0 < w.nblocks) :
    FreeNodes (pushFreelistBlock w (w.block 0) b) (b :: nodes) (b ::ₘ free) ∧
      Frame w (pushFreelistBlock w (w.block 0) b) (· = b) ∧
      freeCount (pushFreelistBlock w (w.block 0) b) = wrap (freeCount w + 1) := by
  have range := owned.2 b (Multiset.mem_cons_self _ _)
  have fresh := (Multiset.nodup_cons.mp owned.1).1
  have fits : Fits b := fits_of_range (by omega) range.2
  unfold pushFreelistBlock
  dsimp only
  rw [diskWrite_zero _ some,diskWrite_block _ (by omega) (by simpa using range.2)]
  set vagabond := ofWords fun i =>
    if i = FreelistBlock.next then word (w.block 0) Superblock.freelistStart else eof with made
  have empty : entries vagabond = 0 := entries_eq_zero fun i _ => by
    rw [made,word_ofWords]
    simp [FreelistBlock.blocks,FreelistBlock.next,wrap_of_fits eof_fits]
  have next : word vagabond FreelistBlock.next = word (w.block 0) Superblock.freelistStart := by
    rw [made,word_ofWords,if_pos rfl,wrap_of_fits (word_fits _ _)]
  have others : ∀ n ∈ nodes, n ≠ b ∧ 1 ≤ n := by
    intro n member
    have inside : n ∈ free := list.blocks ▸ mem_freeSet_of_mem member
    exact ⟨fun eq => fresh (eq ▸ inside),(owned.2 n (Multiset.mem_cons_of_mem inside)).1⟩
  have chain := list.chain
  rw [← next] at chain
  have start : word (setWord (setWord (w.block 0) Superblock.freelistStart b) Superblock.freeBlocks
      (word (setWord (w.block 0) Superblock.freelistStart b) Superblock.freeBlocks + 1))
      Superblock.freelistStart = b := by
    rw [word_setWord_ne _ _ _ _ (by decide),word_setWord_self,wrap_of_fits fits]
  obtain ⟨list',zero⟩ := freeNodes_head range.1 others start chain
  rw [empty,zero_add,← list.blocks] at list'
  refine ⟨list',(frame_super fun j outside => ?_).trans (Frame.put _ range.1 rfl),?_⟩
  · rw [setCount_outside _ _ _ outside,setStart_outside _ _ _ outside]
  · rw [freeCount,zero,word_setWord_self,word_setWord_ne _ _ _ _ (by decide)]
    rfl

/-- The block joins the list; of the other data blocks only the head of the list is written. -/
theorem blockFree_nodes {w : World} {nodes : List Int} {free : Multiset Int} {b : Int}
    (list : FreeNodes w nodes free) (owned : Owned w (b ::ₘ free)) :
    ∃ nodes', FreeNodes (blockFree w b) nodes' (b ::ₘ free) ∧
      Frame w (blockFree w b) (fun c => c = b ∨ nodes.head? = c) ∧
      freeCount (blockFree w b) = wrap (freeCount w + 1) := by
  have range := owned.2 b (Multiset.mem_cons_self _ _)
  have some : 0 < w.nblocks := by omega
  cases nodes with
  | nil =>
    have start : word (w.block 0) Superblock.freelistStart = eof := list.chain
    simp only [blockFree,diskRead_zero _ some,start,ne_eq,not_true_eq_false,if_false]
    obtain ⟨list',frame,count⟩ := pushFreelistBlock_nodes list owned some
    exact ⟨_,list',frame.mono fun _ => .inl,count⟩
  | cons node rest =>
    obtain ⟨start,proper,_⟩ := list.chain
    obtain ⟨head,others,chain,whole⟩ :=
      list.head_facts (owned.mono (Multiset.le_cons_self _ _))
    unfold blockFree
    simp only [diskRead_zero _ some,start,ne_eq,proper,not_false_eq_true,if_true]
    rw [diskRead_block _ (by omega) head.2]
    split
    · -- an empty place of the head takes the block
      rename_i i found
      have inside : i < blocknumsPerFreelistBlock := by
        simpa using List.mem_of_find?_eq_some found
      have unused : word (w.block node) (FreelistBlock.blocks i) = eof := by
        simpa using List.find?_some found
      obtain ⟨left,before,after⟩ := entries_change (w.block node) inside
        (fits_of_range (by omega) range.2)
      rw [unused,pointer_eof,zero_add] at before
      rw [pointer_of_ne (ne_eof (by omega)),Multiset.singleton_add,← before] at after
      rw [diskWrite_zero _ some,diskWrite_block _ (by omega) (by simpa using head.2)]
      have kept : word (setWord (w.block node) (FreelistBlock.blocks i) b) FreelistBlock.next =
          word (w.block node) FreelistBlock.next :=
        word_setWord_ne _ _ _ _ (by simp [FreelistBlock.blocks])
      rw [← kept] at chain
      have start' : word (setWord (w.block 0) Superblock.freeBlocks
          (word (w.block 0) Superblock.freeBlocks + 1)) Superblock.freelistStart = node := by
        rw [word_setWord_ne _ _ _ _ (by decide),start]
      obtain ⟨list',zero⟩ := freeNodes_head head.1 others start' chain
      rw [after,Multiset.cons_add,Multiset.cons_swap,← whole] at list'
      refine ⟨node :: rest,list',?_,?_⟩
      · exact (frame_super (setCount_outside _ _)).trans (Frame.put _ head.1 (.inr rfl))
      · rw [freeCount,zero,word_setWord_self]
        rfl
    · obtain ⟨list',frame,count⟩ := pushFreelistBlock_nodes list owned some
      exact ⟨_,list',frame.mono fun _ => .inl,count⟩

theorem blockFree_spec {w : World} {nodes : List Int} {free : Multiset Int} {b : Int}
    (list : FreeList w nodes free) (owned : Owned w (b ::ₘ free)) :
    ∃ nodes', FreeList (blockFree w b) nodes' (b ::ₘ free) ∧
      Frame w (blockFree w b) (· ∈ b ::ₘ free) := by
  have few := owned.card_lt
  rw [Multiset.card_cons] at few
  have total : freeCount w = free.card := list.count
  obtain ⟨nodes',list',frame,count⟩ := blockFree_nodes list.toNodes owned
  rw [total,wrap_of_fits (by unfold Fits; omega)] at count
  refine ⟨nodes',⟨list'.chain,list'.blocks,count.trans (by rw [Multiset.card_cons]; omega)⟩,
    frame.mono fun c touched => ?_⟩
  rcases touched with rfl | head
  · exact Multiset.mem_cons_self _ _
  · have member : c ∈ nodes := List.mem_of_mem_head? head
    exact Multiset.mem_cons_of_mem (list.blocks ▸ mem_freeSet_of_mem member)

/-- The blocks `free` are the ones on the free list. -/
def FreeSet (w : World) (free : Multiset Int) : Prop := ∃ nodes, FreeList w nodes free

theorem FreeSet.put {w : World} {free : Multiset Int} {b : Int} (h : FreeSet w free)
    (owned : Owned w free) (low : 1 ≤ b) (outside : b ∉ free) (x : Block) :
    FreeSet (w.put b x) free :=
  h.imp fun _ list => list.put owned low outside x

/-- Between `w` and `w'` blocks moved between the free list and the blocks in use; nothing
else was written. When `complete` holds none was lost. -/
structure Moved (w w' : World) (free before free' after : Multiset Int) (complete : Prop) : Prop where
  list : FreeSet w' free'
  frame : Frame w w' (· ∈ free + before)
  blocks : free' + after ≤ free + before
  all : complete → free' + after = free + before

section
variable {w w' w'' : World} {free before free' middle free'' after : Multiset Int}
  {complete complete' : Prop}

theorem Moved.refl (list : FreeSet w free) : Moved w w free before free before complete :=
  ⟨list,Frame.refl _ _,le_rfl,fun _ => rfl⟩

theorem Moved.trans (first : Moved w w' free before free' middle complete)
    (second : Moved w' w'' free' middle free'' after complete') :
    Moved w w'' free before free'' after (complete ∧ complete') where
  list := second.list
  frame := first.frame.trans (second.frame.mono fun _ member => Multiset.mem_of_le first.blocks member)
  blocks := second.blocks.trans first.blocks
  all := fun h => (second.all h.2).trans (first.all h.1)

theorem Moved.weaken (h : Moved w w' free before free' after complete)
    (implied : complete' → complete) : Moved w w' free before free' after complete' :=
  { h with all := fun c => h.all (implied c) }

theorem Moved.drop (h : Moved w w' free before free' after complete) {left : Multiset Int}
    (le : left ≤ after) (never : ¬complete') : Moved w w' free before free' left complete' where
  list := h.list
  frame := h.frame
  blocks := (add_le_add_right le free').trans h.blocks
  all := fun c => absurd c never

theorem Moved.add (h : Moved w w' free before free' after complete) (rest : Multiset Int) :
    Moved w w' free (before + rest) free' (after + rest) complete where
  list := h.list
  frame := h.frame.mono fun b member => by
    rw [← add_assoc]
    exact Multiset.mem_add.mpr (.inl member)
  blocks := by
    rw [← add_assoc,← add_assoc]
    exact add_le_add_left h.blocks rest
  all := fun c => by rw [← add_assoc,← add_assoc,h.all c]

theorem Moved.owned (h : Moved w w' free before free' after complete)
    (owned : Owned w (free + before)) : Owned w' (free' + after) :=
  (owned.mono h.blocks).frame h.frame

theorem Moved.put (list : FreeSet w free) (owned : Owned w (free + before)) {b : Int}
    (member : b ∈ before) (x : Block) : Moved w (w.put b x) free before free before complete where
  list := list.put (owned.mono (Multiset.le_add_right _ _)) (owned.2 b (by simp [member])).1
    (fun inside => Multiset.disjoint_left.mp (Multiset.nodup_add.mp owned.1).2.2 inside member) x
  frame := Frame.put x (owned.2 b (by simp [member])).1 (by simp [member])
  blocks := le_rfl
  all := fun _ => rfl

end

theorem blockAllocate_moved {w : World} {free : Multiset Int} (list : FreeSet w free)
    (owned : Owned w free) (some : 0 < w.nblocks) :
    (free = 0 ∧ (blockAllocate w).1 = eof ∧ (blockAllocate w).2 = { w with exhausted := true }) ∨
    ∃ free', 1 ≤ (blockAllocate w).1 ∧ (blockAllocate w).1 < w.nblocks ∧
      (blockAllocate w).2.exhausted = w.exhausted ∧
      Frame w (blockAllocate w).2 (· ∈ free') ∧
      Moved w (blockAllocate w).2 free 0 free' {(blockAllocate w).1} True := by
  obtain ⟨nodes,list⟩ := list
  rcases blockAllocate_spec list owned some with none | ⟨nodes',free',taken,list',frame,same⟩
  · exact .inl none
  · have range := owned.2 _ (by rw [taken]; exact Multiset.mem_cons_self _ _)
    have equal : free' + {(blockAllocate w).1} = free + 0 := by
      rw [add_zero,add_comm,Multiset.singleton_add]
      exact taken.symm
    refine .inr ⟨free',range.1,range.2,same,frame,⟨⟨nodes',list'⟩,frame.mono fun b member => ?_,
      equal.le,fun _ => equal⟩⟩
    rw [← equal]
    exact Multiset.mem_add.mpr (.inl member)

theorem blockFree_moved {w : World} {free : Multiset Int} {b : Int} (list : FreeSet w free)
    (owned : Owned w (free + {b})) :
    Moved w (blockFree w b) free {b} (free + {b}) 0 True := by
  obtain ⟨nodes,list⟩ := list
  have joined : free + {b} = b ::ₘ free := by rw [add_comm,Multiset.singleton_add]
  obtain ⟨nodes',list',frame⟩ := blockFree_spec list (joined ▸ owned)
  exact ⟨⟨nodes',joined ▸ list'⟩,joined ▸ frame,by simp,fun _ => by simp⟩

end

end CandyFs
