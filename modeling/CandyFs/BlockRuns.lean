import CandyFs.FreeList

/-! The allocator of blocks as a set: what it hands out and takes back in any order. -/
namespace CandyFs
open Bytes

variable [Geometry]

/-- The free list is made up of the data blocks `free`, each of them a node or an entry, once. The
count in the superblock may be any. -/
structure FreeBlocks (w : World) (ilistSize : Nat) (nodes : List Int) (free : Finset Int) : Prop where
  room : ilistSize < w.nblocks
  list : FreeNodes w nodes free.val
  range : ∀ b ∈ free, ilistSize < b ∧ b < w.nblocks

/-- No data block is written but the head of the list, and `b`. -/
def WritesHead (w w' : World) (nodes : List Int) (b : Int) : Prop :=
  ∀ c, 1 ≤ c → c ≠ b → nodes.head? ≠ some c → w'.block c = w.block c

/-- `block_allocate` takes a block out of the set. -/
structure Allocates (w : World) (ilistSize : Nat) (nodes : List Int) (free : Finset Int) : Prop where
  none : (blockAllocate w).1 = eof ↔ free = ∅
  unchanged : free = ∅ → (blockAllocate w).2.data = w.data
  taken : free ≠ ∅ → (blockAllocate w).1 ∈ free
  left : free ≠ ∅ → ∃ nodes',
    FreeBlocks (blockAllocate w).2 ilistSize nodes' (free.erase (blockAllocate w).1)
  count : free ≠ ∅ → freeCount (blockAllocate w).2 = wrap (freeCount w - 1)
  writes : WritesHead w (blockAllocate w).2 nodes 0

/-- `block_free` puts a block into the set. -/
structure Frees (w : World) (ilistSize : Nat) (nodes : List Int) (free : Finset Int) (b : Int) :
    Prop where
  left : ∃ nodes', FreeBlocks (blockFree w b) ilistSize nodes' (insert b free)
  count : freeCount (blockFree w b) = wrap (freeCount w + 1)
  writes : WritesHead w (blockFree w b) nodes b

/-- A run of the allocator. The blocks that are free, by what was handed out and given back, and how
many of either there were. -/
inductive BlockRun (start : World) (ilistSize : Nat) (initial : Finset Int) :
    World → Finset Int → Nat → Nat → Prop where
  | start : BlockRun start ilistSize initial start initial 0 0
  | allocate {w : World} {free : Finset Int} {got given : Nat}
      (run : BlockRun start ilistSize initial w free got given) (some : (blockAllocate w).1 ≠ eof) :
      BlockRun start ilistSize initial (blockAllocate w).2 (free.erase (blockAllocate w).1) (got + 1)
        given
  | none {w : World} {free : Finset Int} {got given : Nat}
      (run : BlockRun start ilistSize initial w free got given) (none : (blockAllocate w).1 = eof) :
      BlockRun start ilistSize initial (blockAllocate w).2 free got given
  | free {w : World} {free : Finset Int} {got given : Nat}
      (run : BlockRun start ilistSize initial w free got given) {b : Int} (low : ilistSize < b)
      (high : b < w.nblocks) (fresh : b ∉ free) :
      BlockRun start ilistSize initial (blockFree w b) (insert b free) got (given + 1)

section
variable {w start : World} {ilistSize got given : Nat} {nodes : List Int} {free initial : Finset Int}
  {b : Int}

theorem FreeBlocks.owned (h : FreeBlocks w ilistSize nodes free) : Owned w free.val := by
  refine ⟨free.nodup,fun b member => ?_⟩
  have range := h.range b member
  omega

theorem FreeBlocks.allocates (h : FreeBlocks w ilistSize nodes free) :
    Allocates w ilistSize nodes free := by
  have some : 0 < w.nblocks := (Nat.zero_le _).trans_lt h.room
  rcases blockAllocate_nodes h.list h.owned some with ⟨empty,none,same⟩ |
      ⟨nodes',free',taken,list,frame,_,count⟩
  · have empty' : free = ∅ := Finset.val_eq_zero.mp empty
    refine ⟨⟨fun _ => empty',fun _ => none⟩,fun _ => ?_,?_,?_,?_,fun c _ _ _ => ?_⟩
    · rw [same]
    · exact fun used => absurd empty' used
    · exact fun used => absurd empty' used
    · exact fun used => absurd empty' used
    · rw [same]
      rfl
  · have member : (blockAllocate w).1 ∈ free := by
      rw [← Finset.mem_val,taken]
      exact Multiset.mem_cons_self _ _
    have rest : free' = (free.erase (blockAllocate w).1).val := by
      rw [Finset.erase_val,taken,Multiset.erase_cons_head]
    have used : free ≠ ∅ := Finset.ne_empty_of_mem member
    have range := h.range _ member
    refine ⟨⟨fun none => absurd none (ne_eof (by omega)),fun empty => absurd empty used⟩,
      fun empty => absurd empty used,fun _ => member,fun _ => ⟨nodes',?_,?_,fun c inside => ?_⟩,
      fun _ => count,fun c low _ other => ?_⟩
    · rw [frame.nblocks]
      exact h.room
    · rw [← rest]
      exact list
    · rw [frame.nblocks]
      exact h.range c (Finset.mem_of_mem_erase inside)
    · exact frame.block c low fun touched => other touched.1

theorem FreeBlocks.frees (h : FreeBlocks w ilistSize nodes free) (low : ilistSize < b)
    (high : b < w.nblocks) (fresh : b ∉ free) : Frees w ilistSize nodes free b := by
  have more : (insert b free).val = b ::ₘ free.val := Finset.insert_val_of_notMem fresh
  have owned : Owned w (b ::ₘ free.val) := by
    rw [← more]
    refine ⟨Finset.nodup _,fun c member => ?_⟩
    rcases Finset.mem_insert.mp member with rfl | member
    · omega
    · exact h.owned.2 c member
  obtain ⟨nodes',list,frame,count⟩ := blockFree_nodes h.list owned
  refine ⟨⟨nodes',?_,?_,fun c member => ?_⟩,count,fun c low' differ other => ?_⟩
  · rw [frame.nblocks]
    exact h.room
  · rw [more]
    exact list
  · rw [frame.nblocks]
    rcases Finset.mem_insert.mp member with rfl | member
    · exact ⟨low,high⟩
    · exact h.range c member
  · exact frame.block c low' fun touched => touched.elim differ other

theorem BlockRun.keeps (run : BlockRun start ilistSize initial w free got given)
    (ok : FreeBlocks start ilistSize nodes initial) :
    (∃ nodes, FreeBlocks w ilistSize nodes free) ∧ free.card + got = initial.card + given := by
  induction run with
  | start => exact ⟨⟨nodes,ok⟩,rfl⟩
  | allocate run some ih =>
    obtain ⟨⟨nodes,h⟩,account⟩ := ih
    have step := h.allocates
    have used := mt step.none.mpr some
    refine ⟨step.left used,?_⟩
    rw [Finset.card_erase_of_mem (step.taken used)]
    have := Finset.card_pos.mpr (Finset.nonempty_iff_ne_empty.mpr used)
    omega
  | @none w free got given run none ih =>
    obtain ⟨⟨nodes,h⟩,account⟩ := ih
    have empty := h.allocates.none.mp none
    rcases blockAllocate_nodes h.list h.owned ((Nat.zero_le _).trans_lt h.room) with
      ⟨_,_,same⟩ | ⟨_,_,taken,_⟩
    · rw [same]
      have chain : Chain { w with exhausted := true } (word (w.block 0) Superblock.freelistStart) nodes :=
        Chain.congr (w := w) (fun _ _ => rfl) h.list.chain
      exact ⟨⟨nodes,h.room,⟨chain,h.list.blocks⟩,h.range⟩,account⟩
    · rw [empty] at taken
      exact absurd taken.symm (Multiset.cons_ne_zero)
  | free run low high fresh ih =>
    obtain ⟨⟨nodes,h⟩,account⟩ := ih
    refine ⟨(h.frees low high fresh).left,?_⟩
    rw [Finset.card_insert_of_notMem fresh]
    omega

/-- In every run the free list is the set of the blocks not handed out, and the next call takes one
out of it or puts one in; none is left when all that were free or given back are handed out. -/
theorem blocks_exact (ok : FreeBlocks start ilistSize nodes initial)
    (run : BlockRun start ilistSize initial w free got given) :
    ((blockAllocate w).1 = eof ↔ got = initial.card + given) ∧
    ∃ nodes, FreeBlocks w ilistSize nodes free ∧ Allocates w ilistSize nodes free ∧
      ∀ b : Int, ilistSize < b → b < w.nblocks → b ∉ free → Frees w ilistSize nodes free b := by
  obtain ⟨⟨nodes,h⟩,account⟩ := run.keeps ok
  refine ⟨?_,nodes,h,h.allocates,fun b low high fresh => h.frees low high fresh⟩
  rw [h.allocates.none,← Finset.card_eq_zero]
  omega

end

end CandyFs

/-! A disk without a free block, and two given back. -/
namespace CandyFs
open Bytes
attribute [local instance] Geometry.small

theorem drainedDisk_fits : 6 * blocksize < 2 ^ 64 := by decide

def drainedDisk : World where
  nblocks := 6
  data _ := ofWords fun _ => eof
  bytesFit := drainedDisk_fits
  stack _ := 0
  clock _ := ⟨0,0⟩
  exhausted := false

theorem drainedDisk_none : FreeBlocks drainedDisk 1 [] ∅ :=
  have start : word (drainedDisk.block 0) Superblock.freelistStart = eof := by decide +kernel
  ⟨by decide,⟨start,rfl⟩,fun _ none => absurd none (Finset.notMem_empty _)⟩

theorem blocks_exact_drained :
    (blockAllocate (blockFree (blockFree drainedDisk 3) 5)).1 ≠ eof ∧ ∃ nodes,
      FreeBlocks (blockFree (blockFree drainedDisk 3) 5) 1 nodes {5,3} := by
  have first : BlockRun drainedDisk 1 ∅ (blockFree drainedDisk 3) {3} 0 1 :=
    BlockRun.start.free (by decide) (by decide) (Finset.notMem_empty _)
  have nblocks : (blockFree drainedDisk 3).nblocks = 6 := by decide +kernel
  have run : BlockRun drainedDisk 1 ∅ (blockFree (blockFree drainedDisk 3) 5) {5,3} 0 2 :=
    first.free (by decide) (by rw [nblocks]; decide) (by decide)
  obtain ⟨none,nodes,h,_⟩ := blocks_exact drainedDisk_none run
  exact ⟨fun stop => absurd (none.mp stop) (by decide),nodes,h⟩

end CandyFs
