import CandyFs.Grow
import CandyFs.Shrink
import CandyFs.ReadWrite

/-! The blocks of one file: the trees under the slots of its inode, the block indexes they
map, and the bytes they hold.
-/
namespace CandyFs
open Bytes Finset

/-- `blocks[slot]`. -/
def slotPtr (inode : Block) (slot : Nat) : Int := word inode (Inode.slotWord slot)

section
variable {inode inode' : Block} {slot : Nat}

theorem slotPtr_setWord_ne {other : Nat} (differ : other ≠ slot) (x : Int) :
    slotPtr (setWord inode (Inode.slotWord slot) x) other = slotPtr inode other :=
  word_setWord_ne _ _ _ _ (by simp only [Inode.slotWord]; omega)

theorem slotPtr_congr (same : ∀ k, 104 ≤ k → inode' k = inode k) (slot : Nat) :
    slotPtr inode' slot = slotPtr inode slot :=
  word_congr _ _ _ fun k low _ => same k (by simp only [Inode.slotWord] at low; omega)

theorem setSlot_head (x : Int) {k : Nat} (head : k < 104) :
    setWord inode (Inode.slotWord slot) x k = inode k :=
  setWord_outside _ _ _ _ (by simp only [Inode.slotWord]; omega)

end

variable [Geometry]

/-- All blocks reached from the slots of an inode. -/
def fileBlocks (w : World) (inode : Block) : Multiset Int :=
  ∑ slot ∈ range numBlockSlots, tree w (slotLevel slot) (slotPtr inode slot)

/-- Exactly the block indexes below `n` are mapped. -/
def FileMapped (w : World) (inode : Block) (n : Int) : Prop :=
  ∀ slot, slot < numBlockSlots →
    Mapped w (slotLevel slot) (slotPtr inode slot) (slotStart slot) n

/-- The block indexes below `n` keep their blocks and their contents. -/
def FileKept (w w' : World) (inode inode' : Block) (n : Int) : Prop :=
  ∀ slot, slot < numBlockSlots →
    Kept w w' (slotLevel slot) (slotPtr inode slot) (slotPtr inode' slot) (slotStart slot) n

/-- The block indexes below `n` are reached through the same blocks, and keep their contents. -/
def FileRouted (w w' : World) (inode inode' : Block) (n : Int) : Prop :=
  ∀ slot, slot < numBlockSlots →
    Routed w w' (slotLevel slot) (slotPtr inode slot) (slotPtr inode' slot) (slotStart slot) n

/-- The blocks passed from a slot of the inode down to the data block of block index `idx`. -/
def fileRoute (w : World) (inode : Block) (idx : Int) : List Int :=
  let slot := (blockidx2blockslot idx).toNat
  route w (slotLevel slot) (slotPtr inode slot) (slotStart slot) idx

/-- The number of blocks of a file that maps exactly the block indexes below `n`. -/
def footprint (n : Int) : Nat :=
  ∑ slot ∈ range numBlockSlots, treeSize (slotLevel slot) (slotStart slot) n

/-- A file of `old` blocks has an index block whose first child is only partly filled. -/
def Fragile (old : Int) : Prop :=
  ∃ slot, slot < numBlockSlots ∧ Straddles old (slotLevel slot) (slotStart slot)

section
variable {w w' w'' : World} {inode inode' inode'' : Block} {free free' : Multiset Int} {slot : Nat}
  {complete : Prop} {m n dest : Int}

theorem fileBlocks_congr (slots : ∀ slot, slotPtr inode' slot = slotPtr inode slot)
    (same : ∀ b ∈ fileBlocks w inode, w'.block b = w.block b) :
    fileBlocks w' inode' = fileBlocks w inode := by
  refine sum_congr rfl fun slot inside => ?_
  rw [slots]
  exact tree_congr fun b member => same b (Multiset.mem_sum.mpr ⟨slot,inside,member⟩)

theorem fileMapped_frame (slots : ∀ slot, slotPtr inode' slot = slotPtr inode slot)
    (same : ∀ b ∈ fileBlocks w inode, w'.block b = w.block b) (h : FileMapped w inode n) :
    FileMapped w' inode' n := by
  intro slot bound
  rw [slots]
  exact mapped_frame (fun b member => same b (Multiset.mem_sum.mpr ⟨slot,mem_range.mpr bound,
    Multiset.mem_of_le (index_le_tree _ _ _) member⟩)) (h slot bound)

theorem fileRoute_slot (bound : slot < numBlockSlots) (low : slotStart slot ≤ m)
    (high : m < slotStart slot + slotSpan slot) : fileRoute w inode m =
      route w (slotLevel slot) (slotPtr inode slot) (slotStart slot) m := by
  simp only [fileRoute,blockidx2blockslot_unique bound low high,Int.toNat_natCast]

theorem fileMapped_frame_iff (slots : ∀ slot, slotPtr inode' slot = slotPtr inode slot)
    (same : ∀ b ∈ fileBlocks w inode, w'.block b = w.block b) :
    FileMapped w' inode' n ↔ FileMapped w inode n := by
  refine ⟨fileMapped_frame (fun slot => (slots slot).symm) fun b member => (same b ?_).symm,
    fileMapped_frame slots same⟩
  rwa [fileBlocks_congr slots same] at member

theorem FileKept.frame (slots : ∀ slot, slotPtr inode' slot = slotPtr inode slot)
    (same : ∀ b ∈ fileBlocks w inode, w'.block b = w.block b) (h : FileMapped w inode n) (le : m ≤ n) :
    FileKept w w' inode inode' m := by
  intro slot bound
  rw [slots]
  exact Kept.frame (slotLevel_le slot) (h slot bound) le fun b member =>
    same b (Multiset.mem_sum.mpr ⟨slot,mem_range.mpr bound,member⟩)

theorem FileKept.trans (first : FileKept w w' inode inode' n)
    (second : FileKept w' w'' inode' inode'' n) : FileKept w w'' inode inode'' n :=
  fun slot bound => (first slot bound).trans (second slot bound)

theorem FileRouted.kept (h : FileRouted w w' inode inode' n) : FileKept w w' inode inode' n :=
  fun slot bound => (h slot bound).kept

theorem FileRouted.frame (slots : ∀ slot, slotPtr inode' slot = slotPtr inode slot)
    (same : ∀ b ∈ fileBlocks w inode, w'.block b = w.block b) (h : FileMapped w inode n) (le : m ≤ n) :
    FileRouted w w' inode inode' m := by
  intro slot bound
  rw [slots]
  exact Routed.frame (slotLevel_le slot) (h slot bound) le fun b member =>
    same b (Multiset.mem_sum.mpr ⟨slot,mem_range.mpr bound,member⟩)

theorem FileRouted.trans (first : FileRouted w w' inode inode' n)
    (second : FileRouted w' w'' inode' inode'' n) : FileRouted w w'' inode inode'' n :=
  fun slot bound => (first slot bound).trans (second slot bound)

theorem tree_le_fileBlocks (bound : slot < numBlockSlots) :
    tree w (slotLevel slot) (slotPtr inode slot) ≤ fileBlocks w inode :=
  le_sum_range (f := fun slot => tree w (slotLevel slot) (slotPtr inode slot)) bound

theorem Moved.inSlot (bound : slot < numBlockSlots) (owned : Owned w (free + fileBlocks w inode))
    (moved : Moved w w' free (tree w (slotLevel slot) (slotPtr inode slot)) free'
      (tree w' (slotLevel slot) dest) complete) :
    slotPtr (setWord inode (Inode.slotWord slot) dest) slot = dest ∧
    Moved w w' free (fileBlocks w inode) free'
      (fileBlocks w' (setWord inode (Inode.slotWord slot) dest)) complete ∧
    ∀ other, other < numBlockSlots → other ≠ slot →
      ∀ b ∈ tree w (slotLevel other) (slotPtr inode other), w'.block b = w.block b := by
  have part : Owned w (free + tree w (slotLevel slot) (slotPtr inode slot)) :=
    owned.mono (add_le_add_right (tree_le_fileBlocks bound) free)
  have stored : slotPtr (setWord inode (Inode.slotWord slot) dest) slot = dest := by
    rw [slotPtr,word_setWord_self,wrap_of_fits (moved.owned part).fits_pointer]
  refine ⟨stored,Moved.family (l := slotLevel) (p := slotPtr inode)
    (q := slotPtr (setWord inode (Inode.slotWord slot) dest)) bound owned ?_ fun other _ differ => ?_⟩
  · rw [stored]
    exact moved
  · exact slotPtr_setWord_ne differ dest

theorem mapped_slot {p : Int} (same : ∀ x, slotStart slot ≤ x → x < slotStart slot + slotSpan slot →
    (x < m ↔ x < n)) :
    Mapped w (slotLevel slot) p (slotStart slot) m ↔ Mapped w (slotLevel slot) p (slotStart slot) n :=
  mapped_congr (slotLevel_le slot) same

theorem FileMapped.uncut (h : FileMapped w inode n) (low : 0 ≤ m) (below : m < n)
    (top : m < firstUnreachableBlock) : eof ∉ fileRoute w inode m := by
  obtain ⟨slot,bound,_,_,begins,ends⟩ := blockidx2blockslot_spec low top
  rw [fileRoute_slot bound begins ends]
  exact mapped_route (slotLevel_le slot) (h slot bound) begins ends below

theorem fileRoute_cut_frame (slots : ∀ slot, slotPtr inode' slot = slotPtr inode slot)
    (same : ∀ b ∈ fileBlocks w inode, w'.block b = w.block b) (low : 0 ≤ m)
    (top : m < firstUnreachableBlock) : eof ∈ fileRoute w' inode' m ↔ eof ∈ fileRoute w inode m := by
  obtain ⟨slot,bound,_,_,begins,ends⟩ := blockidx2blockslot_spec low top
  rw [fileRoute_slot bound begins ends,fileRoute_slot bound begins ends,slots]
  exact cut_frame (slotLevel_le slot) begins ends fun b member => same b (Multiset.mem_sum.mpr
    ⟨slot,mem_range.mpr bound,Multiset.mem_of_le (index_le_tree _ _ _) member⟩)

theorem FileMapped.card (h : FileMapped w inode n) : (fileBlocks w inode).card = footprint n := by
  rw [fileBlocks,Multiset.card_sum]
  exact sum_congr rfl fun slot inside => (h slot (mem_range.mp inside)).card

theorem footprint_mono (le : m ≤ n) : footprint m ≤ footprint n :=
  sum_le_sum fun _ _ => treeSize_mono _ _ le

theorem footprint_lt (bound : slot < numBlockSlots) (le : m ≤ n) {extra : Nat}
    (less : extra + treeSize (slotLevel slot) (slotStart slot) m <
      treeSize (slotLevel slot) (slotStart slot) n) : extra + footprint m < footprint n := by
  unfold footprint
  rw [← add_sum_erase _ _ (mem_range.mpr bound),← add_sum_erase _ _ (mem_range.mpr bound)]
  have others := sum_le_sum fun other (_ : other ∈ (range numBlockSlots).erase slot) =>
    treeSize_mono (slotLevel other) (slotStart other) le
  omega

end

section
variable {old : Int}

theorem Fragile.slot {slot : Nat} (fragile : Fragile old) (bound : slot < numBlockSlots)
    (low : slotStart slot ≤ old) (high : old < slotStart slot + slotSpan slot) :
    Straddles old (slotLevel slot) (slotStart slot) := by
  obtain ⟨other,bound',straddles⟩ := fragile
  have inside := straddles.inside (slotLevel_le other)
  have found := blockidx2blockslot_unique bound low high
  rw [blockidx2blockslot_unique bound' inside.1.le inside.2] at found
  exact Nat.cast_inj.mp found ▸ straddles

theorem Fragile.last (fragile : Fragile old) : 0 ≤ old - 1 ∧ old < firstUnreachableBlock := by
  obtain ⟨slot,bound,straddles⟩ := fragile
  have inside := straddles.inside (slotLevel_le slot)
  have start := slotStart_nonneg bound
  have := slotEnd_le bound
  unfold slotSpan at this
  omega

end

end CandyFs
