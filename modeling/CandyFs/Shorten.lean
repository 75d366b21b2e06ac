import CandyFs.Growth

/-! Shortening a file: the blocks that `inode_setsize` gives back are those of the block indexes
that go, and the index blocks that no remaining index needs.
-/
namespace CandyFs
open Bytes Finset

theorem freed_tail {free free' used used' : Multiset Int} (all : free' + used' = free + used)
    (nodup : used'.Nodup) (inside : ∀ b ∈ used', b ∈ used) : free' = free + (used - used') := by
  have le : used' ≤ used := (Multiset.le_iff_subset nodup).mpr inside
  refine add_right_cancel (b := used') ?_
  rw [all,add_assoc,tsub_add_cancel_of_le le]

section
variable [Geometry]

/-- The data block of block index `idx`. -/
def fileBlock (w : World) (inode : Block) (idx : Int) : Int :=
  let slot := (blockidx2blockslot idx).toNat
  dataPtr w (slotLevel slot) (slotPtr inode slot) (slotStart slot) idx

/-- The index blocks of a file, at all levels. -/
def fileIndex (w : World) (inode : Block) : Multiset Int :=
  ∑ slot ∈ range numBlockSlots, index w (slotLevel slot) (slotPtr inode slot)

section
variable {w w' : World} {inode inode' : Block} {slot : Nat} {n x y b : Int}

theorem fileBlock_slot (bound : slot < numBlockSlots) (low : slotStart slot ≤ x)
    (high : x < slotStart slot + slotSpan slot) : fileBlock w inode x =
      dataPtr w (slotLevel slot) (slotPtr inode slot) (slotStart slot) x := by
  simp only [fileBlock,blockidx2blockslot_unique bound low high,Int.toNat_natCast]

theorem fileBlock_mem_route : fileBlock w inode x ∈ fileRoute w inode x :=
  List.mem_of_getLast? route_getLast

theorem fileBlocks_eq_add (w : World) (inode : Block) :
    fileBlocks w inode = fileIndex w inode + fileLeaves w inode := by
  rw [fileBlocks,fileIndex,fileLeaves,← sum_add_distrib]
  exact sum_congr rfl fun slot _ => tree_eq_add _ _ _

variable (mapped : FileMapped w inode n) (top : n ≤ firstUnreachableBlock)
include mapped top

theorem mem_fileBlocks_iff :
    b ∈ fileBlocks w inode ↔ ∃ x, 0 ≤ x ∧ x < n ∧ b ∈ fileRoute w inode x := by
  constructor
  · intro member
    obtain ⟨slot,bound,member⟩ := Multiset.mem_sum.mp member
    have bound := mem_range.mp bound
    obtain ⟨x,low,high,below,found⟩ := exists_route (slotLevel_le slot) (mapped slot bound) member
    have start := slotStart_nonneg bound
    exact ⟨x,by omega,below,by rwa [fileRoute_slot bound low high]⟩
  · rintro ⟨x,nonneg,below,member⟩
    obtain ⟨slot,bound,_,_,low,high⟩ := blockidx2blockslot_spec nonneg (show x < firstUnreachableBlock by omega)
    rw [fileRoute_slot bound low high] at member
    exact Multiset.mem_sum.mpr ⟨slot,mem_range.mpr bound,
      route_subset (slotLevel_le slot) (mapped slot bound) low high below member⟩

theorem mem_fileLeaves_iff :
    b ∈ fileLeaves w inode ↔ ∃ x, 0 ≤ x ∧ x < n ∧ fileBlock w inode x = b := by
  constructor
  · intro member
    obtain ⟨slot,bound,member⟩ := Multiset.mem_sum.mp member
    have bound := mem_range.mp bound
    obtain ⟨x,low,high,below,found⟩ := exists_dataPtr (slotLevel_le slot) (mapped slot bound) member
    have start := slotStart_nonneg bound
    exact ⟨x,by omega,below,by rwa [fileBlock_slot bound low high]⟩
  · rintro ⟨x,nonneg,below,rfl⟩
    obtain ⟨slot,bound,_,_,low,high⟩ := blockidx2blockslot_spec nonneg (show x < firstUnreachableBlock by omega)
    rw [fileBlock_slot bound low high]
    exact Multiset.mem_sum.mpr ⟨slot,mem_range.mpr bound,
      dataPtr_mem (slotLevel_le slot) (mapped slot bound) low high below⟩

theorem fileBlock_injective (nodup : (fileBlocks w inode).Nodup) (nonneg : 0 ≤ x) (below : x < n)
    (nonneg' : 0 ≤ y) (below' : y < n) (same : fileBlock w inode x = fileBlock w inode y) : x = y := by
  obtain ⟨slot,bound,_,_,low,high⟩ := blockidx2blockslot_spec nonneg (show x < firstUnreachableBlock by omega)
  obtain ⟨slot',bound',_,_,low',high'⟩ :=
    blockidx2blockslot_spec nonneg' (show y < firstUnreachableBlock by omega)
  rw [fileBlock_slot bound low high,fileBlock_slot bound' low' high'] at same
  have one := dataPtr_mem (slotLevel_le slot) (mapped slot bound) low high below
  have two := dataPtr_mem (slotLevel_le slot') (mapped slot' bound') low' high' below'
  rw [← same] at two
  obtain rfl : slot = slot' := sum_range_apart nodup bound bound'
    (Multiset.mem_of_le (leaves_le_tree _ _ _) one) (Multiset.mem_of_le (leaves_le_tree _ _ _) two)
  exact dataPtr_injective (slotLevel_le slot) (mapped slot bound)
    (Multiset.nodup_of_le (tree_le_fileBlocks bound) nodup) low high below low' high' below' same

theorem fileBlock_route (nodup : (fileBlocks w inode).Nodup) (nonneg : 0 ≤ x) (below : x < n)
    (nonneg' : 0 ≤ y) (below' : y < n) (member : fileBlock w inode x ∈ fileRoute w inode y) : x = y := by
  refine fileBlock_injective mapped top nodup nonneg below nonneg' below' ?_
  obtain ⟨slot,bound,_,_,low,high⟩ :=
    blockidx2blockslot_spec nonneg' (show y < firstUnreachableBlock by omega)
  have leaf := (mem_fileLeaves_iff mapped top).mpr ⟨x,nonneg,below,rfl⟩
  rw [fileRoute_slot bound low high] at member
  rw [fileBlock_slot bound low high]
  refine (route_index (slotLevel_le slot) (mapped slot bound) low high below' member).resolve_right
    fun inside => ?_
  rw [fileBlocks_eq_add] at nodup
  exact Multiset.disjoint_left.mp (Multiset.nodup_add.mp nodup).2.2
    (Multiset.mem_sum.mpr ⟨slot,mem_range.mpr bound,inside⟩) leaf

end

/-- The block `b` of a file goes when only `n` of its `o` block indexes stay: it holds the data of an
index that goes, or is an index block on the way to none that stays. -/
def Goes (w : World) (inode : Block) (n o b : Int) : Prop :=
  (∃ x, n ≤ x ∧ x < o ∧ b = fileBlock w inode x) ∨
    b ∈ fileIndex w inode ∧ ∀ x, 0 ≤ x → x < n → b ∉ fileRoute w inode x

/-- What is left of the file at `inumber` and of the free list after the file was cut to `size`. -/
structure Shortened (w w' : World) (inumber size : Int) (free : Multiset Int) : Prop where
  number : inoGet w' inumber = inoGet w inumber
  stored : word (w'.block (inoGet w inumber)) Inode.size = size
  kept : ∀ x, 0 ≤ x → x < blockcount size →
    fileBlock w' (w'.block (inoGet w inumber)) x = fileBlock w (w.block (inoGet w inumber)) x ∧
    w'.block (fileBlock w (w.block (inoGet w inumber)) x) =
      w.block (fileBlock w (w.block (inoGet w inumber)) x)
  freed : ∃ freed, FreeSet w' (free + freed) ∧ (free + freed).Nodup ∧
    (∀ b, b ∈ freed ↔ Goes w (w.block (inoGet w inumber)) (blockcount size)
      (blockcount (word (w.block (inoGet w inumber)) Inode.size)) b) ∧
    ∀ b ∈ freed, b ∉ fileBlocks w' (w'.block (inoGet w inumber))

theorem blockcount_below {size : Int} {n : Nat} (nonneg : 0 ≤ size) (below : blockcount size < n) :
    size ≤ (n * blocksize : Nat) := by
  have room := le_blockcount nonneg
  have le := Int.mul_le_mul_of_nonneg_right (show blockcount size ≤ (n : Int) by omega)
    (show (0 : Int) ≤ blocksize by omega)
  push_cast
  omega

section
variable {w w' : World} {inode inode' : Block} {n o : Int}

theorem FileRouted.way (h : FileRouted w w' inode inode' n) (top : n ≤ firstUnreachableBlock) {x : Int}
    (low : 0 ≤ x) (high : x < n) : fileRoute w' inode' x = fileRoute w inode x ∧
      fileBlock w' inode' x = fileBlock w inode x ∧
      w'.block (fileBlock w inode x) = w.block (fileBlock w inode x) := by
  obtain ⟨slot,bound,_,_,begins,ends⟩ :=
    blockidx2blockslot_spec low (show x < firstUnreachableBlock by omega)
  obtain ⟨way,block⟩ := h slot bound x begins ends high
  rw [fileRoute_slot bound begins ends,fileRoute_slot bound begins ends,
    fileBlock_slot bound begins ends,fileBlock_slot bound begins ends]
  exact ⟨way,dataPtr_of_route way,block⟩

/-- If the ways to the indexes that stay are kept, the blocks given back are those that go. -/
theorem tail_freed {free free' : Multiset Int} (mapped : FileMapped w inode o)
    (mapped' : FileMapped w' inode' n) (top : o ≤ firstUnreachableBlock) (nonneg : 0 ≤ n) (le : n ≤ o)
    (routed : FileRouted w w' inode inode' n)
    (all : free' + fileBlocks w' inode' = free + fileBlocks w inode)
    (nodup : (fileBlocks w inode).Nodup) (nodup' : (fileBlocks w' inode').Nodup) :
    ∃ freed, free' = free + freed ∧ (∀ b, b ∈ freed ↔ Goes w inode n o b) ∧
      ∀ b ∈ freed, b ∉ fileBlocks w' inode' := by
  have stays (b : Int) : b ∈ fileBlocks w' inode' ↔
      ∃ x, 0 ≤ x ∧ x < n ∧ b ∈ fileRoute w inode x := by
    rw [mem_fileBlocks_iff mapped' (by omega)]
    refine exists_congr fun x => and_congr_right fun low => and_congr_right fun high => ?_
    rw [(routed.way (by omega) low high).1]
  have inside (b : Int) (member : b ∈ fileBlocks w' inode') : b ∈ fileBlocks w inode := by
    obtain ⟨x,low,high,way⟩ := (stays b).mp member
    exact (mem_fileBlocks_iff mapped top).mpr ⟨x,low,by omega,way⟩
  refine ⟨fileBlocks w inode - fileBlocks w' inode',freed_tail all nodup' inside,fun b => ?_,
    fun b member => ((Multiset.mem_sub_of_nodup nodup).mp member).2⟩
  rw [Multiset.mem_sub_of_nodup nodup,stays,fileBlocks_eq_add,Multiset.mem_add]
  constructor
  · rintro ⟨inIndex | inLeaves,gone⟩
    · exact .inr ⟨inIndex,fun x low high way => gone ⟨x,low,high,way⟩⟩
    · obtain ⟨x,low,high,rfl⟩ := (mem_fileLeaves_iff mapped top).mp inLeaves
      refine .inl ⟨x,?_,high,rfl⟩
      by_contra early
      exact gone ⟨x,low,by omega,fileBlock_mem_route⟩
  · rintro (⟨x,low,high,rfl⟩ | ⟨inIndex,apart⟩)
    · refine ⟨.inr ((mem_fileLeaves_iff mapped top).mpr ⟨x,by omega,high,rfl⟩),?_⟩
      rintro ⟨y,low',high',way⟩
      have := fileBlock_route mapped top nodup (by omega) high low' (by omega) way
      omega
    · refine ⟨.inl inIndex,?_⟩
      rintro ⟨y,low,high,way⟩
      exact apart y low high way

end

variable {w : World} {ilistSize : Nat} {inumber size : Int} {free : Multiset Int} {numbers : List Int}

/-- `inode_setsize` to a smaller number of blocks gives exactly the tail back. -/
theorem setsize_frees_tail (h : Storage w ilistSize free numbers) (calm : w.exhausted = false)
    (numbered : Numbered ilistSize inumber) (used : 0 < inoGet w inumber) (nonneg : 0 ≤ size)
    (less : blockcount size < blockcount (word (w.block (inoGet w inumber)) Inode.size)) :
    ∃ w', inodeSetsize w inumber size = .ok (size,w') ∧ Shortened w w' inumber size free := by
  have held := h.held numbered used
  have mapped := h.mapped calm inumber numbered used
  have top := held.count_top
  have le : size ≤ maxFilesize := blockcount_below nonneg (by omega)
  have cap : min size (maxFilesize : Int) = size := min_eq_left le
  have fits : Fits (min size (maxFilesize : Int)) := by
    have := maxFilesize_lt
    rw [cap]
    exact ⟨by omega,by omega⟩
  obtain ⟨total,_,result⟩ := inodeSetsize_flushed held.names held.list held.owned
    held.sizeNonneg held.sizeTop fits
    (by rw [cap]; exact blockcount_nonneg nonneg) (by rw [cap]; omega)
  obtain ⟨⟨returned,w'⟩,ran⟩ := total mapped
  obtain ⟨loop,flushed⟩ := result _ ran
  rw [cap] at flushed
  have lower := flushed.refitted.lower
  have upper := flushed.refitted.upper
  have count : loop.blockcount = blockcount size := by omega
  have quiet : ¬blockcount (word (w.block (inoGet w inumber)) Inode.size) < blockcount size := by omega
  have size' := flushed.returned
  have stored := flushed.stored
  rw [if_pos count] at size' stored
  dsimp only at size' stored
  rw [size'] at ran
  have number := (flushed.inodeBlocks h numbered used).1
  have mapped' := flushed.mapped mapped fun grows => absurd grows quiet
  have routed := flushed.routed mapped (by omega)
  rw [count] at mapped'
  obtain ⟨free',moved⟩ := flushed.moved
  have all := moved.all (.inr ⟨mapped,fun grows => absurd grows quiet⟩)
  rw [Multiset.add_cons,Multiset.add_cons] at all
  have owned' := moved.owned held.owned
  have nodup := (Multiset.nodup_cons.mp (Multiset.nodup_add.mp held.owned.1).2.1).2
  have nodup' := (Multiset.nodup_cons.mp (Multiset.nodup_add.mp owned'.1).2.1).2
  obtain ⟨freed,same,goes,apart⟩ := tail_freed mapped mapped' top (blockcount_nonneg nonneg) less.le routed
    ((Multiset.cons_inj_right _).mp all) nodup nodup'
  subst same
  refine ⟨w',ran,number,stored,fun x low high => (routed.way (by omega) low high).2,freed,moved.list,
    (Multiset.nodup_add.mp owned'.1).1,goes,apart⟩

end

section
attribute [local instance] Geometry.small

def shortenCalls : List Call := [.allocate,.file 0 (.truncate 700)]

theorem shortenCalls_proper : ∀ call ∈ shortenCalls, call.Proper 1 := by
  rw [shortenCalls]
  simp only [List.forall_mem_cons]
  exact ⟨trivial,⟨by decide,(by decide : (0 : Int) ≤ 700)⟩,by simp⟩

set_option maxRecDepth 100000 in
theorem shortenCalls_run : ∃ w0 answers w, mkfsStorage tinyDisk 1 = .ok w0 ∧
    runCalls w0 shortenCalls = .ok (answers,w) ∧ w.exhausted = false ∧ 0 < inoGet w 0 ∧
    word (w.block (inoGet w 0)) Inode.size = 700 := by
  have ran : (match mkfsStorage tinyDisk 1 with
      | .ok w0 => match runCalls w0 shortenCalls with
        | .ok (_,w) => !w.exhausted && decide (0 < inoGet w 0) &&
          decide (word (w.block (inoGet w 0)) Inode.size = 700)
        | .error _ => false
      | .error _ => false) = true := by decide +kernel
  split at ran
  · rename_i w0 made
    split at ran
    · rename_i answers w calls
      simp only [Bool.and_eq_true,Bool.not_eq_true',decide_eq_true_eq] at ran
      exact ⟨w0,answers,w,made,calls,ran.1.1,ran.1.2,ran.2⟩
    · cases ran
  · cases ran

theorem setsize_frees_tail_tiny : ∃ (w w' : World) (free : Multiset Int),
    inodeSetsize w 0 1 = .ok (1,w') ∧ Shortened w w' 0 1 free := by
  obtain ⟨w0,answers,w,made,ran,calm,used,size⟩ := shortenCalls_run
  have room : 1 + 1 < tinyDisk.nblocks := by decide
  obtain ⟨w0',made',_,_,_,fresh⟩ := mkfsStorage_spec (le_refl 1) room
  obtain rfl : w0' = w0 := Except.ok.inj (made'.symm.trans made)
  obtain ⟨_,_,free,numbers,h,_⟩ := runCalls_storage shortenCalls shortenCalls_proper _ _ _ _ _ fresh ran
  have less : blockcount 1 < blockcount (word (w.block (inoGet w 0)) Inode.size) := by
    rw [size]
    decide
  obtain ⟨w',ran,short⟩ := setsize_frees_tail h calm (by decide) used (by decide) less
  exact ⟨w,w',free,ran,short⟩

end

end CandyFs
