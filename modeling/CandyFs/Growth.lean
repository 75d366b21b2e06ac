import CandyFs.FileRuns

/-! Growing a file when space may run out: what `inode_setsize` keeps, and the one case in which
it loses an index block.
-/
namespace CandyFs
open Bytes Finset

section
variable [Geometry]

/-- The file at `inumber` went to `k` blocks on the way to `size`, and nothing was lost. -/
structure GrowthKept (w w' : World) (inumber size : Int) (free : Multiset Int) (k : Int) : Prop where
  lower : blockcount (word (w.block (inoGet w inumber)) Inode.size) ≤ k
  upper : k ≤ blockcount (min size maxFilesize)
  mapped : FileMapped w' (w'.block (inoGet w' inumber)) k
  kept : FileKept w w' (w.block (inoGet w inumber)) (w'.block (inoGet w' inumber))
    (blockcount (word (w.block (inoGet w inumber)) Inode.size))
  space : ∃ free', FreeSet w' free' ∧
    free' + inodeBlocks w' inumber = free + inodeBlocks w inumber
  exhausted : k < blockcount (min size maxFilesize) → w'.exhausted = true
  stored : word (w'.block (inoGet w' inumber)) Inode.size =
    if k = blockcount (min size maxFilesize) then min size maxFilesize else k * blocksize

theorem blockcount_pos {size : Int} (positive : 0 < blockcount size) : -(blocksize : Int) < size := by
  have large := blocksize_large
  by_contra low
  obtain ⟨t,rfl⟩ : ∃ t, size = -t := ⟨-size,by omega⟩
  have quotient : 1 ≤ t / blocksize := (Int.le_ediv_iff_mul_le (by omega)).mpr (by omega)
  rw [blockcount,offset2blockidx,Int.neg_tdiv,Int.tdiv_eq_ediv_of_nonneg (by omega)] at positive
  split at positive <;> omega

theorem blockcount_neg {size : Int} (negative : size ≤ 0) : blockcount size ≤ 1 := by
  obtain ⟨t,rfl⟩ : ∃ t, size = -t := ⟨-size,by omega⟩
  have quotient : 0 ≤ t / blocksize := Int.ediv_nonneg (by omega) (by omega)
  rw [blockcount,offset2blockidx,Int.neg_tdiv,Int.tdiv_eq_ediv_of_nonneg (by omega)]
  split <;> omega

theorem firstUnreachableBlock_pos : 1 ≤ firstUnreachableBlock := by
  have large := singleIndirectCount_large
  unfold firstUnreachableBlock firstTripleIndirectBlock firstDoubleIndirectBlock
  omega

variable {w : World} {ilistSize : Nat} {inumber size : Int} {free : Multiset Int} {numbers : List Int}

theorem Storage.grown (h : Storage w ilistSize free numbers) (calm : w.exhausted = false)
    (numbered : Numbered ilistSize inumber) (used : 0 < inoGet w inumber)
    (more : blockcount (word (w.block (inoGet w inumber)) Inode.size) <
      blockcount (min size maxFilesize)) :
    ∃ r loop, inodeSetsize w inumber size = .ok r ∧
      Flushed (blockcount (word (w.block (inoGet w inumber)) Inode.size))
        (blockcount (min size maxFilesize))
        (if loop.blockcount = blockcount (min size maxFilesize) then min size maxFilesize
          else loop.blockcount * blocksize) w (inoGet w inumber) free loop r := by
  have held := h.held numbered used
  have oldNonneg := blockcount_nonneg held.sizeNonneg
  have low := blockcount_pos (show 0 < blockcount (min size maxFilesize) by omega)
  have maxFits := maxFilesize_lt
  have reachable := firstUnreachableBlock_pos
  have unit : blocksize ≤ maxFilesize := Nat.le_mul_of_pos_left _ reachable
  have top : blockcount (min size maxFilesize) ≤ firstUnreachableBlock := by
    by_cases negative : min size (maxFilesize : Int) ≤ 0
    · have := blockcount_neg negative
      omega
    · exact blockcount_top (by omega) (by omega)
  obtain ⟨total,_,result⟩ := inodeSetsize_flushed held.names held.list held.owned held.sizeNonneg
    held.sizeTop (show Fits (min size maxFilesize) by unfold Fits; omega) (by omega) top
  obtain ⟨r,ran⟩ := total (h.mapped calm inumber numbered used)
  obtain ⟨loop,flushed⟩ := result r ran
  exact ⟨r,loop,ran,flushed⟩

theorem Flushed.inodeBlocks {r : Int × World} {loop : SizeLoop} {old new s : Int}
    (flushed : Flushed old new s w (inoGet w inumber) free loop r)
    (h : Storage w ilistSize free numbers) (numbered : Numbered ilistSize inumber)
    (used : 0 < inoGet w inumber) : inoGet r.2 inumber = inoGet w inumber ∧
      inodeBlocks r.2 inumber = inoGet w inumber ::ₘ fileBlocks r.2 (r.2.block (inoGet w inumber)) := by
  have held := h.held numbered used
  obtain ⟨_,moved⟩ := flushed.moved
  have number : inoGet r.2 inumber = inoGet w inumber :=
    inoGet_frame moved.frame fun inside => lt_irrefl _ (held.listed _ inside)
  exact ⟨number,by rw [inodeBlocks_pos (by rw [number]; exact used),number]⟩

theorem growth_lost (h : Storage w ilistSize free numbers) (calm : w.exhausted = false)
    (numbered : Numbered ilistSize inumber) (used : 0 < inoGet w inumber)
    (more : blockcount (word (w.block (inoGet w inumber)) Inode.size) <
      blockcount (min size maxFilesize))
    (fragile : Fragile (blockcount (word (w.block (inoGet w inumber)) Inode.size)))
    (short : free.card + footprint (blockcount (word (w.block (inoGet w inumber)) Inode.size)) <
      footprint (blockcount (word (w.block (inoGet w inumber)) Inode.size) + 1)) :
    ¬∃ r, inodeSetsize w inumber size = .ok r ∧ ∃ k, GrowthKept w r.2 inumber size free k := by
  rintro ⟨r,ran,k,kept⟩
  obtain ⟨r',loop,ran',flushed⟩ := h.grown calm numbered used more
  obtain rfl : r' = r := Except.ok.inj (ran'.symm.trans ran)
  have mapped := h.mapped calm inumber numbered used
  have lower := flushed.refitted.lower
  by_cases stuck : loop.blockcount = blockcount (word (w.block (inoGet w inumber)) Inode.size)
  · have cut := flushed.cut mapped more fragile stuck
    have last := fragile.last
    have lower := kept.lower
    have whole := kept.mapped
    rw [(flushed.inodeBlocks h numbered used).1] at whole
    exact whole.uncut last.1 (by omega) (by omega) cut
  · -- every block gained was free before
    have gained : blockcount (word (w.block (inoGet w inumber)) Inode.size) < loop.blockcount := by omega
    obtain ⟨free',moved⟩ := flushed.moved
    have cards := congrArg Multiset.card (moved.all (.inr ⟨mapped,fun _ _ => gained⟩))
    rw [Multiset.card_add,Multiset.card_add,Multiset.card_cons,Multiset.card_cons,mapped.card,
      (flushed.mapped mapped fun _ _ => gained).card] at cards
    have := footprint_mono (show blockcount (word (w.block (inoGet w inumber)) Inode.size) + 1 ≤
      loop.blockcount by omega)
    omega

/-- Growing a file keeps what it holds, and loses no block, exactly when it is not the case that the
first child of one of its index blocks is partly filled and there is no room for one more block. -/
theorem setsize_growth_kept (h : Storage w ilistSize free numbers) (calm : w.exhausted = false)
    (numbered : Numbered ilistSize inumber) (used : 0 < inoGet w inumber)
    (more : blockcount (word (w.block (inoGet w inumber)) Inode.size) <
      blockcount (min size maxFilesize)) :
    (∃ r, inodeSetsize w inumber size = .ok r ∧ ∃ k, GrowthKept w r.2 inumber size free k) ↔
      ¬(Fragile (blockcount (word (w.block (inoGet w inumber)) Inode.size)) ∧
        free.card + footprint (blockcount (word (w.block (inoGet w inumber)) Inode.size)) <
          footprint (blockcount (word (w.block (inoGet w inumber)) Inode.size) + 1)) := by
  constructor
  · rintro kept ⟨fragile,short⟩
    exact growth_lost h calm numbered used more fragile short kept
  · intro fine
    obtain ⟨r,loop,ran,flushed⟩ := h.grown calm numbered used more
    have mapped := h.mapped calm inumber numbered used
    have refitted := flushed.refitted
    have lower := refitted.lower
    have safe (_ : blockcount (word (w.block (inoGet w inumber)) Inode.size) <
        blockcount (min size maxFilesize))
        (fragile : Fragile (blockcount (word (w.block (inoGet w inumber)) Inode.size))) :
        blockcount (word (w.block (inoGet w inumber)) Inode.size) < loop.blockcount := by
      by_contra stuck
      have same : loop.blockcount = blockcount (word (w.block (inoGet w inumber)) Inode.size) := by omega
      have short := refitted.short mapped (by omega)
      rw [same] at short
      exact fine ⟨fragile,short⟩
    obtain ⟨number,blocks⟩ := flushed.inodeBlocks h numbered used
    obtain ⟨free',moved⟩ := flushed.moved
    refine ⟨r,ran,loop.blockcount,by omega,refitted.upper,?_,?_,⟨free',moved.list,?_⟩,fun less => ?_,?_⟩
    · rw [number]
      exact flushed.mapped mapped safe
    · have kept := flushed.kept mapped safe
      rw [min_eq_left (by omega)] at kept
      rw [number]
      exact kept
    · rw [blocks,inodeBlocks_pos used]
      exact moved.all (.inr ⟨mapped,safe⟩)
    · rw [flushed.exhausted]
      by_contra fine
      have := refitted.exact (by simpa using fine)
      omega
    · rw [number]
      exact flushed.stored

end

section
attribute [local instance] Geometry.small

def fullDisk : World := ⟨79,fun _ _ => 0,by decide,fun _ => 0,fun _ => ⟨0,0⟩,false⟩

set_option maxRecDepth 100000 in
theorem fullDisk_made : ∃ w0 answers w, mkfsStorage fullDisk 1 = .ok w0 ∧
    runCalls w0 [.allocate] = .ok (answers,w) ∧ w.exhausted = false ∧ 0 < inoGet w 0 ∧
    word (w.block (inoGet w 0)) Inode.size = 0 ∧ word (w.block 0) Superblock.freeBlocks = 76 := by
  have ran : (match mkfsStorage fullDisk 1 with
      | .ok w0 => match runCalls w0 [.allocate] with
        | .ok (_,w) => !w.exhausted && decide (0 < inoGet w 0) &&
          decide (word (w.block (inoGet w 0)) Inode.size = 0) &&
          decide (word (w.block 0) Superblock.freeBlocks = 76)
        | .error _ => false
      | .error _ => false) = true := by decide +kernel
  split at ran
  · rename_i w0 made
    split at ran
    · rename_i answers w calls
      simp only [Bool.and_eq_true,Bool.not_eq_true',decide_eq_true_eq] at ran
      exact ⟨w0,answers,w,made,calls,ran.1.1.1,ran.1.1.2,ran.1.2,ran.2⟩
    · cases ran
  · cases ran

theorem footprint_full : footprint 0 = 0 ∧ footprint 73 = 76 ∧ footprint 73 < footprint 74 := by
  decide +kernel

theorem fragile_full : Fragile 73 :=
  ⟨29,by decide,.inl ⟨by decide,by decide⟩⟩

/-- There is a disk without a free block on which a growth loses what the file holds. -/
theorem setsize_growth_loses : ∃ w0 answers w1 w free numbers,
    mkfsStorage fullDisk 1 = .ok w0 ∧ runCalls w0 [.allocate] = .ok (answers,w1) ∧
    inodeSetsize w1 0 (73 * 352) = .ok (73 * 352,w) ∧ Storage w 1 free numbers ∧
    w.exhausted = false ∧ Numbered 1 0 ∧ 0 < inoGet w 0 ∧
    blockcount (word (w.block (inoGet w 0)) Inode.size) < blockcount (min (74 * 352) maxFilesize) ∧
    ¬∃ r, inodeSetsize w 0 (74 * 352) = .ok r ∧ ∃ k, GrowthKept w r.2 0 (74 * 352) free k := by
  obtain ⟨w0,answers,w1,made,ran,calm,used,empty,count⟩ := fullDisk_made
  have room : 1 + 1 < fullDisk.nblocks := by decide
  obtain ⟨w0',made',_,_,_,fresh⟩ := mkfsStorage_spec (le_refl 1) room
  obtain rfl : w0' = w0 := Except.ok.inj (made'.symm.trans made)
  obtain ⟨_,_,free1,numbers,h1,_⟩ := runCalls_storage [.allocate] (by simp [Call.Proper]) _ _ _ _ _
    fresh ran
  have numbered : Numbered 1 0 := by decide
  obtain ⟨nodes,list⟩ := h1.list
  have card1 : free1.card = 76 := by
    have := list.count
    rw [count] at this
    exact_mod_cast this.symm
  obtain ⟨footprint0,footprint73,footprint74⟩ := footprint_full
  have old : blockcount (word (w1.block (inoGet w1 0)) Inode.size) = 0 := by rw [empty,blockcount_zero]
  have top : min (73 * 352 : Int) maxFilesize = 73 * 352 := by decide
  have new : blockcount (73 * 352) = 73 := by decide
  have more : blockcount (word (w1.block (inoGet w1 0)) Inode.size) <
      blockcount (min (73 * 352) maxFilesize) := by
    rw [old,top,new]
    decide
  obtain ⟨r,loop,grew,flushed⟩ := h1.grown calm numbered used more
  have refitted := flushed.refitted
  have mapped1 := h1.mapped calm 0 numbered used
  have upper := refitted.upper
  rw [top,new] at upper
  have all : loop.blockcount = 73 := by
    by_contra part
    have short := refitted.short mapped1 (by rw [top,new]; omega)
    have := footprint_mono (show loop.blockcount + 1 ≤ 73 by omega)
    rw [old,footprint0] at short
    omega
  obtain ⟨returned,w⟩ := r
  have size := flushed.returned
  have stored := flushed.stored
  rw [all,top,new,if_pos rfl] at size stored
  dsimp only at size stored
  subst size
  have quiet : w.exhausted = false := by
    have same := refitted.calm (by rw [all,top,new]) (by rw [old,top,new]; decide)
    rw [flushed.exhausted,same,calm]
  have held := h1.held numbered used
  obtain ⟨_,_,resized⟩ := inodeSetsize_spec held.names held.list held.owned held.sizeNonneg
    held.sizeTop (show (0 : Int) ≤ 73 * 352 by decide)
  have updated : Updated w1 (inoGet w1 0) free1 w := (resized _ grew).updated
  obtain ⟨free,renewed⟩ := updated.renewed h1 numbered used
  have h := (renewed.storage h1 numbered).1
  obtain ⟨number,blocks⟩ := flushed.inodeBlocks h1 numbered used
  dsimp only at number blocks
  have used' : 0 < inoGet w 0 := by rw [number]; exact used
  have mapped := h.mapped quiet 0 numbered used'
  have size' : blockcount (word (w.block (inoGet w 0)) Inode.size) = 73 := by rw [number,stored,new]
  have cards := congrArg Multiset.card (renewed.all quiet)
  rw [Multiset.card_add,Multiset.card_add,inodeBlocks_pos used',inodeBlocks_pos used,
    Multiset.card_cons,Multiset.card_cons,mapped.card,mapped1.card,size',old,footprint0,footprint73,
    card1] at cards
  have more : blockcount (word (w.block (inoGet w 0)) Inode.size) <
      blockcount (min (74 * 352) maxFilesize) := by
    rw [size']
    decide
  refine ⟨w0',answers,w1,w,free,numbers,made,ran,grew,h,quiet,numbered,used',more,
    growth_lost h quiet numbered used' more ?_ ?_⟩
  · rw [size']
    exact fragile_full
  · rw [size',show free.card = 0 by omega]
    exact footprint74

/-- A file of 300 bytes gets the last free block on the way to six, and keeps its bytes. -/
theorem setsize_growth_kept_full : ∃ w free, word (w.block (inoGet w 0)) Inode.size = 300 ∧ free.card = 1 ∧
    ∃ r, inodeSetsize w 0 2000 = .ok r ∧ ∃ k, GrowthKept w r.2 0 2000 free k := by
  obtain ⟨w,free,numbers,h,calm,used,size,card⟩ := tinyFile_storage
  have more : blockcount (word (w.block (inoGet w 0)) Inode.size) < blockcount (min 2000 maxFilesize) := by
    rw [size]
    decide
  have enough : ¬1 + footprint (blockcount 300) < footprint (blockcount 300 + 1) := by decide +kernel
  refine ⟨w,free,size,card,(setsize_growth_kept h calm (by decide) used more).mpr fun lost => enough ?_⟩
  rw [size,card] at lost
  exact lost.2

end

end CandyFs
