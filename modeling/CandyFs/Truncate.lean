import CandyFs.ShortWrite

/-! The sizes `inode_truncate` leaves behind, for any value of `off_t`.
-/
namespace CandyFs
open Bytes Finset

section
variable [Geometry]

/-- The inode at `inumber` and both free lists are as they were. -/
structure Unchanged (w w' : World) (ilistSize : Nat) (inumber : Int) (free : Multiset Int)
    (numbers : List Int) : Prop where
  number : inoGet w' inumber = inoGet w inumber
  size : word (w'.block (inoGet w inumber)) Inode.size = word (w.block (inoGet w inumber)) Inode.size
  slots : ∀ slot, slot < numBlockSlots →
    slotPtr (w'.block (inoGet w inumber)) slot = slotPtr (w.block (inoGet w inumber)) slot
  blocks : FreeSet w' free
  inodes : InodeList w' ilistSize numbers fun _ => False

/-- `inode_truncate` refuses `size` and changes nothing, or returns the size it stores, which is in
range, and is the one asked for if enough blocks are free. -/
def SizeInRange (w : World) (ilistSize : Nat) (inumber size : Int) (free : Multiset Int)
    (numbers : List Int) : Prop :=
  ∃ result w', inodeTruncate w inumber size = .ok (result,w') ∧
    (result = -1 ∧ Unchanged w w' ilistSize inumber free numbers ∨
      0 ≤ size ∧ word (w'.block (inoGet w' inumber)) Inode.size = result ∧
      0 ≤ result ∧ result ≤ maxFilesize ∧
      (footprint (blockcount (min size maxFilesize)) ≤
          free.card + footprint (blockcount (word (w.block (inoGet w inumber)) Inode.size)) →
        result = min size maxFilesize))

/-- A file that cannot get its next block, and whose growth begins by filling up its last block and
by giving an index block back that it needs for that. -/
def LosesLast (w : World) (inumber size : Int) (free : Multiset Int) : Prop :=
  let len := word (w.block (inoGet w inumber)) Inode.size
  blockcount len < blockcount (min size maxFilesize) ∧ len % blocksize ≠ 0 ∧
    Fragile (blockcount len) ∧ free.card + footprint (blockcount len) < footprint (blockcount len + 1)

theorem blockcount_negative {size : Int} :
    blockcount size < 0 ↔ size = -(blocksize : Int) ∨ size ≤ -(2 * blocksize) := by
  have large := blocksize_large
  by_cases nonneg : 0 ≤ size
  · have := blockcount_nonneg nonneg
    omega
  · obtain ⟨t,rfl⟩ : ∃ t, size = -t := ⟨-size,by omega⟩
    have parts := Int.mul_ediv_add_emod t blocksize
    have low := Int.emod_nonneg t (show (blocksize : Int) ≠ 0 by omega)
    have high := Int.emod_lt_of_pos t (show (0 : Int) < blocksize by omega)
    have two := Int.le_ediv_iff_mul_le (a := 2) (b := t) (show (0 : Int) < blocksize by omega)
    have one := Int.le_ediv_iff_mul_le (a := 1) (b := t) (show (0 : Int) < blocksize by omega)
    rw [blockcount,offset2blockidx,Int.neg_tdiv,Int.neg_tmod,Int.tdiv_eq_ediv_of_nonneg (by omega),
      Int.tmod_eq_emod_of_nonneg (by omega)]
    by_cases exactly : t / (blocksize : Int) = 1
    · rw [exactly] at parts ⊢
      split <;> omega
    · split <;> omega

theorem last_block {len : Int} (nonneg : 0 ≤ len) (part : len % blocksize ≠ 0) :
    len / blocksize = blockcount len - 1 := by
  rw [blockcount,offset2blockidx,Int.tdiv_eq_ediv_of_nonneg nonneg,Int.tmod_eq_emod_of_nonneg nonneg,
    if_pos part]
  omega

theorem writeRange_uncut {w : World} {b pos endpos : Int} {inode : Block} {data : Option Block}
    {r : Int × World} (owned : Owned w (fileBlocks w inode)) (nonneg : 0 ≤ pos) (proper : pos < endpos)
    (top : endpos ≤ maxFilesize) (ran : writeRange w b inode pos pos endpos data = .ok r) :
    eof ∉ fileRoute w inode (pos / blocksize) := by
  unfold writeRange at ran
  rw [if_neg (not_le.mpr proper)] at ran
  obtain ⟨loop,ran,_⟩ := bind_ok.mp ran
  obtain ⟨slot,bound,found,level,low,high⟩ := slot_of_byte nonneg (show pos < maxFilesize by omega)
  obtain ⟨begins,ends⟩ := slot_bytes low high
  obtain ⟨n,fuel⟩ : ∃ n, (endpos - pos).toNat = n + 1 :=
    ⟨_,(Nat.succ_pred_eq_of_pos (by omega)).symm⟩
  simp only [fuel,writeLoop,if_pos proper,found,level,Int.toNat_natCast,lt_irrefl,if_false] at ran
  obtain ⟨_,_,ran⟩ := bind_ok.mp ran
  obtain ⟨_,ran,_⟩ := bind_ok.mp ran
  rw [fileRoute_slot bound begins ends]
  exact inodeIndirectReadwrite_uncut nonneg proper (slotLevel_le slot)
    (owned.mono (tree_le_fileBlocks bound)) begins ends ran

section
variable {w w' : World} {ilistSize : Nat} {inumber b size newsize : Int} {free : Multiset Int}

theorem inodeWrite_zeros {len : Int} (held : Held w inumber b free) (nonneg : 0 ≤ len)
    (stored : word (w.block b) Inode.size = newsize) :
    inodeWrite w inumber len none (newsize - len) =
      writeRange w b (w.block b) len len newsize none := by
  have fits : Fits newsize := stored ▸ word_fits _ _
  simp only [inodeWrite,held.names.load,stored]
  rw [if_neg (show ¬len = -1 by omega),show len + (newsize - len) = newsize by omega,
    wrap_of_fits fits,if_neg (lt_irrefl _)]

theorem inodeWrite_filled {len : Int} (held : Held w inumber b free) (nonneg : 0 ≤ len)
    (stored : word (w.block b) Inode.size = newsize) (mapped : FileMapped w (w.block b) (blockcount newsize))
    (grew : len < newsize) : ∃ count w', inodeWrite w inumber len none (newsize - len) = .ok (count,w') ∧
      inoGet w' inumber = b ∧ word (w'.block b) Inode.size = newsize := by
  have top := held.sizeTop
  obtain ⟨w',wrote,_,kept,_⟩ := writeRange_bytes held nonneg le_rfl grew.le grew (by rw [stored])
    (by rw [stored]; exact mapped) none
  obtain ⟨updated,_⟩ := (writeRange_updated held nonneg nonneg (by omega) none).2 _ wrote
  obtain ⟨_,held',_⟩ := updated.held held
  exact ⟨_,w',(inodeWrite_zeros held nonneg stored).trans wrote,held'.names.number,kept.trans stored⟩

theorem inodeWrite_cut {len : Int} (held : Held w inumber b free) (nonneg : 0 ≤ len)
    (stored : word (w.block b) Inode.size = newsize) (grew : len < newsize)
    (cut : eof ∈ fileRoute w (w.block b) (len / blocksize)) :
    ¬∃ r, inodeWrite w inumber len none (newsize - len) = .ok r := by
  rintro ⟨r,ran⟩
  have top := held.sizeTop
  rw [inodeWrite_zeros held nonneg stored] at ran
  exact writeRange_uncut held.ownedFile nonneg grew (by omega) ran cut

theorem inodeTruncate_refused (held : Held w inumber b free) (negative : blockcount size < 0) :
    inodeTruncate w inumber size = .ok (-1,w) := by
  have sizeNonneg := held.sizeNonneg
  have below := blockcount_negative.mp negative
  have cap : ¬size > maxFilesize := by omega
  simp only [inodeTruncate,inodeSetsize,held.names.load,if_neg cap,if_pos negative,ok_bind]
  rw [if_neg (by omega)]

theorem Resized.value_short {r : Int × World} (h : Resized size w b free r)
    (mapped : FileMapped w (w.block b) (blockcount (word (w.block b) Inode.size)))
    (enough : footprint (blockcount (min size maxFilesize)) ≤
      free.card + footprint (blockcount (word (w.block b) Inode.size))) :
    r.1 = min size maxFilesize := by
  have count := h.count
  rw [h.value,if_pos]
  by_contra part
  have short := h.short mapped (by omega)
  have := footprint_mono (show blockcount r.1 + 1 ≤ blockcount (min size maxFilesize) by omega)
  omega

/-- A file that is asked to grow loses an index block when it cannot get its next block. -/
theorem Resized.safe_of_room {r : Int × World} (h : Resized size w b free r)
    (mapped : FileMapped w (w.block b) (blockcount (word (w.block b) Inode.size))) :
    ResizeSafe size w (w.block b) (blockcount r.1) ↔
      ¬(blockcount (word (w.block b) Inode.size) < blockcount (min size maxFilesize) ∧
        Fragile (blockcount (word (w.block b) Inode.size)) ∧
        free.card + footprint (blockcount (word (w.block b) Inode.size)) <
          footprint (blockcount (word (w.block b) Inode.size) + 1)) := by
  constructor
  · rintro safe ⟨more,fragile,stuck⟩
    have gained := safe.2 more fragile
    have affordable := h.affordable mapped gained.le
    have := footprint_mono (show blockcount (word (w.block b) Inode.size) + 1 ≤ blockcount r.1 by omega)
    omega
  · intro room
    refine ⟨mapped,fun more fragile => ?_⟩
    by_contra stuck
    have lower := h.lower
    have same : blockcount r.1 = blockcount (word (w.block b) Inode.size) := by omega
    have short := h.short mapped (by omega)
    rw [same] at short
    exact room ⟨more,fragile,short⟩

end

section
variable {w : World} {ilistSize : Nat} {inumber size : Int} {free : Multiset Int} {numbers : List Int}

theorem sizeInRange_nonneg (held : Held w inumber (inoGet w inumber) free)
    (mapped : FileMapped w (w.block (inoGet w inumber))
      (blockcount (word (w.block (inoGet w inumber)) Inode.size))) (nonneg : 0 ≤ size)
    (fine : ¬LosesLast w inumber size free) : SizeInRange w ilistSize inumber size free numbers := by
  have lenNonneg := held.sizeNonneg
  obtain ⟨total,_,resized⟩ :=
    inodeSetsize_spec held.names held.list held.owned lenNonneg held.sizeTop nonneg
  obtain ⟨⟨newsize,w1⟩,ran⟩ := total mapped
  have made := resized _ ran
  have updated : Updated w (inoGet w inumber) free w1 := made.updated
  obtain ⟨free1,held1,_⟩ := updated.held held
  have stored : word (w1.block (inoGet w inumber)) Inode.size = newsize := made.stored
  have sizeNonneg : 0 ≤ newsize := made.nonneg
  have top : newsize ≤ maxFilesize := made.top
  have exact' := made.value_short mapped
  unfold SizeInRange
  simp only [inodeTruncate,held.names.load,ran,ok_bind]
  by_cases grew : newsize > word (w.block (inoGet w inumber)) Inode.size
  · rw [if_pos grew]
    -- what the file holds is still reached
    have safe : ResizeSafe size w (w.block (inoGet w inumber)) (blockcount newsize) := by
      by_contra lost
      obtain ⟨same,_,_⟩ := made.cut mapped lost
      have room := (made.safe_of_room mapped).not.mp lost
      simp only [not_not] at room
      refine fine ⟨room.1,fun full => ?_,room.2⟩
      have value : newsize = if blockcount newsize = blockcount (min size maxFilesize)
        then min size maxFilesize else blockcount newsize * blocksize := made.value
      dsimp only at same
      rw [same,if_neg (by omega)] at value
      have parts := Int.mul_ediv_add_emod (word (w.block (inoGet w inumber)) Inode.size) blocksize
      rw [full,Int.mul_comm] at parts
      have count := blockcount_mul (word (w.block (inoGet w inumber)) Inode.size / (blocksize : Int))
      rw [show word (w.block (inoGet w inumber)) Inode.size / (blocksize : Int) * blocksize =
        word (w.block (inoGet w inumber)) Inode.size by omega] at count
      rw [count] at value
      omega
    obtain ⟨_,w2,wrote,number,kept⟩ := inodeWrite_filled held1 lenNonneg stored (made.mapped safe) grew
    rw [wrote]
    refine ⟨newsize,w2,rfl,.inr ⟨nonneg,?_,sizeNonneg,top,exact'⟩⟩
    rw [number,kept]
  · rw [if_neg grew]
    refine ⟨newsize,w1,rfl,.inr ⟨nonneg,?_,sizeNonneg,top,exact'⟩⟩
    rw [held1.names.number,stored]

theorem sizeInRange_negative (held : Held w inumber (inoGet w inumber) free) (negative : size < 0)
    (inRange : SizeInRange w ilistSize inumber size free numbers) : blockcount size < 0 := by
  by_contra nonneg
  have lenNonneg := held.sizeNonneg
  have below := blockcount_neg negative.le
  have reachable : 2 ≤ firstUnreachableBlock := by
    have := singleIndirectCount_large
    unfold firstUnreachableBlock firstTripleIndirectBlock firstDoubleIndirectBlock
    omega
  have large := blocksize_large
  have near := blockcount_negative.not.mp nonneg
  have unit : 2 * blocksize ≤ maxFilesize := Nat.mul_le_mul_right _ reachable
  have short := maxFilesize_lt
  have cap : min size (maxFilesize : Int) = size := by omega
  have fits : Fits (min size (maxFilesize : Int)) := by
    rw [cap]
    exact ⟨by omega,by omega⟩
  obtain ⟨_,_,result⟩ := inodeSetsize_flushed held.names held.list held.owned lenNonneg
    held.sizeTop fits (by rw [cap]; omega) (by rw [cap]; omega)
  obtain ⟨result',w',ran,outcome⟩ := inRange
  simp only [inodeTruncate,held.names.load] at ran
  obtain ⟨⟨newsize,w1⟩,sized,ran⟩ := bind_ok.mp ran
  obtain ⟨loop,flushed⟩ := result _ sized
  have stored := flushed.stored.trans flushed.returned.symm
  dsimp only at ran stored
  rcases outcome with ⟨refused,same⟩ | ⟨nonneg,_⟩
  · split at ran
    · obtain ⟨_,_,ran⟩ := bind_ok.mp ran
      cases ran
      omega
    · cases ran
      have := same.size
      omega
  · omega

theorem sizeInRange_lost (held : Held w inumber (inoGet w inumber) free)
    (mapped : FileMapped w (w.block (inoGet w inumber))
      (blockcount (word (w.block (inoGet w inumber)) Inode.size))) (nonneg : 0 ≤ size)
    (loses : LosesLast w inumber size free) : ¬SizeInRange w ilistSize inumber size free numbers := by
  rintro ⟨result,w',ran,_⟩
  have lenNonneg := held.sizeNonneg
  obtain ⟨_,_,resized⟩ := inodeSetsize_spec held.names held.list held.owned lenNonneg held.sizeTop nonneg
  obtain ⟨more,part,fragile,stuck⟩ := loses
  simp only [inodeTruncate,held.names.load] at ran
  obtain ⟨⟨newsize,w1⟩,sized,ran⟩ := bind_ok.mp ran
  have made := resized _ sized
  have updated : Updated w (inoGet w inumber) free w1 := made.updated
  obtain ⟨free1,held1,_⟩ := updated.held held
  have stored : word (w1.block (inoGet w inumber)) Inode.size = newsize := made.stored
  have lost := (made.safe_of_room mapped).not.mpr (not_not.mpr ⟨more,fragile,stuck⟩)
  obtain ⟨same,_,cut⟩ := made.cut mapped lost
  have value : newsize = if blockcount newsize = blockcount (min size maxFilesize)
    then min size maxFilesize else blockcount newsize * blocksize := made.value
  dsimp only at same cut ran
  rw [same,if_neg (by omega)] at value
  have room := le_blockcount lenNonneg
  have differ : word (w.block (inoGet w inumber)) Inode.size ≠ newsize := fun equal => by
    rw [equal] at part
    rw [value,Int.mul_emod_left] at part
    exact part rfl
  have grew : word (w.block (inoGet w inumber)) Inode.size < newsize := by omega
  rw [if_pos grew] at ran
  obtain ⟨_,wrote,_⟩ := bind_ok.mp ran
  rw [← last_block lenNonneg part] at cut
  exact inodeWrite_cut held1 lenNonneg stored grew cut ⟨_,wrote⟩

/-- The size stays in range exactly for the sizes from zero on that cost the file no block it needs,
and for the negative ones that amount to a negative count of blocks. -/
theorem truncate_in_range (h : Storage w ilistSize free numbers) (calm : w.exhausted = false)
    (numbered : Numbered ilistSize inumber) (used : 0 < inoGet w inumber) :
    SizeInRange w ilistSize inumber size free numbers ↔
      size = -(blocksize : Int) ∨ size ≤ -(2 * blocksize) ∨
        0 ≤ size ∧ ¬LosesLast w inumber size free := by
  have held := h.held numbered used
  have mapped := h.mapped calm inumber numbered used
  rw [← or_assoc,← blockcount_negative]
  constructor
  · intro inRange
    by_cases negative : size < 0
    · exact .inl (sizeInRange_negative held negative inRange)
    · exact .inr ⟨by omega,fun loses => sizeInRange_lost held mapped (by omega) loses inRange⟩
  · rintro (negative | ⟨nonneg,fine⟩)
    · exact ⟨-1,w,inodeTruncate_refused held negative,
        .inl ⟨rfl,rfl,rfl,fun _ _ => rfl,h.list,h.inodes⟩⟩
    · exact sizeInRange_nonneg held mapped nonneg fine

end

end

section
attribute [local instance] Geometry.small

set_option maxRecDepth 100000 in
theorem emptyFile_run : ∃ w0 answers w w', mkfsStorage tinyDisk 1 = .ok w0 ∧
    runCalls w0 [.allocate] = .ok (answers,w) ∧ w.exhausted = false ∧ 0 < inoGet w 0 ∧
    inodeTruncate w 0 (-5) = .ok (-5,w') := by
  have ran : (match mkfsStorage tinyDisk 1 with
      | .ok w0 => match runCalls w0 [.allocate] with
        | .ok (_,w) => !w.exhausted && decide (0 < inoGet w 0) && match inodeTruncate w 0 (-5) with
          | .ok (result,_) => decide (result = -5)
          | .error _ => false
        | .error _ => false
      | .error _ => false) = true := by decide +kernel
  split at ran
  · rename_i w0 made
    split at ran
    · rename_i answers w calls
      simp only [Bool.and_eq_true,Bool.not_eq_true',decide_eq_true_eq] at ran
      obtain ⟨⟨calm,used⟩,ran⟩ := ran
      split at ran
      · rename_i result w' cut
        rw [decide_eq_true_eq] at ran
        subst ran
        exact ⟨w0,answers,w,w',made,calls,calm,used,cut⟩
      · cases ran
    · cases ran
  · cases ran

theorem emptyFile_storage : ∃ w free numbers w', Storage w 1 free numbers ∧ w.exhausted = false ∧
    0 < inoGet w 0 ∧ inodeTruncate w 0 (-5) = .ok (-5,w') := by
  obtain ⟨w0,answers,w,w',made,ran,calm,used,cut⟩ := emptyFile_run
  have room : 1 + 1 < tinyDisk.nblocks := by decide
  obtain ⟨w0',made',_,_,_,fresh⟩ := mkfsStorage_spec (le_refl 1) room
  obtain rfl : w0' = w0 := Except.ok.inj (made'.symm.trans made)
  obtain ⟨_,_,free,numbers,h,_⟩ := runCalls_storage [.allocate] (by simp [Call.Proper]) _ _ _ _ _
    fresh ran
  exact ⟨w,free,numbers,w',h,calm,used,cut⟩

/-- There is a file whose size `inode_truncate` makes negative. -/
theorem truncate_out_of_range : ∃ w free numbers, Storage w 1 free numbers ∧ w.exhausted = false ∧
    Numbered 1 0 ∧ 0 < inoGet w 0 ∧ ¬SizeInRange w 1 0 (-5) free numbers := by
  obtain ⟨w,free,numbers,w',h,calm,used,cut⟩ := emptyFile_storage
  refine ⟨w,free,numbers,h,calm,by decide,used,?_⟩
  rintro ⟨result,w'',ran,outcome⟩
  rw [cut] at ran
  cases ran
  rcases outcome with ⟨refused,_⟩ | ⟨nonneg,_⟩
  · exact absurd refused (by decide)
  · exact absurd nonneg (by decide)

/-- A file of 300 bytes, one block being free, is extended by it. -/
theorem truncate_in_range_tiny : ∃ w free numbers, word (w.block (inoGet w 0)) Inode.size = 300 ∧
    free.card = 1 ∧ SizeInRange w 1 0 2000 free numbers := by
  obtain ⟨w,free,numbers,h,calm,used,size,card⟩ := tinyFile_storage
  have enough : ¬1 + footprint (blockcount 300) < footprint (blockcount 300 + 1) := by decide +kernel
  refine ⟨w,free,numbers,size,card,(truncate_in_range h calm (by decide) used).mpr
    (.inr (.inr ⟨by decide,fun lost => enough ?_⟩))⟩
  obtain ⟨_,_,_,short⟩ := lost
  rw [size,card] at short
  exact short

end

end CandyFs
