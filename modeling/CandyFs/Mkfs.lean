import CandyFs.Storage

/-! `mkfs_storage` lays out a sound disk on which every data block and every inode number is free.
-/
namespace CandyFs
open Bytes Finset

theorem ico_singleton (i : Int) : Multiset.Ico i (i + 1) = {i} := by
  have single : Finset.Ico i (i + 1) = {i} := by
    ext b
    simp only [Finset.mem_Ico,Finset.mem_singleton]
    omega
  rw [Multiset.Ico,single]
  rfl

theorem entries_fresh {n i : Int} (low : 0 ≤ i) (inside : i < n) (k : Nat) :
    ∑ j ∈ range k,pointer (if i + (j + 1 : Nat) ≥ n then eof else i + (j + 1 : Nat)) =
      Multiset.Ico (i + 1) (min (i + 1 + k) n) := by
  induction k with
  | zero => rw [sum_range_zero,min_eq_left (by omega),Nat.cast_zero,add_zero,Multiset.Ico_self]
  | succ k ih =>
    rw [sum_range_succ,ih]
    split
    · rw [pointer_eof,add_zero,min_eq_right (by omega),min_eq_right (by omega)]
    · rw [pointer_of_ne (ne_eof (by omega)),← ico_singleton,min_eq_left (by omega),
        min_eq_left (by omega),show i + ((k + 1 : Nat) : Int) = i + 1 + k by omega,
        Multiset.Ico_add_Ico_eq_Ico (by omega) (by omega)]
      congr 1
      omega

variable [Geometry]

theorem entries_mkfsFreelistBlock {nblocks : Nat} {i : Int} (low : 0 ≤ i) (inside : i < nblocks)
    (few : (nblocks : Int) < 2 ^ 62) : entries (mkfsFreelistBlock nblocks i) =
      Multiset.Ico (i + 1) (min (i + 1 + blocknumsPerFreelistBlock) nblocks) := by
  rw [← entries_fresh low inside]
  refine sum_congr rfl fun j _ => ?_
  rw [mkfsFreelistBlock,word_ofWords,if_neg (Nat.succ_ne_zero j)]
  congr 1
  split
  · exact wrap_of_fits eof_fits
  · exact wrap_of_fits (by unfold Fits FreelistBlock.blocks at *; omega)

theorem mkfsFreelist_spec (fuel : Nat) : ∀ (i : Int) (disk : World), 1 ≤ i → disk.nblocks - i ≤ fuel →
    ∃ w nodes, mkfsFreelist fuel i disk = .ok w ∧ Edit disk w (i ≤ ·) ∧
      Chain w (if i ≥ disk.nblocks then eof else i) nodes ∧
      freeSet w nodes = Multiset.Ico i (disk.nblocks : Int) := by
  induction fuel with
  | zero =>
    intro i disk low enough
    have done : ¬i < disk.nblocks := by omega
    rw [mkfsFreelist,if_neg done]
    exact ⟨disk,[],rfl,Edit.refl _ _,if_pos (by omega),
      (Multiset.Ico_eq_zero_of_le (by omega)).symm⟩
  | succ fuel ih =>
    intro i disk low enough
    by_cases more : i < disk.nblocks
    · have few := nblocks_lt disk
      obtain ⟨w,nodes,ran,edit,chain,blocks⟩ := ih (i + (blocknumsPerFreelistBlock + 1))
        (disk.put i (mkfsFreelistBlock disk.nblocks i)) (by omega) (by rw [put_nblocks]; omega)
      have node : w.block i = mkfsFreelistBlock disk.nblocks i := by
        rw [edit.block i (by omega) (by omega),put_block_self]
      have next : word (mkfsFreelistBlock disk.nblocks i) FreelistBlock.next =
          if i + (blocknumsPerFreelistBlock + 1) ≥ disk.nblocks then eof
          else i + (blocknumsPerFreelistBlock + 1) := by
        rw [mkfsFreelistBlock,word_ofWords,if_pos rfl,add_assoc]
        split
        · exact wrap_of_fits eof_fits
        · exact wrap_of_fits (by unfold Fits; omega)
      refine ⟨w,i :: nodes,?_,?_,?_,?_⟩
      · rw [mkfsFreelist,if_pos more]
        rw [diskWrite_block _ (by omega) more,ran]
      · exact ((Edit.put _ (by omega)).mono fun b eq => eq ▸ le_rfl).trans
          (edit.mono fun b le => by omega)
      · rw [if_neg (by omega)]
        refine ⟨rfl,ne_eof (by omega),?_⟩
        rw [node,next]
        exact chain
      · rw [freeSet_cons,node,entries_mkfsFreelistBlock (by omega) more few,blocks,put_nblocks,
          ← Multiset.singleton_add,← ico_singleton]
        have tail : Multiset.Ico (i + 1) (min (i + 1 + blocknumsPerFreelistBlock) disk.nblocks) +
            Multiset.Ico (i + (blocknumsPerFreelistBlock + 1)) (disk.nblocks : Int) =
            Multiset.Ico (i + 1) (disk.nblocks : Int) := by
          rcases le_total (i + 1 + blocknumsPerFreelistBlock) (disk.nblocks : Int) with short | long
          · rw [min_eq_left short,show i + ((blocknumsPerFreelistBlock : Int) + 1) =
              i + 1 + blocknumsPerFreelistBlock by omega]
            exact Multiset.Ico_add_Ico_eq_Ico (by omega) short
          · rw [min_eq_right long,show Multiset.Ico (i + ((blocknumsPerFreelistBlock : Int) + 1))
              (disk.nblocks : Int) = 0 from Multiset.Ico_eq_zero_of_le (by omega),add_zero]
        rw [tail]
        exact Multiset.Ico_add_Ico_eq_Ico (by omega) (by omega)
    · rw [mkfsFreelist,if_neg more]
      exact ⟨disk,[],rfl,Edit.refl _ _,if_pos (by omega),
        (Multiset.Ico_eq_zero_of_le (by omega)).symm⟩

theorem mkfsIlist_spec (ilistSize n : Nat) (disk : World) (room : n < disk.nblocks) :
    Edit disk (mkfsIlist ilistSize n disk) (fun b => 1 ≤ b ∧ b ≤ n) ∧
      ∀ i : Nat, i < n → (mkfsIlist ilistSize n disk).block (i + 1 : Nat) = mkfsIlistBlock ilistSize i := by
  induction n with
  | zero => exact ⟨Edit.refl _ _,fun i inside => absurd inside (Nat.not_lt_zero i)⟩
  | succ n ih =>
    obtain ⟨edit,blocks⟩ := ih (by omega)
    obtain ⟨w,made⟩ : ∃ w, mkfsIlist ilistSize n disk = w := ⟨_,rfl⟩
    rw [made] at edit blocks
    have few := nblocks_lt w
    have nblocks := edit.nblocks
    have step : mkfsIlist ilistSize (n + 1) disk = w.put (n + 1 : Nat) (mkfsIlistBlock ilistSize n) := by
      rw [mkfsIlist,made,← diskWrite_block _ (by omega) (by omega),ulong_natCast (by omega)]
    rw [step]
    refine ⟨(edit.mono fun b inside => by omega).trans
      ((Edit.put _ (by omega)).mono fun b eq => by omega),fun i inside => ?_⟩
    by_cases last : i = n
    · rw [last,put_block_self]
    · rw [put_block_ne _ _ _ (by omega) (by omega) (by omega)]
      exact blocks i (by omega)

theorem mkfsIlist_word {w : World} {ilistSize k : Nat} (room : ilistSize < w.nblocks)
    (blocks : ∀ i : Nat, i < ilistSize → w.block (i + 1 : Nat) = mkfsIlistBlock ilistSize i)
    (inside : k < ilistSize * inumsPerIlistBlock) : inoGet w k =
      if k + 1 = ilistSize * inumsPerIlistBlock then eof else -((k + 1 : Nat) : Int) := by
  have few := numbers_few room
  have unit := inumsPerIlistBlock_pos
  have row : k / inumsPerIlistBlock < ilistSize := Nat.div_lt_of_lt_mul (by rwa [Nat.mul_comm])
  have parts := Nat.div_add_mod k inumsPerIlistBlock
  have below := Nat.mod_lt k unit
  rw [inoGet_eq (Numbered.natCast inside) room,ilistBlock,ilistEntry,ulong_natCast (by omega)]
  rw [Nat.add_comm 1,blocks _ row,mkfsIlistBlock,word_ofWords]
  have last : (k / inumsPerIlistBlock = ilistSize - 1 ∧ k % inumsPerIlistBlock = inumsPerIlistBlock - 1) ↔
      k + 1 = ilistSize * inumsPerIlistBlock := by
    generalize k / inumsPerIlistBlock = q at *
    generalize k % inumsPerIlistBlock = r at *
    generalize inumsPerIlistBlock = m at *
    obtain ⟨t,rfl⟩ : ∃ t, ilistSize = t + 1 := ⟨ilistSize - 1,by omega⟩
    have whole : (t + 1) * m = m * t + m := by rw [Nat.succ_mul,Nat.mul_comm]
    rcases Nat.lt_or_ge q t with before | final
    · have := Nat.mul_le_mul_left m (show q + 1 ≤ t from before)
      rw [Nat.mul_succ] at this
      omega
    · obtain rfl : q = t := by omega
      omega
  rw [Nat.add_comm (k % _),parts]
  split
  · rename_i end'
    rw [if_pos (last.mp end'),wrap_of_fits eof_fits]
  · rename_i more
    rw [if_neg fun eq => more (last.mpr eq),wrap_of_fits (by unfold Fits; omega)]

theorem mkfsIlist_chain {w : World} {limit : Nat} (few : limit < 2 ^ 62)
    (words : ∀ k < limit, inoGet w k = if k + 1 = limit then eof else -((k + 1 : Nat) : Int)) (n : Nat) :
    ∀ k, k + n = limit → InodeChain w (if k = limit then eof else k) ((List.range' k n).map Nat.cast) := by
  induction n with
  | zero =>
    intro k all
    exact if_pos all
  | succ n ih =>
    intro k all
    rw [if_neg (by omega),List.range'_succ,List.map_cons]
    refine ⟨rfl,?_⟩
    have next : wrap (-inoGet w k) = if k + 1 = limit then eof else ((k + 1 : Nat) : Int) := by
      rw [words k (by omega)]
      split
      · decide
      · rw [neg_neg]
        exact wrap_of_fits (by unfold Fits; omega)
    rw [next]
    exact ih (k + 1) (by omega)

/-- The superblock of a fresh disk. -/
def mkfsSuperblock (nblocks ilistSize : Nat) : Block :=
  let superblock := setField (ofWords fun _ => 0) 0 4 candyfsMagic
  let superblock := setWord superblock Superblock.ilistSize ilistSize
  let superblock := setWord superblock Superblock.freelistStart (ilistSize + 1 : Int)
  let superblock := setWord superblock Superblock.inoFreelistStart 0
  let superblock := setWord superblock Superblock.freeBlocks (nblocks - (ilistSize + 1 : Int))
  setWord superblock Superblock.freeInodes (ilistSize * inumsPerIlistBlock)

theorem mkfsSuperblock_words {nblocks ilistSize : Nat} (few : nblocks < 2 ^ 62)
    (room : ilistSize + 1 < nblocks) (fewNumbers : ilistSize * inumsPerIlistBlock < 2 ^ 62) :
    word (mkfsSuperblock nblocks ilistSize) Superblock.freelistStart = ilistSize + 1 ∧
    word (mkfsSuperblock nblocks ilistSize) Superblock.inoFreelistStart = 0 ∧
    word (mkfsSuperblock nblocks ilistSize) Superblock.freeBlocks = nblocks - (ilistSize + 1) ∧
    word (mkfsSuperblock nblocks ilistSize) Superblock.freeInodes =
      (ilistSize * inumsPerIlistBlock : Nat) ∧
    Inode.magic (mkfsSuperblock nblocks ilistSize) ≠ inodeMagic := by
  refine ⟨?_,?_,?_,?_,?_⟩
  · simp (disch := decide) only [mkfsSuperblock,word_setWord_ne]
    rw [word_setWord_self,wrap_of_fits (by unfold Fits; omega)]
  · simp (disch := decide) only [mkfsSuperblock,word_setWord_ne]
    rw [word_setWord_self]
    rfl
  · simp (disch := decide) only [mkfsSuperblock,word_setWord_ne]
    rw [word_setWord_self,wrap_of_fits (by unfold Fits; omega)]
  · rw [mkfsSuperblock,word_setWord_self,← Nat.cast_mul,wrap_of_fits (by unfold Fits; omega)]
  · have blank : Inode.magic (mkfsSuperblock nblocks ilistSize) = Inode.magic (ofWords fun _ => 0) := by
      simp (disch := decide) only [Inode.magic,mkfsSuperblock,field_setWord_outside,
        field_setField_outside]
    rw [blank]
    decide

theorem mkfsStorage_writes {disk : World} {ilistSize : Nat} (room : ilistSize + 1 < disk.nblocks) :
    ∃ w nodes, mkfsStorage disk ilistSize = .ok w ∧ w.nblocks = disk.nblocks ∧
      w.exhausted = disk.exhausted ∧ w.block 0 = mkfsSuperblock disk.nblocks ilistSize ∧
      (∀ i : Nat, i < ilistSize → w.block (i + 1 : Nat) = mkfsIlistBlock ilistSize i) ∧
      Chain w (ilistSize + 1) nodes ∧
      freeSet w nodes = Multiset.Ico (ilistSize + 1 : Int) (disk.nblocks : Int) := by
  have few := nblocks_lt disk
  obtain ⟨editList,blocks⟩ := mkfsIlist_spec ilistSize ilistSize
    (disk.put 0 (mkfsSuperblock disk.nblocks ilistSize)) (by rw [put_nblocks]; omega)
  obtain ⟨w1,made⟩ : ∃ w1, mkfsIlist ilistSize ilistSize
    (disk.put 0 (mkfsSuperblock disk.nblocks ilistSize)) = w1 := ⟨_,rfl⟩
  rw [made] at editList blocks
  have nblocks1 : w1.nblocks = disk.nblocks := editList.nblocks
  obtain ⟨w,nodes,ran,edit,chain,listed⟩ := mkfsFreelist_spec disk.nblocks (ilistSize + 1) w1
    (by omega) (by omega)
  refine ⟨w,nodes,?_,edit.nblocks.trans nblocks1,edit.exhausted.trans editList.exhausted,?_,?_,?_,?_⟩
  · have check' : ulong (disk.nblocks - ilistSize - 1) > 0 := by
      rw [ulong_of_nonneg (by omega) (by omega)]
      omega
    have wrote : diskWrite disk 0 (mkfsSuperblock disk.nblocks ilistSize) =
        disk.put 0 (mkfsSuperblock disk.nblocks ilistSize) := diskWrite_zero _ (by omega)
    rw [mkfsStorage,check_true check',ok_bind]
    change mkfsFreelist (mkfsIlist ilistSize ilistSize (diskWrite disk 0
      (mkfsSuperblock disk.nblocks ilistSize))).nblocks (ilistSize + 1) (mkfsIlist ilistSize ilistSize
        (diskWrite disk 0 (mkfsSuperblock disk.nblocks ilistSize))) = .ok w
    rw [wrote,made,nblocks1,ran]
  · rw [edit.block 0 le_rfl (by omega),editList.block 0 le_rfl (by omega),put_block_self]
  · exact fun i low => (edit.block _ (by omega) (by omega)).trans (blocks i low)
  · rwa [if_neg (by omega)] at chain
  · rw [listed,nblocks1]

theorem mkfsStorage_spec {disk : World} {ilistSize : Nat} (some : 1 ≤ ilistSize)
    (room : ilistSize + 1 < disk.nblocks) :
    ∃ w, mkfsStorage disk ilistSize = .ok w ∧ w.nblocks = disk.nblocks ∧
      w.exhausted = disk.exhausted ∧ usedBlocks w ilistSize = 0 ∧
      Storage w ilistSize (Multiset.Ico (ilistSize + 1 : Int) disk.nblocks)
        ((List.range (ilistSize * inumsPerIlistBlock)).map Nat.cast) := by
  have few := nblocks_lt disk
  have fewNumbers := numbers_few (show ilistSize < disk.nblocks by omega)
  obtain ⟨start,inoStart,count,inoCount,magic⟩ := mkfsSuperblock_words
    (show disk.nblocks < 2 ^ 62 by omega) room fewNumbers
  obtain ⟨w,nodes,ran,nblocks,exhausted,zero,blocks,chain,listed⟩ := mkfsStorage_writes room
  have words (k : Nat) (inside : k < ilistSize * inumsPerIlistBlock) : inoGet w k =
      if k + 1 = ilistSize * inumsPerIlistBlock then eof else -((k + 1 : Nat) : Int) :=
    mkfsIlist_word (by omega) blocks inside
  have unused (n : Int) (numbered : Numbered ilistSize n) : inoGet w n ≤ 0 := by
    have word := words n.toNat numbered.toNat_lt
    rw [Int.toNat_of_nonneg numbered.1] at word
    rw [word]
    split
    · decide
    · omega
  have used : usedBlocks w ilistSize = 0 := sum_eq_zero fun n inside =>
    inodeBlocks_none (unused n (Numbered.natCast (mem_range.mp inside)))
  refine ⟨w,ran,nblocks,exhausted,used,?_⟩
  refine ⟨by omega,⟨nodes,?_,?_,?_⟩,?_,?_,⟨?_,?_,?_,?_,?_⟩,by rwa [zero],
    fun n numbered positive => absurd positive (not_lt.mpr (unused n numbered)),
    fun _ n numbered positive => absurd positive (not_lt.mpr (unused n numbered))⟩
  · rw [zero,start]
    exact chain
  · exact listed.symm
  · rw [zero,count,Multiset.Ico,Finset.card_val,Int.card_Ico]
    omega
  · rw [used,add_zero]
    exact Multiset.nodup_Ico
  · rw [used,add_zero,nblocks]
    intro b member
    have := Multiset.mem_Ico.mp member
    omega
  · rw [zero,inoStart,List.range_eq_range']
    have chain := mkfsIlist_chain fewNumbers words (ilistSize * inumsPerIlistBlock) 0 (Nat.zero_add _)
    have unit := inumsPerIlistBlock_pos
    rwa [if_neg (Nat.mul_pos some unit).ne] at chain
  · rw [zero,inoCount,List.length_map,List.length_range]
  · exact List.nodup_range.map Nat.cast_injective
  · intro n member
    obtain ⟨k,inside,rfl⟩ := List.mem_map.mp member
    exact Numbered.natCast (List.mem_range.mp inside)
  · intro n numbered
    refine ⟨fun _ => .inl (List.mem_map.mpr ⟨n.toNat,List.mem_range.mpr numbered.toNat_lt,
      Int.toNat_of_nonneg numbered.1⟩),fun _ => unused n numbered⟩

/-- Each data block is on the free list once and each inode number on the list of free ones once, the
counts are those of the lists, and the words of the free numbers lie in the inode list. -/
structure Formatted (w : World) (nblocks ilistSize : Nat) : Prop where
  blocks : ∃ nodes, Chain w (word (w.block 0) Superblock.freelistStart) nodes ∧
    freeSet w nodes = Multiset.Ico (ilistSize + 1 : Int) nblocks
  inodes : ∃ numbers, InodeChain w (word (w.block 0) Superblock.inoFreelistStart) numbers ∧
    numbers.Perm ((List.range (ilistSize * inumsPerIlistBlock)).map Nat.cast) ∧
    ∀ n ∈ numbers, 1 ≤ ilistBlock n ∧ ilistBlock n ≤ ilistSize
  freeBlocks : word (w.block 0) Superblock.freeBlocks = nblocks - (ilistSize + 1)
  freeInodes : word (w.block 0) Superblock.freeInodes = ilistSize * inumsPerIlistBlock

/-- The number of blocks that `mkfs` makes the inode list of. -/
def mkfsIlistSize (nblocks : Nat) : Nat := nblocks / 256

theorem Storage.formatted {w : World} {nblocks ilistSize : Nat} (same : w.nblocks = nblocks)
    (h : Storage w ilistSize (Multiset.Ico (ilistSize + 1 : Int) nblocks)
      ((List.range (ilistSize * inumsPerIlistBlock)).map Nat.cast)) : Formatted w nblocks ilistSize := by
  obtain ⟨nodes,list⟩ := h.list
  have room := h.room
  refine ⟨⟨nodes,list.chain,list.blocks.symm⟩,⟨_,h.inodes.chain,List.Perm.refl _,fun n member => ?_⟩,
    ?_,?_⟩
  · have below : ilistSize < w.nblocks := by omega
    exact ⟨ilistBlock_pos n,ilistBlock_le (h.inodes.range n member) below⟩
  · rw [list.count,Multiset.Ico,Finset.card_val,Int.card_Ico]
    omega
  · rw [h.inodes.count,List.length_map,List.length_range,Nat.cast_mul]

/-- Without a block for the inode list the list of free inode numbers still starts with 0. -/
theorem mkfsStorage_none {disk : World} (room : 1 < disk.nblocks) :
    ∃ w, mkfsStorage disk 0 = .ok w ∧ ¬Formatted w disk.nblocks 0 := by
  have few := nblocks_lt disk
  have none : 0 * inumsPerIlistBlock = 0 := Nat.zero_mul _
  obtain ⟨_,inoStart,_⟩ := mkfsSuperblock_words (show disk.nblocks < 2 ^ 62 by omega)
    (show 0 + 1 < disk.nblocks from room) (by omega)
  obtain ⟨w,nodes,ran,_,_,zero,_⟩ := mkfsStorage_writes (show 0 + 1 < disk.nblocks from room)
  refine ⟨w,ran,fun formatted => ?_⟩
  obtain ⟨numbers,chain,perm,_⟩ := formatted.inodes
  rw [none,List.range_zero,List.map_nil] at perm
  rw [perm.eq_nil,zero,inoStart] at chain
  exact absurd chain (show ¬(0 : Int) = eof by decide)

theorem mkfsStorage_formats {disk : World} {ilistSize : Nat} (room : ilistSize + 1 < disk.nblocks) :
    (∃ w, mkfsStorage disk ilistSize = .ok w ∧ Formatted w disk.nblocks ilistSize) ↔ 1 ≤ ilistSize := by
  constructor
  · intro ⟨w,ran,formatted⟩
    by_contra none
    obtain rfl : ilistSize = 0 := by omega
    obtain ⟨w',ran',bad⟩ := mkfsStorage_none room
    rw [ran,Except.ok.injEq] at ran'
    exact bad (ran' ▸ formatted)
  · intro some
    obtain ⟨w,ran,same,_,_,h⟩ := mkfsStorage_spec some room
    exact ⟨w,ran,h.formatted same⟩

/-- The disks with room for a data block are formatted well when the inode list has a block; from
`mkfs` it has one from 256 blocks on. -/
theorem formatted_iff (disk : World) :
    (∀ ilistSize, ilistSize + 1 < disk.nblocks →
      ((∃ w, mkfsStorage disk ilistSize = .ok w ∧ Formatted w disk.nblocks ilistSize) ↔
        1 ≤ ilistSize)) ∧
    (2 ≤ disk.nblocks → ((∃ w, mkfsStorage disk (mkfsIlistSize disk.nblocks) = .ok w ∧
      Formatted w disk.nblocks (mkfsIlistSize disk.nblocks)) ↔ 256 ≤ disk.nblocks)) := by
  refine ⟨fun ilistSize room => mkfsStorage_formats room,fun some => ?_⟩
  have room : mkfsIlistSize disk.nblocks + 1 < disk.nblocks := by
    unfold mkfsIlistSize
    omega
  rw [mkfsStorage_formats room,mkfsIlistSize]
  omega

end CandyFs

/-! The disks of 255 blocks and less. -/
namespace CandyFs
attribute [local instance] Geometry.candyfs

/-- A disk of 800 KiB. -/
def shortDisk : World := ⟨200,fun _ _ => 0,by decide,fun _ => 0,fun _ => ⟨0,0⟩,false⟩

theorem unformatted : mkfsIlistSize shortDisk.nblocks + 1 < shortDisk.nblocks ∧
    ∃ w, mkfsStorage shortDisk (mkfsIlistSize shortDisk.nblocks) = .ok w ∧
      ¬Formatted w shortDisk.nblocks (mkfsIlistSize shortDisk.nblocks) :=
  ⟨by decide,mkfsStorage_none (by decide)⟩

end CandyFs
