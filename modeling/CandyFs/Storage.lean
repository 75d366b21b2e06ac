import CandyFs.FileOps

/-! The whole disk: the blocks of every inode and the free list together, and what an operation
on one inode keeps of it.
-/
namespace CandyFs
open Bytes Finset

variable [Geometry]

/-- The block of an inode and the blocks of its file. -/
@[irreducible] def inodeBlocks (w : World) (inumber : Int) : Multiset Int :=
  if 0 < inoGet w inumber then
    inoGet w inumber ::ₘ fileBlocks w (w.block (inoGet w inumber))
  else 0

def usedBlocks (w : World) (ilistSize : Nat) : Multiset Int :=
  ∑ n ∈ range (ilistSize * inumsPerIlistBlock), inodeBlocks w (n : Nat)

/-- The contents of an inode number in use. -/
structure IsFile (inode : Block) : Prop where
  magic : Inode.magic inode = inodeMagic
  sizeNonneg : 0 ≤ word inode Inode.size
  sizeTop : word inode Inode.size ≤ maxFilesize

/-- A disk on which no block is used twice; as long as blocks have not run out, each file also
has exactly the blocks its size asks for. -/
structure Storage (w : World) (ilistSize : Nat) (free : Multiset Int) (numbers : List Int) :
    Prop where
  room : ilistSize + 1 < w.nblocks
  list : FreeSet w free
  nodup : (free + usedBlocks w ilistSize).Nodup
  range : ∀ b ∈ free + usedBlocks w ilistSize, (ilistSize : Int) < b ∧ b < w.nblocks
  inodes : InodeList w ilistSize numbers fun _ => False
  super : Inode.magic (w.block 0) ≠ inodeMagic
  file : ∀ n, Numbered ilistSize n → 0 < inoGet w n → IsFile (w.block (inoGet w n))
  mapped : w.exhausted = false → ∀ n, Numbered ilistSize n → 0 < inoGet w n →
    FileMapped w (w.block (inoGet w n)) (blockcount (word (w.block (inoGet w n)) Inode.size))

/-- `w'` differs from `w` in the word of one inode number, the lists of the superblock and the
blocks in `touched`. -/
structure Apart (w w' : World) (ilistSize : Nat) (inumber : Int) (touched : Int → Prop) : Prop where
  nblocks : w'.nblocks = w.nblocks
  exhausted : w.exhausted = true → w'.exhausted = true
  others : ∀ n, Numbered ilistSize n → n ≠ inumber → inoGet w' n = inoGet w n
  block : ∀ b, (ilistSize : Int) < b → ¬touched b → w'.block b = w.block b
  super : ∀ j, 48 ≤ j → w'.block 0 j = w.block 0 j

section
variable {w w' w'' : World} {ilistSize : Nat} {inumber number : Int} {touched : Int → Prop}
  {numbers numbers' : List Int} {free free' : Multiset Int}

theorem Apart.trans (first : Apart w w' ilistSize inumber touched)
    (second : Apart w' w'' ilistSize inumber touched) : Apart w w'' ilistSize inumber touched where
  nblocks := second.nblocks.trans first.nblocks
  exhausted := fun raised => second.exhausted (first.exhausted raised)
  others := fun n numbered differ =>
    (second.others n numbered differ).trans (first.others n numbered differ)
  block := fun b low outside => (second.block b low outside).trans (first.block b low outside)
  super := fun j low => (second.super j low).trans (first.super j low)

theorem Frame.apart {small : Int → Prop} (h : Frame w w' small) (room : ilistSize < w.nblocks)
    (data : ∀ b, small b → (ilistSize : Int) < b ∧ touched b) :
    Apart w w' ilistSize inumber touched where
  nblocks := h.nblocks
  exhausted := h.exhausted
  others := fun n numbered _ => inoGet_frame h fun inside => by
    have le := ilistBlock_le numbered room
    have := (data _ inside).1
    omega
  block := fun b low outside => h.block b (by omega) fun inside => outside (data b inside).2
  super := fun j low => h.super j (by omega)

theorem inoSet_apart (numbered : Numbered ilistSize inumber) (room : ilistSize < w.nblocks) (b : Int) :
    Apart w (inoSet w inumber b) ilistSize inumber touched := by
  have low := ilistBlock_pos inumber
  have le := ilistBlock_le numbered room
  have others (n : Int) (numbered' : Numbered ilistSize n) (differ : n ≠ inumber) :=
    inoGet_inoSet_ne numbered numbered' room differ b
  rw [inoSet_eq numbered room] at others ⊢
  exact ⟨rfl,id,others,fun c low' _ => put_block_ne _ _ _ (by omega) (by omega) (by omega),
    fun j _ => congrFun (put_block_ne _ _ _ (by omega) le_rfl (by omega)) j⟩

theorem super_apart {super : Block} (room : ilistSize < w.nblocks)
    (same : ∀ j, 48 ≤ j → super j = w.block 0 j) :
    Apart w (w.put 0 super) ilistSize inumber touched where
  nblocks := rfl
  exhausted := id
  others := fun n numbered _ => inoGet_super numbered room super
  block := fun b low _ => put_block_ne _ _ _ le_rfl (by omega) (by omega)
  super := fun j low => by
    rw [put_block_self]
    exact same j low

theorem mem_usedBlocks {b : Int} : b ∈ usedBlocks w ilistSize ↔
    ∃ n, Numbered ilistSize n ∧ b ∈ inodeBlocks w n := by
  rw [usedBlocks,Multiset.mem_sum]
  constructor
  · rintro ⟨n,inside,member⟩
    exact ⟨n,Numbered.natCast (mem_range.mp inside),member⟩
  · rintro ⟨n,numbered,member⟩
    refine ⟨n.toNat,mem_range.mpr numbered.toNat_lt,?_⟩
    rwa [Int.toNat_of_nonneg numbered.1]

theorem usedBlocks_change (numbered : Numbered ilistSize inumber)
    (same : ∀ n, Numbered ilistSize n → n ≠ inumber → inodeBlocks w' n = inodeBlocks w n) :
    ∃ rest, usedBlocks w ilistSize = inodeBlocks w inumber + rest ∧
      usedBlocks w' ilistSize = inodeBlocks w' inumber + rest := by
  obtain ⟨rest,before,after⟩ := sum_range_change (fun n : Nat => inodeBlocks w n)
    (fun n : Nat => inodeBlocks w' n) numbered.toNat_lt fun n inside differ =>
      same n (Numbered.natCast inside) (by omega)
  rw [Int.toNat_of_nonneg numbered.1] at before after
  exact ⟨rest,before,after⟩

theorem inodeBlocks_pos (used : 0 < inoGet w number) : inodeBlocks w number =
    inoGet w number ::ₘ fileBlocks w (w.block (inoGet w number)) := by
  unfold inodeBlocks
  exact if_pos used

theorem inodeBlocks_none (unused : inoGet w number ≤ 0) : inodeBlocks w number = 0 := by
  unfold inodeBlocks
  exact if_neg (not_lt.mpr unused)

theorem Storage.disjoint (h : Storage w ilistSize free numbers) (one : Numbered ilistSize inumber)
    (two : Numbered ilistSize number) {b : Int} (member : b ∈ inodeBlocks w inumber)
    (member' : b ∈ inodeBlocks w number) : inumber = number := by
  have nodup := (Multiset.nodup_add.mp h.nodup).2.1
  rw [← Int.toNat_of_nonneg one.1] at member ⊢
  rw [← Int.toNat_of_nonneg two.1] at member' ⊢
  exact congrArg Nat.cast (sum_range_apart nodup one.toNat_lt two.toNat_lt member member')

/-- A number that is left alone. -/
structure Untouched (w w' : World) (number : Int) : Prop where
  entry : inoGet w' number = inoGet w number
  block : ∀ b ∈ inodeBlocks w number, w'.block b = w.block b

theorem Untouched.slots (h : Untouched w w' number) (used : 0 < inoGet w number) :
    w'.block (inoGet w number) = w.block (inoGet w number) ∧
      ∀ b ∈ fileBlocks w (w.block (inoGet w number)), w'.block b = w.block b := by
  have same := h.block
  rw [inodeBlocks_pos used] at same
  exact ⟨same _ (Multiset.mem_cons_self _ _),fun b member => same b (Multiset.mem_cons_of_mem member)⟩

theorem Untouched.blocks (h : Untouched w w' number) : inodeBlocks w' number = inodeBlocks w number := by
  by_cases used : 0 < inoGet w number
  · obtain ⟨inode,same⟩ := h.slots used
    rw [inodeBlocks_pos used,inodeBlocks_pos (by rw [h.entry]; exact used),h.entry,inode,
      fileBlocks_congr (fun _ => rfl) same]
  · rw [inodeBlocks_none (not_lt.mp used),inodeBlocks_none (by rw [h.entry]; exact not_lt.mp used)]

theorem Untouched.trans (first : Untouched w w' number) (second : Untouched w' w'' number) :
    Untouched w w'' number :=
  ⟨second.entry.trans first.entry,fun b member =>
    (second.block b (by rw [first.blocks]; exact member)).trans (first.block b member)⟩

theorem Untouched.mapped (h : Untouched w w' number) (used : 0 < inoGet w number) {n : Int}
    (mapped : FileMapped w (w.block (inoGet w number)) n) :
    FileMapped w' (w'.block (inoGet w' number)) n := by
  obtain ⟨inode,same⟩ := h.slots used
  rw [h.entry,inode]
  exact fileMapped_frame (fun _ => rfl) same mapped

theorem Untouched.sameContents (h : Untouched w w' number) (used : 0 < inoGet w number)
    (file : IsFile (w.block (inoGet w number)))
    (mapped : FileMapped w (w.block (inoGet w number))
      (blockcount (word (w.block (inoGet w number)) Inode.size))) :
    contents w' (w'.block (inoGet w' number)) = contents w (w.block (inoGet w number)) := by
  obtain ⟨inode,same⟩ := h.slots used
  have nonneg := file.sizeNonneg
  have room := le_blockcount nonneg
  have length := length_contents (w := w) nonneg
  rw [h.entry,inode]
  refine contents_eq length.symm fun i inside => ?_
  rw [getElem?_contents nonneg,if_pos (by omega)]
  exact congrArg some ((FileKept.frame (fun _ => rfl) same mapped le_rfl).byte
    (blockcount_top nonneg file.sizeTop) (by omega) (by omega)).symm

/-- What an operation on one inode number leaves of the disk. -/
structure Renewed (w w' : World) (ilistSize : Nat) (inumber : Int) (free free' : Multiset Int)
    (numbers' : List Int) : Prop where
  apart : Apart w w' ilistSize inumber (· ∈ free + inodeBlocks w inumber)
  list : FreeSet w' free'
  inodes : InodeList w' ilistSize numbers' fun _ => False
  blocks : free' + inodeBlocks w' inumber ≤ free + inodeBlocks w inumber
  all : w'.exhausted = false → free' + inodeBlocks w' inumber = free + inodeBlocks w inumber
  file : 0 < inoGet w' inumber → IsFile (w'.block (inoGet w' inumber))
  mapped : w'.exhausted = false → 0 < inoGet w' inumber →
    FileMapped w' (w'.block (inoGet w' inumber))
      (blockcount (word (w'.block (inoGet w' inumber)) Inode.size))

theorem Renewed.untouched (h : Storage w ilistSize free numbers) (numbered : Numbered ilistSize inumber)
    (r : Renewed w w' ilistSize inumber free free' numbers') (numbered' : Numbered ilistSize number)
    (differ : number ≠ inumber) : Untouched w w' number := by
  refine ⟨r.apart.others number numbered' differ,fun b member => ?_⟩
  have used := mem_usedBlocks.mpr ⟨number,numbered',member⟩
  refine r.apart.block b (h.range b (Multiset.mem_add.mpr (.inr used))).1 fun inside => ?_
  rcases Multiset.mem_add.mp inside with inFree | inOther
  · exact Multiset.disjoint_left.mp (Multiset.nodup_add.mp h.nodup).2.2 inFree used
  · exact differ (h.disjoint numbered' numbered member inOther)

theorem Renewed.storage (h : Storage w ilistSize free numbers) (numbered : Numbered ilistSize inumber)
    (r : Renewed w w' ilistSize inumber free free' numbers') :
    Storage w' ilistSize free' numbers' ∧ (w'.exhausted = false →
      free' + usedBlocks w' ilistSize = free + usedBlocks w ilistSize) := by
  have untouched : ∀ n, Numbered ilistSize n → n ≠ inumber → Untouched w w' n :=
    fun n numbered' differ => r.untouched h numbered numbered' differ
  obtain ⟨rest,before,after⟩ := usedBlocks_change numbered fun n numbered' differ =>
    (untouched n numbered' differ).blocks
  have le : free' + usedBlocks w' ilistSize ≤ free + usedBlocks w ilistSize := by
    rw [before,after,← add_assoc,← add_assoc]
    exact add_le_add_left r.blocks rest
  refine ⟨⟨?_,r.list,Multiset.nodup_of_le le h.nodup,fun b member => ?_,r.inodes,?_,
    fun n numbered' used => ?_,fun calm n numbered' used => ?_⟩,fun calm => ?_⟩
  · rw [r.apart.nblocks]
    exact h.room
  · rw [r.apart.nblocks]
    exact h.range b (Multiset.mem_of_le le member)
  · rw [Inode.magic,field_congr _ (w.block 0) _ _ fun j low _ => r.apart.super j (by omega)]
    exact h.super
  · by_cases same : n = inumber
    · subst same
      exact r.file used
    · have other := untouched n numbered' same
      rw [other.entry] at used ⊢
      rw [(other.slots used).1]
      exact h.file n numbered' used
  · by_cases same : n = inumber
    · subst same
      exact r.mapped calm used
    · have other := untouched n numbered' same
      have used' := used
      rw [other.entry] at used'
      have was : w.exhausted = false := was_down r.apart.exhausted calm
      have size : w'.block (inoGet w' n) = w.block (inoGet w n) := by
        rw [other.entry,(other.slots used').1]
      rw [size,← size]
      have mapped := other.mapped used' (h.mapped was n numbered' used')
      rwa [← size] at mapped
  · rw [before,after,← add_assoc,← add_assoc,r.all calm]

theorem Storage.held (h : Storage w ilistSize free numbers) (numbered : Numbered ilistSize inumber)
    (used : 0 < inoGet w inumber) : Held w inumber (inoGet w inumber) free := by
  have file := h.file inumber numbered used
  have le : free + (inoGet w inumber ::ₘ fileBlocks w (w.block (inoGet w inumber))) ≤
      free + usedBlocks w ilistSize := by
    rw [← inodeBlocks_pos used]
    refine add_le_add_right ?_ free
    rw [← Int.toNat_of_nonneg numbered.1]
    exact le_sum_range (f := fun n : Nat => inodeBlocks w n) numbered.toNat_lt
  have range (b : Int) (member : b ∈ free + (inoGet w inumber ::ₘ
      fileBlocks w (w.block (inoGet w inumber)))) := h.range b (Multiset.mem_of_le le member)
  have own := range (inoGet w inumber) (by simp)
  have room := h.room
  refine ⟨⟨rfl,by omega,own.2,file.magic⟩,fun b member => ?_,h.list,⟨Multiset.nodup_of_le le h.nodup,
    fun b member => ?_⟩,file.sizeNonneg,file.sizeTop⟩
  · have := ilistBlock_le numbered (show ilistSize < w.nblocks by omega)
    have := (range b member).1
    omega
  · have := range b member
    omega

theorem Storage.load_none (h : Storage w ilistSize free numbers) (unused : inoGet w inumber ≤ 0) :
    loadInode w inumber = none := by
  have room := h.room
  simp only [loadInode]
  split
  · rfl
  · rw [show inoGet w inumber = 0 by omega,diskRead_block _ le_rfl (by omega),if_pos h.super]

theorem Moved.renewed (h : Storage w ilistSize free numbers) (numbered : Numbered ilistSize inumber)
    (used : 0 < inoGet w inumber)
    (moved : Moved w w' free (inoGet w inumber ::ₘ fileBlocks w (w.block (inoGet w inumber))) free'
      (inoGet w inumber ::ₘ fileBlocks w' (w'.block (inoGet w inumber))) (w'.exhausted = false))
    (file : IsFile (w'.block (inoGet w inumber)))
    (mapped : w'.exhausted = false → FileMapped w' (w'.block (inoGet w inumber))
      (blockcount (word (w'.block (inoGet w inumber)) Inode.size))) :
    inoGet w' inumber = inoGet w inumber ∧ Renewed w w' ilistSize inumber free free' numbers := by
  have held := h.held numbered used
  have room := h.room
  have number : inoGet w' inumber = inoGet w inumber :=
    inoGet_frame moved.frame fun inside => lt_irrefl _ (held.listed _ inside)
  have data : ∀ b, b ∈ free + (inoGet w inumber ::ₘ fileBlocks w (w.block (inoGet w inumber))) →
      (ilistSize : Int) < b ∧ b ∈ free + inodeBlocks w inumber := by
    intro b member
    rw [← inodeBlocks_pos used] at member
    refine ⟨(h.range b ?_).1,member⟩
    rcases Multiset.mem_add.mp member with inFree | inside
    · exact Multiset.mem_add.mpr (.inl inFree)
    · exact Multiset.mem_add.mpr (.inr (mem_usedBlocks.mpr ⟨inumber,numbered,inside⟩))
  have before := inodeBlocks_pos used
  have after : inodeBlocks w' inumber = inoGet w inumber ::ₘ fileBlocks w' (w'.block (inoGet w inumber)) := by
    rw [inodeBlocks_pos (by rw [number]; exact used),number]
  refine ⟨number,moved.frame.apart (by omega) data,moved.list,
    h.inodes.frame (by omega) moved.frame fun b member => (data b member).1,?_,?_,?_,?_⟩
  · rw [before,after]
    exact moved.blocks
  · rw [before,after]
    exact moved.all
  · intro _
    rw [number]
    exact file
  · intro calm _
    rw [number]
    exact mapped calm

theorem Updated.renewed (h : Storage w ilistSize free numbers) (numbered : Numbered ilistSize inumber)
    (used : 0 < inoGet w inumber) (u : Updated w (inoGet w inumber) free w') :
    ∃ free', Renewed w w' ilistSize inumber free free' numbers := by
  obtain ⟨free',held',moved⟩ := u.held (h.held numbered used)
  refine ⟨free',(moved.renewed h numbered used ⟨held'.names.magic,u.sizeNonneg,u.sizeTop⟩
    fun calm => ?_).2⟩
  exact u.mapped (h.mapped (was_down moved.frame.exhausted calm) inumber numbered used) calm

end

end CandyFs
