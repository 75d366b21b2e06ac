import CandyFs.Storage

/-! `inode_allocate` and `inode_free` on a sound disk.
-/
namespace CandyFs
open Bytes Finset

section
variable {inode : Block} {n k : Nat}

theorem clearSlots_head (inside : k < 104) : clearSlots n inode k = inode k := by
  induction n with
  | zero => rfl
  | succ n ih => rw [clearSlots,setSlot_head _ inside,ih]

theorem clearSlots_slot (inside : k < n) : slotPtr (clearSlots n inode) k = eof := by
  induction n with
  | zero => omega
  | succ n ih =>
    rw [clearSlots]
    by_cases same : k = n
    · subst same
      rw [slotPtr,word_setWord_self,wrap_of_fits eof_fits]
    · rw [slotPtr_setWord_ne same,ih (by omega)]

end

variable [Geometry]

section
variable (inode : Block) (ts : Timespec)

theorem freshInode_slot {slot : Nat} (bound : slot < numBlockSlots) :
    slotPtr (freshInode inode ts) slot = eof := clearSlots_slot bound

theorem freshInode_size : word (freshInode inode ts) Inode.size = 0 := by
  rw [freshInode,word_congr _ _ _ fun k low high => clearSlots_head
    (by simp only [Inode.size] at high; omega)]
  simp only [Inode.setTime]
  simp (disch := decide) only [word_setWord_ne]
  rw [word_setWord_self]
  rfl

theorem freshInode_magic : Inode.magic (freshInode inode ts) = inodeMagic := by
  rw [Inode.magic,freshInode,field_congr _ _ _ _ fun k _ high => clearSlots_head (by omega)]
  simp only [Inode.setTime,Inode.setGroup,Inode.setOwner,Inode.setNlinks,Inode.setMode,Inode.setMagic]
  simp (disch := decide) only [field_setWord_outside,field_setField_outside,field_setField]
  rfl

theorem freshInode_nlinks : Inode.nlinks (freshInode inode ts) = 0 := by
  rw [Inode.nlinks,freshInode,field_congr _ _ _ _ fun k _ high => clearSlots_head (by omega)]
  simp only [Inode.setTime,Inode.setGroup,Inode.setOwner,Inode.setNlinks,Inode.setMode,Inode.setMagic]
  simp (disch := decide) only [field_setWord_outside,field_setField_outside,field_setField]
  rfl

end

theorem fileMapped_zero {w : World} {inode : Block} :
    FileMapped w inode 0 ↔ ∀ slot, slot < numBlockSlots → slotPtr inode slot = eof := by
  constructor
  · intro mapped slot bound
    have start := slotStart_nonneg bound
    by_contra present
    have := (mapped slot bound).present.mp present
    omega
  · intro none slot bound
    rw [none slot bound]
    exact mapped_eof (slotStart_nonneg bound)

theorem fileBlocks_zero {w : World} {inode : Block}
    (none : ∀ slot, slot < numBlockSlots → slotPtr inode slot = eof) : fileBlocks w inode = 0 :=
  sum_eq_zero fun slot inside => by rw [none slot (mem_range.mp inside),tree_eof]

theorem blockcount_zero : blockcount 0 = 0 := by simpa using blockcount_mul 0

section
variable {w w' : World} {ilistSize : Nat} {inumber : Int} {numbers : List Int} {free : Multiset Int}

theorem freeSet_super {super : Block} (list : FreeSet w free) (positive : ∀ b ∈ free, 1 ≤ b)
    (same : ∀ j, j < 24 ∨ 32 ≤ j ∧ j < 40 ∨ 48 ≤ j → super j = w.block 0 j) :
    FreeSet (w.put 0 super) free := by
  refine list.imp fun _ l => l.congr (fun b member => ?_) ?_ ?_
  · have := positive b member
    exact put_block_ne _ _ _ le_rfl (by omega) (by omega)
  · rw [put_block_self]
    exact word_congr _ _ _ fun j _ high => same j (by simp only [Superblock.freelistStart] at *; omega)
  · rw [put_block_self]
    exact word_congr _ _ _ fun j _ high => same j (by simp only [Superblock.freeBlocks] at *; omega)

theorem Storage.undisturbed (h : Storage w ilistSize free numbers)
    (nblocks : w'.nblocks = w.nblocks) (super : ∀ j, 48 ≤ j → w'.block 0 j = w.block 0 j)
    (exhausted : w.exhausted = true → w'.exhausted = true) (list : FreeSet w' free)
    (inodes : InodeList w' ilistSize numbers fun _ => False)
    (same : ∀ n, Numbered ilistSize n → Untouched w w' n) :
    Storage w' ilistSize free numbers ∧ usedBlocks w' ilistSize = usedBlocks w ilistSize := by
  have used : usedBlocks w' ilistSize = usedBlocks w ilistSize :=
    sum_congr rfl fun n inside => (same n (Numbered.natCast (mem_range.mp inside))).blocks
  refine ⟨⟨by rw [nblocks]; exact h.room,list,by rw [used]; exact h.nodup,
    by rw [used,nblocks]; exact h.range,inodes,?_,fun n numbered positive => ?_,
    fun calm n numbered positive => ?_⟩,used⟩
  · rw [Inode.magic,field_congr _ (w.block 0) _ _ fun j low _ => super j (by omega)]
    exact h.super
  · have other := same n numbered
    rw [other.entry] at positive ⊢
    rw [(other.slots positive).1]
    exact h.file n numbered positive
  · have other := same n numbered
    have was := positive
    rw [other.entry] at was
    have mapped := other.mapped was (h.mapped (was_down exhausted calm) n numbered was)
    rwa [← (other.slots was).1,← other.entry] at mapped

theorem Storage.clock (h : Storage w ilistSize free numbers) (clock : Nat → Timespec) :
    Storage { w with clock := clock } ilistSize free numbers ∧
      usedBlocks { w with clock := clock } ilistSize = usedBlocks w ilistSize :=
  h.undisturbed rfl (fun _ _ => rfl) id (h.list.imp fun _ l => l.congr (fun _ _ => rfl) rfl rfl)
    (h.inodes.congr (fun _ _ => rfl) rfl rfl) fun _ _ => ⟨rfl,fun _ _ => rfl⟩

theorem inoSet_freeSet (numbered : Numbered ilistSize inumber) (room : ilistSize < w.nblocks)
    (list : FreeSet w free) (owned : Owned w free) (data : ∀ b ∈ free, (ilistSize : Int) < b) (b : Int) :
    FreeSet (inoSet w inumber b) free := by
  have le := ilistBlock_le numbered room
  rw [inoSet_eq numbered room]
  refine list.put owned (ilistBlock_pos inumber) (fun inside => ?_) _
  have := data _ inside
  omega

theorem allocate_success (h : Storage w ilistSize free numbers) {number b : Int} {rest : List Int}
    {free' : Multiset Int} {super inode : Block} {w2 : World} (shape : numbers = number :: rest)
    (numbered : Numbered ilistSize number)
    (same : ∀ j, j < 24 ∨ 32 ≤ j ∧ j < 40 ∨ 48 ≤ j → super j = w.block 0 j)
    (inodes : InodeList (w.put 0 super) ilistSize rest fun n => False ∨ n = number)
    (moved : Moved (w.put 0 super) w2 free 0 free' {b} True)
    (magic : Inode.magic inode = inodeMagic) (size : word inode Inode.size = 0)
    (slots : ∀ slot, slot < numBlockSlots → slotPtr inode slot = eof) :
    ∃ w', diskWrite (inoSet w2 number b) (ulong b) inode = w' ∧
      Renewed w w' ilistSize number free free' rest ∧ inoGet w' number = b ∧ w'.block b = inode ∧
      w'.exhausted = w2.exhausted ∧
      free' + inodeBlocks w' number = free + inodeBlocks w number := by
  have room := h.room
  have room1 : ilistSize < (w.put 0 super).nblocks := by
    rw [put_nblocks]
    omega
  have taken : free' + {b} = free := by simpa using moved.all trivial
  have memb : b ∈ free := by
    rw [← taken]
    simp
  have data : ∀ c ∈ free, (ilistSize : Int) < c ∧ c < w.nblocks := fun c member =>
    h.range c (Multiset.mem_add.mpr (.inl member))
  have range := data b memb
  have fits : Fits b := by
    have := nblocks_lt w
    unfold Fits
    omega
  have same2 : w2.nblocks = w.nblocks := moved.frame.nblocks
  have room2 : ilistSize < w2.nblocks := by omega
  have within : ∀ c ∈ free', c ∈ free := fun c member => by
    rw [← taken]
    exact Multiset.mem_add.mpr (.inl member)
  have nodup : (free' + {b}).Nodup := by
    rw [taken]
    exact (Multiset.nodup_add.mp h.nodup).1
  have fresh : b ∉ free' := fun inside =>
    Multiset.disjoint_left.mp (Multiset.nodup_add.mp nodup).2.2 inside (by simp)
  have owned : Owned w2 free' := ⟨(Multiset.nodup_add.mp nodup).1,fun c member => by
    have := data c (within c member)
    omega⟩
  have notListed : number ∉ rest := by
    have := h.inodes.nodup
    rw [shape] at this
    exact (List.nodup_cons.mp this).1
  have unused : inodeBlocks w number = 0 := inodeBlocks_none
    ((h.inodes.free number numbered).mpr (.inl (by rw [shape]; exact List.mem_cons_self)))
  obtain ⟨w3,set⟩ : ∃ w3, inoSet w2 number b = w3 := ⟨_,rfl⟩
  have apart3 : Apart w2 w3 ilistSize number (· ∈ free + inodeBlocks w number) :=
    set ▸ inoSet_apart numbered room2 b
  have list3 : FreeSet w3 free' := set ▸ inoSet_freeSet numbered room2 moved.list owned
    (fun c member => (data c (within c member)).1) b
  have inodes3 : InodeList w3 ilistSize rest fun _ => False := by
    rw [← set]
    refine (inoSet_spec (inodes.frame room1 moved.frame fun c member => ?_) room2 numbered notListed
      (by omega) fits).retake fun n _ => ?_
    · exact (data c (by simpa using member)).1
    · exact ⟨fun both => both.2 (both.1.resolve_left id),False.elim⟩
  have entry3 : inoGet w3 number = b := by
    rw [← set,inoGet_inoSet_self numbered room2,wrap_of_fits fits]
  have nblocks3 : w3.nblocks = w.nblocks := apart3.nblocks.trans same2
  have owned3 : Owned w3 free' := ⟨owned.1,fun c member => by
    rw [nblocks3,← same2]
    exact owned.2 c member⟩
  obtain ⟨w',put⟩ : ∃ w', w3.put b inode = w' := ⟨_,rfl⟩
  have frame4 : Frame w3 w' (· = b) := put ▸ Frame.put inode (by omega) rfl
  have stored : w'.block b = inode := by rw [← put,put_block_self]
  have entry : inoGet w' number = b := by
    rw [inoGet_frame frame4 fun eq => ?_,entry3]
    have := ilistBlock_le numbered (show ilistSize < w.nblocks by omega)
    omega
  have only : inodeBlocks w' number = {b} := by
    rw [inodeBlocks_pos (by omega),entry,stored,fileBlocks_zero slots]
    rfl
  refine ⟨w',?_,⟨?_,?_,?_,?_,?_,?_,?_⟩,entry,stored,?_,?_⟩
  · rw [set,diskWrite_block _ (by omega) (by omega),put]
  · have first : Apart w (w.put 0 super) ilistSize number (· ∈ free + inodeBlocks w number) :=
      super_apart (by omega) fun j low => same j (.inr (.inr low))
    refine ((first.trans (moved.frame.apart room1
      fun c member => ?_)).trans apart3).trans (frame4.apart (by omega) fun c eq => ?_)
    · have inFree : c ∈ free := by simpa using member
      exact ⟨(data c inFree).1,Multiset.mem_add.mpr (.inl inFree)⟩
    · rw [eq]
      exact ⟨range.1,Multiset.mem_add.mpr (.inl memb)⟩
  · exact put ▸ list3.put owned3 (by omega) fresh inode
  · exact inodes3.frame (by omega) frame4 fun c eq => by
      rw [eq]
      exact range.1
  · rw [only,unused,taken,add_zero]
  · rw [only,unused,taken,add_zero]
    exact fun _ => rfl
  · rw [entry,stored]
    exact fun _ => ⟨magic,size.ge,by rw [size]; exact Int.natCast_nonneg _⟩
  · rw [entry,stored,size,blockcount_zero]
    exact fun _ _ => fileMapped_zero.mpr slots
  · rw [← put,put_exhausted,← set,inoSet_eq numbered room2,put_exhausted]
  · rw [only,unused,taken,add_zero]

theorem allocate_giveBack (h : Storage w ilistSize free numbers) {number : Int} {rest : List Int}
    {super : Block} {flag : Bool} (shape : numbers = number :: rest)
    (numbered : Numbered ilistSize number)
    (same : ∀ j, j < 24 ∨ 32 ≤ j ∧ j < 40 ∨ 48 ≤ j → super j = w.block 0 j)
    (inodes : InodeList (w.put 0 super) ilistSize rest fun n => False ∨ n = number)
    (flagged : w.exhausted = true → flag = true) :
    Renewed w (inoFree { w.put 0 super with exhausted := flag } number) ilistSize number free free
      numbers := by
  have room := h.room
  have unused := (h.inodes.free number numbered).mpr (.inl (by rw [shape]; exact List.mem_cons_self))
  have none := inodeBlocks_none unused
  have notListed : number ∉ rest := by
    have := h.inodes.nodup
    rw [shape] at this
    exact (List.nodup_cons.mp this).1
  have data : ∀ c ∈ free, (ilistSize : Int) < c ∧ c < w.nblocks := fun c member =>
    h.range c (Multiset.mem_add.mpr (.inl member))
  have owned : Owned w free := ⟨(Multiset.nodup_add.mp h.nodup).1,fun c member => by
    have := data c member
    omega⟩
  have list1 : FreeSet (w.put 0 super) free := freeSet_super h.list
    (fun c member => (owned.2 c member).1) same
  obtain ⟨w1,given⟩ : ∃ w1, { w.put 0 super with exhausted := flag } = w1 := ⟨_,rfl⟩
  have nblocks : w1.nblocks = w.nblocks := given ▸ rfl
  have room1 : ilistSize < w1.nblocks := by omega
  have apart1 : Apart w w1 ilistSize number (· ∈ free + inodeBlocks w number) := by
    have first : Apart w (w.put 0 super) ilistSize number (· ∈ free + inodeBlocks w number) :=
      super_apart (by omega) fun j low => same j (.inr (.inr low))
    rw [← given]
    exact ⟨rfl,flagged,first.others,first.block,first.super⟩
  have list1' : FreeSet w1 free := by
    rw [← given]
    exact list1.imp fun _ l => l.congr (fun _ _ => rfl) rfl rfl
  have inodes1 : InodeList w1 ilistSize rest fun n => False ∨ n = number := by
    rw [← given]
    exact inodes.congr (fun _ _ => rfl) rfl rfl
  have owned1 : Owned w1 free := ⟨owned.1,fun c member => by
    rw [nblocks]
    exact owned.2 c member⟩
  rw [given]
  obtain ⟨super',freed,same',inodes'⟩ := inoFree_spec inodes1 room1 numbered notListed
  have inodes2 : InodeList (inoFree w1 number) ilistSize numbers fun _ => False := by
    rw [shape]
    exact inodes'.retake fun n _ => ⟨fun both => both.2 (both.1.resolve_left id),False.elim⟩
  have entry := (inodes2.free number numbered).mpr
    (.inl (by rw [shape]; exact List.mem_cons_self))
  have none' := inodeBlocks_none entry
  obtain ⟨w2,set⟩ : ∃ w2, inoSet w1 number (-word (w1.block 0) Superblock.inoFreelistStart) = w2 :=
    ⟨_,rfl⟩
  rw [set] at freed
  have apart2 : Apart w1 w2 ilistSize number (· ∈ free + inodeBlocks w number) :=
    set ▸ inoSet_apart numbered room1 _
  have list2 : FreeSet w2 free := set ▸ inoSet_freeSet numbered room1 list1' owned1
    (fun c member => (data c member).1) _
  have zero : w2.block 0 = w1.block 0 := by
    have := ilistBlock_pos number
    rw [← set,inoSet_eq numbered room1]
    exact put_block_ne _ _ _ (by omega) le_rfl (by omega)
  have same2 : ∀ j, j < 24 ∨ 32 ≤ j ∧ j < 40 ∨ 48 ≤ j → super' j = w2.block 0 j := fun j out => by
    rw [zero]
    exact same' j out
  refine ⟨?_,?_,inodes2,?_,?_,?_,?_⟩
  · rw [freed]
    exact (apart1.trans apart2).trans (super_apart (by rw [apart2.nblocks]; exact room1)
      fun j low => same2 j (.inr (.inr low)))
  · rw [freed]
    exact freeSet_super list2 (fun c member => (owned.2 c member).1) same2
  · rw [none,none']
  · rw [none,none']
    exact fun _ => rfl
  · exact fun positive => absurd positive (not_lt.mpr entry)
  · exact fun _ positive => absurd positive (not_lt.mpr entry)

/-- `inode_allocate` hands out the first free number with an empty file, unless numbers or
blocks have run out. -/
theorem inodeAllocate_spec (h : Storage w ilistSize free numbers) (result : Int) (w' : World)
    (ran : inodeAllocate w = (result,w')) :
    w'.nblocks = w.nblocks ∧ (w.exhausted = true → w'.exhausted = true) ∧
    (∀ n, Numbered ilistSize n → 0 < inoGet w n → Untouched w w' n) ∧
    ((result = -1 ∧ (numbers = [] ∨ free = 0) ∧ Storage w' ilistSize free numbers ∧
        usedBlocks w' ilistSize = usedBlocks w ilistSize) ∨
      ∃ rest free' ts, numbers = result :: rest ∧ Numbered ilistSize result ∧
        Storage w' ilistSize free' rest ∧
        free' + usedBlocks w' ilistSize = free + usedBlocks w ilistSize ∧
        0 < inoGet w' result ∧ w'.block (inoGet w' result) = freshInode w.stack ts) := by
  obtain ⟨clock,ticked⟩ : ∃ clock, clock = fun n => w.clock (n + 1) := ⟨_,rfl⟩
  obtain ⟨h0,used0⟩ := h.clock clock
  have step0 (n : Int) : Untouched w { w with clock := clock } n := ⟨rfl,fun _ _ => rfl⟩
  have room := h.room
  simp only [inodeAllocate,now,← ticked] at ran
  obtain ⟨w0,given⟩ : ∃ w0, { w with clock := clock } = w0 := ⟨_,rfl⟩
  have flag0 : w0.exhausted = w.exhausted := given ▸ rfl
  have nblocks0 : w0.nblocks = w.nblocks := given ▸ rfl
  have room0 : ilistSize < w0.nblocks := by
    rw [← given]
    exact (show ilistSize < w.nblocks by omega)
  have positive0 (n : Int) : inoGet w0 n = inoGet w n := given ▸ (step0 n).entry
  simp only [given] at h0 used0 step0 ran
  rcases inoAllocate_spec h0.inodes room0 with ⟨none,eq⟩ | ⟨number,rest,super,shape,numbered,eq,same,inodes⟩
  · rw [eq] at ran
    dsimp only at ran
    rw [if_pos (by decide)] at ran
    obtain ⟨rfl,rfl⟩ := Prod.mk.inj ran
    exact ⟨nblocks0,fun raised => flag0.trans raised,fun n _ _ => step0 n,.inl ⟨rfl,.inl none,h0,used0⟩⟩
  have low := numbered.1
  rw [eq] at ran
  dsimp only at ran
  rw [if_neg (show ¬number < 0 by omega)] at ran
  have owned0 : Owned (w0.put 0 super) free := ⟨(Multiset.nodup_add.mp h0.nodup).1,fun b member => by
    have := h0.range b (Multiset.mem_add.mpr (.inl member))
    rw [put_nblocks]
    omega⟩
  have list0 : FreeSet (w0.put 0 super) free := freeSet_super h0.list
    (fun b member => (owned0.2 b member).1) same
  have others (w' : World) (free' : Multiset Int) (numbers' : List Int)
      (r : Renewed w0 w' ilistSize number free free' numbers') (n : Int)
      (numbered' : Numbered ilistSize n) (used : 0 < inoGet w n) : Untouched w w' n := by
    refine (step0 n).trans (r.untouched h0 numbered numbered' ?_)
    rintro rfl
    have unused := (h0.inodes.free n numbered).mpr (.inl (by rw [shape]; exact List.mem_cons_self))
    rw [positive0] at unused
    omega
  rcases blockAllocate_moved list0 owned0 (by rw [put_nblocks]; omega) with
    ⟨empty,block,failed⟩ | ⟨free',low',_,calm,_,moved⟩
  · have back := allocate_giveBack h0 shape numbered same inodes (fun _ => Eq.refl true)
    have none (w' : World) (inodes : InodeList w' ilistSize numbers fun _ => False) :
        inodeBlocks w' number = 0 := inodeBlocks_none
      ((inodes.free number numbered).mpr (.inl (by rw [shape]; exact List.mem_cons_self)))
    obtain ⟨rest',before,after⟩ := usedBlocks_change numbered fun n numbered' differ =>
      (back.untouched h0 numbered numbered' differ).blocks
    rw [none _ h0.inodes] at before
    rw [none _ back.inodes,← before,used0] at after
    rw [block,if_pos (by decide),failed] at ran
    obtain ⟨rfl,rfl⟩ := Prod.mk.inj ran
    exact ⟨back.apart.nblocks.trans nblocks0,
      fun raised => back.apart.exhausted (flag0.trans raised),others _ _ _ back,
      .inl ⟨rfl,.inr empty,(back.storage h0 numbered).1,after⟩⟩
  · rw [if_neg (by omega)] at ran
    obtain ⟨w1,stored,renewed,entry,inode,_,all⟩ := allocate_success h0 shape numbered same inodes moved
      (freshInode_magic w.stack (w.clock 0)) (freshInode_size _ _) fun slot => freshInode_slot _ _
    rw [stored] at ran
    obtain ⟨rfl,rfl⟩ := Prod.mk.inj ran
    obtain ⟨storage,_⟩ := renewed.storage h0 numbered
    obtain ⟨rest',before,after⟩ := usedBlocks_change numbered fun n numbered' differ =>
      (renewed.untouched h0 numbered numbered' differ).blocks
    refine ⟨renewed.apart.nblocks.trans nblocks0,
      fun raised => renewed.apart.exhausted (flag0.trans raised),others _ _ _ renewed,
      .inr ⟨rest,free',w.clock 0,shape,numbered,storage,?_,by omega,?_⟩⟩
    · rw [after,← used0,before,← add_assoc,← add_assoc,all]
    · rw [entry,inode]

theorem free_renewed (h : Storage w ilistSize free numbers) (numbered : Numbered ilistSize inumber)
    (used : 0 < inoGet w inumber) {w1 : World} {free1 : Multiset Int}
    (r : Renewed w w1 ilistSize inumber free free1 numbers) (entry : inoGet w1 inumber = inoGet w inumber)
    (empty : w1.exhausted = false → fileBlocks w1 (w1.block (inoGet w inumber)) = 0) :
    Renewed w (blockFree (inoFree w1 inumber) (inoGet w inumber)) ilistSize inumber free
      (free1 + {inoGet w inumber}) (inumber :: numbers) := by
  obtain ⟨h1,_⟩ := r.storage h numbered
  have room := h1.room
  have used1 : 0 < inoGet w1 inumber := by omega
  obtain ⟨b,number⟩ : ∃ b, inoGet w inumber = b := ⟨_,rfl⟩
  rw [number] at entry empty ⊢
  have inside : b ∈ inodeBlocks w1 inumber := by
    rw [inodeBlocks_pos used1,entry]
    exact Multiset.mem_cons_self _ _
  have inUse := mem_usedBlocks.mpr ⟨inumber,numbered,inside⟩
  have data : ∀ c ∈ free1 + {b}, (ilistSize : Int) < c ∧ c < w1.nblocks := fun c member => by
    rcases Multiset.mem_add.mp member with inFree | same
    · exact h1.range c (Multiset.mem_add.mpr (.inl inFree))
    · rw [Multiset.mem_singleton.mp same]
      exact h1.range b (Multiset.mem_add.mpr (.inr inUse))
  have apartFree : b ∉ free1 := fun inFree =>
    Multiset.disjoint_left.mp (Multiset.nodup_add.mp h1.nodup).2.2 inFree inUse
  have nodup : (free1 + {b}).Nodup := by
    rw [add_comm,Multiset.singleton_add]
    exact Multiset.nodup_cons.mpr ⟨apartFree,(Multiset.nodup_add.mp h1.nodup).1⟩
  have owned1 : Owned w1 free1 := ⟨(Multiset.nodup_add.mp h1.nodup).1,fun c member => by
    have := data c (Multiset.mem_add.mpr (.inl member))
    omega⟩
  have fresh : inumber ∉ numbers := fun listed => by
    have := (h1.inodes.free inumber numbered).mpr (.inl listed)
    omega
  obtain ⟨super,freed,same,inodes⟩ := inoFree_spec h1.inodes (show ilistSize < w1.nblocks by omega)
    numbered fresh
  obtain ⟨w2,set⟩ : ∃ w2, inoSet w1 inumber (-word (w1.block 0) Superblock.inoFreelistStart) = w2 :=
    ⟨_,rfl⟩
  rw [set] at freed
  have apart2 : Apart w1 w2 ilistSize inumber (· ∈ free + inodeBlocks w inumber) :=
    set ▸ inoSet_apart numbered (by omega) _
  have zero : w2.block 0 = w1.block 0 := by
    have := ilistBlock_pos inumber
    rw [← set,inoSet_eq numbered (show ilistSize < w1.nblocks by omega)]
    exact put_block_ne _ _ _ (by omega) le_rfl (by omega)
  have list2 : FreeSet w2 free1 := set ▸ inoSet_freeSet numbered (by omega) h1.list owned1
    (fun c member => (data c (Multiset.mem_add.mpr (.inl member))).1) _
  have same2 : ∀ j, j < 24 ∨ 32 ≤ j ∧ j < 40 ∨ 48 ≤ j → super j = w2.block 0 j := fun j out => by
    rw [zero]
    exact same j out
  obtain ⟨w3,gave⟩ : ∃ w3, inoFree w1 inumber = w3 := ⟨_,rfl⟩
  rw [gave] at freed inodes ⊢
  have apart3 : Apart w1 w3 ilistSize inumber (· ∈ free + inodeBlocks w inumber) := by
    rw [freed]
    exact apart2.trans (super_apart (by rw [apart2.nblocks]; omega) fun j low =>
      same2 j (.inr (.inr low)))
  have list3 : FreeSet w3 free1 := by
    rw [freed]
    exact freeSet_super list2 (fun c member => (owned1.2 c member).1) same2
  have owned3 : Owned w3 (free1 + {b}) := ⟨nodup,fun c member => by
    have := data c member
    rw [apart3.nblocks]
    omega⟩
  have moved := blockFree_moved list3 owned3
  have within : ∀ c ∈ free1 + {b}, c ∈ free + inodeBlocks w inumber := fun c member => by
    refine Multiset.mem_of_le ((add_le_add_right ?_ free1).trans r.blocks) member
    exact Multiset.singleton_le.mpr inside
  have data3 : ∀ c, c ∈ free1 + {b} → (ilistSize : Int) < c ∧ c ∈ free + inodeBlocks w inumber :=
    fun c member => ⟨(data c member).1,within c member⟩
  have inodes4 : InodeList (blockFree w3 b) ilistSize (inumber :: numbers) fun _ => False :=
    (inodes.frame (by rw [apart3.nblocks]; omega) moved.frame fun c member => (data3 c member).1).retake
      fun _ _ => ⟨fun both => both.1,False.elim⟩
  have unused := (inodes4.free inumber numbered).mpr (.inl List.mem_cons_self)
  have shape : inodeBlocks w1 inumber = b ::ₘ fileBlocks w1 (w1.block b) := by
    rw [inodeBlocks_pos used1,entry]
  refine ⟨(r.apart.trans apart3).trans (moved.frame.apart (by rw [apart3.nblocks]; omega) data3),
    moved.list,inodes4,?_,fun calm => ?_,fun positive => absurd positive (not_lt.mpr unused),
    fun _ positive => absurd positive (not_lt.mpr unused)⟩
  · rw [inodeBlocks_none unused,add_zero]
    exact (add_le_add_right (Multiset.singleton_le.mpr inside) free1).trans r.blocks
  · have calm1 : w1.exhausted = false :=
      was_down (fun raised => moved.frame.exhausted (apart3.exhausted raised)) calm
    rw [inodeBlocks_none unused,add_zero,← r.all calm1,shape,empty calm1]
    rfl

theorem inodeFree_spec (h : Storage w ilistSize free numbers) (numbered : Numbered ilistSize inumber)
    {result : Int} (ran : inodeFree w inumber = .ok (result,w')) :
    result = -1 ∧ w' = w ∨ result = 0 ∧ 0 < inoGet w inumber ∧
      Inode.nlinks (w.block (inoGet w inumber)) = 0 ∧
      ∃ free', Renewed w w' ilistSize inumber free free' (inumber :: numbers) := by
  by_cases used : 0 < inoGet w inumber
  swap
  · simp only [inodeFree,h.load_none (not_lt.mp used),Except.ok.injEq,Prod.mk.injEq] at ran
    exact .inl ⟨ran.1.symm,ran.2.symm⟩
  have held := h.held numbered used
  simp only [inodeFree,held.names.load] at ran
  split at ran
  · rw [Except.ok.injEq,Prod.mk.injEq] at ran
    exact .inl ⟨ran.1.symm,ran.2.symm⟩
  · rename_i unlinked
    obtain ⟨⟨size,w1⟩,sized,ran⟩ := bind_ok.mp ran
    rw [Except.ok.injEq,Prod.mk.injEq] at ran
    obtain ⟨rfl,rfl⟩ := ran
    obtain ⟨_,_,resized⟩ := inodeSetsize_spec held.names held.list held.owned held.sizeNonneg
      held.sizeTop (le_refl (0 : Int))
    have made : Resized 0 w (inoGet w inumber) free (size,w1) := resized _ sized
    have updated : Updated w (inoGet w inumber) free w1 := made.updated
    obtain ⟨free1,renewed⟩ := updated.renewed h numbered used
    obtain ⟨_,held1,_⟩ := updated.held held
    refine .inr ⟨rfl,used,not_not.mp unlinked,_,free_renewed h numbered used renewed
      held1.names.number fun calm => ?_⟩
    have calm0 : w.exhausted = false := was_down renewed.apart.exhausted calm
    have zero : size = 0 := le_antisymm made.upper made.nonneg
    have mapped : FileMapped w1 (w1.block (inoGet w inumber)) (blockcount size) :=
      made.mapped (made.safe (h.mapped calm0 inumber numbered used) calm)
    rw [zero,blockcount_zero] at mapped
    exact fileBlocks_zero (fileMapped_zero.mp mapped)

end

end CandyFs
