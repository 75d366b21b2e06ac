import CandyFs.FreeList

/-! The inode list: one word for each inode number. The word of a number in use is the block of
its inode; the words of the free numbers chain them up, negated.
-/
namespace CandyFs
open Bytes

variable [Geometry]

/-- The block of the inode list that holds the word of `inumber`, and the place of that word. -/
def ilistBlock (inumber : Int) : Int := (1 + ulong inumber / inumsPerIlistBlock : Nat)
def ilistEntry (inumber : Int) : Nat := ulong inumber % inumsPerIlistBlock

/-- A number that the inode list has a word for. -/
def Numbered (ilistSize : Nat) (inumber : Int) : Prop :=
  0 ≤ inumber ∧ inumber < ilistSize * inumsPerIlistBlock

instance (ilistSize : Nat) (inumber : Int) : Decidable (Numbered ilistSize inumber) :=
  inferInstanceAs (Decidable (_ ∧ _))

theorem Numbered.natCast {ilistSize n : Nat} (inside : n < ilistSize * inumsPerIlistBlock) :
    Numbered ilistSize n := by
  refine ⟨Int.natCast_nonneg n,?_⟩
  rw [← Nat.cast_mul]
  exact Int.ofNat_lt.mpr inside

theorem Numbered.toNat_lt {ilistSize : Nat} {inumber : Int} (h : Numbered ilistSize inumber) :
    inumber.toNat < ilistSize * inumsPerIlistBlock := by
  obtain ⟨low,high⟩ := h
  omega

theorem inumsPerIlistBlock_pos : 0 < inumsPerIlistBlock := by
  have large := blocksize_large
  unfold inumsPerIlistBlock
  omega

theorem ilistBlock_pos (inumber : Int) : 1 ≤ ilistBlock inumber := by
  unfold ilistBlock
  generalize ulong inumber / inumsPerIlistBlock = row
  omega

theorem numbers_few {w : World} {ilistSize : Nat} (room : ilistSize < w.nblocks) :
    ilistSize * inumsPerIlistBlock < 2 ^ 62 := by
  have fits := w.bytesFit
  have le : ilistSize * (8 * inumsPerIlistBlock) ≤ w.nblocks * blocksize :=
    Nat.mul_le_mul room.le (by unfold inumsPerIlistBlock; omega)
  rw [Nat.mul_left_comm] at le
  have large := blocksize_large
  by_contra many
  have : w.nblocks * blocksize < 2 ^ 64 := fits
  omega

section
variable {w w' : World} {ilistSize : Nat} {inumber other : Int}

theorem Numbered.ulong (numbered : Numbered ilistSize inumber) (room : ilistSize < w.nblocks) :
    Bytes.ulong inumber = inumber.toNat := by
  have few := numbers_few room
  obtain ⟨low,high⟩ := numbered
  exact ulong_of_nonneg low (by omega)

theorem ilistBlock_le (numbered : Numbered ilistSize inumber) (room : ilistSize < w.nblocks) :
    ilistBlock inumber ≤ ilistSize := by
  have ⟨low,high⟩ := numbered
  have row : inumber.toNat / inumsPerIlistBlock < ilistSize :=
    Nat.div_lt_of_lt_mul (by rw [Nat.mul_comm]; omega)
  rw [ilistBlock,numbered.ulong room]
  generalize inumber.toNat / inumsPerIlistBlock = r at *
  omega

theorem ilist_injective (numbered : Numbered ilistSize inumber) (numbered' : Numbered ilistSize other)
    (room : ilistSize < w.nblocks) (block : ilistBlock inumber = ilistBlock other)
    (entry : ilistEntry inumber = ilistEntry other) : inumber = other := by
  rw [ilistBlock,ilistBlock,numbered.ulong room,numbered'.ulong room] at block
  rw [ilistEntry,ilistEntry,numbered.ulong room,numbered'.ulong room] at entry
  have one := Nat.div_add_mod inumber.toNat inumsPerIlistBlock
  have two := Nat.div_add_mod other.toNat inumsPerIlistBlock
  have rows : inumber.toNat / inumsPerIlistBlock = other.toNat / inumsPerIlistBlock := by
    generalize inumber.toNat / inumsPerIlistBlock = a at *
    generalize other.toNat / inumsPerIlistBlock = b at *
    omega
  rw [rows,entry,two] at one
  obtain ⟨low,_⟩ := numbered
  obtain ⟨low',_⟩ := numbered'
  omega

theorem inoGet_eq (numbered : Numbered ilistSize inumber) (room : ilistSize < w.nblocks) :
    inoGet w inumber = word (w.block (ilistBlock inumber)) (ilistEntry inumber) := by
  have le := ilistBlock_le numbered room
  unfold ilistBlock at le
  simp only [inoGet,diskRead,ilistEntry]
  rw [if_pos (by generalize 1 + Bytes.ulong inumber / inumsPerIlistBlock = r at *; omega)]
  rfl

theorem inoSet_eq (numbered : Numbered ilistSize inumber) (room : ilistSize < w.nblocks) (b : Int) :
    inoSet w inumber b = w.put (ilistBlock inumber)
      (setWord (w.block (ilistBlock inumber)) (ilistEntry inumber) b) := by
  have le := ilistBlock_le numbered room
  unfold ilistBlock at le
  simp only [inoSet,diskRead,diskWrite,ilistEntry]
  rw [if_pos (by generalize 1 + Bytes.ulong inumber / inumsPerIlistBlock = r at *; omega),
    if_pos (by generalize 1 + Bytes.ulong inumber / inumsPerIlistBlock = r at *; omega)]
  rfl

theorem inoGet_inoSet_self (numbered : Numbered ilistSize inumber) (room : ilistSize < w.nblocks)
    (b : Int) : inoGet (inoSet w inumber b) inumber = wrap b := by
  rw [inoSet_eq numbered room,inoGet_eq numbered (by exact room),put_block_self,word_setWord_self]

theorem inoGet_inoSet_ne (numbered : Numbered ilistSize inumber) (numbered' : Numbered ilistSize other)
    (room : ilistSize < w.nblocks) (differ : other ≠ inumber) (b : Int) :
    inoGet (inoSet w inumber b) other = inoGet w other := by
  have low := ilistBlock_pos inumber
  have low' := ilistBlock_pos other
  rw [inoSet_eq numbered room,inoGet_eq numbered' (by exact room),inoGet_eq numbered' room]
  by_cases same : ilistBlock other = ilistBlock inumber
  · rw [same,put_block_self,word_setWord_ne]
    exact fun entry => differ (ilist_injective numbered' numbered room same entry)
  · rw [put_block_ne _ _ _ (by omega) (by omega) same]

theorem inoGet_super (numbered : Numbered ilistSize inumber) (room : ilistSize < w.nblocks)
    (super : Block) : inoGet (w.put 0 super) inumber = inoGet w inumber := by
  have low := ilistBlock_pos inumber
  rw [inoGet_eq numbered (by exact room),inoGet_eq numbered room,
    put_block_ne _ _ _ le_rfl (by omega) (by omega)]

theorem inoGet_fits (numbered : Numbered ilistSize inumber) (room : ilistSize < w.nblocks) :
    Fits (inoGet w inumber) := by
  rw [inoGet_eq numbered room]
  exact word_fits _ _

theorem inoGet_frame {touched : Int → Prop} (frame : Frame w w' touched)
    (outside : ¬touched (ilistBlock inumber)) : inoGet w' inumber = inoGet w inumber := by
  have same := frame.block (ilistBlock inumber) (ilistBlock_pos _) outside
  simp only [World.block,ilistBlock,Int.toNat_natCast] at same
  simp only [inoGet,diskRead,frame.nblocks,frame.stack,same]

end

/-- `numbers` are the numbers on the list that starts at `start`, in order. -/
def InodeChain (w : World) : Int → List Int → Prop
  | start,[] => start = eof
  | start,number :: rest => start = number ∧ InodeChain w (wrap (-inoGet w number)) rest

/-- `numbers` are the free inode numbers, in the order they are handed out. The numbers in
`taken` are off the list already and have no block yet. -/
structure InodeList (w : World) (ilistSize : Nat) (numbers : List Int) (taken : Int → Prop) :
    Prop where
  chain : InodeChain w (word (w.block 0) Superblock.inoFreelistStart) numbers
  count : word (w.block 0) Superblock.freeInodes = numbers.length
  nodup : numbers.Nodup
  range : ∀ n ∈ numbers, Numbered ilistSize n
  free : ∀ n, Numbered ilistSize n → (inoGet w n ≤ 0 ↔ n ∈ numbers ∨ taken n)

section
variable {w w' : World} {ilistSize : Nat} {numbers rest : List Int} {number start : Int}
  {taken taken' : Int → Prop}

theorem InodeChain.congr (same : ∀ n ∈ numbers, inoGet w' n = inoGet w n)
    (h : InodeChain w start numbers) : InodeChain w' start numbers := by
  induction numbers generalizing start with
  | nil => exact h
  | cons number rest ih =>
    obtain ⟨first,tail⟩ := h
    rw [InodeChain,same number List.mem_cons_self]
    exact ⟨first,ih (fun n member => same n (List.mem_cons_of_mem _ member)) tail⟩

theorem InodeList.retake (h : InodeList w ilistSize numbers taken)
    (same : ∀ n, Numbered ilistSize n → (taken n ↔ taken' n)) :
    InodeList w ilistSize numbers taken' :=
  { h with free := fun n numbered => (h.free n numbered).trans (or_congr_right (same n numbered)) }

theorem InodeList.congr (h : InodeList w ilistSize numbers taken)
    (same : ∀ n, Numbered ilistSize n → inoGet w' n = inoGet w n)
    (start : word (w'.block 0) Superblock.inoFreelistStart =
      word (w.block 0) Superblock.inoFreelistStart)
    (count : word (w'.block 0) Superblock.freeInodes = word (w.block 0) Superblock.freeInodes) :
    InodeList w' ilistSize numbers taken where
  chain := by
    rw [start]
    exact h.chain.congr fun n member => same n (h.range n member)
  count := count.trans h.count
  nodup := h.nodup
  range := h.range
  free := fun n numbered => by
    rw [same n numbered]
    exact h.free n numbered

theorem InodeList.frame {touched : Int → Prop} (h : InodeList w ilistSize numbers taken)
    (room : ilistSize < w.nblocks) (frame : Frame w w' touched)
    (outside : ∀ b, touched b → ilistSize < b) : InodeList w' ilistSize numbers taken := by
  refine h.congr (fun n numbered => inoGet_frame frame fun inside => ?_) ?_ ?_
  · have le := ilistBlock_le numbered room
    have := outside _ inside
    omega
  · exact word_congr _ _ _ fun j low high =>
      frame.super j (by simp only [Superblock.inoFreelistStart] at *; omega)
  · exact word_congr _ _ _ fun j low high =>
      frame.super j (by simp only [Superblock.freeInodes] at *; omega)

theorem InodeList.length_fits (h : InodeList w ilistSize numbers taken) (room : ilistSize < w.nblocks) :
    (numbers.length : Int) < 2 ^ 62 := by
  have few := numbers_few room
  have le : numbers.length ≤ ((List.range (ilistSize * inumsPerIlistBlock)).map Int.ofNat).length := by
    refine List.Subperm.length_le (List.subperm_of_subset h.nodup fun n member => ?_)
    obtain ⟨low,high⟩ := h.range n member
    exact List.mem_map.mpr ⟨n.toNat,List.mem_range.mpr (by omega),by simp [low]⟩
  simp only [List.length_map,List.length_range] at le
  omega

theorem InodeList.start_cases (h : InodeList w ilistSize numbers taken) :
    (numbers = [] ∧ word (w.block 0) Superblock.inoFreelistStart = eof) ∨
    ∃ number rest, numbers = number :: rest ∧ Numbered ilistSize number ∧
      word (w.block 0) Superblock.inoFreelistStart = number := by
  cases shape : numbers with
  | nil =>
    have chain := h.chain
    rw [shape] at chain
    exact .inl ⟨rfl,chain⟩
  | cons number rest =>
    have chain := h.chain
    have numbered := h.range number (by rw [shape]; exact List.mem_cons_self)
    rw [shape] at chain
    exact .inr ⟨number,rest,rfl,numbered,chain.1⟩

theorem inoAllocate_spec (h : InodeList w ilistSize numbers taken) (room : ilistSize < w.nblocks) :
    (numbers = [] ∧ inoAllocate w = (eof,w)) ∨
    ∃ number rest super, numbers = number :: rest ∧ Numbered ilistSize number ∧
      inoAllocate w = (number,w.put 0 super) ∧
      (∀ j, j < 24 ∨ 32 ≤ j ∧ j < 40 ∨ 48 ≤ j → super j = w.block 0 j) ∧
      InodeList (w.put 0 super) ilistSize rest fun n => taken n ∨ n = number := by
  have some : 0 < w.nblocks := by omega
  rcases h.start_cases with ⟨none,start⟩ | ⟨number,rest,shape,numbered,start⟩
  · refine .inl ⟨none,?_⟩
    simp only [inoAllocate,diskRead_zero _ some,start]
    rw [if_neg (not_not.mpr rfl)]
  · have low := numbered.1
    have few := h.length_fits room
    have chain := h.chain
    have count := h.count
    subst shape
    simp only [List.length_cons] at few count
    obtain ⟨super,made⟩ : ∃ super, setWord (setWord (w.block 0) Superblock.inoFreelistStart
      (-inoGet w number)) Superblock.freeInodes (word (setWord (w.block 0)
        Superblock.inoFreelistStart (-inoGet w number)) Superblock.freeInodes - 1) = super := ⟨_,rfl⟩
    have next : word super Superblock.inoFreelistStart = wrap (-inoGet w number) := by
      rw [← made,word_setWord_ne _ _ _ _ (by decide),word_setWord_self]
    have left : word super Superblock.freeInodes = rest.length := by
      rw [← made,word_setWord_self,word_setWord_ne _ _ _ _ (by decide),
        wrap_of_fits (by unfold Fits; omega)]
      omega
    refine .inr ⟨number,rest,super,rfl,numbered,?_,fun j outside => ?_,?_,?_,?_,?_,?_⟩
    · simp only [inoAllocate,diskRead_zero _ some,start]
      rw [if_pos (ne_eof low),diskWrite_zero _ some,made]
    · rw [← made,setWord_outside _ _ _ _ (by simp only [Superblock.freeInodes]; omega),
        setWord_outside _ _ _ _ (by simp only [Superblock.inoFreelistStart]; omega)]
    · rw [put_block_self,next]
      exact chain.2.congr fun n member =>
        inoGet_super (h.range n (List.mem_cons_of_mem _ member)) room super
    · rw [put_block_self,left]
    · exact h.nodup.of_cons
    · exact fun n member => h.range n (List.mem_cons_of_mem _ member)
    · intro n numbered'
      rw [inoGet_super numbered' room,h.free n numbered',List.mem_cons,or_assoc,or_comm,or_assoc]

theorem inoFree_spec (h : InodeList w ilistSize rest taken) (room : ilistSize < w.nblocks)
    (numbered : Numbered ilistSize number) (fresh : number ∉ rest) :
    ∃ super, inoFree w number = (inoSet w number
        (-word (w.block 0) Superblock.inoFreelistStart)).put 0 super ∧
      (∀ j, j < 24 ∨ 32 ≤ j ∧ j < 40 ∨ 48 ≤ j → super j = w.block 0 j) ∧
      InodeList (inoFree w number) ilistSize (number :: rest) fun n => taken n ∧ n ≠ number := by
  have some : 0 < w.nblocks := by omega
  have few := h.length_fits room
  have count := h.count
  obtain ⟨start,started⟩ : ∃ start, word (w.block 0) Superblock.inoFreelistStart = start := ⟨_,rfl⟩
  -- the end of the list is its own negative in 64 bits
  have link : wrap (wrap (-start)) = wrap (-start) ∧ wrap (-wrap (-start)) = start ∧
      wrap (-start) ≤ 0 := by
    rcases h.start_cases with ⟨_,eq⟩ | ⟨first,_,_,inside,eq⟩
    · rw [started] at eq
      rw [eq]
      decide
    · rw [started] at eq
      have few := numbers_few room
      obtain ⟨low,high⟩ := inside
      rw [eq,wrap_of_fits (show Fits (-first) by unfold Fits; omega),
        wrap_of_fits (show Fits (-first) by unfold Fits; omega),neg_neg,
        wrap_of_fits (show Fits first by unfold Fits; omega)]
      omega
  obtain ⟨super,made⟩ : ∃ super, setWord (setWord (w.block 0) Superblock.inoFreelistStart number)
    Superblock.freeInodes (word (setWord (w.block 0) Superblock.inoFreelistStart number)
      Superblock.freeInodes + 1) = super := ⟨_,rfl⟩
  obtain ⟨w1,linked⟩ : ∃ w1, inoSet w number (-start) = w1 := ⟨_,rfl⟩
  have room' : ilistSize < w1.nblocks := by
    rw [← linked,inoSet_eq numbered room]
    exact room
  have result : inoFree w number = w1.put 0 super := by
    simp only [inoFree,diskRead_zero _ some,started,made,linked]
    exact diskWrite_zero _ (by omega)
  have next : word super Superblock.inoFreelistStart = number := by
    have few := numbers_few room
    obtain ⟨low,high⟩ := numbered
    rw [← made,word_setWord_ne _ _ _ _ (by decide),word_setWord_self,
      wrap_of_fits (by unfold Fits; omega)]
  have grown : word super Superblock.freeInodes = (number :: rest).length := by
    rw [← made,word_setWord_self,word_setWord_ne _ _ _ _ (by decide),
      wrap_of_fits (by unfold Fits; omega),List.length_cons]
    omega
  have self : inoGet (w1.put 0 super) number = wrap (-start) := by
    rw [inoGet_super numbered room',← linked,inoGet_inoSet_self numbered room]
  have others (n : Int) (numbered' : Numbered ilistSize n) (differ : n ≠ number) :
      inoGet (w1.put 0 super) n = inoGet w n := by
    rw [inoGet_super numbered' room',← linked,inoGet_inoSet_ne numbered numbered' room differ]
  refine ⟨super,by rw [result,started,linked],fun j outside => ?_,?_⟩
  · rw [← made,setWord_outside _ _ _ _ (by simp only [Superblock.freeInodes]; omega),
      setWord_outside _ _ _ _ (by simp only [Superblock.inoFreelistStart]; omega)]
  rw [result]
  refine ⟨?_,by rw [put_block_self,grown],List.nodup_cons.mpr ⟨fresh,h.nodup⟩,fun n member => ?_,
    fun n numbered' => ?_⟩
  · rw [put_block_self,next]
    refine ⟨rfl,?_⟩
    rw [self,link.2.1,← started]
    refine h.chain.congr fun n member => others n (h.range n member) ?_
    rintro rfl
    exact fresh member
  · rcases List.mem_cons.mp member with rfl | member
    · exact numbered
    · exact h.range n member
  · rw [List.mem_cons]
    by_cases same : n = number
    · subst same
      rw [self]
      exact ⟨fun _ => .inl (.inl rfl),fun _ => link.2.2⟩
    · rw [others n numbered' same,h.free n numbered']
      simp only [same,false_or,ne_eq,not_false_eq_true,and_true]

/-- Giving a number back that was just handed out leaves nothing changed on the disk. -/
theorem inoFree_undoes (room : ilistSize < w.nblocks) (numbered : Numbered ilistSize number)
    (start : word (w.block 0) Superblock.inoFreelistStart = number) (flag : Bool) :
    (inoFree { (inoAllocate w).2 with exhausted := flag } number).data = w.data := by
  have some : 0 < w.nblocks := by omega
  have row := ilistBlock_pos number
  have fits := inoGet_fits numbered room
  obtain ⟨entry,stored⟩ : ∃ entry, inoGet w number = entry := ⟨_,rfl⟩
  obtain ⟨w1,taken⟩ : ∃ w1, { (inoAllocate w).2 with exhausted := flag } = w1 := ⟨_,rfl⟩
  obtain ⟨super,made⟩ : ∃ super, setWord (setWord (w.block 0) Superblock.inoFreelistStart
    (-entry)) Superblock.freeInodes (word (setWord (w.block 0) Superblock.inoFreelistStart
      (-entry)) Superblock.freeInodes - 1) = super := ⟨_,rfl⟩
  have first : (inoAllocate w).2 = w.put 0 super := by
    simp only [inoAllocate,diskRead_zero _ some,start]
    rw [if_pos (ne_eof numbered.1),diskWrite_zero _ some,stored,made]
  have shape : w1 = { w.put 0 super with exhausted := flag } := by
    rw [← taken]
    simp only [first]
  have room1 : ilistSize < w1.nblocks := by
    rw [shape]
    exact room
  have zero : w1.block 0 = super := by
    rw [shape]
    exact put_block_self w 0 super
  have same (b : Int) (low : 1 ≤ b) : w1.block b = w.block b := by
    rw [shape]
    exact put_block_ne w 0 super le_rfl (by omega) (by omega)
  have next : word super Superblock.inoFreelistStart = wrap (-entry) := by
    rw [← made,word_setWord_ne _ _ _ _ (by decide),word_setWord_self]
  -- the word of the number is written over with itself
  have linked : inoSet w1 number (-word super Superblock.inoFreelistStart) = w1 := by
    have emod := wrap_emod (-entry)
    have own : setWord (w1.block (ilistBlock number)) (ilistEntry number)
        (-word super Superblock.inoFreelistStart) = w1.block (ilistBlock number) := by
      rw [inoGet_eq numbered room] at stored
      rw [same _ row,next,setWord_congr (y := entry) _ _ (by omega),← stored,setWord_word]
    rw [inoSet_eq numbered room1,own]
    simp [World.put,World.block]
  have back : setWord (setWord super Superblock.inoFreelistStart number) Superblock.freeInodes
      (word (setWord super Superblock.inoFreelistStart number) Superblock.freeInodes + 1) =
      w.block 0 := by
    have count := wrap_emod (word (w.block 0) Superblock.freeInodes - 1)
    have front : setWord super Superblock.inoFreelistStart number =
        setWord (w.block 0) Superblock.freeInodes (word (w.block 0) Superblock.freeInodes - 1) := by
      rw [← made,setWord_comm _ Superblock.freeInodes Superblock.inoFreelistStart _ _ (by decide),
        word_setWord_ne _ _ _ _ (by decide),setWord_setWord _ Superblock.inoFreelistStart,← start,
        setWord_word]
    rw [front,word_setWord_self,setWord_setWord,
      setWord_congr (y := word (w.block 0) Superblock.freeInodes) _ _ (by omega),setWord_word]
  rw [taken]
  simp only [inoFree,diskRead_zero _ (show 0 < w1.nblocks by omega),zero,linked,back]
  rw [diskWrite_zero _ (by omega),shape]
  simp [World.put,World.block]

theorem inoSet_spec (h : InodeList w ilistSize numbers taken) (room : ilistSize < w.nblocks)
    (numbered : Numbered ilistSize number) (fresh : number ∉ numbers) {b : Int} (positive : 0 < b)
    (fits : Fits b) :
    InodeList (inoSet w number b) ilistSize numbers fun n => taken n ∧ n ≠ number := by
  have others (n : Int) (numbered' : Numbered ilistSize n) (differ : n ≠ number) :
      inoGet (inoSet w number b) n = inoGet w n := inoGet_inoSet_ne numbered numbered' room differ b
  have low := ilistBlock_pos number
  have super : (inoSet w number b).block 0 = w.block 0 := by
    rw [inoSet_eq numbered room]
    exact put_block_ne _ _ _ (by omega) le_rfl (by omega)
  refine ⟨?_,by rw [super]; exact h.count,h.nodup,h.range,fun n numbered' => ?_⟩
  · rw [super]
    refine h.chain.congr fun n member => others n (h.range n member) ?_
    rintro rfl
    exact fresh member
  · by_cases same : n = number
    · subst same
      rw [inoGet_inoSet_self numbered room,wrap_of_fits fits]
      exact ⟨fun le => absurd le (not_le.mpr positive),fun taken => taken.elim
        (fun member => absurd member fresh) fun both => absurd rfl both.2⟩
    · rw [others n numbered' same,h.free n numbered']
      simp only [same,ne_eq,not_false_eq_true,and_true]

end

end CandyFs
