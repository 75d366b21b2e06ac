import CandyFs.ByteList
import CandyFs.InodeList
import CandyFs.Setsize
import CandyFs.FileBytes

/-! `inode_write`, `inode_read` and `inode_truncate` on one inode: which blocks they move,
and the bytes they leave when no block is missing.
-/
namespace CandyFs
open Bytes ByteList Finset ChildRange

variable [Geometry]

section
variable {w w' : World} {inode inode' : Block} {n a : Int}

theorem byte_top (top : n ≤ firstUnreachableBlock) (below : a < n * blocksize) : a < maxFilesize := by
  have large := blocksize_large
  have := Int.mul_le_mul_of_nonneg_right top (show 0 ≤ (blocksize : Int) by omega)
  simp only [maxFilesize,Nat.cast_mul]
  omega

theorem FileKept.byte (h : FileKept w w' inode inode' n) (top : n ≤ firstUnreachableBlock)
    (nonneg : 0 ≤ a) (below : a < n * blocksize) : fileByte w' inode' a = fileByte w inode a := by
  have large := blocksize_large
  obtain ⟨slot,bound,_,_,low,high⟩ := slot_of_byte nonneg (byte_top top below)
  obtain ⟨first,last⟩ := slot_bytes low high
  have inside := (Int.ediv_lt_iff_lt_mul (show (0 : Int) < blocksize by omega)).mpr below
  obtain ⟨ptr,block⟩ := h slot bound _ first last inside
  rw [fileByte_slot bound low high,fileByte_slot bound low high,byteAt,byteAt,ptr,block]

end

/-- The members of an inode that no operation on its contents changes. -/
def MetaMember (k : Nat) : Prop := k < 24 ∨ 96 ≤ k ∧ k < 104

/-- What an operation on the contents of the inode in block `b` does to the blocks. -/
structure Updated (w : World) (b : Int) (free : Multiset Int) (w' : World) : Prop where
  moved : ∃ free', Moved w w' free (b ::ₘ fileBlocks w (w.block b)) free'
    (b ::ₘ fileBlocks w' (w'.block b)) (w'.exhausted = false)
  sizeNonneg : 0 ≤ word (w'.block b) Inode.size
  sizeTop : word (w'.block b) Inode.size ≤ maxFilesize
  head : ∀ k, MetaMember k → w'.block b k = w.block b k
  mapped : FileMapped w (w.block b) (blockcount (word (w.block b) Inode.size)) →
    w'.exhausted = false → FileMapped w' (w'.block b) (blockcount (word (w'.block b) Inode.size))

/-- An inode whose size is that of a file, with its blocks in use. -/
structure Held (w : World) (inumber b : Int) (free : Multiset Int) : Prop where
  names : Names w inumber b
  listed : ∀ c ∈ free + (b ::ₘ fileBlocks w (w.block b)), ilistBlock inumber < c
  list : FreeSet w free
  owned : Owned w (free + (b ::ₘ fileBlocks w (w.block b)))
  sizeNonneg : 0 ≤ word (w.block b) Inode.size
  sizeTop : word (w.block b) Inode.size ≤ maxFilesize

section
variable {w w' w'' : World} {b inumber size : Int} {free : Multiset Int}

theorem Updated.refl (h : Held w inumber b free) : Updated w b free w :=
  ⟨⟨free,Moved.refl h.list⟩,h.sizeNonneg,h.sizeTop,fun _ _ => rfl,fun mapped _ => mapped⟩

theorem Resized.updated {r : Int × World} (h : Resized size w b free r) : Updated w b free r.2 where
  moved := h.moved.imp fun _ moved => moved.weaken .inl
  sizeNonneg := h.stored ▸ h.nonneg
  sizeTop := h.stored ▸ h.top
  head := fun k member => h.head k (by unfold MetaMember at member; omega)
    (by unfold MetaMember at member; unfold SizeMember; omega)
  mapped := fun mapped fine => by rw [h.stored]; exact h.mapped (h.safe mapped fine)

theorem Updated.held (h : Held w inumber b free) (u : Updated w b free w') :
    ∃ free', Held w' inumber b free' ∧ Moved w w' free (b ::ₘ fileBlocks w (w.block b)) free'
      (b ::ₘ fileBlocks w' (w'.block b)) (w'.exhausted = false) := by
  obtain ⟨free',moved⟩ := u.moved
  refine ⟨free',⟨⟨?_,h.names.low,?_,?_⟩,fun c member => h.listed c (Multiset.mem_of_le moved.blocks
    member),moved.list,moved.owned h.owned,u.sizeNonneg,u.sizeTop⟩,moved⟩
  · rw [← h.names.number]
    exact inoGet_frame moved.frame fun inside => lt_irrefl _ (h.listed _ inside)
  · rw [moved.frame.nblocks]
    exact h.names.high
  · rw [← h.names.magic]
    exact field_congr _ _ _ _ fun k low high => u.head k (.inr (by omega))

theorem Updated.trans (h : Held w inumber b free) (first : Updated w b free w')
    (second : ∀ free', Held w' inumber b free' → Updated w' b free' w'') : Updated w b free w'' := by
  obtain ⟨free',held,moved⟩ := first.held h
  have next := second free' held
  obtain ⟨free'',moved'⟩ := next.moved
  have calm : w''.exhausted = false → w'.exhausted = false := was_down moved'.frame.exhausted
  exact ⟨⟨free'',(moved.trans moved').weaken fun fine => ⟨calm fine,fine⟩⟩,next.sizeNonneg,
    next.sizeTop,fun k member => (next.head k member).trans (first.head k member),
    fun mapped fine => next.mapped (first.mapped mapped (calm fine)) fine⟩

theorem rewrite_spec (h : Held w inumber b free) (edit : Edit w w' (· ∈ fileLeaves w (w.block b)))
    (member : Nat) (stamp : 4 ≤ member ∧ member < 11) (ts : Timespec) (clock : Nat → Timespec) :
    ∃ w'', diskWrite { w' with clock := clock } (ulong b) (Inode.setTime (w.block b) member ts) = w'' ∧
      Updated w b free w'' ∧
      word (w''.block b) Inode.size = word (w.block b) Inode.size ∧
      (w''.exhausted = w.exhausted) ∧
      (∀ n, FileMapped w'' (w''.block b) n ↔ FileMapped w (w.block b) n) ∧
      (∀ n : Int, n ≤ firstUnreachableBlock → FileMapped w (w.block b) n → ∀ a, 0 ≤ a → a < n * blocksize →
        fileByte w'' (w''.block b) a = fileByte w' (w.block b) a) ∧ FreeSet w'' free := by
  have low := h.names.low
  have high := h.names.high
  rw [diskWrite_block _ (by omega) (by rw [edit.nblocks]; exact high)]
  have ownedFile : Owned w (fileBlocks w (w.block b)) := h.owned.mono
    ((Multiset.le_cons_self _ _).trans (Multiset.le_add_left _ _))
  have fresh : b ∉ fileBlocks w (w.block b) :=
    (Multiset.nodup_cons.mp (Multiset.nodup_add.mp h.owned.1).2.1).1
  have shape := edit.fileShape (n := 0) ownedFile
  obtain ⟨x,made⟩ : ∃ x, Inode.setTime (w.block b) member ts = x := ⟨_,rfl⟩
  have stamped (k : Nat) (other : k < 32 ∨ 96 ≤ k) : x k = w.block b k := by
    rw [← made,Inode.setTime,setWord_outside _ _ _ _ (by omega),setWord_outside _ _ _ _ (by omega)]
  have size : word x Inode.size = word (w.block b) Inode.size :=
    word_congr _ _ _ fun k _ below => stamped k (.inl (by simp only [Inode.size] at below; omega))
  have stored : ∃ w'', ({ w' with clock := clock } : World).put b x = w'' ∧
      Edit w' w'' (· = b) ∧ w''.block b = x :=
    ⟨_,rfl,⟨rfl,rfl,rfl,fun c low' other => put_block_ne _ _ _ (by omega) low' other⟩,
      put_block_self _ _ _⟩
  obtain ⟨w'',put,store,self⟩ := stored
  rw [made,put]
  have slots (slot : Nat) : slotPtr (w''.block b) slot = slotPtr (w.block b) slot := by
    rw [self]
    exact slotPtr_congr (fun k tail => stamped k (.inr (by omega))) slot
  have same : ∀ c ∈ fileBlocks w' (w.block b), w''.block c = w'.block c := by
    intro c inside
    rw [shape.1] at inside
    have positive := (ownedFile.2 c inside).1
    refine store.block c (by omega) ?_
    rintro rfl
    exact fresh inside
  have written : Edit w w'' (fun c => c = b ∨ c ∈ fileLeaves w (w.block b)) :=
    (edit.mono fun _ => .inr).trans (store.mono fun _ => .inl)
  have inUse : ∀ c, c = b ∨ c ∈ fileLeaves w (w.block b) → c ∈ b ::ₘ fileBlocks w (w.block b) := by
    rintro c (rfl | inside)
    · exact Multiset.mem_cons_self _ _
    · exact Multiset.mem_cons_of_mem (Multiset.mem_of_le fileLeaves_le inside)
  have moved : Moved w w'' free (b ::ₘ fileBlocks w (w.block b)) free
      (b ::ₘ fileBlocks w'' (w''.block b)) (w''.exhausted = false) :=
    written.moved h.list h.owned inUse (by rw [fileBlocks_congr slots same,shape.1])
  have mapped' (n : Int) : FileMapped w' (w.block b) n ↔ FileMapped w (w.block b) n :=
    (edit.fileShape ownedFile).2.2
  refine ⟨w'',rfl,⟨⟨free,moved⟩,?_,?_,?_,?_⟩,?_,written.exhausted,
    fun n => (fileMapped_frame_iff slots same).trans (mapped' n),?_,moved.list⟩
  · rw [self,size]
    exact h.sizeNonneg
  · rw [self,size]
    exact h.sizeTop
  · intro k meta'
    rw [self]
    exact stamped k (by unfold MetaMember at meta'; omega)
  · intro mapped _
    have sized : word (w''.block b) Inode.size = word (w.block b) Inode.size := by rw [self,size]
    rw [sized]
    exact fileMapped_frame slots same ((mapped' _).mpr mapped)
  · rw [self,size]
  · intro n top mapped a nonneg below
    exact (FileKept.frame slots same ((mapped' n).mpr mapped) le_rfl).byte top nonneg below

theorem Held.ownedFile (h : Held w inumber b free) : Owned w (fileBlocks w (w.block b)) :=
  h.owned.mono ((Multiset.le_cons_self _ _).trans (Multiset.le_add_left _ _))

theorem Held.count_top (h : Held w inumber b free) :
    blockcount (word (w.block b) Inode.size) ≤ firstUnreachableBlock :=
  blockcount_top h.sizeNonneg h.sizeTop

theorem writeRange_updated (h : Held w inumber b free) {pos zeroEndpos endpos : Int} (nonneg : 0 ≤ pos)
    (nonneg' : 0 ≤ zeroEndpos) (top : endpos ≤ maxFilesize) (data : Option Block) :
    Orderly w.exhausted (·.2.exhausted) (writeRange w b (w.block b) pos zeroEndpos endpos data) ∧
    ∀ r, writeRange w b (w.block b) pos zeroEndpos endpos data = .ok r → Updated w b free r.2 ∧
      (∀ n, FileMapped r.2 (r.2.block b) n ↔ FileMapped w (w.block b) n) ∧
      word (r.2.block b) Inode.size = word (w.block b) Inode.size := by
  obtain ⟨orderly,edited⟩ := writeLoop_edit nonneg nonneg' top data (endpos - pos).toNat w pos (-1)
    h.ownedFile le_rfl (by omega)
  unfold writeRange
  split
  · refine ⟨Orderly.ok id,fun r run => ?_⟩
    rw [Except.ok.injEq] at run
    subst run
    exact ⟨Updated.refl h,fun _ => Iff.rfl,rfl⟩
  · refine ⟨?_,fun r run => ?_⟩
    · refine orderly.bind fun loop _ => ?_
      have flag : (diskWrite (now loop.1).2 (ulong b) (Inode.setTime (w.block b) Inode.lastChange
        (now loop.1).1)).exhausted = loop.1.exhausted := by simp [now]
      dsimp only
      rw [flag]
      exact Orderly.check.bind fun _ _ => Orderly.check.bind fun _ _ => Orderly.ok fun raised => by
        simpa [now] using raised
    · obtain ⟨loop,ran,run⟩ := bind_ok.mp run
      obtain ⟨_,_,run⟩ := bind_ok.mp run
      obtain ⟨_,_,run⟩ := bind_ok.mp run
      rw [Except.ok.injEq] at run
      obtain ⟨w'',eq,updated,sized,_,mapped,_,_⟩ := rewrite_spec h (edited loop ran) Inode.lastChange
        (by decide) (now loop.1).1 (now loop.1).2.clock
      subst run
      exact eq ▸ ⟨updated,mapped,sized⟩

theorem writeRange_bytes (h : Held w inumber b free) {pos zeroEndpos endpos : Int} (nonneg : 0 ≤ pos)
    (zeros : pos ≤ zeroEndpos) (ends : zeroEndpos ≤ endpos) (proper : pos < endpos)
    (inside : endpos ≤ word (w.block b) Inode.size)
    (mapped : FileMapped w (w.block b) (blockcount (word (w.block b) Inode.size)))
    (data : Option Block) :
    ∃ w', writeRange w b (w.block b) pos zeroEndpos endpos data = .ok (endpos - zeroEndpos,w') ∧
      w'.exhausted = w.exhausted ∧
      word (w'.block b) Inode.size = word (w.block b) Inode.size ∧
      (∀ a, 0 ≤ a → a < word (w.block b) Inode.size → fileByte w' (w'.block b) a =
        if pos ≤ a ∧ a < endpos then
          if a < zeroEndpos then 0 else source data (a - zeroEndpos).toNat
        else fileByte w (w.block b) a) ∧ FreeSet w' free := by
  have room := le_blockcount h.sizeNonneg
  obtain ⟨w1,ran,bytes⟩ := writeLoop_bytes nonneg zeros ends h.count_top (by omega) data
    (endpos - pos).toNat w pos (-1) h.ownedFile mapped le_rfl proper.le (by omega)
    (fun _ => by
      split
      · exact .inl rfl
      · exact .inl (by omega)) (fun _ => .inl rfl)
  have edit := (writeLoop_edit nonneg (by omega) (by have := h.sizeTop; omega) data
    (endpos - pos).toNat w pos (-1) h.ownedFile le_rfl (by omega)).2 _ ran
  obtain ⟨w'',eq,_,size,calm,_,same,list⟩ := rewrite_spec h edit Inode.lastChange (by decide) (now w1).1
    (now w1).2.clock
  refine ⟨w'',?_,calm,size,fun a low high => ?_,list⟩
  · unfold writeRange
    rw [if_neg (by omega),ran,ok_bind]
    dsimp only
    rw [check_true rfl,ok_bind,check_true (by omega),ok_bind]
    exact congrArg (fun disk => Except.ok (endpos - zeroEndpos,disk)) eq
  · rw [same _ h.count_top mapped a low (by omega),bytes a low (by omega)]

/-- The contents of a file as a list of bytes. -/
def contents (w : World) (inode : Block) : List UInt8 :=
  (List.range (word inode Inode.size).toNat).map fun i : Nat => fileByte w inode i

/-- The first `n` bytes at the caller's pointer. -/
def supplied (data : Option Block) (n : Nat) : List UInt8 := (List.range n).map (source data)

theorem contents_eq {file : List UInt8} {inode : Block} (size : word inode Inode.size = file.length)
    (bytes : ∀ i < file.length, file[i]? = some (fileByte w inode i)) : contents w inode = file := by
  rw [contents,size]
  exact range_map_eq rfl bytes

theorem getElem?_contents {inode : Block} {i : Nat} (nonneg : 0 ≤ word inode Inode.size) :
    (contents w inode)[i]? =
      if (i : Int) < word inode Inode.size then some (fileByte w inode i) else none := by
  rw [contents,getElem?_range_map]
  exact if_congr (by omega) rfl rfl

theorem length_contents {inode : Block} (nonneg : 0 ≤ word inode Inode.size) :
    ((contents w inode).length : Int) = word inode Inode.size := by
  simp only [contents,List.length_map,List.length_range]
  omega

omit [Geometry] in
theorem length_supplied (data : Option Block) (n : Nat) : (supplied data n).length = n := by
  rw [supplied,List.length_map,List.length_range]

theorem contents_writeAt {inode inode' : Block} {start n : Int} {data : Option Block}
    (nonneg : 0 ≤ word inode Inode.size) (startNonneg : 0 ≤ start) (countNonneg : 0 ≤ n)
    (size : word inode' Inode.size = max (word inode Inode.size) (start + n))
    (bytes : ∀ a, 0 ≤ a → a < word inode' Inode.size → fileByte w' inode' a =
      if a < start then if a < word inode Inode.size then fileByte w inode a else 0
      else if a < start + n then source data (a - start).toNat else fileByte w inode a) :
    contents w' inode' = writeAt (contents w inode) start.toNat (supplied data n.toNat) := by
  have old := length_contents (w := w) nonneg
  refine contents_eq ?_ fun i inside => ?_
  · rw [length_writeAt,length_supplied]
    omega
  · rw [length_writeAt,length_supplied] at inside
    rw [getElem?_writeAt,getElem?_contents nonneg,length_supplied,bytes i (by omega) (by omega)]
    by_cases before : (i : Int) < start
    · rw [if_pos before,if_pos (by omega)]
      split <;> rfl
    · rw [if_neg before,if_neg (by omega)]
      by_cases written : (i : Int) < start + n
      · rw [if_pos written,if_pos (by omega),supplied,getElem?_range_map,if_pos (by omega)]
        exact congrArg (some ∘ source data) (by omega)
      · rw [if_neg written,if_neg (by omega),if_pos (by omega)]

/-- Bytes inside both the old and the new size survive an `inode_setsize` that loses nothing. -/
theorem Resized.byte_safe {r : Int × World} (resized : Resized size w b free r)
    (h : Held w inumber b free) (safe : ResizeSafe size w (w.block b) (blockcount r.1)) {a : Int}
    (nonneg : 0 ≤ a) (old : a < word (w.block b) Inode.size)
    (new : a < r.1) : fileByte r.2 (r.2.block b) a = fileByte w (w.block b) a := by
  have oldRoom := le_blockcount h.sizeNonneg
  have newRoom := le_blockcount resized.nonneg
  have top := h.count_top
  refine (resized.kept safe).byte ((min_le_left _ _).trans top) nonneg ?_
  rcases min_choice (blockcount (word (w.block b) Inode.size)) (blockcount r.1) with eq | eq <;>
    rw [eq] <;> omega

theorem Resized.byte {r : Int × World} (resized : Resized size w b free r)
    (h : Held w inumber b free)
    (mapped : FileMapped w (w.block b) (blockcount (word (w.block b) Inode.size)))
    (calm : r.2.exhausted = false) {a : Int} (nonneg : 0 ≤ a) (old : a < word (w.block b) Inode.size)
    (new : a < r.1) : fileByte r.2 (r.2.block b) a = fileByte w (w.block b) a :=
  resized.byte_safe h (resized.safe mapped calm) nonneg old new

theorem writeExtended_spec (h : Held w inumber b free) {start pos end' newsize : Int}
    (buffer : Block) (data : Option Block) (nonneg : 0 ≤ start)
    (clipped : pos = if start > word (w.block b) Inode.size then word (w.block b) Inode.size else start)
    (more : word (w.block b) Inode.size < end') (resized : Resized end' w b free (newsize,w')) :
    Orderly w'.exhausted (·.2.exhausted) (writeExtended w' b buffer pos start end' data) ∧
    (∀ r, writeExtended w' b buffer pos start end' data = .ok r → Updated w b free r.2) ∧
    (FileMapped w (w.block b) (blockcount (word (w.block b) Inode.size)) →
      start ≤ end' → end' ≤ maxFilesize → w'.exhausted = false → Delivers (·.2.exhausted) (fun r => r.1 = end' - start ∧
        contents r.2 (r.2.block b) =
          writeAt (contents w (w.block b)) start.toNat (supplied data (end' - start).toNat))
        (writeExtended w' b buffer pos start end' data)) := by
  have oldNonneg := h.sizeNonneg
  have updated : Updated w b free w' := resized.updated
  obtain ⟨free',held,_⟩ := updated.held h
  have names := held.names
  have low := names.low
  have newTop := held.sizeTop
  have stored : word (w'.block b) Inode.size = newsize := resized.stored
  have upper : newsize ≤ end' := resized.upper
  have posNonneg : 0 ≤ pos := by split at clipped <;> omega
  have posLe : pos ≤ start := by split at clipped <;> omega
  have later (r : Int × World) (ran : ∀ free', Held w' inumber b free' → Updated w' b free' r.2) :
      Updated w b free r.2 := updated.trans h ran
  simp only [writeExtended,diskRead_block buffer (by omega) names.high,stored,check_true upper,ok_bind]
  by_cases short : end' > newsize
  · rw [if_pos short]
    have range (free' : Multiset Int) (held : Held w' inumber b free') :=
      writeRange_updated held posNonneg
        (show 0 ≤ if start < newsize then newsize else start by split <;> omega)
        (show newsize ≤ maxFilesize by omega) data
    refine ⟨(range _ held).1,fun r ran => later r fun _ held => ((range _ held).2 r ran).1,
      fun _ _ fits calm => ?_⟩
    have : newsize = min end' maxFilesize := resized.exact calm
    omega
  · rw [if_neg short]
    have range (free' : Multiset Int) (held : Held w' inumber b free') :=
      writeRange_updated held posNonneg nonneg (show end' ≤ maxFilesize by omega) data
    refine ⟨(range _ held).1,fun r ran => later r fun _ held => ((range _ held).2 r ran).1,
      fun mapped proper _ calm => ?_⟩
    obtain ⟨w'',ran,_,size',bytes,_⟩ := writeRange_bytes held posNonneg posLe proper
      (by split at clipped <;> omega) (by omega) (updated.mapped mapped calm) data
    rw [ran]
    refine Delivers.ok fun _ => ?_
    dsimp only
    refine ⟨rfl,contents_writeAt oldNonneg nonneg (by omega) (by omega) fun a low high => ?_⟩
    have kept : a < word (w.block b) Inode.size → a < newsize →
        fileByte w' (w'.block b) a = fileByte w (w.block b) a := resized.byte h mapped calm low
    rw [bytes a low (by omega)]
    by_cases before : a < start
    · rw [if_pos before]
      by_cases old : a < word (w.block b) Inode.size
      · rw [if_pos old,if_neg (by split at clipped <;> omega),kept old (by omega),if_pos before]
      · rw [if_neg old,if_pos (by split at clipped <;> omega),if_pos before]
    · rw [if_neg before,if_pos (by omega),if_neg before,if_pos (by omega)]

theorem inodeWrite_spec (h : Held w inumber b free) {pos start : Int} (data : Option Block)
    (started : start = if pos = -1 then word (w.block b) Inode.size else pos) (nonneg : 0 ≤ start)
    (sizeNonneg : 0 ≤ size) :
    Orderly w.exhausted (·.2.exhausted) (inodeWrite w inumber pos data size) ∧
    (∀ r, inodeWrite w inumber pos data size = .ok r → Updated w b free r.2) ∧
    (FileMapped w (w.block b) (blockcount (word (w.block b) Inode.size)) →
      start + size ≤ maxFilesize → Delivers (·.2.exhausted) (fun r => r.1 = size ∧
        contents r.2 (r.2.block b) =
          writeAt (contents w (w.block b)) start.toNat (supplied data size.toNat))
        (inodeWrite w inumber pos data size)) := by
  have oldNonneg := h.sizeNonneg
  have oldTop := h.sizeTop
  have top := maxFilesize_lt
  have sum : start + size ≤ maxFilesize → wrap (start + size) = start + size := fun fits =>
    wrap_of_fits ⟨by omega,by omega⟩
  simp only [inodeWrite,h.names.load,← started]
  generalize wrap (start + size) = finish at sum ⊢
  by_cases more : finish > word (w.block b) Inode.size
  · rw [if_pos more]
    obtain ⟨total,orderly,resized⟩ := inodeSetsize_spec h.names h.list h.owned oldNonneg oldTop
      (show 0 ≤ finish by omega)
    have rest (newsize : Int) (w1 : World)
        (ran : inodeSetsize w inumber finish = .ok (newsize,w1)) :=
      writeExtended_spec h (w.block b) data nonneg rfl more (resized _ ran)
    have proceeds (newsize : Int) (w1 : World)
        (ran : inodeSetsize w inumber finish = .ok (newsize,w1)) : ¬newsize < 0 :=
      not_lt.mpr (resized _ ran).nonneg
    refine ⟨?_,fun r ran => ?_,fun mapped fits => ?_⟩
    · refine orderly.bind ?_
      rintro ⟨newsize,w1⟩ ran
      dsimp only
      rw [if_neg (proceeds newsize w1 ran)]
      exact (rest newsize w1 ran).1
    · obtain ⟨⟨newsize,w1⟩,extended,ran⟩ := bind_ok.mp ran
      dsimp only at ran
      rw [if_neg (proceeds newsize w1 extended)] at ran
      exact (rest newsize w1 extended).2.1 r ran
    · obtain rfl := sum fits
      have began : Delivers (·.2.exhausted) (fun _ => True) (inodeSetsize w inumber (start + size)) :=
        Delivers.start (total mapped)
      refine began.bind ?_ ?_
      · rintro ⟨newsize,w1⟩ ran
        dsimp only
        rw [if_neg (proceeds newsize w1 ran)]
        exact (rest newsize w1 ran).1
      · rintro ⟨newsize,w1⟩ ran calm _
        dsimp only
        rw [if_neg (proceeds newsize w1 ran)]
        have written := (rest newsize w1 ran).2.2 mapped (by omega) fits calm
        rwa [show start + size - start = size by omega] at written
  · rw [if_neg more]
    obtain ⟨orderly,updated⟩ := writeRange_updated h nonneg nonneg
      (show finish ≤ maxFilesize by omega) data
    refine ⟨orderly,fun r ran => (updated r ran).1,fun mapped fits => ?_⟩
    obtain rfl := sum fits
    by_cases empty : size = 0
    · rw [writeRange,if_pos (by omega)]
      refine Delivers.ok fun _ => ?_
      dsimp only
      refine ⟨empty.symm,contents_writeAt oldNonneg nonneg sizeNonneg (by omega)
        fun a low high => ?_⟩
      by_cases before : a < start
      · rw [if_pos before,if_pos high]
      · rw [if_neg before,if_neg (by omega)]
    · obtain ⟨w',ran,_,size',bytes,_⟩ := writeRange_bytes h nonneg le_rfl
        (show start ≤ start + size by omega) (by omega) (by omega) mapped data
      rw [ran]
      refine Delivers.ok fun _ => ?_
      dsimp only
      refine ⟨by omega,contents_writeAt oldNonneg nonneg sizeNonneg (by omega)
        fun a low high => ?_⟩
      rw [bytes a low (by omega)]
      by_cases before : a < start
      · rw [if_neg (by omega),if_pos before,if_pos (by omega)]
      · rw [if_neg before,if_neg before]
        exact if_congr (by omega) rfl rfl

theorem inodeTruncate_spec (h : Held w inumber b free) (nonneg : 0 ≤ size) :
    Orderly w.exhausted (·.2.exhausted) (inodeTruncate w inumber size) ∧
    (∀ r, inodeTruncate w inumber size = .ok r → Updated w b free r.2) ∧
    (FileMapped w (w.block b) (blockcount (word (w.block b) Inode.size)) →
      Delivers (·.2.exhausted) (fun r => r.1 = min size maxFilesize ∧
        contents r.2 (r.2.block b) = resize (contents w (w.block b)) (min size maxFilesize).toNat)
        (inodeTruncate w inumber size)) := by
  have oldNonneg := h.sizeNonneg
  obtain ⟨total,orderly,resized⟩ := inodeSetsize_spec h.names h.list h.owned oldNonneg h.sizeTop nonneg
  have write (newsize : Int) (w1 : World) (ran : inodeSetsize w inumber size = .ok (newsize,w1))
      (grew : newsize > word (w.block b) Inode.size) (free' : Multiset Int)
      (held : Held w1 inumber b free') :=
    have place : word (w.block b) Inode.size = if word (w.block b) Inode.size = -1
        then word (w1.block b) Inode.size else word (w.block b) Inode.size := by
      rw [if_neg (by omega)]
    inodeWrite_spec held none place oldNonneg
      (show 0 ≤ newsize - word (w.block b) Inode.size by omega)
  simp only [inodeTruncate,h.names.load]
  refine ⟨?_,fun r ran => ?_,fun mapped => ?_⟩
  · refine orderly.bind ?_
    rintro ⟨newsize,w1⟩ ran
    dsimp only
    split
    · rename_i grew
      obtain ⟨free',held,_⟩ := (resized _ ran).updated.held h
      exact (write newsize w1 ran grew free' held).1.bind fun _ _ => Orderly.ok id
    · exact Orderly.ok id
  · obtain ⟨⟨newsize,w1⟩,sized,ran⟩ := bind_ok.mp ran
    dsimp only at ran
    split at ran
    · rename_i grew
      obtain ⟨⟨count,w2⟩,wrote,ran⟩ := bind_ok.mp ran
      rw [Except.ok.injEq] at ran
      subst ran
      exact (resized _ sized).updated.trans h fun free' held =>
        (write newsize w1 sized grew free' held).2.1 (count,w2) wrote
    · rw [Except.ok.injEq] at ran
      subst ran
      exact (resized _ sized).updated
  · have began : Delivers (·.2.exhausted) (fun _ => True) (inodeSetsize w inumber size) :=
      Delivers.start (total mapped)
    have oldLength := length_contents (w := w) oldNonneg
    have pieces (newsize : Int) (w1 : World) (ran : inodeSetsize w inumber size = .ok (newsize,w1))
        (calm : w1.exhausted = false) : newsize = min size maxFilesize ∧
        word (w1.block b) Inode.size = newsize ∧ FileMapped w1 (w1.block b) (blockcount newsize) ∧
        ∀ a, 0 ≤ a → a < word (w.block b) Inode.size → a < newsize →
          fileByte w1 (w1.block b) a = fileByte w (w.block b) a := by
      have made := resized _ ran
      exact ⟨made.exact calm,made.stored,made.mapped (made.safe mapped calm),fun a => made.byte h mapped calm⟩
    refine began.bind ?_ ?_
    · rintro ⟨newsize,w1⟩ ran
      dsimp only
      split
      · rename_i grew
        obtain ⟨free',held,_⟩ := (resized _ ran).updated.held h
        exact (write newsize w1 ran grew free' held).1.bind fun _ _ => Orderly.ok id
      · exact Orderly.ok id
    · rintro ⟨newsize,w1⟩ ran calm _
      obtain ⟨exact',stored,mapped',kept⟩ := pieces newsize w1 ran calm
      dsimp only
      split
      · rename_i grew
        obtain ⟨free',held,_⟩ := (resized _ ran).updated.held h
        obtain ⟨orderly',_,delivers⟩ := write newsize w1 ran grew free' held
        refine Delivers.bind (delivers ?_ (by omega)) ?_ ?_
        · rw [stored]
          exact mapped'
        · exact fun _ _ => Orderly.ok id
        · rintro ⟨count,w2⟩ _ _ ⟨_,wrote⟩
          refine Delivers.ok fun _ => ⟨exact',?_⟩
          dsimp only at wrote ⊢
          rw [wrote,← exact']
          apply List.ext_getElem?
          intro i
          rw [getElem?_writeAt,getElem?_resize,length_supplied,
            getElem?_contents (by omega),getElem?_contents oldNonneg,stored]
          by_cases old : (i : Int) < word (w.block b) Inode.size
          · rw [if_pos (by omega),if_pos (by omega),if_pos (by omega),if_pos old,
              kept i (by omega) old (by omega)]
          · rw [if_neg (by omega),if_neg old]
            by_cases new : (i : Int) < newsize
            · rw [if_pos (by omega),if_pos (by omega),supplied,getElem?_range_map,
                if_pos (by omega)]
              rfl
            · rw [if_neg (by omega),if_neg (by omega),if_neg (by omega)]
      · refine Delivers.ok fun _ => ⟨exact',?_⟩
        dsimp only
        rw [← exact']
        refine contents_eq (by rw [length_resize]; omega) fun i inside => ?_
        rw [length_resize] at inside
        rw [getElem?_resize,if_pos inside,getElem?_contents oldNonneg,if_pos (by omega),
          kept i (by omega) (by omega) (by omega)]
        rfl

/-- The time of the last access is all that `inode_read` changes, whatever the range. -/
theorem inodeRead_updated (h : Held w inumber b free) {pos : Int} (data : Block)
    (r : Int × Block × World) (ran : inodeRead w inumber pos data size = .ok r) :
    Updated w b free r.2.2 ∧ r.2.2.exhausted = w.exhausted ∧
      (FileMapped w (w.block b) (blockcount (word (w.block b) Inode.size)) →
        FileMapped r.2.2 (r.2.2.block b) (blockcount (word (r.2.2.block b) Inode.size)) ∧
        contents r.2.2 (r.2.2.block b) = contents w (w.block b)) ∧ FreeSet r.2.2 free := by
  simp only [inodeRead,h.names.load] at ran
  generalize (if wrap (pos + size) > word (w.block b) Inode.size then word (w.block b) Inode.size
    else wrap (pos + size)) = finish at ran
  split at ran
  · rw [Except.ok.injEq] at ran
    subst ran
    exact ⟨Updated.refl h,rfl,fun mapped => ⟨mapped,rfl⟩,h.list⟩
  · obtain ⟨⟨w1,data',c⟩,looped,ran⟩ := bind_ok.mp ran
    obtain ⟨_,_,ran⟩ := bind_ok.mp ran
    obtain rfl : w1 = w := readLoop_disk _ _ _ _ _ _ looped
    obtain ⟨w'',eq,updated,sized,calm,shape,same,list⟩ := rewrite_spec h (Edit.refl w1 _) Inode.lastAccess
      (by decide) (now w1).1 (now w1).2.clock
    rw [Except.ok.injEq] at ran
    subst ran
    simp only [now] at eq ⊢
    rw [eq]
    refine ⟨updated,calm,fun mapped => ⟨?_,contents_eq ?_ fun i inside => ?_⟩,list⟩
    · rw [sized]
      exact (shape _).mpr mapped
    · rw [sized,length_contents h.sizeNonneg]
    · have room := le_blockcount h.sizeNonneg
      have length := length_contents (w := w1) h.sizeNonneg
      rw [same _ h.count_top mapped i (by omega) (by omega),getElem?_contents h.sizeNonneg,
        if_pos (by omega)]

theorem inodeRead_orderly (h : Held w inumber b free) {pos : Int} (nonneg : 0 ≤ pos) (data : Block) :
    Orderly w.exhausted (·.2.2.exhausted) (inodeRead w inumber pos data size) := by
  have top := h.sizeTop
  simp only [inodeRead,h.names.load]
  obtain ⟨finish,made⟩ : ∃ finish, (if wrap (pos + size) > word (w.block b) Inode.size
    then word (w.block b) Inode.size else wrap (pos + size)) = finish := ⟨_,rfl⟩
  rw [made]
  have short : finish ≤ maxFilesize := by split at made <;> omega
  split
  · exact Orderly.ok id
  · refine (readLoop_orderly nonneg short _ w data pos (-1) h.ownedFile le_rfl (by omega)).bind ?_
    rintro ⟨w1,data',c⟩ _
    dsimp only
    have flag : (diskWrite (now w1).2 (ulong b) (Inode.setTime (w.block b) Inode.lastAccess
      (now w1).1)).exhausted = w1.exhausted := by simp [now]
    rw [flag]
    exact Orderly.check.bind fun _ _ => Orderly.ok fun raised => by simpa [now] using raised

theorem inodeRead_wrapped (h : Held w inumber b free) {pos : Int} (nonneg : 0 ≤ pos)
    (sizeNonneg : 0 ≤ size) (posTop : pos < 2 ^ 63) (sizeTop : size < 2 ^ 63) (past : 2 ^ 63 ≤ pos + size)
    (data : Block) : inodeRead w inumber pos data size = .ok (0,data,w) := by
  have lenNonneg := h.sizeNonneg
  have sum : wrap (pos + size) = pos + size - 2 ^ 64 := by
    rw [wrap_add nonneg sizeNonneg posTop sizeTop,if_neg (by omega)]
  simp only [inodeRead,h.names.load]
  rw [sum,if_neg (show ¬pos + size - 2 ^ 64 > word (w.block b) Inode.size by omega),
    if_pos (show pos + size - 2 ^ 64 ≤ pos by omega)]

/-- The bytes and the count that `inode_read` hands over, unless the end of the range is past the
greatest `off_t`. -/
theorem inodeRead_bytes (h : Held w inumber b free) {pos : Int} (nonneg : 0 ≤ pos) (data : Block)
    (sum : Fits (pos + size) ∨ word (w.block b) Inode.size ≤ pos)
    (mapped : FileMapped w (w.block b) (blockcount (word (w.block b) Inode.size))) :
    ∃ count data' w', inodeRead w inumber pos data size = .ok (count,data',w') ∧
      count = (readAt (contents w (w.block b)) pos.toNat size.toNat).length ∧
      supplied (some data') count.toNat = readAt (contents w (w.block b)) pos.toNat size.toNat ∧
      ∀ k, count ≤ (k : Nat) → data' k = data k := by
  have oldNonneg := h.sizeNonneg
  have length := length_contents (w := w) oldNonneg
  have room := le_blockcount oldNonneg
  simp only [inodeRead,h.names.load]
  have sum : wrap (pos + size) = pos + size ∨ word (w.block b) Inode.size ≤ pos := sum.imp_left wrap_of_fits
  obtain ⟨finish,made⟩ : ∃ finish, (if wrap (pos + size) > word (w.block b) Inode.size
    then word (w.block b) Inode.size else wrap (pos + size)) = finish := ⟨_,rfl⟩
  rw [made]
  have short : finish ≤ word (w.block b) Inode.size := by split at made <;> omega
  have count : ((readAt (contents w (w.block b)) pos.toNat size.toNat).length : Int) =
      max (finish - pos) 0 := by
    rw [length_readAt]
    split at made <;> omega
  by_cases empty : finish ≤ pos
  · rw [if_pos empty]
    rw [max_eq_right (by omega)] at count
    refine ⟨0,data,w,rfl,count.symm,?_,fun _ _ => rfl⟩
    exact (List.length_eq_zero_iff.mp (by exact_mod_cast count)).symm
  · rw [if_neg empty]
    rw [max_eq_left (by omega)] at count
    obtain ⟨data',ran,copied⟩ := readLoop_bytes nonneg h.count_top
      (show finish ≤ blockcount (word (w.block b) Inode.size) * blocksize by omega)
      (finish - pos).toNat w data pos (-1) h.ownedFile mapped le_rfl (by omega) (by omega)
      (fun _ => .inl rfl) fun _ => .inl rfl
    rw [ran,ok_bind]
    dsimp only
    rw [check_true rfl,ok_bind]
    refine ⟨finish - pos,data',_,rfl,count.symm,?_,fun k beyond => ?_⟩
    · refine range_map_eq (by omega) fun i inside => ?_
      have within : i < size.toNat := by split at made <;> omega
      rw [getElem?_readAt,if_pos within,getElem?_contents oldNonneg,if_pos (by omega)]
      refine congrArg some (Eq.symm ((copied i).trans ?_))
      rw [if_pos (by omega)]
      exact congrArg (fileByte w (w.block b)) (by omega)
    · rw [copied,if_neg (by omega)]

end

end CandyFs
