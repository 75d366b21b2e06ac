import CandyFs.ChildRange

/-! The constants of the on-disk format and the conversions between block indexes,
block slots and levels of indirection. Everything is stated for every `BLOCKSIZE` that
passes the static assertions of the sources and keeps `MAX_FILESIZE` in a `long`: the multiples
of 8 from 344 on, as far as the last goes.
-/
namespace CandyFs
open ChildRange

/-- `BLOCKSIZE`, with what restricts it: an `inode_t` fills a block, the names of a
`dir_map_block_t` have room for a longest name, and `MAX_FILESIZE` is a `long`. -/
class Geometry where
  blocksize : Nat
  aligned : 8 ∣ blocksize
  namespaceFits : 255 < blocksize / 4 * 3
  filesizeFits : ((blocksize - 104) / 8 - 3 + blocksize / 8 + blocksize / 8 * (blocksize / 8) +
    blocksize / 8 * (blocksize / 8) * (blocksize / 8)) * blocksize < 2 ^ 63

/-- The geometry of the sources, with `BLOCKSIZE` 4096. -/
@[reducible] def Geometry.candyfs : Geometry := ⟨4096,by decide,by decide,by decide⟩

/-- A small one, for disks that can be computed with. -/
@[reducible] def Geometry.small : Geometry := ⟨352,by decide,by decide,by decide⟩

variable [Geometry]

abbrev blocksize : Nat := Geometry.blocksize

def singleIndirectCount : Nat := blocksize / 8
def doubleIndirectCount : Nat := singleIndirectCount * singleIndirectCount
def tripleIndirectCount : Nat := singleIndirectCount * singleIndirectCount * singleIndirectCount

/-- `sizeof(struct { INODE_HEAD })` is 104. -/
def numBlockSlots : Nat := (blocksize - 104) / 8

abbrev numSingleIndirectSlots : Nat := 1
abbrev numDoubleIndirectSlots : Nat := 1
abbrev numTripleIndirectSlots : Nat := 1
def numDirectSlots : Nat :=
  numBlockSlots - numSingleIndirectSlots - numDoubleIndirectSlots - numTripleIndirectSlots

def firstSingleIndirectSlot : Nat := numDirectSlots
def firstDoubleIndirectSlot : Nat := firstSingleIndirectSlot + numSingleIndirectSlots
def firstTripleIndirectSlot : Nat := firstDoubleIndirectSlot + numDoubleIndirectSlots
def firstUnreachableSlot : Nat := firstTripleIndirectSlot + numTripleIndirectSlots

def firstSingleIndirectBlock : Nat := numDirectSlots
def firstDoubleIndirectBlock : Nat := firstSingleIndirectBlock + singleIndirectCount
def firstTripleIndirectBlock : Nat := firstDoubleIndirectBlock + doubleIndirectCount
def firstUnreachableBlock : Nat := firstTripleIndirectBlock + tripleIndirectCount

def maxFilesize : Nat := firstUnreachableBlock * blocksize

def offset2blockidx (off : Int) : Int := off.tdiv blocksize

def indirectionLevel (blockidx : Int) : Int :=
  if blockidx < firstSingleIndirectBlock then 0
  else if blockidx < firstDoubleIndirectBlock then 1
  else if blockidx < firstTripleIndirectBlock then 2
  else if blockidx < firstUnreachableBlock then 3
  else -1

def blockslotIndirectionLevel (blockslot : Int) : Int :=
  if blockslot < firstSingleIndirectSlot then 0
  else if blockslot < firstDoubleIndirectSlot then 1
  else if blockslot < firstTripleIndirectSlot then 2
  else if blockslot < firstUnreachableSlot then 3
  else -1

def indirectCount : Nat → Nat
  | 0 => 1
  | 1 => singleIndirectCount
  | 2 => doubleIndirectCount
  | 3 => tripleIndirectCount
  | _ => 0

def blockidx2blockslot (blockidx : Int) : Int :=
  match indirectionLevel blockidx with
  | 0 => blockidx
  | 1 => firstSingleIndirectSlot + (blockidx - firstSingleIndirectBlock).tdiv singleIndirectCount
  | 2 => firstDoubleIndirectSlot + (blockidx - firstDoubleIndirectBlock).tdiv doubleIndirectCount
  | 3 => firstTripleIndirectSlot + (blockidx - firstTripleIndirectBlock).tdiv tripleIndirectCount
  | _ => -1

def blockslot2firstblockidx (blockslot : Int) : Int :=
  match blockslotIndirectionLevel blockslot with
  | 0 => blockslot
  | 1 => firstSingleIndirectBlock + (blockslot - firstSingleIndirectSlot) * singleIndirectCount
  | 2 => firstDoubleIndirectBlock + (blockslot - firstDoubleIndirectSlot) * doubleIndirectCount
  | 3 => firstTripleIndirectBlock + (blockslot - firstTripleIndirectSlot) * tripleIndirectCount
  | _ => -1

theorem blocksize_large : 344 ≤ blocksize := by
  have divides := Geometry.aligned
  have names := Geometry.namespaceFits
  simp only [blocksize]
  omega

theorem blocksize_words : blocksize = 8 * singleIndirectCount := by
  have divides := Geometry.aligned
  simp only [blocksize,singleIndirectCount]
  omega

theorem singleIndirectCount_large : 43 ≤ singleIndirectCount := by
  have large := blocksize_large
  have words := blocksize_words
  omega

theorem numBlockSlots_eq : numBlockSlots + 13 = singleIndirectCount := by
  have large := blocksize_large
  have words := blocksize_words
  unfold numBlockSlots
  omega

theorem numDirectSlots_eq : numDirectSlots + 16 = singleIndirectCount := by
  have slots := numBlockSlots_eq
  have large := singleIndirectCount_large
  simp only [numDirectSlots,numSingleIndirectSlots,numDoubleIndirectSlots,numTripleIndirectSlots]
  omega

theorem firstUnreachableSlot_eq : firstUnreachableSlot = numBlockSlots := by
  have slots := numBlockSlots_eq
  have direct := numDirectSlots_eq
  simp only [firstUnreachableSlot,firstTripleIndirectSlot,firstDoubleIndirectSlot,
    firstSingleIndirectSlot,numSingleIndirectSlots,numDoubleIndirectSlots,numTripleIndirectSlots]
  omega

theorem maxFilesize_lt : maxFilesize < 2 ^ 63 := by
  have fits := Geometry.filesizeFits
  simp only [maxFilesize,firstUnreachableBlock,firstTripleIndirectBlock,firstDoubleIndirectBlock,
    firstSingleIndirectBlock,numDirectSlots,numBlockSlots,tripleIndirectCount,doubleIndirectCount,
    singleIndirectCount,blocksize,Nat.sub_sub]
  exact fits

theorem indirectCount_pos {level : Nat} (bound : level ≤ 3) : 0 < indirectCount level := by
  have large := singleIndirectCount_large
  have single : 0 < singleIndirectCount := by omega
  match level,bound with
  | 0,_ => exact Nat.one_pos
  | 1,_ => exact single
  | 2,_ => exact Nat.mul_pos single single
  | 3,_ => exact Nat.mul_pos (Nat.mul_pos single single) single

theorem indirectCount_succ {level : Nat} (bound : level < 3) :
    indirectCount (level + 1) = singleIndirectCount * indirectCount level := by
  match level,bound with
  | 0,_ => simp [indirectCount]
  | 1,_ => rfl
  | 2,_ => simp [indirectCount,doubleIndirectCount,tripleIndirectCount,Nat.mul_assoc]

/-- The first block index a slot covers. -/
abbrev slotStart (slot : Nat) : Int := blockslot2firstblockidx slot

def slotLevel (slot : Nat) : Nat := (blockslotIndirectionLevel slot).toNat

/-- The number of block indexes a slot covers. -/
def slotSpan (slot : Nat) : Nat := indirectCount (slotLevel slot)

private theorem counts_pos :
    0 < singleIndirectCount ∧ 0 < doubleIndirectCount ∧ 0 < tripleIndirectCount :=
  ⟨indirectCount_pos (show 1 ≤ 3 by omega),indirectCount_pos (show 2 ≤ 3 by omega),
    indirectCount_pos (show 3 ≤ 3 by omega)⟩

theorem slotLevel_le (slot : Nat) : slotLevel slot ≤ 3 := by
  unfold slotLevel blockslotIndirectionLevel
  split_ifs <;> decide

theorem slotSpan_pos (slot : Nat) : 0 < slotSpan slot := indirectCount_pos (slotLevel_le slot)

theorem slot_cases {slot : Nat} (bound : slot < numBlockSlots) :
    (slot < numDirectSlots ∧ slotLevel slot = 0 ∧ slotStart slot = slot) ∨
    (slot = numDirectSlots ∧ slotLevel slot = 1 ∧ slotStart slot = firstSingleIndirectBlock) ∨
    (slot = numDirectSlots + 1 ∧ slotLevel slot = 2 ∧ slotStart slot = firstDoubleIndirectBlock) ∨
    (slot = numDirectSlots + 2 ∧ slotLevel slot = 3 ∧ slotStart slot = firstTripleIndirectBlock) := by
  have all := firstUnreachableSlot_eq
  simp only [firstUnreachableSlot,firstTripleIndirectSlot,firstDoubleIndirectSlot,
    firstSingleIndirectSlot,numSingleIndirectSlots,numDoubleIndirectSlots,
    numTripleIndirectSlots] at all
  have chain : blockslotIndirectionLevel slot =
      if slot < numDirectSlots then 0 else if slot < numDirectSlots + 1 then 1
      else if slot < numDirectSlots + 1 + 1 then 2
      else if slot < numDirectSlots + 1 + 1 + 1 then 3 else -1 := by
    simp only [blockslotIndirectionLevel,firstUnreachableSlot,firstTripleIndirectSlot,
      firstDoubleIndirectSlot,firstSingleIndirectSlot,Nat.cast_lt]
  by_cases direct : slot < numDirectSlots
  · rw [if_pos direct] at chain
    exact .inl ⟨direct,by rw [slotLevel,chain]; rfl,by simp only [slotStart,blockslot2firstblockidx,chain]⟩
  rw [if_neg direct] at chain
  by_cases single : slot = numDirectSlots
  · rw [if_pos (by omega)] at chain
    exact .inr (.inl ⟨single,by rw [slotLevel,chain]; rfl,by
      simp only [slotStart,blockslot2firstblockidx,chain]
      simp [firstSingleIndirectSlot,single]⟩)
  rw [if_neg (by omega)] at chain
  by_cases double : slot = numDirectSlots + 1
  · rw [if_pos (by omega)] at chain
    exact .inr (.inr (.inl ⟨double,by rw [slotLevel,chain]; rfl,by
      simp only [slotStart,blockslot2firstblockidx,chain]
      simp [firstDoubleIndirectSlot,firstSingleIndirectSlot,double]⟩))
  rw [if_neg (by omega),if_pos (by omega)] at chain
  have triple : slot = numDirectSlots + 1 + 1 := by omega
  exact .inr (.inr (.inr ⟨triple,by rw [slotLevel,chain]; rfl,by
    simp only [slotStart,blockslot2firstblockidx,chain]
    simp [firstTripleIndirectSlot,firstDoubleIndirectSlot,firstSingleIndirectSlot,triple]⟩))

theorem slotStart_zero : slotStart 0 = 0 := by
  have direct := numDirectSlots_eq
  have large := singleIndirectCount_large
  have slots := numBlockSlots_eq
  rcases slot_cases (show 0 < numBlockSlots by omega) with ⟨_,_,start⟩ | ⟨h,_⟩ | ⟨h,_⟩ | ⟨h,_⟩
  · simpa using start
  all_goals omega

theorem slotStart_succ {slot : Nat} (bound : slot + 1 < numBlockSlots) :
    slotStart (slot + 1) = slotStart slot + slotSpan slot := by
  have all := firstUnreachableSlot_eq
  simp only [firstUnreachableSlot,firstTripleIndirectSlot,firstDoubleIndirectSlot,
    firstSingleIndirectSlot,numSingleIndirectSlots,numDoubleIndirectSlots,
    numTripleIndirectSlots] at all
  unfold slotSpan
  rcases slot_cases (show slot < numBlockSlots by omega) with ⟨h,level,start⟩ | ⟨h,level,start⟩ |
      ⟨h,level,start⟩ | ⟨h,level,start⟩ <;>
    rcases slot_cases bound with ⟨h',level',start'⟩ | ⟨h',level',start'⟩ |
      ⟨h',level',start'⟩ | ⟨h',level',start'⟩ <;>
    rw [level,start,start'] <;>
    simp only [indirectCount,firstTripleIndirectBlock,firstDoubleIndirectBlock,
      firstSingleIndirectBlock,doubleIndirectCount,Nat.cast_add,Nat.cast_mul,Nat.cast_one] <;>
    omega

theorem slotStart_last : slotStart (numBlockSlots - 1) + slotSpan (numBlockSlots - 1) =
    firstUnreachableBlock := by
  have all := firstUnreachableSlot_eq
  simp only [firstUnreachableSlot,firstTripleIndirectSlot,firstDoubleIndirectSlot,
    firstSingleIndirectSlot,numSingleIndirectSlots,numDoubleIndirectSlots,
    numTripleIndirectSlots] at all
  unfold slotSpan
  rcases slot_cases (show numBlockSlots - 1 < numBlockSlots by omega) with ⟨h,level,start⟩ |
      ⟨h,level,start⟩ | ⟨h,level,start⟩ | ⟨h,level,start⟩ <;>
    rw [level,start] <;>
    simp only [indirectCount,firstUnreachableBlock,Nat.cast_add] <;>
    omega

theorem slotStart_next {slot : Nat} (bound : slot < numBlockSlots)
    (below : slotStart slot + slotSpan slot < firstUnreachableBlock) :
    slot + 1 < numBlockSlots ∧ slotStart (slot + 1) = slotStart slot + slotSpan slot := by
  have inside : slot + 1 < numBlockSlots := by
    by_contra last
    rw [show slot = numBlockSlots - 1 by omega,slotStart_last] at below
    omega
  exact ⟨inside,slotStart_succ inside⟩

theorem slotStart_mono {a b : Nat} (le : a ≤ b) (bound : b < numBlockSlots) :
    slotStart a ≤ slotStart b := by
  induction b, le using Nat.le_induction with
  | base => exact le_rfl
  | succ b _ ih =>
    have step := slotStart_succ bound
    have before := ih (by omega)
    omega

theorem slotStart_nonneg {slot : Nat} (bound : slot < numBlockSlots) : 0 ≤ slotStart slot := by
  simpa [slotStart_zero] using slotStart_mono (Nat.zero_le slot) bound

theorem slotEnd_le {slot : Nat} (bound : slot < numBlockSlots) :
    slotStart slot + slotSpan slot ≤ firstUnreachableBlock := by
  by_cases last : slot + 1 < numBlockSlots
  · have step := slotStart_succ last
    have mono := slotStart_mono (a := slot + 1) (b := numBlockSlots - 1) (by omega) (by omega)
    have finish := slotStart_last
    have := slotSpan_pos (numBlockSlots - 1)
    omega
  · rw [show slot = numBlockSlots - 1 by omega,slotStart_last]

theorem slotEnd_le_start {a b : Nat} (lt : a < b) (bound : b < numBlockSlots) :
    slotStart a + slotSpan a ≤ slotStart b := by
  have step := slotStart_succ (show a + 1 < numBlockSlots by omega)
  have mono := slotStart_mono (a := a + 1) (b := b) (by omega) bound
  omega

theorem blockidx2blockslot_spec {idx : Int} (low : 0 ≤ idx) (high : idx < firstUnreachableBlock) :
    ∃ slot : Nat, slot < numBlockSlots ∧ blockidx2blockslot idx = slot ∧
      indirectionLevel idx = slotLevel slot ∧
      slotStart slot ≤ idx ∧ idx < slotStart slot + slotSpan slot := by
  have all := firstUnreachableSlot_eq
  simp only [firstUnreachableSlot,firstTripleIndirectSlot,firstDoubleIndirectSlot,
    firstSingleIndirectSlot,numSingleIndirectSlots,numDoubleIndirectSlots,
    numTripleIndirectSlots] at all
  have pos := counts_pos
  have found (slot : Nat) (bound : slot < numBlockSlots) (offset : Int)
      (at_slot : blockidx2blockslot idx = (slot : Int) + offset.tdiv (slotSpan slot))
      (level : indirectionLevel idx = slotLevel slot) (nonneg : 0 ≤ offset)
      (below : offset < slotSpan slot) (run : idx = slotStart slot + offset) :
      ∃ slot : Nat, slot < numBlockSlots ∧ blockidx2blockslot idx = slot ∧
        indirectionLevel idx = slotLevel slot ∧
        slotStart slot ≤ idx ∧ idx < slotStart slot + slotSpan slot := by
    refine ⟨slot,bound,?_,level,by omega,by omega⟩
    rw [at_slot,Int.tdiv_eq_zero_of_lt nonneg below,add_zero]
  by_cases direct : idx < firstSingleIndirectBlock
  · have level : indirectionLevel idx = 0 := if_pos direct
    simp only [firstSingleIndirectBlock] at direct
    rcases slot_cases (show idx.toNat < numBlockSlots by omega) with ⟨_,l,s⟩ | ⟨h,_⟩ | ⟨h,_⟩ | ⟨h,_⟩
    · refine found idx.toNat (by omega) 0 ?_ (by rw [level,l]; rfl) le_rfl
        (by exact_mod_cast slotSpan_pos _) (by omega)
      simp only [blockidx2blockslot,level,Int.zero_tdiv]
      omega
    all_goals omega
  by_cases single : idx < firstDoubleIndirectBlock
  · have level : indirectionLevel idx = 1 := by
      unfold indirectionLevel
      rw [if_neg direct,if_pos single]
    rcases slot_cases (show numDirectSlots < numBlockSlots by omega) with ⟨h,_⟩ | ⟨_,l,s⟩ | ⟨h,_⟩ | ⟨h,_⟩
    rotate_left
    · have span : slotSpan numDirectSlots = singleIndirectCount := by simp [slotSpan,l,indirectCount]
      refine found numDirectSlots (by omega) (idx - firstSingleIndirectBlock)
        (by simp only [blockidx2blockslot,level,span]; rfl) (by rw [level,l]; rfl) (by omega) ?_
        (by omega)
      simp only [firstDoubleIndirectBlock] at single
      rw [span]
      omega
    all_goals omega
  by_cases double : idx < firstTripleIndirectBlock
  · have level : indirectionLevel idx = 2 := by
      unfold indirectionLevel
      rw [if_neg direct,if_neg single,if_pos double]
    rcases slot_cases (show numDirectSlots + 1 < numBlockSlots by omega) with ⟨h,_⟩ | ⟨h,_⟩ | ⟨_,l,s⟩ | ⟨h,_⟩
    rotate_left 2
    · have span : slotSpan (numDirectSlots + 1) = doubleIndirectCount := by
        simp [slotSpan,l,indirectCount]
      refine found (numDirectSlots + 1) (by omega) (idx - firstDoubleIndirectBlock)
        (by simp only [blockidx2blockslot,level,span]; rfl) (by rw [level,l]; rfl) (by omega) ?_
        (by omega)
      simp only [firstTripleIndirectBlock] at double
      rw [span]
      omega
    all_goals omega
  · have level : indirectionLevel idx = 3 := by
      unfold indirectionLevel
      rw [if_neg direct,if_neg single,if_neg double,if_pos high]
    rcases slot_cases (show numDirectSlots + 1 + 1 < numBlockSlots by omega) with ⟨h,_⟩ | ⟨h,_⟩ | ⟨h,_⟩ | ⟨_,l,s⟩
    rotate_left 3
    · have span : slotSpan (numDirectSlots + 1 + 1) = tripleIndirectCount := by
        simp [slotSpan,l,indirectCount]
      refine found (numDirectSlots + 1 + 1) (by omega) (idx - firstTripleIndirectBlock)
        (by simp only [blockidx2blockslot,level,span]; rfl) (by rw [level,l]; rfl) (by omega) ?_
        (by omega)
      simp only [firstUnreachableBlock] at high
      rw [span]
      omega
    all_goals omega

theorem blockidx2blockslot_unique {slot : Nat} {idx : Int} (bound : slot < numBlockSlots)
    (low : slotStart slot ≤ idx) (high : idx < slotStart slot + slotSpan slot) :
    blockidx2blockslot idx = slot := by
  have start := slotStart_nonneg bound
  have finish := slotEnd_le bound
  obtain ⟨other,otherBound,found,_,otherLow,otherHigh⟩ :=
    blockidx2blockslot_spec (show 0 ≤ idx by omega) (by omega)
  rcases Nat.lt_trichotomy slot other with lt | eq | gt
  · have := slotEnd_le_start lt otherBound
    omega
  · rw [found,eq]
  · have := slotEnd_le_start gt bound
    omega

theorem slotLevel_cast {slot : Nat} (bound : slot < numBlockSlots) :
    (slotLevel slot : Int) = blockslotIndirectionLevel slot := by
  have all := firstUnreachableSlot_eq
  refine Int.toNat_of_nonneg ?_
  rw [blockslotIndirectionLevel]
  split_ifs <;> omega

/-- The run of the slot holds the block index. -/
def Covers (slot : Nat) (idx : Int) : Prop := slot < numBlockSlots ∧
  blockslot2firstblockidx slot ≤ idx ∧
  idx < blockslot2firstblockidx slot + indirectCount (blockslotIndirectionLevel slot).toNat

/-- The children that the walks go to are those that meet the range, and a block index lies under the
slot it is looked for in and under no other. -/
theorem children_exact :
    (∀ n c s a b : Int, 1 ≤ n → 1 ≤ s → 0 ≤ c → a < b → Meets c (c + n * s) a b →
      Visits n c s a b (startIdx c s a) (endIdx n c s b)) ∧
    (∀ n c s pos endpos k : Int, 1 ≤ n → 1 ≤ s → 0 ≤ c → 1 ≤ k → pos / k < (endpos - 1) / k + 1 →
      Meets c (c + n * s) (pos / k) ((endpos - 1) / k + 1) →
      startIdx c s (pos.tdiv k) = startIdx c s (pos / k) ∧
      lastIdx n c s ((endpos - 1).tdiv k) = endIdx n c s ((endpos - 1) / k + 1) ∧
      Visits n c s (pos / k) ((endpos - 1) / k + 1) (startIdx c s (pos.tdiv k))
        (lastIdx n c s ((endpos - 1).tdiv k))) ∧
    ∀ idx : Int, 0 ≤ idx → idx < firstUnreachableBlock → ∃ slot : Nat, blockidx2blockslot idx = slot ∧
      indirectionLevel idx = blockslotIndirectionLevel slot ∧ Covers slot idx ∧
      ∀ other, Covers other idx → other = slot := by
  refine ⟨fun n c s a b some span _ proper meets => visits some span proper meets,?_,?_⟩
  · intro n c s pos endpos k some span nonneg unit proper meets
    have positive : 0 < n * s := Int.mul_pos some span
    have low := ((meets_iff (by omega) proper).mp meets).2
    have start : startIdx c s (pos.tdiv k) = startIdx c s (pos / k) := startIdx_floor nonneg unit pos
    have finish : lastIdx n c s ((endpos - 1).tdiv k) = endIdx n c s ((endpos - 1) / k + 1) :=
      lastIdx_floor nonneg unit low
    refine ⟨start,finish,?_⟩
    rw [start,finish]
    exact visits some span proper meets
  · intro idx low high
    obtain ⟨slot,bound,found,level,begins,ends⟩ := blockidx2blockslot_spec low high
    refine ⟨slot,found,level.trans (slotLevel_cast bound),⟨bound,begins,ends⟩,?_⟩
    · intro other ⟨bound',begins',ends'⟩
      have same := blockidx2blockslot_unique bound' begins' ends'
      rw [found] at same
      exact_mod_cast same.symm

end CandyFs
