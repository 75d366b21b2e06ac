import CandyFs.Slots

/-! The bytes of a file, and the loops of `inode_write` and `inode_read` that go over its slots.
-/
namespace CandyFs
open Bytes Finset ChildRange

variable [Geometry]

/-- The data blocks of a file. -/
def fileLeaves (w : World) (inode : Block) : Multiset Int :=
  ∑ slot ∈ range numBlockSlots, leaves w (slotLevel slot) (slotPtr inode slot)

/-- The byte of the file at offset `a`. -/
def fileByte (w : World) (inode : Block) (a : Int) : UInt8 :=
  let slot := (blockidx2blockslot (a / blocksize)).toNat
  byteAt w (slotLevel slot) (slotPtr inode slot) (slotStart slot) a

section
variable {w w' : World} {inode : Block} {slot : Nat} {a n : Int}

theorem slot_bytes (low : slotStart slot * blocksize ≤ a)
    (high : a < slotStart slot * blocksize + slotSpan slot * blocksize) :
    slotStart slot ≤ a / blocksize ∧ a / blocksize < slotStart slot + slotSpan slot := by
  have large := blocksize_large
  have unit : (0 : Int) < blocksize := by omega
  exact ⟨(Int.le_ediv_iff_mul_le unit).mpr low,
    (Int.ediv_lt_iff_lt_mul unit).mpr (by rw [Int.add_mul]; exact high)⟩

theorem fileByte_slot (bound : slot < numBlockSlots) (low : slotStart slot * blocksize ≤ a)
    (high : a < slotStart slot * blocksize + slotSpan slot * blocksize) :
    fileByte w inode a = byteAt w (slotLevel slot) (slotPtr inode slot) (slotStart slot) a := by
  obtain ⟨first,last⟩ := slot_bytes low high
  simp only [fileByte,blockidx2blockslot_unique bound first last,Int.toNat_natCast]

theorem slot_of_byte (nonneg : 0 ≤ a) (below : a < maxFilesize) :
    ∃ slot, slot < numBlockSlots ∧ blockidx2blockslot (offset2blockidx a) = slot ∧
      indirectionLevel (offset2blockidx a) = slotLevel slot ∧ slotStart slot * blocksize ≤ a ∧
      a < slotStart slot * blocksize + slotSpan slot * blocksize := by
  have large := blocksize_large
  have unit : (0 : Int) < blocksize := by omega
  have index : offset2blockidx a = a / blocksize := Int.tdiv_eq_ediv_of_nonneg nonneg
  have inside : a / (blocksize : Int) < firstUnreachableBlock :=
    (Int.ediv_lt_iff_lt_mul unit).mpr (by simpa [maxFilesize] using below)
  obtain ⟨slot,bound,found,level,low,high⟩ :=
    blockidx2blockslot_spec (Int.ediv_nonneg nonneg unit.le) inside
  rw [index]
  refine ⟨slot,bound,found,level,(Int.le_ediv_iff_mul_le unit).mp low,?_⟩
  rw [← Int.add_mul]
  exact (Int.ediv_lt_iff_lt_mul unit).mp high

theorem fileShape_congr (owned : Owned w (fileBlocks w inode))
    (kept : ∀ b ∈ fileBlocks w inode, b ∉ fileLeaves w inode → w'.block b = w.block b) :
    fileBlocks w' inode = fileBlocks w inode ∧ fileLeaves w' inode = fileLeaves w inode ∧
      (FileMapped w' inode n ↔ FileMapped w inode n) := by
  have same (slot : Nat) (bound : slot < numBlockSlots) :
      ∀ b ∈ index w (slotLevel slot) (slotPtr inode slot), w'.block b = w.block b := by
    intro b member
    have inTree := Multiset.mem_of_le (index_le_tree _ _ _) member
    refine kept b (Multiset.mem_of_le (tree_le_fileBlocks bound) inTree) fun inside => ?_
    obtain ⟨other,bound',inLeaves⟩ := Multiset.mem_sum.mp inside
    have apart := sum_range_apart owned.1 bound (mem_range.mp bound') inTree
      (Multiset.mem_of_le (leaves_le_tree _ _ _) inLeaves)
    subst apart
    have nodup := (owned.mono (tree_le_fileBlocks bound)).1
    rw [tree_eq_add] at nodup
    exact Multiset.disjoint_left.mp (Multiset.nodup_add.mp nodup).2.2 member inLeaves
  have shape (slot : Nat) (inside : slot ∈ range numBlockSlots) :=
    index_congr (same slot (mem_range.mp inside))
  refine ⟨sum_congr rfl fun slot inside => ?_,sum_congr rfl fun slot inside => (shape slot inside).2,
    forall_congr' fun slot => forall_congr' fun bound => mapped_frame_iff (same slot bound)⟩
  rw [tree_eq_add,tree_eq_add,(shape slot inside).1,(shape slot inside).2]

theorem Edit.fileShape (h : Edit w w' (· ∈ fileLeaves w inode))
    (owned : Owned w (fileBlocks w inode)) :
    fileBlocks w' inode = fileBlocks w inode ∧ fileLeaves w' inode = fileLeaves w inode ∧
      (FileMapped w' inode n ↔ FileMapped w inode n) :=
  fileShape_congr owned fun b member outside =>
    h.block b (by have := (owned.2 b member).1; omega) outside

theorem Edit.ownedFile (h : Edit w w' (· ∈ fileLeaves w inode))
    (owned : Owned w (fileBlocks w inode)) : Owned w' (fileBlocks w' inode) := by
  rw [(h.fileShape (n := 0) owned).1]
  exact ⟨owned.1,fun b member => by rw [h.nblocks]; exact owned.2 b member⟩

theorem Edit.fileTrans {w'' : World} (first : Edit w w' (· ∈ fileLeaves w inode))
    (owned : Owned w (fileBlocks w inode)) (second : Edit w' w'' (· ∈ fileLeaves w' inode)) :
    Edit w w'' (· ∈ fileLeaves w inode) := by
  rw [(first.fileShape (n := 0) owned).2.1] at second
  exact first.trans second

theorem fileLeaves_le : fileLeaves w inode ≤ fileBlocks w inode :=
  sum_le_sum fun _ _ => leaves_le_tree _ _ _

theorem Accessed.inSlot {lo hi : Int} {write : Bool} {data : Option Block} {r : ReadwriteResult}
    (bound : slot < numBlockSlots) (owned : Owned w (fileBlocks w inode))
    (h : Accessed (slotLevel slot) lo hi write w (slotPtr inode slot) (slotStart slot) data r) :
    Edit w r.disk (· ∈ fileLeaves w inode) ∧
      (write = true → n ≤ firstUnreachableBlock → FileMapped w inode n → ∀ a, 0 ≤ a →
        a < n * blocksize → fileByte r.disk inode a =
          if slotStart slot * blocksize ≤ a ∧
              a < slotStart slot * blocksize + slotSpan slot * blocksize ∧ lo ≤ a ∧ a < hi
          then source data (a - lo).toNat else fileByte w inode a) := by
  refine ⟨h.edit.mono fun b member =>
    Multiset.mem_sum.mpr ⟨slot,mem_range.mpr bound,member⟩,fun writing top mapped a nonneg below => ?_⟩
  have inside : a < maxFilesize := by
    have large := blocksize_large
    have := Int.mul_le_mul_of_nonneg_right top (show 0 ≤ (blocksize : Int) by omega)
    simp only [maxFilesize,Nat.cast_mul]
    omega
  obtain ⟨other,bound',_,_,low,high⟩ := slot_of_byte nonneg inside
  rw [fileByte_slot bound' low high,fileByte_slot bound' low high]
  by_cases same : other = slot
  · subst same
    rw [(h.wrote writing).2 n (mapped other bound') a low high below]
    by_cases meets : lo ≤ a ∧ a < hi
    · rw [if_pos meets,if_pos ⟨low,high,meets⟩]
    · rw [if_neg meets,if_neg fun all => meets all.2.2]
  · rw [if_neg]
    · refine byteAt_frame (slotLevel_le other) (mapped other bound') low high below fun b member => ?_
      have positive := (owned.2 b (Multiset.mem_of_le (tree_le_fileBlocks bound') member)).1
      refine h.edit.block b (by omega) fun inLeaves => same ?_
      exact sum_range_apart owned.1 bound' bound member
        (Multiset.mem_of_le (leaves_le_tree _ _ _) inLeaves)
    · rintro ⟨low',high',_⟩
      obtain ⟨first,last⟩ := slot_bytes low high
      obtain ⟨first',last'⟩ := slot_bytes low' high'
      rcases Nat.lt_or_gt_of_ne same with before | after
      · have := slotEnd_le_start before bound
        omega
      · have := slotEnd_le_start after bound'
        omega

end

/-- Where a loop over the bytes from `lo` on stands: at their start, or at the start of a slot. -/
def AtByte (lo c : Int) : Prop := c = lo ∨ ∃ slot, slot < numBlockSlots ∧ c = slotStart slot * blocksize

section
variable {w : World} {inode : Block} {slot : Nat} {lo hi c : Int}

theorem atByte_run (place : AtByte lo c) (bound : slot < numBlockSlots) (order : lo ≤ c)
    (low : slotStart slot * blocksize ≤ c)
    (high : c < slotStart slot * blocksize + slotSpan slot * blocksize) :
    c = max lo (slotStart slot * blocksize) := by
  rcases place with rfl | ⟨other,bound',rfl⟩
  · exact (max_eq_left low).symm
  · have large := blocksize_large
    have pos := slotSpan_pos other
    have unit : (0 : Int) < blocksize := by omega
    obtain ⟨first,last⟩ := slot_bytes low high
    rw [Int.mul_ediv_cancel _ unit.ne'] at first last
    have found := blockidx2blockslot_unique bound first last
    rw [blockidx2blockslot_unique bound' le_rfl (by omega)] at found
    rw [Nat.cast_inj.mp found] at order ⊢
    exact (max_eq_right order).symm

/-- The end of a slot below the end of the largest file is the start of the next slot. -/
theorem atByte_next (bound : slot < numBlockSlots)
    (below : slotStart slot * blocksize + slotSpan slot * blocksize < maxFilesize) :
    (∀ lo, AtByte lo (slotStart slot * blocksize + slotSpan slot * blocksize)) ∧
      blockidx2blockslot (offset2blockidx
        (slotStart slot * blocksize + slotSpan slot * blocksize)) = slot + 1 := by
  have large := blocksize_large
  have unit : (0 : Int) < blocksize := by omega
  rw [← Int.add_mul] at below ⊢
  have inside : slotStart slot + slotSpan slot < firstUnreachableBlock := by
    simp only [maxFilesize,Nat.cast_mul] at below
    exact lt_of_mul_lt_mul_right below unit.le
  obtain ⟨inside,start⟩ := slotStart_next bound inside
  have pos := slotSpan_pos (slot + 1)
  have nonneg := slotStart_nonneg inside
  rw [← start]
  refine ⟨fun lo => .inr ⟨slot + 1,inside,rfl⟩,?_⟩
  rw [offset2blockidx,Int.mul_tdiv_cancel _ unit.ne',blockidx2blockslot_unique inside le_rfl (by omega)]
  push_cast
  rfl

theorem round_spec (write : Bool) (lo hi c : Int) (nonneg : 0 ≤ lo) (proper : lo < hi) (bound : slot < numBlockSlots)
    (owned : Owned w (fileBlocks w inode)) (order : lo ≤ c) (more : c < hi)
    (low : slotStart slot * blocksize ≤ c)
    (high : c < slotStart slot * blocksize + slotSpan slot * blocksize) (data : Option Block) :
    (∀ n, FileMapped w inode n → hi ≤ n * blocksize → ∃ r, inodeIndirectReadwrite lo hi write
      (slotLevel slot) w (slotPtr inode slot) (slotStart slot) data = .ok r) ∧
    ∀ r, inodeIndirectReadwrite lo hi write (slotLevel slot) w (slotPtr inode slot) (slotStart slot)
        data = .ok r →
      Accessed (slotLevel slot) lo hi write w (slotPtr inode slot) (slotStart slot) data r ∧
      0 < r.count ∧ (AtByte lo c →
        c + r.count = min hi (slotStart slot * blocksize + slotSpan slot * blocksize)) := by
  have spec : ReadwriteSpec (slotLevel slot) lo hi write _ :=
    inodeIndirectReadwrite_spec nonneg proper (slotLevel_le slot)
  obtain ⟨total,accessed⟩ := spec w (slotPtr inode slot) (slotStart slot) data
    (owned.mono (tree_le_fileBlocks bound)) (by omega) (by unfold slotSpan at high; omega)
  refine ⟨fun n mapped enough => total n (mapped slot bound) enough,fun r run => ?_⟩
  have h := accessed r run
  have count : r.count = overlap (slotStart slot * blocksize) (slotSpan slot * blocksize) lo hi :=
    h.count
  unfold overlap at count
  refine ⟨h,by omega,fun place => ?_⟩
  have at_c := atByte_run place bound order low high
  omega

end

section
variable {pos zeroEndpos endpos : Int} {inode : Block}

theorem writeLoop_edit (nonneg : 0 ≤ pos) (nonneg' : 0 ≤ zeroEndpos) (top : endpos ≤ maxFilesize)
    (data : Option Block) (fuel : Nat) : ∀ (w : World) (c last : Int),
    Owned w (fileBlocks w inode) → pos ≤ c → endpos - c ≤ fuel →
    Orderly w.exhausted (·.1.exhausted) (writeLoop pos zeroEndpos endpos data inode fuel w c last) ∧
    ∀ r, writeLoop pos zeroEndpos endpos data inode fuel w c last = .ok r →
      Edit w r.1 (· ∈ fileLeaves w inode) := by
  induction fuel with
  | zero =>
    intro w c last owned order enough
    simp only [writeLoop,if_neg (show ¬c < endpos by omega)]
    refine ⟨Orderly.ok id,fun r run => ?_⟩
    rw [Except.ok.injEq] at run
    exact run ▸ Edit.refl _ _
  | succ fuel ih =>
    intro w c last owned order enough
    by_cases more : c < endpos
    swap
    · simp only [writeLoop,if_neg more]
      refine ⟨Orderly.ok id,fun r run => ?_⟩
      rw [Except.ok.injEq] at run
      exact run ▸ Edit.refl _ _
    obtain ⟨slot,bound,found,level,low,high⟩ := slot_of_byte (show 0 ≤ c by omega) (by omega)
    have spec := (round_spec true (if c < zeroEndpos then pos else zeroEndpos)
      (if c < zeroEndpos then zeroEndpos else endpos) c (by split <;> omega) (by split <;> omega) bound
      owned (by split <;> omega) (by split <;> omega) low high
      (if c < zeroEndpos then none else data)).2
    simp only [writeLoop,if_pos more,found,level,Int.toNat_natCast]
    constructor
    · refine Orderly.check.bind fun _ _ =>
        (inodeIndirectReadwrite_orderly _ _ _ _ _ _ _ _).bind fun g ran => ?_
      obtain ⟨accessed,positive,_⟩ := spec g ran
      have edit := (accessed.inSlot (n := 0) bound owned).1
      exact (ih g.disk (c + g.count) slot (edit.ownedFile owned) (by omega) (by omega)).1
    · intro r run
      obtain ⟨_,_,run⟩ := bind_ok.mp run
      obtain ⟨g,ran,run⟩ := bind_ok.mp run
      obtain ⟨accessed,positive,_⟩ := spec g ran
      have edit := (accessed.inSlot (n := 0) bound owned).1
      exact edit.fileTrans owned ((ih g.disk (c + g.count) slot (edit.ownedFile owned) (by omega)
        (by omega)).2 r run)

/-- The bytes the loop of `inode_write` leaves from offset `c` on: zeros below
`zero_endpos`, then the caller's. -/
theorem writeLoop_bytes {n : Int} (nonneg : 0 ≤ pos) (zeros : pos ≤ zeroEndpos)
    (ends : zeroEndpos ≤ endpos) (top : n ≤ firstUnreachableBlock) (enough : endpos ≤ n * blocksize)
    (data : Option Block) (fuel : Nat) : ∀ (w : World) (c last : Int),
    Owned w (fileBlocks w inode) → FileMapped w inode n → pos ≤ c → c ≤ endpos → endpos - c ≤ fuel →
    (c < endpos → AtByte (if c < zeroEndpos then pos else zeroEndpos) c) →
    (c < endpos → last = -1 ∨ c = zeroEndpos ∨ last + 1 = blockidx2blockslot (offset2blockidx c)) →
    ∃ w', writeLoop pos zeroEndpos endpos data inode fuel w c last = .ok (w',endpos) ∧
      ∀ a, 0 ≤ a → a < n * blocksize → fileByte w' inode a =
        if c ≤ a ∧ a < endpos then
          if a < zeroEndpos then 0 else source data (a - zeroEndpos).toNat
        else fileByte w inode a := by
  have large := blocksize_large
  have most : endpos ≤ maxFilesize := by
    have := Int.mul_le_mul_of_nonneg_right top (show 0 ≤ (blocksize : Int) by omega)
    simp only [maxFilesize,Nat.cast_mul]
    omega
  induction fuel with
  | zero =>
    intro w c last owned mapped order within fuelEnough place sequential
    obtain rfl : c = endpos := by omega
    refine ⟨w,by simp [writeLoop],fun a _ _ => ?_⟩
    rw [if_neg (by omega)]
  | succ fuel ih =>
    intro w c last owned mapped order within fuelEnough place sequential
    by_cases done : c = endpos
    · subst done
      refine ⟨w,by simp [writeLoop],fun a _ _ => ?_⟩
      rw [if_neg (by omega)]
    have more : c < endpos := by omega
    obtain ⟨slot,bound,found,level,low,high⟩ := slot_of_byte (show 0 ≤ c by omega) (by omega)
    obtain ⟨total,spec⟩ := round_spec true (if c < zeroEndpos then pos else zeroEndpos)
      (if c < zeroEndpos then zeroEndpos else endpos) c (by split <;> omega) (by split <;> omega) bound
      owned (by split <;> omega) (by split <;> omega) low high
      (if c < zeroEndpos then none else data)
    obtain ⟨g,ran⟩ := total n mapped (by split <;> omega)
    obtain ⟨accessed,positive,advance⟩ := spec g ran
    have next := advance (place more)
    have start := atByte_run (place more) bound (by split <;> omega) low high
    obtain ⟨edit,bytes⟩ := accessed.inSlot (n := n) bound owned
    have step := bytes rfl top mapped
    have arrived : c + g.count = zeroEndpos ∨ c + g.count = endpos ∨
        c + g.count = slotStart slot * blocksize + slotSpan slot * blocksize ∧
          (c + g.count < zeroEndpos ↔ c < zeroEndpos) := by
      split at next <;> omega
    obtain ⟨w',rest,restBytes⟩ := ih g.disk (c + g.count) slot (edit.ownedFile owned)
      ((edit.fileShape owned).2.2.mpr mapped) (by omega) (by split at next <;> omega) (by omega)
      (fun below => by
        rcases arrived with zero | finish | ⟨slotEnd,phase⟩
        · rw [zero,if_neg (lt_irrefl _)]
          exact .inl rfl
        · omega
        · rw [slotEnd] at below ⊢
          exact (atByte_next bound (by omega)).1 _)
      (fun below => by
        rcases arrived with zero | finish | ⟨slotEnd,phase⟩
        · exact .inr (.inl zero)
        · omega
        · rw [slotEnd] at below ⊢
          exact .inr (.inr (atByte_next bound (by omega)).2.symm))
    refine ⟨w',?_,fun a low' below' => ?_⟩
    · have checked := sequential more
      rw [found] at checked
      rw [slotPtr] at ran
      simp only [writeLoop,if_pos more,found,level,Int.toNat_natCast,check_true checked,ok_bind,ran]
      exact rest
    · rw [restBytes a low' below',step a low' below']
      by_cases phase : c < zeroEndpos
      · simp only [if_pos phase] at next start ⊢
        by_cases later : c + g.count ≤ a ∧ a < endpos
        · rw [if_pos later,if_pos (show c ≤ a ∧ a < endpos by omega)]
        · rw [if_neg later]
          by_cases here : c ≤ a ∧ a < endpos
          · rw [if_pos (by omega),if_pos here,if_pos (by omega)]
            rfl
          · rw [if_neg (by omega),if_neg here]
      · simp only [if_neg phase] at next start ⊢
        by_cases later : c + g.count ≤ a ∧ a < endpos
        · rw [if_pos later,if_pos (show c ≤ a ∧ a < endpos by omega)]
        · rw [if_neg later]
          by_cases here : c ≤ a ∧ a < endpos
          · rw [if_pos (by omega),if_pos here,if_neg (by omega)]
          · rw [if_neg (by omega),if_neg here]

theorem readLoop_disk (fuel : Nat) : ∀ (w : World) (data : Block) (c last : Int) r,
    readLoop pos endpos inode fuel w data c last = .ok r → r.1 = w := by
  induction fuel with
  | zero =>
    intro w data c last r run
    simp only [readLoop] at run
    split at run
    · cases run
    · cases run
      rfl
  | succ fuel ih =>
    intro w data c last r run
    simp only [readLoop] at run
    split at run
    · obtain ⟨_,_,run⟩ := bind_ok.mp run
      obtain ⟨g,ran,run⟩ := bind_ok.mp run
      exact (ih _ _ _ _ r run).trans (inodeIndirectRead_disk _ _ _ _ _ _ _ g ran)
    · cases run
      rfl

theorem readLoop_orderly (nonneg : 0 ≤ pos) (top : endpos ≤ maxFilesize) (fuel : Nat) :
    ∀ (w : World) (data : Block) (c last : Int), Owned w (fileBlocks w inode) → pos ≤ c →
    endpos - c ≤ fuel →
    Orderly w.exhausted (·.1.exhausted) (readLoop pos endpos inode fuel w data c last) := by
  induction fuel with
  | zero =>
    intro w data c last owned order enough
    simp only [readLoop,if_neg (show ¬c < endpos by omega)]
    exact Orderly.ok id
  | succ fuel ih =>
    intro w data c last owned order enough
    by_cases more : c < endpos
    swap
    · simp only [readLoop,if_neg more]
      exact Orderly.ok id
    obtain ⟨slot,bound,found,level,low,high⟩ := slot_of_byte (show 0 ≤ c by omega) (by omega)
    have spec := (round_spec false pos endpos c nonneg (by omega) bound owned order more low high
      (some data)).2
    simp only [readLoop,if_pos more,found,level,Int.toNat_natCast]
    refine Orderly.check.bind fun _ _ =>
      (inodeIndirectReadwrite_orderly _ _ _ _ _ _ _ _).bind fun g ran => ?_
    obtain ⟨accessed,positive,_⟩ := spec g ran
    rw [(accessed.read rfl).1]
    exact ih w (g.data.getD data) (c + g.count) slot owned (by omega) (by omega)

theorem readLoop_bytes {n : Int} (nonneg : 0 ≤ pos) (top : n ≤ firstUnreachableBlock)
    (enough : endpos ≤ n * blocksize) (fuel : Nat) : ∀ (w : World) (data : Block) (c last : Int),
    Owned w (fileBlocks w inode) → FileMapped w inode n → pos ≤ c → c ≤ endpos → endpos - c ≤ fuel →
    (c < endpos → AtByte pos c) →
    (c < endpos → last = -1 ∨ last + 1 = blockidx2blockslot (offset2blockidx c)) →
    ∃ data', readLoop pos endpos inode fuel w data c last = .ok (w,data',endpos) ∧
      ∀ k : Nat, data' k =
        if c ≤ pos + k ∧ pos + k < endpos then fileByte w inode (pos + k) else data k := by
  have large := blocksize_large
  have most : endpos ≤ maxFilesize := by
    have := Int.mul_le_mul_of_nonneg_right top (show 0 ≤ (blocksize : Int) by omega)
    simp only [maxFilesize,Nat.cast_mul]
    omega
  induction fuel with
  | zero =>
    intro w data c last owned mapped order within fuelEnough place sequential
    obtain rfl : c = endpos := by omega
    refine ⟨data,by simp [readLoop],fun k => ?_⟩
    rw [if_neg (by omega)]
  | succ fuel ih =>
    intro w data c last owned mapped order within fuelEnough place sequential
    by_cases done : c = endpos
    · subst done
      refine ⟨data,by simp [readLoop],fun k => ?_⟩
      rw [if_neg (by omega)]
    have more : c < endpos := by omega
    obtain ⟨slot,bound,found,level,low,high⟩ := slot_of_byte (show 0 ≤ c by omega) (by omega)
    obtain ⟨total,spec⟩ := round_spec false pos endpos c nonneg (by omega) bound owned order more low
      high (some data)
    obtain ⟨g,ran⟩ := total n mapped enough
    obtain ⟨accessed,positive,advance⟩ := spec g ran
    have next := advance (place more)
    have start := atByte_run (place more) bound order low high
    obtain ⟨sameDisk,copied⟩ := accessed.read rfl
    obtain ⟨data1,given,copy⟩ := copied data rfl
    have slotEnd : c + g.count < endpos →
        c + g.count = slotStart slot * blocksize + slotSpan slot * blocksize := by omega
    obtain ⟨data2,rest,restCopy⟩ := ih w data1 (c + g.count) slot owned mapped (by omega) (by omega)
      (by omega)
      (fun below => by
        have at_end := slotEnd below
        rw [at_end]
        exact (atByte_next bound (by omega)).1 _)
      (fun below => by
        have at_end := slotEnd below
        rw [at_end]
        exact .inr (atByte_next bound (by omega)).2.symm)
    refine ⟨data2,?_,fun k => ?_⟩
    · have checked := sequential more
      rw [found] at checked
      rw [slotPtr] at ran
      simp only [readLoop,if_pos more,found,level,Int.toNat_natCast,check_true checked,ok_bind,ran,
        sameDisk,given,Option.getD_some]
      exact rest
    · rw [restCopy,copy]
      by_cases later : c + g.count ≤ pos + k ∧ pos + k < endpos
      · rw [if_pos later,if_pos (show c ≤ pos + k ∧ pos + k < endpos by omega)]
      · rw [if_neg later]
        by_cases here : c ≤ pos + k ∧ pos + k < endpos
        · have inside : slotStart slot * blocksize ≤ pos + k ∧
              pos + k < slotStart slot * blocksize + slotSpan slot * blocksize := by omega
          rw [if_pos here,fileByte_slot bound inside.1 inside.2]
          exact if_pos ⟨inside.1,inside.2,here.2⟩
        · rw [if_neg here]
          exact if_neg fun all => here (by unfold slotSpan at *; omega)

end

end CandyFs
