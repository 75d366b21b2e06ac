import CandyFs.Growth

/-! Writing when space may run out: how far the file can be extended, and what `inode_write` makes
of a write that does not fit.
-/
namespace CandyFs
open Bytes Finset

section
variable [Geometry]

/-- The greatest number of blocks, up to `new`, that a file of `old` blocks can get out of `space`
free blocks. -/
def attainable (old new : Int) (space : Nat) : Nat :=
  Nat.findGreatest (fun k => footprint k ≤ space + footprint old) new.toNat

/-- The length to which a file of `len` bytes can be extended on the way to `endpos`. -/
def extent (len endpos : Int) (space : Nat) : Int :=
  let new := blockcount (min endpos maxFilesize)
  let k := attainable (blockcount len) new space
  if k = new then min endpos maxFilesize else k * blocksize

/-- What a write should leave when the file could only be extended to `length`. A write that
writes nothing need not extend the file. -/
structure ShortWrite (w w' : World) (inumber pos : Int) (data : Option Block) (length count : Int) :
    Prop where
  counted : count = max 0 (length - pos)
  number : inoGet w' inumber = inoGet w inumber
  size : word (w'.block (inoGet w inumber)) Inode.size = length ∨ w' = w
  mapped : FileMapped w' (w'.block (inoGet w inumber))
    (blockcount (word (w'.block (inoGet w inumber)) Inode.size))
  bytes : ∀ a, 0 ≤ a → a < word (w'.block (inoGet w inumber)) Inode.size →
    fileByte w' (w'.block (inoGet w inumber)) a =
    if pos ≤ a ∧ a < pos + count then source data (a - pos).toNat
    else if a < word (w.block (inoGet w inumber)) Inode.size then
      fileByte w (w.block (inoGet w inumber)) a
    else 0

/-- `inode_write` fails no assertion, and tells how much of a write that did not fit it wrote. -/
def HonestWrite (w : World) (inumber pos : Int) (data : Option Block) (size : Int)
    (free : Multiset Int) : Prop :=
  ∃ r, inodeWrite w inumber pos data size = .ok r ∧
    let len := word (w.block (inoGet w inumber)) Inode.size
    (len < pos + size → extent len (pos + size) free.card < pos + size →
      ShortWrite w r.2 inumber pos data (extent len (pos + size) free.card) r.1)

theorem blockcount_mono {a b : Int} (nonneg : 0 ≤ a) (le : a ≤ b) : blockcount a ≤ blockcount b :=
  (blockcount_le_iff nonneg).mpr (le.trans (le_blockcount (nonneg.trans le)))

section
variable {w : World} {inumber b endpos : Int} {free : Multiset Int} {r : Int × World}

theorem Resized.affordable (h : Resized endpos w b free r)
    (mapped : FileMapped w (w.block b) (blockcount (word (w.block b) Inode.size)))
    (lower : blockcount (word (w.block b) Inode.size) ≤ blockcount r.1) :
    footprint (blockcount r.1) ≤
      free.card + footprint (blockcount (word (w.block b) Inode.size)) := by
  rcases lower.eq_or_lt with same | gained
  · rw [← same]
    exact Nat.le_add_left _ _
  · have safe : ResizeSafe endpos w (w.block b) (blockcount r.1) := ⟨mapped,fun _ _ => gained⟩
    obtain ⟨free',moved⟩ := h.moved
    have cards := congrArg Multiset.card (moved.all (.inr safe))
    rw [Multiset.card_add,Multiset.card_add,Multiset.card_cons,Multiset.card_cons,mapped.card,
      (h.mapped safe).card] at cards
    omega

theorem Resized.extent (h : Resized endpos w b free r) (held : Held w inumber b free)
    (mapped : FileMapped w (w.block b) (blockcount (word (w.block b) Inode.size)))
    (more : word (w.block b) Inode.size < endpos) :
    r.1 = extent (word (w.block b) Inode.size) endpos free.card := by
  have sizeNonneg := held.sizeNonneg
  have sizeTop := held.sizeTop
  have oldNonneg := blockcount_nonneg sizeNonneg
  have order := blockcount_mono sizeNonneg
    (show word (w.block b) Inode.size ≤ min endpos maxFilesize by omega)
  have lower := h.lower
  rw [min_eq_left order] at lower
  have count := h.count
  have affordable := h.affordable mapped lower
  have found : attainable (blockcount (word (w.block b) Inode.size))
      (blockcount (min endpos maxFilesize)) free.card = (blockcount r.1).toNat := by
    have cast : ((blockcount r.1).toNat : Int) = blockcount r.1 := Int.toNat_of_nonneg (by omega)
    refine Nat.findGreatest_eq_iff.mpr ⟨by omega,fun _ => by rw [cast]; exact affordable,
      fun k above below fits => ?_⟩
    have short := h.short mapped (by omega)
    have := footprint_mono (show blockcount r.1 + 1 ≤ (k : Int) by omega)
    omega
  rw [CandyFs.extent,found,Int.toNat_of_nonneg (by omega)]
  exact h.value

theorem Resized.longer (h : Resized endpos w b free r) (held : Held w inumber b free)
    (more : word (w.block b) Inode.size < endpos) : word (w.block b) Inode.size ≤ r.1 := by
  have sizeNonneg := held.sizeNonneg
  have sizeTop := held.sizeTop
  have value := h.value
  split at value
  · omega
  · have order := blockcount_mono sizeNonneg
      (show word (w.block b) Inode.size ≤ min endpos maxFilesize by omega)
    have lower := h.lower
    rw [min_eq_left order] at lower
    rw [value]
    exact (blockcount_le_iff sizeNonneg).mp lower

/-- An extension that falls short loses an index block exactly when a fragile file gets no block. -/
theorem Resized.safe_iff (h : Resized endpos w b free r) (held : Held w inumber b free)
    (mapped : FileMapped w (w.block b) (blockcount (word (w.block b) Inode.size)))
    (more : word (w.block b) Inode.size < endpos) (short : r.1 < endpos) :
    ResizeSafe endpos w (w.block b) (blockcount r.1) ↔
      ¬(Fragile (blockcount (word (w.block b) Inode.size)) ∧
        free.card + footprint (blockcount (word (w.block b) Inode.size)) <
          footprint (blockcount (word (w.block b) Inode.size) + 1)) := by
  have sizeTop := held.sizeTop
  have order := blockcount_mono held.sizeNonneg
    (show word (w.block b) Inode.size ≤ min endpos maxFilesize by omega)
  have lower := h.lower
  rw [min_eq_left order] at lower
  have count := h.count
  constructor
  · rintro safe ⟨fragile,stuck⟩
    by_cases grows : blockcount (word (w.block b) Inode.size) < blockcount (min endpos maxFilesize)
    · have gained := safe.2 grows fragile
      have affordable := h.affordable mapped lower
      have := footprint_mono (show blockcount (word (w.block b) Inode.size) + 1 ≤ blockcount r.1 by omega)
      omega
    · -- only a file of the greatest size falls short without a further block
      have value := h.value
      rw [if_pos (by omega)] at value
      have top : blockcount (maxFilesize : Int) = firstUnreachableBlock := by
        rw [maxFilesize,Nat.cast_mul,blockcount_mul]
      have := fragile.last
      rw [show min endpos (maxFilesize : Int) = maxFilesize by omega,top] at grows
      omega
  · intro fine
    refine ⟨mapped,fun grows fragile => ?_⟩
    by_contra stuck
    have same : blockcount r.1 = blockcount (word (w.block b) Inode.size) := by omega
    have stuck := h.short mapped (by omega)
    rw [same] at stuck
    exact fine ⟨fragile,stuck⟩

end

section
variable {w : World} {inumber pos size : Int} {free : Multiset Int}

theorem inodeWrite_inside (held : Held w inumber (inoGet w inumber) free) (data : Option Block)
    (mapped : FileMapped w (w.block (inoGet w inumber))
      (blockcount (word (w.block (inoGet w inumber)) Inode.size)))
    (nonneg : 0 ≤ pos) (sizeNonneg : 0 ≤ size)
    (inside : pos + size ≤ word (w.block (inoGet w inumber)) Inode.size) :
    ∃ r, inodeWrite w inumber pos data size = .ok r := by
  have top := held.sizeTop
  have greatest := maxFilesize_lt
  have sum : wrap (pos + size) = pos + size := wrap_of_fits ⟨by omega,by omega⟩
  simp only [inodeWrite,held.names.load]
  rw [if_neg (show ¬pos = -1 by omega),sum,if_neg (not_lt.mpr inside)]
  by_cases empty : pos + size ≤ pos
  · exact ⟨_,if_pos empty⟩
  · obtain ⟨w',ran,_⟩ := writeRange_bytes held nonneg le_rfl (show pos ≤ pos + size by omega) (by omega)
      inside mapped data
    exact ⟨_,ran⟩

theorem inodeWrite_wrapped (held : Held w inumber (inoGet w inumber) free) (data : Option Block)
    (nonneg : 0 ≤ pos) (sizeNonneg : 0 ≤ size) (posTop : pos < 2 ^ 63) (sizeTop : size < 2 ^ 63)
    (past : 2 ^ 63 ≤ pos + size) : inodeWrite w inumber pos data size = .ok (0,w) := by
  have lenNonneg := held.sizeNonneg
  have sum : wrap (pos + size) = pos + size - 2 ^ 64 := by
    rw [wrap_add nonneg sizeNonneg posTop sizeTop,if_neg (by omega)]
  simp only [inodeWrite,held.names.load]
  rw [if_neg (show ¬pos = -1 by omega),sum,if_neg (by omega),writeRange,if_pos (by omega)]

theorem inodeWrite_extended (held : Held w inumber (inoGet w inumber) free) (data : Option Block)
    (nonneg : 0 ≤ pos) (sum : Fits (pos + size)) (more : word (w.block (inoGet w inumber)) Inode.size < pos + size)
    {newsize : Int} {w1 : World} (ran : inodeSetsize w inumber (pos + size) = .ok (newsize,w1))
    (resized : Resized (pos + size) w (inoGet w inumber) free (newsize,w1)) :
    inodeWrite w inumber pos data size =
      writeRange w1 (inoGet w inumber) (w1.block (inoGet w inumber))
        (min pos (word (w.block (inoGet w inumber)) Inode.size))
        (if pos + size > newsize then if pos < newsize then newsize else pos else pos)
        (min (pos + size) newsize) data := by
  obtain ⟨_,held1,_⟩ := resized.updated.held held
  have stored : word (w1.block (inoGet w inumber)) Inode.size = newsize := resized.stored
  have upper : newsize ≤ pos + size := resized.upper
  have start : (if pos > word (w.block (inoGet w inumber)) Inode.size
      then word (w.block (inoGet w inumber)) Inode.size else pos) =
      min pos (word (w.block (inoGet w inumber)) Inode.size) := by split <;> omega
  simp only [inodeWrite,held.names.load]
  rw [if_neg (show ¬pos = -1 by omega),wrap_of_fits sum,if_pos more,ran,ok_bind]
  dsimp only
  rw [if_neg (not_lt.mpr resized.nonneg),start,writeExtended,
    diskRead_block _ (by have := held1.names.low; omega) held1.names.high,stored]
  dsimp only
  rw [check_true upper,ok_bind]
  by_cases short : pos + size > newsize
  · rw [if_pos short,if_pos short,min_eq_right upper]
  · rw [if_neg short,if_neg short,min_eq_left (not_lt.mp short)]

end

theorem writeRange_count {w : World} {b pos zeroEndpos endpos : Int} {inode : Block}
    {data : Option Block} {r : Int × World}
    (ran : writeRange w b inode pos zeroEndpos endpos data = .ok r) :
    if endpos ≤ pos then r = (0,w) else r.1 = endpos - zeroEndpos ∧ zeroEndpos ≤ endpos := by
  unfold writeRange at ran
  by_cases empty : endpos ≤ pos
  · rw [if_pos empty] at ran ⊢
    exact (Except.ok.inj ran).symm
  · rw [if_neg empty] at ran ⊢
    obtain ⟨loop,_,ran⟩ := bind_ok.mp ran
    obtain ⟨_,_,ran⟩ := bind_ok.mp ran
    obtain ⟨_,enough,ran⟩ := bind_ok.mp ran
    have enough := check_ok.mp enough
    rw [Except.ok.injEq] at ran
    subst ran
    exact ⟨rfl,by omega⟩

variable {w : World} {ilistSize : Nat} {inumber pos size : Int} {free : Multiset Int}
  {numbers : List Int}

theorem write_fits (held : Held w inumber (inoGet w inumber) free) (data : Option Block)
    (mapped : FileMapped w (w.block (inoGet w inumber))
      (blockcount (word (w.block (inoGet w inumber)) Inode.size)))
    (nonneg : 0 ≤ pos) (sizeNonneg : 0 ≤ size) (sum : Fits (pos + size))
    (more : word (w.block (inoGet w inumber)) Inode.size < pos + size)
    {w1 : World} (ran : inodeSetsize w inumber (pos + size) = .ok (pos + size,w1))
    (resized : Resized (pos + size) w (inoGet w inumber) free (pos + size,w1)) :
    ∃ r, inodeWrite w inumber pos data size = .ok r := by
  have lenNonneg := held.sizeNonneg
  have updated1 : Updated w (inoGet w inumber) free w1 := resized.updated
  obtain ⟨_,held1,_⟩ := updated1.held held
  have stored : word (w1.block (inoGet w inumber)) Inode.size = pos + size := resized.stored
  have top : pos + size ≤ maxFilesize := resized.top
  have safe : ResizeSafe (pos + size) w (w.block (inoGet w inumber)) (blockcount (pos + size)) :=
    ⟨mapped,fun grows _ => by rwa [min_eq_left top] at grows⟩
  have mapped1 : FileMapped w1 (w1.block (inoGet w inumber)) (blockcount (pos + size)) :=
    resized.mapped safe
  rw [inodeWrite_extended held data nonneg sum more ran resized,if_neg (lt_irrefl _),min_self]
  by_cases empty : pos + size ≤ min pos (word (w.block (inoGet w inumber)) Inode.size)
  · exact ⟨_,if_pos empty⟩
  · obtain ⟨w',wrote,_⟩ := writeRange_bytes held1 (show 0 ≤ min pos
      (word (w.block (inoGet w inumber)) Inode.size) by omega) (min_le_left _ _)
      (show pos ≤ pos + size by omega) (not_le.mp empty) (by omega) (by rw [stored]; exact mapped1) data
    exact ⟨_,wrote⟩

theorem write_short (held : Held w inumber (inoGet w inumber) free) (data : Option Block)
    (mapped : FileMapped w (w.block (inoGet w inumber))
      (blockcount (word (w.block (inoGet w inumber)) Inode.size)))
    (nonneg : 0 ≤ pos) (sum : Fits (pos + size))
    (more : word (w.block (inoGet w inumber)) Inode.size < pos + size)
    {newsize : Int} {w1 : World} (ran : inodeSetsize w inumber (pos + size) = .ok (newsize,w1))
    (resized : Resized (pos + size) w (inoGet w inumber) free (newsize,w1))
    (short : newsize < pos + size) :
    (∃ r, inodeWrite w inumber pos data size = .ok r ∧
      ShortWrite w r.2 inumber pos data newsize r.1) ↔
    ResizeSafe (pos + size) w (w.block (inoGet w inumber)) (blockcount newsize) ∧
      (pos = newsize ∨ newsize = word (w.block (inoGet w inumber)) Inode.size ∧
        word (w.block (inoGet w inumber)) Inode.size ≤ pos) := by
  have lenNonneg := held.sizeNonneg
  have updated1 : Updated w (inoGet w inumber) free w1 := resized.updated
  obtain ⟨free1,held1,_⟩ := updated1.held held
  have stored : word (w1.block (inoGet w inumber)) Inode.size = newsize := resized.stored
  have number1 := held1.names.number
  have longer : word (w.block (inoGet w inumber)) Inode.size ≤ newsize := resized.longer held more
  rw [inodeWrite_extended held data nonneg sum more ran resized,if_pos short,min_eq_right short.le]
  generalize size' : word (w.block (inoGet w inumber)) Inode.size = len at *
  -- without an extension nothing is written
  have still (behind : newsize ≤ min pos len) (zeroEndpos : Int) :
      writeRange w1 (inoGet w inumber) (w1.block (inoGet w inumber)) (min pos len) zeroEndpos newsize
        data = .ok (0,w1) := if_pos behind
  have kept (safe : ResizeSafe (pos + size) w (w.block (inoGet w inumber)) (blockcount newsize))
      (a : Int) (low : 0 ≤ a) (high : a < len) :
      fileByte w1 (w1.block (inoGet w inumber)) a = fileByte w (w.block (inoGet w inumber)) a := by
    have keptBlocks := resized.kept safe
    have lower := resized.lower
    have room := le_blockcount lenNonneg
    have order := blockcount_mono lenNonneg longer
    rw [size'] at keptBlocks
    rw [min_eq_left order] at keptBlocks
    exact keptBlocks.byte (size' ▸ held.count_top) low (by omega)
  constructor
  · rintro ⟨⟨count,w2⟩,wrote,honest⟩
    have counted := writeRange_count wrote
    obtain ⟨updated,shape,sized⟩ := (writeRange_updated held1 (show 0 ≤ min pos len by omega)
      (show 0 ≤ if pos < newsize then newsize else pos by split <;> omega)
      (show newsize ≤ maxFilesize from resized.top) data).2 _ wrote
    refine ⟨?_,?_⟩
    · by_contra lost
      have order := blockcount_mono lenNonneg longer
      have broken := resized.broken (size'.symm ▸ mapped) lost (m := blockcount newsize)
        (by rw [size']; exact order)
      have kept := honest.mapped
      dsimp only at kept sized
      rw [sized,stored] at kept
      exact broken ((shape _).mp kept)
    · have told := honest.counted
      dsimp only at told
      by_cases before : pos < newsize
      · rw [if_pos before] at counted
        split at counted
        · simp only [Prod.mk.injEq] at counted
          omega
        · omega
      · rw [if_neg before] at counted
        split at counted
        · omega
        · omega
  · rintro ⟨safe,place⟩
    have mapped1 : FileMapped w1 (w1.block (inoGet w inumber)) (blockcount newsize) :=
      resized.mapped safe
    by_cases behind : newsize ≤ min pos len
    · refine ⟨(0,w1),still behind _,⟨by dsimp only; omega,number1,.inl stored,by rwa [stored],
        fun a low high => ?_⟩⟩
      dsimp only at high
      rw [stored] at high
      rw [if_neg (by dsimp only; omega),size',if_pos (by omega)]
      exact kept safe a low (by omega)
    · have start : pos = newsize := by omega
      obtain ⟨w2,wrote,_,sized,bytes,_⟩ := writeRange_bytes held1 (show 0 ≤ min pos len by omega)
        (show min pos len ≤ newsize by omega) (le_refl newsize) (not_le.mp behind) (by omega)
        (by rw [stored]; exact mapped1) data
      obtain ⟨updated,shape,_⟩ := (writeRange_updated held1 (show 0 ≤ min pos len by omega)
        (show 0 ≤ newsize by omega) (show newsize ≤ maxFilesize from resized.top) data).2 _ wrote
      obtain ⟨_,held2,_⟩ := updated.held held1
      rw [Int.sub_self] at wrote
      have zeros : (if pos < newsize then newsize else pos) = newsize :=
        (if_neg (by omega)).trans start
      refine ⟨(0,w2),by rw [zeros]; exact wrote,⟨by dsimp only; omega,held2.names.number,
        .inl (sized.trans stored),by rw [sized,stored]; exact (shape _).mpr mapped1,
        fun a low high => ?_⟩⟩
      dsimp only at high ⊢
      rw [sized,stored] at high
      rw [bytes a low (by omega),if_neg (show ¬(pos ≤ a ∧ a < pos + 0) by omega),size']
      by_cases old : a < len
      · rw [if_neg (by omega),if_pos old]
        exact kept safe a low old
      · rw [if_pos (by omega),if_pos high,if_neg old]

theorem setsize_extent (held : Held w inumber (inoGet w inumber) free)
    (mapped : FileMapped w (w.block (inoGet w inumber))
      (blockcount (word (w.block (inoGet w inumber)) Inode.size)))
    (more : word (w.block (inoGet w inumber)) Inode.size < size) :
    ∃ newsize w1, inodeSetsize w inumber size = .ok (newsize,w1) ∧
      Resized size w (inoGet w inumber) free (newsize,w1) ∧
      newsize = extent (word (w.block (inoGet w inumber)) Inode.size) size free.card := by
  have lenNonneg := held.sizeNonneg
  obtain ⟨total,_,result⟩ := inodeSetsize_spec held.names held.list held.owned lenNonneg held.sizeTop
    (show 0 ≤ size by omega)
  obtain ⟨⟨newsize,w1⟩,ran⟩ := total mapped
  have resized := result _ ran
  exact ⟨newsize,w1,ran,resized,resized.extent held mapped more⟩

/-- A write is honest exactly when it fits, or when its end is past the greatest `off_t` and it
starts behind the length the file could be extended to, or when it starts at that length, or behind a
file that cannot be extended, and the extension loses no index block. -/
theorem write_honest (h : Storage w ilistSize free numbers) (calm : w.exhausted = false)
    (numbered : Numbered ilistSize inumber) (used : 0 < inoGet w inumber) (nonneg : 0 ≤ pos)
    (posTop : pos < 2 ^ 63) (sizeNonneg : 0 ≤ size) (sizeTop : size < 2 ^ 63) (data : Option Block) :
    HonestWrite w inumber pos data size free ↔
      let len := word (w.block (inoGet w inumber)) Inode.size
      let length := extent len (pos + size) free.card
      pos + size ≤ len ∨ pos + size ≤ length ∨ 2 ^ 63 ≤ pos + size ∧ length ≤ pos ∨
      pos + size < 2 ^ 63 ∧ ¬(Fragile (blockcount len) ∧
        free.card + footprint (blockcount len) < footprint (blockcount len + 1)) ∧
      (pos = length ∨ length = len ∧ len ≤ pos) := by
  have held := h.held numbered used
  have mapped := h.mapped calm inumber numbered used
  have lenNonneg := held.sizeNonneg
  have lenTop := held.sizeTop
  have greatest := maxFilesize_lt
  dsimp only
  by_cases past : 2 ^ 63 ≤ pos + size
  · have ran := inodeWrite_wrapped held data nonneg sizeNonneg posTop sizeTop past
    obtain ⟨newsize,_,_,resized,lengthEq⟩ := setsize_extent held mapped
      (show word (w.block (inoGet w inumber)) Inode.size < pos + size by omega)
    have top : newsize ≤ maxFilesize := resized.top
    rw [lengthEq] at top
    have alike : HonestWrite w inumber pos data size free ↔
        extent (word (w.block (inoGet w inumber)) Inode.size) (pos + size) free.card ≤ pos := by
      constructor
      · rintro ⟨r,ran',honest⟩
        obtain rfl : r = (0,w) := Except.ok.inj (ran'.symm.trans ran)
        have told := (honest (by omega) (by omega)).counted
        dsimp only at told
        omega
      · intro behind
        refine ⟨(0,w),ran,fun _ _ => ⟨by dsimp only; omega,rfl,.inr rfl,mapped,fun a low high => ?_⟩⟩
        dsimp only at high ⊢
        rw [if_neg (by omega),if_pos high]
    rw [alike]
    omega
  have sum : Fits (pos + size) := ⟨by omega,by omega⟩
  by_cases inside : pos + size ≤ word (w.block (inoGet w inumber)) Inode.size
  · obtain ⟨r,ran⟩ := inodeWrite_inside held data mapped nonneg sizeNonneg inside
    exact ⟨fun _ => .inl inside,fun _ => ⟨r,ran,fun more => absurd inside (not_le.mpr more)⟩⟩
  have more : word (w.block (inoGet w inumber)) Inode.size < pos + size := not_le.mp inside
  obtain ⟨newsize,w1,ran,resized,lengthEq⟩ := setsize_extent held mapped more
  have upper : newsize ≤ pos + size := resized.upper
  unfold HonestWrite
  dsimp only
  rw [← lengthEq]
  by_cases fits : pos + size ≤ newsize
  · obtain rfl : newsize = pos + size := by omega
    obtain ⟨r,wrote⟩ := write_fits held data mapped nonneg sizeNonneg sum more ran resized
    exact ⟨fun _ => .inr (.inl le_rfl),fun _ => ⟨r,wrote,fun _ short => absurd short (lt_irrefl _)⟩⟩
  · have short : newsize < pos + size := not_le.mp fits
    have split := write_short held data mapped nonneg sum more ran resized short
    rw [resized.safe_iff held mapped more short] at split
    simp only [more,short,forall_const,inside,fits,past,not_le.mp past,false_and,true_and,false_or]
    exact split

end

section
attribute [local instance] Geometry.small

set_option maxRecDepth 100000 in
theorem tinyWrite_made : ∃ w0 answers w w', mkfsStorage tinyDisk 1 = .ok w0 ∧
    runCalls w0 [.allocate,.allocate] = .ok (answers,w) ∧ w.exhausted = false ∧ 0 < inoGet w 0 ∧
    word (w.block (inoGet w 0)) Inode.size = 0 ∧ word (w.block 0) Superblock.freeBlocks = 2 ∧
    inodeWrite w 0 0 none 1000 = .ok (0,w') := by
  have ran : (match mkfsStorage tinyDisk 1 with
      | .ok w0 => match runCalls w0 [.allocate,.allocate] with
        | .ok (_,w) => !w.exhausted && decide (0 < inoGet w 0) &&
          decide (word (w.block (inoGet w 0)) Inode.size = 0) &&
          decide (word (w.block 0) Superblock.freeBlocks = 2) &&
          (match inodeWrite w 0 0 none 1000 with
            | .ok (count,_) => decide (count = 0)
            | .error _ => false)
        | .error _ => false
      | .error _ => false) = true := by decide +kernel
  split at ran
  · rename_i w0 made
    split at ran
    · rename_i answers w calls
      rw [Bool.and_eq_true] at ran
      obtain ⟨ran,wrote⟩ := ran
      simp only [Bool.and_eq_true,Bool.not_eq_true',decide_eq_true_eq] at ran
      split at wrote
      · rename_i count w' call
        have none := of_decide_eq_true wrote
        subst none
        exact ⟨w0,answers,w,w',made,calls,ran.1.1.1,ran.1.1.2,ran.1.2,ran.2,call⟩
      · cases wrote
    · cases ran
  · cases ran

theorem tinyWrite_storage {w0 w : World} {answers : List Answer}
    (made : mkfsStorage tinyDisk 1 = .ok w0)
    (ran : runCalls w0 [.allocate,.allocate] = .ok (answers,w))
    (count : word (w.block 0) Superblock.freeBlocks = 2) :
    ∃ free numbers, Storage w 1 free numbers ∧ free.card = 2 := by
  have room : 1 + 1 < tinyDisk.nblocks := by decide
  obtain ⟨w0',made',_,_,_,fresh⟩ := mkfsStorage_spec (le_refl 1) room
  obtain rfl : w0' = w0 := Except.ok.inj (made'.symm.trans made)
  obtain ⟨_,_,free,numbers,h,_⟩ := runCalls_storage [.allocate,.allocate] (by simp [Call.Proper])
    _ _ _ _ _ fresh ran
  obtain ⟨nodes,list⟩ := h.list
  have counted := list.count
  rw [count] at counted
  exact ⟨free,numbers,h,by exact_mod_cast counted.symm⟩

/-- A write that does not fit and starts before the length the file gets wipes what it should
write, and reports that it wrote nothing. -/
theorem write_dishonest : ∃ w0 answers w free numbers, mkfsStorage tinyDisk 1 = .ok w0 ∧
    runCalls w0 [.allocate,.allocate] = .ok (answers,w) ∧ Storage w 1 free numbers ∧
    w.exhausted = false ∧ Numbered 1 0 ∧ 0 < inoGet w 0 ∧ ¬HonestWrite w 0 0 none 1000 free := by
  obtain ⟨w0,answers,w,w',made,ran,calm,used,size,count,wrote⟩ := tinyWrite_made
  obtain ⟨free,numbers,h,card⟩ := tinyWrite_storage made ran count
  refine ⟨w0,answers,w,free,numbers,made,ran,h,calm,by decide,used,?_⟩
  rintro ⟨r,wrote',honest⟩
  obtain rfl : r = (0,w') := Except.ok.inj (wrote'.symm.trans wrote)
  dsimp only at honest
  rw [size,card] at honest
  have length : extent 0 (0 + 1000) 2 = 704 := by decide +kernel
  rw [length] at honest
  have told := (honest (by decide) (by decide)).counted
  revert told
  decide

/-- A file of 300 bytes is extended to the second block, the last one, and not written behind it. -/
theorem write_honest_tiny : ∃ w free, word (w.block (inoGet w 0)) Inode.size = 300 ∧ free.card = 1 ∧
    HonestWrite w 0 704 (some fun _ => 66) 10 free := by
  obtain ⟨w,free,numbers,h,calm,used,size,card⟩ := tinyFile_storage
  refine ⟨w,free,size,card,(write_honest h calm (by decide) used (by decide) (by decide) (by decide)
    (by decide) (some fun _ => 66)).mpr ?_⟩
  dsimp only
  rw [size,card]
  have length : extent 300 (704 + 10) 1 = 704 := by decide +kernel
  have enough : ¬1 + footprint (blockcount 300) < footprint (blockcount 300 + 1) := by decide +kernel
  exact .inr (.inr (.inr ⟨by decide,fun lost => enough lost.2,.inl length.symm⟩))

end

end CandyFs
