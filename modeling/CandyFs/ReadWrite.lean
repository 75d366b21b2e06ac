import CandyFs.PointerTree
import CandyFs.Inode

/-! `inode_indirect_readwrite`: it copies the bytes of `[pos,endpos)` that lie under a pointer
between the caller's buffer and the data blocks, and writes to no other block.
-/
namespace CandyFs
open Bytes Finset ChildRange

/-- Byte `i` of the caller's buffer; a null pointer stands for zeros. -/
def source (data : Option Block) (i : Nat) : UInt8 :=
  match data with
  | some data => data i
  | none => 0

theorem copyIn_apply (block : Block) (doff soff n k : Nat) (data : Option Block) :
    copyIn block doff data soff n k =
      if doff ≤ k ∧ k < doff + n then source data (soff + (k - doff)) else block k := by
  cases data <;> rfl

variable [Geometry]

/-- `w'` is `w` with blocks in `touched` overwritten. -/
structure Edit (w w' : World) (touched : Int → Prop) : Prop where
  nblocks : w'.nblocks = w.nblocks
  stack : w'.stack = w.stack
  exhausted : w'.exhausted = w.exhausted
  block : ∀ b, 0 ≤ b → ¬touched b → w'.block b = w.block b

theorem Edit.refl (w : World) (touched : Int → Prop) : Edit w w touched :=
  ⟨rfl,rfl,rfl,fun _ _ _ => rfl⟩

theorem Edit.mono {w w' : World} {small large : Int → Prop} (h : Edit w w' small)
    (le : ∀ b, small b → large b) : Edit w w' large :=
  { h with block := fun b low outside => h.block b low fun inside => outside (le b inside) }

theorem Edit.trans {w w' w'' : World} {touched : Int → Prop} (first : Edit w w' touched)
    (second : Edit w' w'' touched) : Edit w w'' touched where
  nblocks := second.nblocks.trans first.nblocks
  stack := second.stack.trans first.stack
  exhausted := second.exhausted.trans first.exhausted
  block := fun b low outside => (second.block b low outside).trans (first.block b low outside)

theorem Edit.put {w : World} {b : Int} (x : Block) (low : 0 ≤ b) : Edit w (w.put b x) (· = b) :=
  ⟨rfl,rfl,rfl,fun _ low' outside => put_block_ne _ _ _ low low' outside⟩

theorem Edit.frame {w w' : World} {touched : Int → Prop} (h : Edit w w' touched)
    (positive : ∀ b, touched b → 1 ≤ b) : Frame w w' touched where
  nblocks := h.nblocks
  stack := h.stack
  exhausted := fun e => h.exhausted.trans e
  block := fun b low outside => h.block b (by omega) outside
  super := fun j _ => congrFun (h.block 0 le_rfl fun inside => by
    have := positive 0 inside
    omega) j

theorem Edit.moved {w w' : World} {touched : Int → Prop} {free used used' : Multiset Int}
    {complete : Prop} (h : Edit w w' touched) (list : FreeSet w free) (owned : Owned w (free + used))
    (inside : ∀ b, touched b → b ∈ used) (same : used' = used) :
    Moved w w' free used free used' complete := by
  have apart : ∀ b ∈ free, ¬touched b := fun b member hit =>
    Multiset.disjoint_left.mp (Multiset.nodup_add.mp owned.1).2.2 member (inside b hit)
  have positive : ∀ b, touched b → 1 ≤ b := fun b hit => (owned.2 b (by simp [inside b hit])).1
  have zero : w'.block 0 = w.block 0 := h.block 0 le_rfl fun hit => by
    have := positive 0 hit
    omega
  subst same
  refine ⟨list.imp fun _ l => l.congr (fun b member => ?_) (by rw [zero]) (by rw [zero]),
    (h.frame positive).mono fun b hit => by simp [inside b hit],le_rfl,fun _ => rfl⟩
  have low := (owned.2 b (by simp [member])).1
  exact h.block b (by omega) (apart b member)

theorem Edit.shape {w w' : World} {level : Nat} {p : Int} (h : Edit w w' (· ∈ leaves w level p))
    (owned : Owned w (tree w level p)) :
    (∀ b ∈ index w level p, w'.block b = w.block b) ∧ index w' level p = index w level p ∧
      leaves w' level p = leaves w level p ∧ tree w' level p = tree w level p := by
  have same : ∀ b ∈ index w level p, w'.block b = w.block b := by
    intro b member
    have low := (owned.2 b (Multiset.mem_of_le (index_le_tree _ _ _) member)).1
    refine h.block b (by omega) fun inside => ?_
    have nodup := owned.1
    rw [tree_eq_add] at nodup
    exact Multiset.disjoint_left.mp (Multiset.nodup_add.mp nodup).2.2 member inside
  obtain ⟨sameIndex,sameLeaves⟩ := index_congr same
  exact ⟨same,sameIndex,sameLeaves,by rw [tree_eq_add,tree_eq_add,sameIndex,sameLeaves]⟩

/-- The byte at offset `a` of the file, when its block lies under the pointer. -/
def byteAt (w : World) (level : Nat) (p cur a : Int) : UInt8 :=
  w.block (dataPtr w level p cur (a / blocksize)) (a % blocksize).toNat

theorem byteAt_child {w : World} {level j : Nat} {p cur a : Int}
    (low : (cur + j * indirectCount level) * blocksize ≤ a)
    (high : a < (cur + j * indirectCount level) * blocksize + indirectCount level * blocksize) :
    byteAt w (level + 1) p cur a =
      byteAt w level (word (w.block p) j) (cur + j * indirectCount level) a := by
  have large := blocksize_large
  have unit : (0 : Int) < blocksize := by omega
  have first := (Int.le_ediv_iff_mul_le unit).mpr low
  have last := (Int.ediv_lt_iff_lt_mul unit).mpr
    (show a < (cur + j * indirectCount level + indirectCount level) * blocksize by
      rw [Int.add_mul _ (indirectCount level : Int)]
      exact high)
  simp only [byteAt,dataPtr,child_unique first last]

theorem byteAt_frame {w w' : World} {level : Nat} (bound : level ≤ 3) {p cur n a : Int}
    (mapped : Mapped w level p cur n) (low : cur * blocksize ≤ a)
    (high : a < cur * blocksize + indirectCount level * blocksize) (below : a < n * blocksize)
    (same : ∀ b ∈ tree w level p, w'.block b = w.block b) :
    byteAt w' level p cur a = byteAt w level p cur a := by
  have large := blocksize_large
  have unit : (0 : Int) < blocksize := by omega
  have first := (Int.le_ediv_iff_mul_le unit).mpr low
  have last := (Int.ediv_lt_iff_lt_mul unit).mpr (show a < (cur + indirectCount level) * blocksize by
    rw [Int.add_mul]
    exact high)
  have inside := (Int.ediv_lt_iff_lt_mul unit).mpr below
  obtain ⟨ptr,block⟩ := Kept.frame bound mapped le_rfl same _ first last inside
  rw [byteAt,ptr,block]
  rfl

/-- What reading or writing `[pos,endpos)` under one pointer achieves. -/
structure Accessed (level : Nat) (pos endpos : Int) (write : Bool) (w : World) (p cur : Int)
    (data : Option Block) (r : ReadwriteResult) : Prop where
  edit : Edit w r.disk (· ∈ leaves w level p)
  count : r.count = overlap (cur * blocksize) (indirectCount level * blocksize) pos endpos
  wrote : write = true → r.data = data ∧ ∀ n, Mapped w level p cur n → ∀ a, cur * blocksize ≤ a →
    a < cur * blocksize + indirectCount level * blocksize → a < n * blocksize →
    byteAt r.disk level p cur a =
      if pos ≤ a ∧ a < endpos then source data (a - pos).toNat else byteAt w level p cur a
  read : write = false → r.disk = w ∧ ∀ d, data = some d → ∃ d', r.data = some d' ∧ ∀ k : Nat,
    d' k = if cur * blocksize ≤ pos + k ∧
        pos + k < cur * blocksize + indirectCount level * blocksize ∧ pos + k < endpos
      then byteAt w level p cur (pos + k) else d k

def ReadwriteSpec (level : Nat) (pos endpos : Int) (write : Bool)
    (readwrite : World → Int → Int → Option Block → Run ReadwriteResult) : Prop :=
  ∀ (w : World) (p cur : Int) (data : Option Block), Owned w (tree w level p) →
    cur * blocksize < endpos → pos < cur * blocksize + indirectCount level * blocksize →
    (∀ n, Mapped w level p cur n → endpos ≤ n * blocksize → ∃ r, readwrite w p cur data = .ok r) ∧
    ∀ r, readwrite w p cur data = .ok r → Accessed level pos endpos write w p cur data r

theorem byte_in_block {cur a : Int} (low : cur * blocksize ≤ a)
    (high : a < cur * blocksize + blocksize) :
    a / (blocksize : Int) = cur ∧ (a % (blocksize : Int)).toNat = (a - cur * blocksize).toNat := by
  have large := blocksize_large
  have quotient : a / (blocksize : Int) = cur := by
    rw [Int.ediv_eq_iff_of_pos (by omega)]
    exact ⟨low,by linarith⟩
  have parts := Int.mul_ediv_add_emod a blocksize
  rw [quotient,Int.mul_comm] at parts
  exact ⟨quotient,by omega⟩

section
variable {pos endpos : Int} {write : Bool}

theorem readwriteBlock_spec (proper : pos < endpos) {w : World} {p cur : Int}
    (data : Option Block) (low : 0 ≤ p) (high : p < w.nblocks) (begins : cur * blocksize < endpos)
    (ends : pos < cur * blocksize + blocksize) (present : p ≠ eof) :
    Accessed 0 pos endpos write w p cur data (readwriteBlock pos endpos write w p cur data) := by
  have large := blocksize_large
  have leaf : ∀ b, b = p → b ∈ leaves w 0 p := by
    rintro b rfl
    simp [leaves,pointer_of_ne present]
  unfold readwriteBlock
  dsimp only
  rw [diskRead_block _ low high]
  generalize atStart : (if cur * (blocksize : Int) < pos then pos - cur * blocksize else 0) = blockDelta
  generalize atBuffer : (if cur * (blocksize : Int) < pos then 0 else cur * blocksize - pos) = dataDelta
  generalize size : (if endpos < cur * (blocksize : Int) + blocksize then
    blocksize - blockDelta - (cur * blocksize + blocksize - endpos) else blocksize - blockDelta) =
    copySize
  have facts : 0 ≤ blockDelta ∧ 0 ≤ dataDelta ∧ 0 < copySize ∧
      cur * blocksize + blockDelta = pos + dataDelta ∧
      blockDelta + copySize ≤ blocksize ∧
      copySize = overlap (cur * blocksize) blocksize pos endpos ∧
      (cur * blocksize + blockDelta + copySize = endpos ∨
        blockDelta + copySize = blocksize ∧ cur * blocksize + blocksize ≤ endpos) ∧
      (pos = cur * blocksize + blockDelta ∨ blockDelta = 0 ∧ pos ≤ cur * blocksize) := by
    unfold overlap
    split at atStart <;> split at atBuffer <;> split at size <;> omega
  obtain ⟨startNonneg,bufferNonneg,sizePos,aligned,fits,sizeEq,atEnd,atBegin⟩ := facts
  cases write with
  | true =>
    simp only [if_true]
    rw [diskWrite_block _ low high]
    refine ⟨(Edit.put _ low).mono leaf,?_,fun _ => ⟨rfl,fun n mapped a lowa higha below => ?_⟩,by simp⟩
    · simp only [indirectCount,Nat.cast_one,one_mul]
      exact sizeEq
    · simp only [indirectCount,Nat.cast_one,one_mul] at higha
      obtain ⟨_,byte⟩ := byte_in_block lowa higha
      simp only [byteAt,dataPtr,put_block_self,byte,copyIn_apply]
      by_cases inside : pos ≤ a ∧ a < endpos
      · rw [if_pos inside,if_pos (by omega)]
        congr 1
        omega
      · rw [if_neg inside,if_neg (by omega),if_pos (by omega)]
  | false =>
    refine ⟨Edit.refl _ _,?_,by simp,fun _ => ⟨rfl,?_⟩⟩
    · simp only [indirectCount,Nat.cast_one,one_mul]
      exact sizeEq
    · rintro d rfl
      refine ⟨_,rfl,fun k => ?_⟩
      simp only [indirectCount,Nat.cast_one,one_mul,copyBytes]
      by_cases inside : cur * blocksize ≤ pos + k ∧ pos + k < cur * blocksize + blocksize ∧
        pos + k < endpos
      · obtain ⟨_,byte⟩ := byte_in_block inside.1 inside.2.1
        rw [if_pos inside,if_pos (by omega),byteAt,byte,dataPtr]
        congr 1
        omega
      · rw [if_neg inside,if_neg (by omega)]

/-- What the loop over `count` children from `first` on achieves; `value` gives the bytes of
the file under the children before the loop. -/
structure AccessedChildren (level : Nat) (pos endpos : Int) (write : Bool) (value : Int → UInt8)
    (w : World) (cur : Int) (first n : Nat) (node : Block) (data : Option Block) (sum : Int)
    (r : ReadwriteResult) : Prop where
  edit : Edit w r.disk fun b => ∃ j, first ≤ j ∧ j < first + n ∧ b ∈ leaves w level (word node j)
  count : r.count = sum + overlap ((cur + first * indirectCount level) * blocksize)
    (n * (indirectCount level * blocksize)) pos endpos
  wrote : write = true → r.data = data ∧ ∀ j : Nat, first ≤ j → j < first + n → ∀ m,
    Mapped w level (word node j) (cur + j * indirectCount level) m → ∀ a,
    (cur + j * indirectCount level) * blocksize ≤ a →
    a < (cur + j * indirectCount level) * blocksize + indirectCount level * blocksize →
    a < m * blocksize →
    byteAt r.disk level (word node j) (cur + j * indirectCount level) a =
      if pos ≤ a ∧ a < endpos then source data (a - pos).toNat
      else byteAt w level (word node j) (cur + j * indirectCount level) a
  read : write = false → r.disk = w ∧ ∀ d, data = some d → ∃ d', r.data = some d' ∧ ∀ k : Nat,
    d' k = if (cur + first * indirectCount level) * blocksize ≤ pos + k ∧
        pos + k < (cur + (first + n : Nat) * indirectCount level) * blocksize ∧ pos + k < endpos
      then value (pos + k) else d k

variable {level : Nat} {readwrite : World → Int → Int → Option Block → Run ReadwriteResult}

theorem readwriteChildren_spec (bound : level ≤ 3)
    (spec : ReadwriteSpec level pos endpos write readwrite) (cur : Int) (node : Block) (n : Nat) :
    ∀ (first : Nat) (w : World) (data : Option Block) (sum : Int) (value : Int → UInt8),
    Owned w (kids w level node) →
    (∀ j : Nat, first ≤ j → j < first + n → j < singleIndirectCount ∧
      (cur + j * indirectCount level) * blocksize < endpos ∧
      pos < (cur + j * indirectCount level) * blocksize + indirectCount level * blocksize) →
    (write = false → ∀ j : Nat, j < singleIndirectCount → ∀ a,
      (cur + j * indirectCount level) * blocksize ≤ a →
      a < (cur + j * indirectCount level) * blocksize + indirectCount level * blocksize →
      byteAt w level (word node j) (cur + j * indirectCount level) a = value a) →
    (∀ m, (∀ j : Nat, j < singleIndirectCount →
        Mapped w level (word node j) (cur + j * indirectCount level) m) → endpos ≤ m * blocksize →
      ∃ r, readwriteChildren readwrite cur (indirectCount level) node n first w data sum = .ok r) ∧
    ∀ r, readwriteChildren readwrite cur (indirectCount level) node n first w data sum = .ok r →
      AccessedChildren level pos endpos write value w cur first n node data sum r := by
  have large := blocksize_large
  induction n with
  | zero =>
    intro first w data sum value owned range agrees
    refine ⟨fun _ _ _ => ⟨_,rfl⟩,fun r run => ?_⟩
    simp only [readwriteChildren,Except.ok.injEq] at run
    subst run
    have none := overlap_zero ((cur + first * indirectCount level) * blocksize) pos endpos
    refine ⟨Edit.refl _ _,by simp [none],fun _ => ⟨rfl,fun j _ _ => by omega⟩,
      fun _ => ⟨rfl,fun d same => ⟨d,same,fun k => ?_⟩⟩⟩
    rw [if_neg (by rw [Nat.add_zero]; omega)]
  | succ n ih =>
    intro first w data sum value owned range agrees
    have here := range first le_rfl (by omega)
    have part : Owned w (tree w level (word node first)) :=
      owned.mono (le_sum_range (f := fun j => tree w level (word node j)) here.1)
    obtain ⟨total,accessed⟩ := spec w (word node first) (cur + first * indirectCount level) data
      part here.2.1 here.2.2
    have next : ((first : Int) + 1) = ((first + 1 : Nat) : Int) := by push_cast; rfl
    simp only [readwriteChildren,Int.toNat_natCast,next]
    -- the other children keep all their blocks, the first one its shape
    have others (c : ReadwriteResult)
        (h : Accessed level pos endpos write w (word node first) (cur + first * indirectCount level)
          data c) (j : Nat) (inside : j < singleIndirectCount) (differ : j ≠ first) (b : Int)
        (member : b ∈ tree w level (word node j)) : c.disk.block b = w.block b := by
      have low := (owned.2 b (Multiset.mem_sum.mpr ⟨j,mem_range.mpr inside,member⟩)).1
      refine h.edit.block b (by omega) fun inLeaves => differ ?_
      exact sum_range_apart owned.1 inside here.1 member
        (Multiset.mem_of_le (leaves_le_tree _ _ _) inLeaves)
    have sameKids (c : ReadwriteResult)
        (h : Accessed level pos endpos write w (word node first) (cur + first * indirectCount level)
          data c) : kids c.disk level node = kids w level node := by
      refine sum_congr rfl fun j member => ?_
      by_cases head : j = first
      · subst head
        exact (h.edit.shape part).2.2.2
      · exact tree_congr (others c h j (mem_range.mp member) head)
    have ownedAfter (c : ReadwriteResult)
        (h : Accessed level pos endpos write w (word node first) (cur + first * indirectCount level)
          data c) : Owned c.disk (kids c.disk level node) := by
      rw [sameKids c h]
      exact ⟨owned.1,fun b member => by rw [h.edit.nblocks]; exact owned.2 b member⟩
    have pos' : (0 : Int) < indirectCount level := by exact_mod_cast indirectCount_pos bound
    have unit : (0 : Int) < indirectCount level * blocksize := Int.mul_pos pos' (by omega)
    have run_next : (cur + ((first + 1 : Nat) : Int) * indirectCount level) * blocksize =
        (cur + first * indirectCount level) * blocksize + indirectCount level * blocksize := by
      push_cast; ring
    constructor
    · intro m mapped enough
      obtain ⟨c,run⟩ := total m (mapped first here.1) enough
      have h := accessed c run
      rw [run,ok_bind]
      refine (ih (first + 1) c.disk c.data (sum + c.count) value (ownedAfter c h)
        (fun j low high => range j (by omega) (by omega)) ?_).1 m (fun j inside => ?_) enough
      · intro reading
        rw [(h.read reading).1]
        exact agrees reading
      · by_cases head : j = first
        · subst head
          exact mapped_frame (h.edit.shape part).1 (mapped j inside)
        · exact mapped_frame (fun b member => others c h j inside head b
            (Multiset.mem_of_le (index_le_tree _ _ _) member)) (mapped j inside)
    · intro r run
      obtain ⟨c,ran,run⟩ := bind_ok.mp run
      have h := accessed c ran
      have rest := (ih (first + 1) c.disk c.data (sum + c.count) value (ownedAfter c h)
        (fun j low high => range j (by omega) (by omega)) fun reading => by
          rw [(h.read reading).1]
          exact agrees reading).2 r run
      have count := rest.count
      have headCount := h.count
      have rest_nonneg : (0 : Int) ≤ n * (indirectCount level * blocksize) :=
        Int.mul_nonneg (by omega) unit.le
      have both := overlap_add ((cur + first * indirectCount level) * blocksize) pos endpos unit.le
        rest_nonneg
      rw [run_next] at count
      refine ⟨?_,?_,fun writing => ?_,fun reading => ?_⟩
      · refine (h.edit.mono fun b member => ⟨first,le_rfl,by omega,member⟩).trans
          (rest.edit.mono fun b => ?_)
        rintro ⟨j,low,high,member⟩
        refine ⟨j,by omega,by omega,?_⟩
        have sameLeaves : leaves c.disk level (word node j) = leaves w level (word node j) :=
          (index_congr fun b member => others c h j (range j (by omega) (by omega)).1 (by omega) b
            (Multiset.mem_of_le (index_le_tree _ _ _) member)).2
        rwa [sameLeaves] at member
      · rw [show ((n + 1 : Nat) : Int) * (indirectCount level * blocksize) =
          indirectCount level * blocksize + n * (indirectCount level * blocksize) by push_cast; ring,both]
        omega
      · obtain ⟨sameData,headBytes⟩ := h.wrote writing
        obtain ⟨sameData',restBytes⟩ := rest.wrote writing
        refine ⟨sameData'.trans sameData,fun j low high m mapped a lowa higha below => ?_⟩
        by_cases head : j = first
        · subst head
          rw [← headBytes m mapped a lowa higha below]
          obtain ⟨sameIndex,_,_,sameTree⟩ := h.edit.shape part
          refine byteAt_frame bound (mapped_frame sameIndex mapped) lowa higha below fun b member => ?_
          have whole := ownedAfter c h
          have positive := (whole.2 b (Multiset.mem_sum.mpr ⟨j,mem_range.mpr here.1,member⟩)).1
          refine rest.edit.block b (by omega) ?_
          rintro ⟨i,lowi,highi,inLeaves⟩
          have same := sum_range_apart whole.1 here.1 (range i (by omega) (by omega)).1 member
            (Multiset.mem_of_le (leaves_le_tree _ _ _) inLeaves)
          omega
        · have before := others c h j (range j low high).1 head
          have later := restBytes j (by omega) (by omega) m (mapped_frame (fun b member => before b
            (Multiset.mem_of_le (index_le_tree _ _ _) member)) mapped) a lowa higha below
          rw [later,sameData,byteAt_frame bound mapped lowa higha below before]
      · obtain ⟨sameDisk,headData⟩ := h.read reading
        obtain ⟨sameDisk',restData⟩ := rest.read reading
        refine ⟨sameDisk'.trans sameDisk,fun d given => ?_⟩
        obtain ⟨d1,given1,copied1⟩ := headData d given
        obtain ⟨d2,given2,copied2⟩ := restData d1 given1
        refine ⟨d2,given2,fun k => ?_⟩
        have finish : (cur + ((first + (n + 1) : Nat) : Int) * indirectCount level) * blocksize =
            (cur + first * indirectCount level) * blocksize + indirectCount level * blocksize +
              n * (indirectCount level * blocksize) := by push_cast; ring
        rw [copied2,show first + 1 + n = first + (n + 1) by omega,copied1,run_next,finish]
        have here' := agrees reading first here.1 (pos + k)
        by_cases inHead : pos + k < (cur + first * indirectCount level) * blocksize +
          indirectCount level * blocksize
        · rw [if_neg (by omega)]
          by_cases inside : (cur + first * indirectCount level) * blocksize ≤ pos + k ∧ pos + k < endpos
          · rw [if_pos ⟨inside.1,inHead,inside.2⟩,if_pos (by omega),here' inside.1 inHead]
          · rw [if_neg (by omega),if_neg (by omega)]
        · by_cases inside : pos + k < (cur + first * indirectCount level) * blocksize +
            indirectCount level * blocksize + n * (indirectCount level * blocksize) ∧ pos + k < endpos
          · rw [if_pos ⟨by omega,inside⟩,if_pos ⟨by omega,inside⟩]
          · rw [if_neg (by omega),if_neg (by omega),if_neg (by omega)]

theorem inodeIndirectReadwrite_spec (nonneg : 0 ≤ pos) (proper : pos < endpos) {level : Nat}
    (bound : level ≤ 3) :
    ReadwriteSpec level pos endpos write (inodeIndirectReadwrite pos endpos write level) := by
  have large := blocksize_large
  induction level with
  | zero =>
    intro w p cur data owned begins ends
    simp only [indirectCount,Nat.cast_one,one_mul] at ends
    constructor
    · intro n mapped enough
      have present : p ≠ eof := mapped.mpr (by
        by_contra past
        have := Int.mul_le_mul_of_nonneg_right (show n ≤ cur by omega) (show 0 ≤ (blocksize : Int) by omega)
        omega)
      simp only [inodeIndirectReadwrite,check_true present,ok_bind]
      exact ⟨_,rfl⟩
    · intro r run
      obtain ⟨_,present,run⟩ := bind_ok.mp run
      rw [check_ok] at present
      rw [Except.ok.injEq] at run
      subst run
      have range := owned.2 p (mem_tree_self present)
      exact readwriteBlock_spec proper data (by omega) range.2 begins ends present
  | succ level ih =>
    intro w p cur data owned begins ends
    have pos' : (0 : Int) < indirectCount level := by
      exact_mod_cast indirectCount_pos (show level ≤ 3 by omega)
    have unit : (0 : Int) < blocksize := by omega
    have fanout : (0 : Int) < singleIndirectCount := by
      exact_mod_cast indirectCount_pos (show 1 ≤ 3 by omega)
    have span : (indirectCount (level + 1) : Int) * blocksize =
        singleIndirectCount * (indirectCount level * blocksize) := by
      rw [indirectCount_succ bound]
      push_cast
      ring
    have unit' : (0 : Int) < indirectCount level * blocksize := Int.mul_pos pos' unit
    by_cases present : p ≠ eof
    swap
    · simp only [inodeIndirectReadwrite]
      refine ⟨fun n mapped enough => absurd (mapped.1.mpr ?_) present,fun r run => ?_⟩
      · by_contra past
        have := Int.mul_le_mul_of_nonneg_right (show n ≤ cur by omega) unit.le
        omega
      · obtain ⟨_,checked,_⟩ := bind_ok.mp run
        exact absurd (check_ok.mp checked) present
    have range := owned.2 p (mem_tree_self present)
    rw [tree_succ present] at owned
    have ownedKids : Owned w (kids w level (w.block p)) := owned.mono (Multiset.le_cons_self _ _)
    have ordered := startIdx_le_endIdx unit' fanout proper begins (span ▸ ends)
    have whole := overlap_children unit' fanout proper begins (span ▸ ends)
    have within := endIdx_lt (n := singleIndirectCount) (c := cur * blocksize) (b := endpos) unit'
    have covers := startIdx_covers (c := cur * blocksize) (a := pos) unit'
    have covers' := endIdx_covers (n := singleIndirectCount) (c := cur * blocksize) (b := endpos) unit'
    have starts (j : Nat) := startIdx_le_iff (c := cur * blocksize) (a := pos) unit' (i := j) (by omega)
    have stops (j : Nat) (inside : j < singleIndirectCount) := le_endIdx_iff (n := singleIndirectCount)
      (c := cur * blocksize) (b := endpos) unit' (i := j) (by omega)
    have place (j : Int) : (cur + j * indirectCount level) * blocksize =
        cur * blocksize + j * (indirectCount level * blocksize) := by ring
    simp only [inodeIndirectReadwrite,check_true present,ok_bind]
    rw [diskRead_block _ (by omega) range.2,startIdx_scale pos' unit nonneg,
      lastIdx_scale pos' unit (by omega)]
    obtain ⟨first,firstEq⟩ := Int.eq_ofNat_of_zero_le
      (startIdx_nonneg (c := cur * blocksize) (a := pos) unit')
    obtain ⟨count,countEq⟩ := Int.eq_ofNat_of_zero_le (show 0 ≤ endIdx singleIndirectCount
      (cur * blocksize) (indirectCount level * blocksize) endpos + 1 -
      startIdx (cur * blocksize) (indirectCount level * blocksize) pos by omega)
    have finishEq : endIdx singleIndirectCount (cur * blocksize) (indirectCount level * blocksize)
      endpos = first + count - 1 := by omega
    rw [countEq,firstEq,← span] at whole
    rw [countEq,firstEq,Int.toNat_natCast]
    rw [finishEq] at covers' stops within
    rw [firstEq] at covers starts
    have loopSpec := readwriteChildren_spec (by omega) (ih (by omega)) cur (w.block p) count first w
      data 0 (byteAt w (level + 1) p cur) ownedKids (fun j low high => by
        have start := (starts j).mp (by omega)
        have stop := (stops j (by omega)).mp (by omega)
        rw [Int.add_mul] at start
        rw [place]
        exact ⟨by omega,stop,by omega⟩) fun _ j _ a low high => (byteAt_child low high).symm
    refine ⟨fun n mapped enough => loopSpec.1 n (mapped.2 present) enough,fun r run => ?_⟩
    have rest := loopSpec.2 r run
    have total := rest.count
    rw [place,whole,zero_add] at total
    have edit : Edit w r.disk (· ∈ leaves w (level + 1) p) := rest.edit.mono fun b => by
      rintro ⟨j,_,last,member⟩
      rw [leaves,if_neg present]
      exact Multiset.mem_sum.mpr ⟨j,mem_range.mpr (by omega),member⟩
    refine ⟨edit,total,fun writing => ?_,fun reading => ?_⟩
    · obtain ⟨sameData,bytes⟩ := rest.wrote writing
      refine ⟨sameData,fun n mapped a low high below => ?_⟩
      obtain ⟨j,inside,lowj,highj⟩ : ∃ j : Nat, j < singleIndirectCount ∧
          (cur + j * indirectCount level) * blocksize ≤ a ∧
          a < (cur + j * indirectCount level) * blocksize + indirectCount level * blocksize := by
        obtain ⟨j,inside,_,lowj,highj⟩ := child_exists (c := cur) (x := a / blocksize) bound
          ((Int.le_ediv_iff_mul_le unit).mpr low)
          ((Int.ediv_lt_iff_lt_mul unit).mpr (by rw [Int.add_mul]; exact high))
        refine ⟨j,inside,(Int.le_ediv_iff_mul_le unit).mp lowj,?_⟩
        rw [← Int.add_mul]
        exact (Int.ediv_lt_iff_lt_mul unit).mp highj
      have fresh := (Multiset.nodup_cons.mp owned.1).1
      have node : r.disk.block p = w.block p := rest.edit.block p (by omega) (by
        rintro ⟨i,_,last,member⟩
        exact fresh (Multiset.mem_sum.mpr ⟨i,mem_range.mpr (by omega),
          Multiset.mem_of_le (leaves_le_tree _ _ _) member⟩))
      rw [byteAt_child lowj highj,byteAt_child lowj highj,node]
      by_cases visited : first ≤ j ∧ j < first + count
      · exact bytes j visited.1 visited.2 n (mapped.2 present j inside) a lowj highj below
      · have skipped : ¬(pos ≤ a ∧ a < endpos) := by
          have start := (starts j).not
          have stop := (stops j inside).not
          rw [Int.add_mul] at start
          rw [place] at lowj highj
          omega
        rw [if_neg skipped]
        refine byteAt_frame (by omega) (mapped.2 present j inside) lowj highj below fun b member => ?_
        have positive := (ownedKids.2 b (Multiset.mem_sum.mpr ⟨j,mem_range.mpr inside,member⟩)).1
        refine rest.edit.block b (by omega) ?_
        rintro ⟨i,lowi,highi,inLeaves⟩
        have same := sum_range_apart ownedKids.1 inside (show i < singleIndirectCount by omega) member
          (Multiset.mem_of_le (leaves_le_tree _ _ _) inLeaves)
        omega
    · obtain ⟨sameDisk,copied⟩ := rest.read reading
      refine ⟨sameDisk,fun d given => ?_⟩
      obtain ⟨d',given',bytes⟩ := copied d given
      refine ⟨d',given',fun k => ?_⟩
      have low : cur * blocksize + first * (indirectCount level * blocksize) ≤ pos + k ↔
          cur * blocksize ≤ pos + k := by
        have : (0 : Int) ≤ first * (indirectCount level * blocksize) :=
          Int.mul_nonneg (by omega) unit'.le
        rcases covers with zero | before
        · rw [zero,Int.zero_mul,add_zero]
        · omega
      have high : pos + k < cur * blocksize +
          ((first + count : Nat) : Int) * (indirectCount level * blocksize) ∧ pos + k < endpos ↔
          pos + k < cur * blocksize + indirectCount (level + 1) * blocksize ∧ pos + k < endpos := by
        rcases covers' with full | after
        · rw [span,show ((first + count : Nat) : Int) = singleIndirectCount by omega]
        · have inside := Int.mul_le_mul_of_nonneg_right
            (show ((first + count : Nat) : Int) ≤ singleIndirectCount by omega) unit'.le
          rw [← span] at inside
          rw [show (first : Int) + count - 1 + 1 = ((first + count : Nat) : Int) by omega] at after
          omega
      rw [bytes,place,place]
      simp only [low,high]

theorem inodeIndirectReadwrite_uncut (nonneg : 0 ≤ pos) (proper : pos < endpos) {level : Nat}
    (bound : level ≤ 3) {w : World} {p cur : Int} {data : Option Block} {r : ReadwriteResult}
    (owned : Owned w (tree w level p)) (low : cur ≤ pos / blocksize)
    (high : pos / blocksize < cur + indirectCount level)
    (ran : inodeIndirectReadwrite pos endpos write level w p cur data = .ok r) :
    eof ∉ route w level p cur (pos / blocksize) := by
  have large := blocksize_large
  induction level generalizing p cur data r with
  | zero =>
    obtain ⟨_,present,_⟩ := bind_ok.mp ran
    simpa [route] using (check_ok.mp present).symm
  | succ level ih =>
    obtain ⟨_,present,ran⟩ := bind_ok.mp ran
    have present := check_ok.mp present
    have range := owned.2 p (mem_tree_self present)
    obtain ⟨i,inside,found,low',high'⟩ := child_exists bound low high
    have pos' : (0 : Int) < indirectCount level := by
      exact_mod_cast indirectCount_pos (show level ≤ 3 by omega)
    have first : pos.tdiv blocksize = pos / blocksize := Int.tdiv_eq_ediv_of_nonneg nonneg
    have last : pos / (blocksize : Int) ≤ (endpos - 1).tdiv blocksize := by
      rw [Int.tdiv_eq_ediv_of_nonneg (by omega)]
      exact Int.ediv_le_ediv (by omega) (by omega)
    -- the walk goes first to the child the first byte lies under
    have start : startIdx cur (indirectCount level) (pos / blocksize) = i := by
      have quotient := Int.ediv_nonneg (show 0 ≤ pos / blocksize - cur by omega) pos'.le
      unfold startIdx
      split
      · rw [Int.tdiv_eq_ediv_of_nonneg (by omega)]
        omega
      · rw [show pos / (blocksize : Int) - cur = 0 by omega,Int.zero_ediv] at found
        omega
    have finish : (i : Int) ≤ lastIdx singleIndirectCount cur (indirectCount level)
        ((endpos - 1).tdiv blocksize) := by
      rw [lastIdx_eq_endIdx,le_endIdx_iff pos' (by omega)]
      omega
    rw [diskRead_block _ (by omega) range.2] at ran
    dsimp only at ran
    rw [first,start] at ran
    obtain ⟨n,count⟩ : ∃ n, (lastIdx singleIndirectCount cur (indirectCount level)
        ((endpos - 1).tdiv blocksize) + 1 - (i : Int)).toNat = n + 1 := ⟨_,(Nat.succ_pred_eq_of_pos
      (by omega)).symm⟩
    rw [count] at ran
    obtain ⟨child,ran,_⟩ := bind_ok.mp ran
    rw [Int.toNat_natCast] at ran
    rw [tree_succ present] at owned
    have part : Owned w (tree w level (word (w.block p) i)) := owned.mono
      ((le_sum_range (f := fun j => tree w level (word (w.block p) j)) inside).trans
        (Multiset.le_cons_self _ _))
    rw [route_child low' high',List.mem_cons,not_or]
    exact ⟨present.symm,ih (by omega) part low' high' ran⟩

end

theorem readChildren_disk {readwrite : World → Int → Int → Option Block → Run ReadwriteResult}
    (child : ∀ w p cur data r, readwrite w p cur data = .ok r → r.disk = w)
    (cur sub : Int) (node : Block) (n : Nat) : ∀ i w data sum r,
    readwriteChildren readwrite cur sub node n i w data sum = .ok r → r.disk = w := by
  induction n with
  | zero =>
    intro i w data sum r run
    cases run
    rfl
  | succ n ih =>
    intro i w data sum r run
    obtain ⟨c,ran,run⟩ := bind_ok.mp run
    exact (ih _ _ _ _ r run).trans (child _ _ _ _ c ran)

theorem inodeIndirectRead_disk (pos endpos : Int) (level : Nat) : ∀ w p cur data r,
    inodeIndirectReadwrite pos endpos false level w p cur data = .ok r → r.disk = w := by
  induction level with
  | zero =>
    intro w p cur data r run
    obtain ⟨_,_,run⟩ := bind_ok.mp run
    cases run
    rfl
  | succ level ih =>
    intro w p cur data r run
    obtain ⟨_,_,run⟩ := bind_ok.mp run
    exact readChildren_disk ih _ _ _ _ _ _ _ _ r run

theorem readwriteChildren_orderly
    {readwrite : World → Int → Int → Option Block → Run ReadwriteResult}
    (child : ∀ w p cur data, Orderly w.exhausted (·.disk.exhausted) (readwrite w p cur data))
    (cur sub : Int) (node : Block) (n : Nat) : ∀ i w data sum,
    Orderly w.exhausted (·.disk.exhausted)
      (readwriteChildren readwrite cur sub node n i w data sum) := by
  induction n with
  | zero => exact fun _ _ _ _ => Orderly.ok id
  | succ n ih => exact fun i w data sum => (child _ _ _ _).bind fun c _ => ih _ _ _ _

theorem inodeIndirectReadwrite_orderly (pos endpos : Int) (write : Bool) (level : Nat) :
    ∀ w p cur data, Orderly w.exhausted (·.disk.exhausted)
      (inodeIndirectReadwrite pos endpos write level w p cur data) := by
  induction level with
  | zero =>
    intro w p cur data
    refine Orderly.check.bind fun _ _ => Orderly.ok fun raised => ?_
    unfold readwriteBlock
    dsimp only
    split <;> simpa using raised
  | succ level ih =>
    exact fun w p cur data => Orderly.check.bind fun _ _ => readwriteChildren_orderly ih _ _ _ _ _ _ _ _

end CandyFs
