import CandyFs.PointerTree
import CandyFs.Inode

/-! `inode_indirect_grow`: it takes free blocks into the tree under one pointer, and on
success the tree maps exactly the block indexes below the new count.
-/
namespace CandyFs
open Bytes Finset ChildRange

variable [Geometry]

/-- Nothing is lost when growing a tree gains `gained` blocks: the tree was sound, and if no
block was gained no index block in use was given back. -/
def GrowSafe (level : Nat) (old : Int) (w : World) (dest cur gained : Int) : Prop :=
  Mapped w level dest cur old ∧ (Straddles old level cur → 0 < gained)

/-- What growing the tree under one pointer achieves. -/
structure Grown (level : Nat) (old new : Int) (w : World) (dest cur : Int) (free : Multiset Int)
    (r : GrowResult) : Prop where
  moved : ∃ free', Moved w r.disk free (tree w level dest) free' (tree r.disk level r.dest)
    (r.success = true ∨ GrowSafe level old w dest cur r.allocated)
  nonneg : 0 ≤ r.allocated
  upper : r.allocated ≤ overlap cur (indirectCount level) old new
  exact : r.success = true → r.allocated = overlap cur (indirectCount level) old new
  calm : r.success = true → r.disk.exhausted = w.exhausted
  failed : r.success = false → r.disk.exhausted = true
  less : r.success = false → r.allocated < overlap cur (indirectCount level) old new
  mapped : GrowSafe level old w dest cur r.allocated →
    Mapped r.disk level r.dest cur (max old cur + r.allocated)
  kept : GrowSafe level old w dest cur r.allocated → Kept w r.disk level dest r.dest cur old
  short : Mapped w level dest cur old → r.success = false →
    free.card + treeSize level cur old < treeSize level cur (max old cur + r.allocated + 1)
  cut : Mapped w level dest cur old → Straddles old level cur → r.allocated = 0 →
    eof ∈ route r.disk level r.dest cur (old - 1)

/-- What is required of the function that grows one child. -/
def GrowSpec (level : Nat) (old new : Int) (grow : World → Int → Int → Run GrowResult) : Prop :=
  ∀ (w : World) (dest cur : Int) (free : Multiset Int), FreeSet w free →
    Owned w (free + tree w level dest) → 0 < w.nblocks → cur < new →
    old < cur + indirectCount level →
    (Mapped w level dest cur old → ∃ r, grow w dest cur = .ok r) ∧
    ∀ r, grow w dest cur = .ok r → Grown level old new w dest cur free r

/-- The same for the children from `first` on, `count` of them. -/
def KidsSafe (level : Nat) (old : Int) (w : World) (data : Block) (cur : Int) (first count : Nat)
    (gained : Int) : Prop :=
  (∀ j : Nat, first ≤ j → j < first + count →
    Mapped w level (word data j) (cur + j * indirectCount level) old) ∧
  (Straddles old level (cur + first * indirectCount level) → 0 < gained)

/-- What the loop over `count` children from `first` on achieves. -/
structure GrownChildren (level : Nat) (old new cur : Int) (first count : Nat) (w : World)
    (data : Block) (free : Multiset Int) (sum : Int) (r : GrowLoop) : Prop where
  moved : ∃ free', Moved w r.disk free (kids w level data) free' (kids r.disk level r.indirectData)
    (r.success = true ∨ KidsSafe level old w data cur first count (r.sum - sum))
  lower : sum ≤ r.sum
  upper : r.sum ≤ sum +
    overlap (cur + first * indirectCount level) (count * indirectCount level) old new
  exact : r.success = true → r.sum = sum +
    overlap (cur + first * indirectCount level) (count * indirectCount level) old new
  calm : r.success = true → r.disk.exhausted = w.exhausted
  failed : r.success = false → r.disk.exhausted = true
  less : r.success = false → r.sum < sum +
    overlap (cur + first * indirectCount level) (count * indirectCount level) old new
  untouched : ∀ j, j < singleIndirectCount → j < first ∨ first + count ≤ j →
    word r.indirectData j = word data j ∧
    ∀ b ∈ tree w level (word data j), r.disk.block b = w.block b
  mapped : KidsSafe level old w data cur first count (r.sum - sum) →
    ∀ j : Nat, first ≤ j → j < first + count →
      Mapped r.disk level (word r.indirectData j) (cur + j * indirectCount level)
        (max old (cur + first * indirectCount level) + (r.sum - sum))
  kept : KidsSafe level old w data cur first count (r.sum - sum) →
    ∀ j : Nat, first ≤ j → j < first + count →
      Kept w r.disk level (word data j) (word r.indirectData j) (cur + j * indirectCount level) old
  short : (∀ j : Nat, first ≤ j → j < first + count →
      Mapped w level (word data j) (cur + j * indirectCount level) old) → r.success = false →
    free.card + ∑ j ∈ Ico first (first + count), treeSize level (cur + j * indirectCount level) old <
      ∑ j ∈ Ico first (first + count), treeSize level (cur + j * indirectCount level)
        (max old (cur + first * indirectCount level) + (r.sum - sum) + 1)
  cut : 0 < count → Mapped w level (word data first) (cur + first * indirectCount level) old →
    Straddles old level (cur + first * indirectCount level) → r.sum = sum →
    eof ∈ route r.disk level (word r.indirectData first) (cur + first * indirectCount level) (old - 1)

section
variable {level : Nat} {old new : Int} {grow : World → Int → Int → Run GrowResult}

omit [Geometry] in
private theorem sum_first (f : Nat → Nat) (first n : Nat) : ∑ j ∈ Ico first (first + (n + 1)), f j =
    f first + ∑ j ∈ Ico (first + 1) (first + 1 + n), f j := by
  rw [sum_eq_sum_Ico_succ_bot (by omega),show first + (n + 1) = first + 1 + n by omega]

theorem Grown.gained {w : World} {dest cur : Int} {free : Multiset Int} {r : GrowResult}
    (h : Grown level old new w dest cur free r) (bound : level ≤ 3) (proper : old < new)
    (low : cur < new) (high : old < cur + indirectCount level) (success : r.success = true) :
    0 < r.allocated := by
  have pos : (0 : Int) < indirectCount level := by exact_mod_cast indirectCount_pos bound
  rw [h.exact success,overlap]
  omega

theorem Grown.whole {w : World} {dest cur : Int} {free : Multiset Int} {r : GrowResult}
    (h : Grown level old new w dest cur free r) (bound : level ≤ 3) (proper : old < new)
    (low : cur < new) (high : old < cur + indirectCount level) (success : r.success = true)
    (mapped : Mapped w level dest cur old) :
    Mapped r.disk level r.dest cur new ∧ Kept w r.disk level dest r.dest cur old := by
  have safe : GrowSafe level old w dest cur r.allocated :=
    ⟨mapped,fun _ => h.gained bound proper low high success⟩
  refine ⟨(mapped_congr bound fun x inside below => ?_).mp (h.mapped safe),h.kept safe⟩
  rw [h.exact success,overlap]
  omega

theorem GrownChildren.stop (bound : level ≤ 3) {cur : Int} {first n : Nat} {w : World} {data : Block}
    {free : Multiset Int} {sum : Int} {c : GrowResult} (inside : first < singleIndirectCount)
    (range : first + (n + 1) ≤ singleIndirectCount)
    (owned : Owned w (free + kids w level data))
    (low : cur + first * indirectCount level < new)
    (high : old < cur + first * indirectCount level + indirectCount level)
    (child : Grown level old new w (word data first) (cur + first * indirectCount level) free c)
    (failure : c.success = false) :
    GrownChildren level old new cur first (n + 1) w data free sum
      ⟨c.disk,setWord data first c.dest,sum + c.allocated,false⟩ := by
  obtain ⟨free1,moved⟩ := child.moved
  obtain ⟨stored,movedKids,others⟩ := moved.child inside owned
  have pos : (0 : Int) < indirectCount level := by exact_mod_cast indirectCount_pos bound
  have run_split : ((n + 1 : Nat) : Int) * indirectCount level =
      indirectCount level + n * indirectCount level := by push_cast; ring
  have rest_nonneg : (0 : Int) ≤ n * indirectCount level := Int.mul_nonneg (by omega) pos.le
  have both := overlap_add (cur + first * indirectCount level) old new pos.le rest_nonneg
  have upper := child.upper
  have nonneg := child.nonneg
  have tail := overlap_nonneg (cur + first * indirectCount level + indirectCount level)
    (n * indirectCount level) old new
  have gain : sum + c.allocated - sum = c.allocated := by omega
  have reach : max old (cur + first * indirectCount level) + c.allocated ≤
      cur + first * indirectCount level + indirectCount level := by
    unfold overlap at upper
    omega
  have head (safe : KidsSafe level old w data cur first (n + 1) (sum + c.allocated - sum)) :
      GrowSafe level old w (word data first) (cur + first * indirectCount level) c.allocated :=
    ⟨safe.1 first le_rfl (by omega),by rw [gain] at safe; exact safe.2⟩
  have less := child.less failure
  refine ⟨⟨free1,movedKids.weaken ?_⟩,by dsimp only; omega,?_,nofun,nofun,
    fun _ => child.failed failure,fun _ => ?_,
    fun j inside' outside => ⟨word_setWord_ne _ _ _ _ (by omega),others j inside' (by omega)⟩,
    ?_,?_,?_,?_⟩
  · rintro (done | safe)
    · cases done
    · exact .inr (head safe)
  · rw [run_split,both]
    dsimp only
    omega
  · rw [run_split,both]
    dsimp only
    omega
  · intro safe j first' last
    dsimp only
    rw [gain]
    by_cases same : j = first
    · subst same
      rw [stored]
      exact child.mapped (head safe)
    · have after := child_after level (show first < j by omega) cur
      rw [word_setWord_ne _ _ _ _ same]
      refine (mapped_congr bound fun x low' high' => ?_).mp (mapped_frame (fun b member =>
        others j (by omega) same b (Multiset.mem_of_le (index_le_tree _ _ _) member))
        (safe.1 j first' last))
      omega
  · intro safe j first' last
    by_cases same : j = first
    · subst same
      rw [stored]
      exact child.kept (head safe)
    · rw [word_setWord_ne _ _ _ _ same]
      exact Kept.frame bound (safe.1 j first' last) le_rfl (others j (by omega) same)
  · intro mapped _
    have short := child.short (mapped first le_rfl (by omega)) failure
    rw [sum_first,sum_first]
    dsimp only
    rw [gain]
    have later := sum_le_sum fun j (_ : j ∈ Ico (first + 1) (first + 1 + n)) =>
      treeSize_mono level (cur + j * indirectCount level)
        (show old ≤ max old (cur + first * indirectCount level) + c.allocated + 1 by omega)
    omega
  · intro _ mapped straddles same
    dsimp only at same ⊢
    rw [stored]
    exact child.cut mapped straddles (by omega)

theorem GrownChildren.next (bound : level ≤ 3) (proper : old < new) {cur : Int} {first n : Nat}
    {w : World} {data : Block} {free : Multiset Int} {sum : Int} {c : GrowResult} {r : GrowLoop}
    (range : ∀ j : Nat, first ≤ j → j < first + (n + 1) → j < singleIndirectCount ∧
      cur + j * indirectCount level < new ∧
      old < cur + j * indirectCount level + indirectCount level)
    (owned : Owned w (free + kids w level data))
    (child : Grown level old new w (word data first) (cur + first * indirectCount level) free c)
    (success : c.success = true)
    (rest : ∀ free1, FreeSet c.disk free1 →
      Owned c.disk (free1 + kids c.disk level (setWord data first c.dest)) →
      GrownChildren level old new cur (first + 1) n c.disk (setWord data first c.dest) free1
        (sum + c.allocated) r) :
    GrownChildren level old new cur first (n + 1) w data free sum r := by
  obtain ⟨inside,low,high⟩ := range first le_rfl (by omega)
  obtain ⟨free1,moved⟩ := child.moved
  obtain ⟨stored,movedKids,others⟩ := moved.child inside owned
  replace rest := rest free1 moved.list (movedKids.owned owned)
  obtain ⟨free2,movedRest⟩ := rest.moved
  have pos : (0 : Int) < indirectCount level := by exact_mod_cast indirectCount_pos bound
  have run_split : ((n + 1 : Nat) : Int) * indirectCount level =
      indirectCount level + n * indirectCount level := by push_cast; ring
  have run_next : cur + ((first + 1 : Nat) : Int) * indirectCount level =
      cur + first * indirectCount level + indirectCount level := by push_cast; ring
  have rest_nonneg : (0 : Int) ≤ n * indirectCount level := Int.mul_nonneg (by omega) pos.le
  have both := overlap_add (cur + first * indirectCount level) old new pos.le rest_nonneg
  have gained := child.gained bound proper low high success
  have headExact := child.exact success
  have lower := rest.lower
  have upper := rest.upper
  rw [run_next] at upper
  have tail := overlap_nonneg (cur + first * indirectCount level + indirectCount level)
    (n * indirectCount level) old new
  -- a further child means that this one is full
  have filled : cur + first * indirectCount level + indirectCount level < new →
      max old (cur + first * indirectCount level) + c.allocated =
        cur + first * indirectCount level + indirectCount level := by
    intro more
    rw [headExact,overlap]
    omega
  have reach : ∀ x, x < cur + first * indirectCount level + indirectCount level →
      (x < new ↔ x < max old (cur + first * indirectCount level) + (r.sum - sum)) := by
    intro x below
    unfold overlap at headExact upper
    omega
  have movedMapped (j : Nat) (low' : first + 1 ≤ j) (high' : j < first + 1 + n)
      (mapped : Mapped w level (word data j) (cur + j * indirectCount level) old) :
      Mapped c.disk level (word (setWord data first c.dest) j) (cur + j * indirectCount level) old := by
    rw [word_setWord_ne _ _ _ _ (by omega)]
    exact mapped_frame (fun b member => others j (range j (by omega) (by omega)).1 (by omega) b
      (Multiset.mem_of_le (index_le_tree _ _ _) member)) mapped
  have restSafe (mapped : ∀ j : Nat, first ≤ j → j < first + (n + 1) →
      Mapped w level (word data j) (cur + j * indirectCount level) old) :
      KidsSafe level old c.disk (setWord data first c.dest) cur (first + 1) n
        (r.sum - (sum + c.allocated)) := by
    refine ⟨fun j low' high' => movedMapped j low' high' (mapped j (by omega) (by omega)),
      fun straddles => ?_⟩
    have := straddles.inside bound
    omega
  have headUntouched := rest.untouched first inside (.inl (by omega))
  rw [stored] at headUntouched
  refine ⟨⟨free2,(movedKids.trans movedRest).weaken fun whole => ⟨.inl success,?_⟩⟩,by omega,?_,?_,
    fun done => (rest.calm done).trans (child.calm success),rest.failed,?_,?_,?_,?_,?_,?_⟩
  · exact whole.imp_right fun safe => restSafe safe.1
  · rw [run_split,both]
    omega
  · intro done
    have tailExact := rest.exact done
    rw [run_next] at tailExact
    rw [run_split,both]
    omega
  · intro failure
    have tailLess := rest.less failure
    rw [run_next] at tailLess
    rw [run_split,both]
    omega
  · intro j inside' outside
    obtain ⟨samePtr,sameBlocks⟩ := rest.untouched j inside' (by omega)
    rw [word_setWord_ne _ _ _ _ (by omega)] at samePtr sameBlocks
    have before := others j inside' (by omega)
    refine ⟨samePtr,fun b member => ?_⟩
    rw [← before b member]
    exact sameBlocks b (by rw [tree_congr before]; exact member)
  · intro safe j first' last
    by_cases same : j = first
    · subst same
      rw [headUntouched.1]
      have whole := (child.whole bound proper low high success (safe.1 j le_rfl (by omega))).1
      exact (mapped_congr bound fun x _ below => reach x below).mp (mapped_frame (fun b member =>
        headUntouched.2 b (Multiset.mem_of_le (index_le_tree _ _ _) member)) whole)
    · have after := child_after level (show first < j by omega) cur
      have full := filled (by have := (range j first' last).2.1; omega)
      have mapped := rest.mapped (restSafe safe.1) j (by omega) (by omega)
      rw [run_next] at mapped
      refine (mapped_congr bound fun x low' high' => ?_).mp mapped
      omega
  · intro safe j first' last
    by_cases same : j = first
    · subst same
      rw [headUntouched.1]
      obtain ⟨whole,kept⟩ := child.whole bound proper low high success (safe.1 j le_rfl (by omega))
      exact kept.trans (Kept.frame bound whole proper.le headUntouched.2)
    · have before := others j (range j first' last).1 same
      have later := rest.kept (restSafe safe.1) j (by omega) (by omega)
      rw [word_setWord_ne _ _ _ _ same] at later
      exact (Kept.frame bound (safe.1 j first' last) le_rfl before).trans later
  · intro mapped failure
    have short := rest.short (restSafe mapped).1 failure
    have whole := (child.whole bound proper low high success (mapped first le_rfl (by omega))).1
    have cards := congrArg Multiset.card (moved.all (.inl success))
    rw [Multiset.card_add,Multiset.card_add,whole.card,(mapped first le_rfl (by omega)).card] at cards
    rw [run_next] at short
    rw [sum_first,sum_first]
    have more : 0 < n := by
      by_contra none
      rw [show n = 0 by omega] at short
      simp at short
    have full := filled (by
      have := (range (first + 1) (by omega) (by omega)).2.1
      rw [run_next] at this
      exact this)
    have head : treeSize level (cur + first * indirectCount level)
        (max old (cur + first * indirectCount level) + (r.sum - sum) + 1) =
        treeSize level (cur + first * indirectCount level) new :=
      treeSize_congr bound fun x _ below => by have := reach x below; omega
    rw [head]
    have bound' : max old (cur + first * indirectCount level + indirectCount level) +
        (r.sum - (sum + c.allocated)) + 1 =
        max old (cur + first * indirectCount level) + (r.sum - sum) + 1 := by omega
    rw [bound'] at short
    omega
  · intro _ mapped _ same
    omega

theorem growChildren_spec (bound : level ≤ 3) (proper : old < new)
    (spec : GrowSpec level old new grow) (cur : Int) (n : Nat) : ∀ (first : Nat) (w : World) (data : Block) (free : Multiset Int) (sum : Int),
    FreeSet w free → Owned w (free + kids w level data) → 0 < w.nblocks →
    (∀ j : Nat, first ≤ j → j < first + n → j < singleIndirectCount ∧
      cur + j * indirectCount level < new ∧
      old < cur + j * indirectCount level + indirectCount level) →
    ((∀ j : Nat, first ≤ j → j < first + n →
        Mapped w level (word data j) (cur + j * indirectCount level) old) →
      ∃ r, growChildren grow cur (indirectCount level) n first w data sum = .ok r) ∧
    ∀ r, growChildren grow cur (indirectCount level) n first w data sum = .ok r →
      GrownChildren level old new cur first n w data free sum r := by
  induction n with
  | zero =>
    intro first w data free sum list owned some range
    refine ⟨fun _ => ⟨_,rfl⟩,fun r run => ?_⟩
    simp only [growChildren,Except.ok.injEq] at run
    subst run
    have none := overlap_zero (cur + first * indirectCount level) old new
    refine ⟨⟨free,Moved.refl list⟩,le_rfl,by simp [none],by simp [none],fun _ => rfl,nofun,nofun,
      fun j _ _ => ⟨rfl,fun _ _ => rfl⟩,fun _ j _ _ => by omega,fun _ j _ _ => by omega,
      fun _ => nofun,by omega⟩
  | succ n ih =>
    intro first w data free sum list owned some range
    have here := range first le_rfl (by omega)
    have part : Owned w (free + tree w level (word data first)) := owned.mono
      (add_le_add_right (le_sum_range (f := fun j => tree w level (word data j)) here.1) free)
    obtain ⟨total,grown⟩ := spec w (word data first) (cur + first * indirectCount level) free list
      part some here.2.1 here.2.2
    have start : cur + (indirectCount level : Int) * first = cur + first * indirectCount level := by
      rw [Int.mul_comm]
    have next : ((first : Int) + 1) = ((first + 1 : Nat) : Int) := by push_cast; rfl
    simp only [growChildren,Int.toNat_natCast,start,next]
    constructor
    · intro mapped
      obtain ⟨c,run⟩ := total (mapped first le_rfl (by omega))
      obtain ⟨free1,moved⟩ := (grown c run).moved
      obtain ⟨stored,movedKids,others⟩ := moved.child here.1 owned
      rw [run,ok_bind]
      split
      · have some' : 0 < c.disk.nblocks := by rw [moved.frame.nblocks]; exact some
        refine (ih (first + 1) c.disk (setWord data first c.dest) free1 (sum + c.allocated)
          moved.list (movedKids.owned owned) some' fun j low high =>
          range j (by omega) (by omega)).1 fun j low high => ?_
        rw [word_setWord_ne _ _ _ _ (by omega)]
        exact mapped_frame (fun b member => others j (range j (by omega) (by omega)).1 (by omega) b
          (Multiset.mem_of_le (index_le_tree _ _ _) member)) (mapped j (by omega) (by omega))
      · exact ⟨_,rfl⟩
    · intro r run
      obtain ⟨c,ran,run⟩ := bind_ok.mp run
      have child := grown c ran
      split at run
      · rename_i success
        refine GrownChildren.next bound proper range owned child success fun free1 list1 owned1 => ?_
        have some' : 0 < c.disk.nblocks := by
          obtain ⟨_,moved⟩ := child.moved
          rw [moved.frame.nblocks]
          exact some
        exact (ih (first + 1) c.disk (setWord data first c.dest) free1 (sum + c.allocated) list1 owned1
          some' fun j low high => range j (by omega) (by omega)).2 r run
      · rename_i failure
        rw [Except.ok.injEq] at run
        subst run
        have last := (range (first + n) (by omega) (by omega)).1
        exact GrownChildren.stop bound here.1 (by omega) owned here.2.1 here.2.2 child
          (by simpa using failure)

/-- The same for an index block whose pointers are `data`. -/
def IndirectSafe (level : Nat) (old : Int) (w : World) (data : Block) (cur gained : Int) : Prop :=
  (∀ j : Nat, j < singleIndirectCount →
    Mapped w level (word data j) (cur + j * indirectCount level) old) ∧
  (Straddles old (level + 1) cur → 0 < gained)

/-- What growing the children of a loaded or fresh index block `b` achieves. -/
structure GrownIndirect (level : Nat) (old new : Int) (w : World) (b cur : Int) (data : Block)
    (free : Multiset Int) (r : GrowResult) : Prop where
  moved : ∃ free', Moved w r.disk free (b ::ₘ kids w level data) free'
    (tree r.disk (level + 1) r.dest) (r.success = true ∨ IndirectSafe level old w data cur r.allocated)
  nonneg : 0 ≤ r.allocated
  upper : r.allocated ≤ overlap cur (indirectCount (level + 1)) old new
  exact : r.success = true → r.allocated = overlap cur (indirectCount (level + 1)) old new
  calm : r.success = true → r.disk.exhausted = w.exhausted
  failed : r.success = false → r.disk.exhausted = true
  less : r.success = false → r.allocated < overlap cur (indirectCount (level + 1)) old new
  mapped : IndirectSafe level old w data cur r.allocated →
    Mapped r.disk (level + 1) r.dest cur (max old cur + r.allocated)
  kept : IndirectSafe level old w data cur r.allocated → cur < old →
    r.dest = b ∧ ∀ j : Nat, j < singleIndirectCount →
      Kept w r.disk level (word data j) (word (r.disk.block b) j) (cur + j * indirectCount level) old
  short : (∀ j : Nat, j < singleIndirectCount →
      Mapped w level (word data j) (cur + j * indirectCount level) old) → r.success = false →
    free.card + kidsSize level cur old < kidsSize level cur (max old cur + r.allocated + 1)
  cut : (∀ j : Nat, j < singleIndirectCount →
      Mapped w level (word data j) (cur + j * indirectCount level) old) →
    Straddles old (level + 1) cur → r.allocated = 0 →
    eof ∈ route r.disk (level + 1) r.dest cur (old - 1)

theorem growIndirect_spec (bound : level < 3) (proper : old < new)
    (spec : GrowSpec level old new grow) (cur : Int) (data : Block) {w : World} {b : Int}
    {free : Multiset Int} (list : FreeSet w free)
    (owned : Owned w (free + (b ::ₘ kids w level data))) (low : cur < new)
    (high : old < cur + indirectCount (level + 1)) :
    ((∀ j : Nat, j < singleIndirectCount →
        Mapped w level (word data j) (cur + j * indirectCount level) old) →
      ∃ r, growIndirect grow (indirectCount level) old new w b data cur = .ok r) ∧
    ∀ r, growIndirect grow (indirectCount level) old new w b data cur = .ok r →
      GrownIndirect level old new w b cur data free r := by
  have pos : (0 : Int) < indirectCount level := by exact_mod_cast indirectCount_pos bound.le
  have fanout : (0 : Int) < singleIndirectCount := by
    exact_mod_cast indirectCount_pos (show 1 ≤ 3 by omega)
  have span : (indirectCount (level + 1) : Int) = singleIndirectCount * indirectCount level := by
    exact_mod_cast indirectCount_succ bound
  have range := owned.2 b (by simp)
  have some : 0 < w.nblocks := by omega
  have present : b ≠ eof := ne_eof (by omega)
  have apart : free + (b ::ₘ kids w level data) = free + kids w level data + {b} := by
    rw [← Multiset.singleton_add,add_comm ({b} : Multiset Int),add_assoc]
  have ownedKids : Owned w (free + kids w level data) :=
    owned.mono (by rw [apart]; exact Multiset.le_add_right _ _)
  have ordered := startIdx_le_endIdx pos fanout proper low (span ▸ high)
  have whole := overlap_children pos fanout proper low (span ▸ high)
  rw [← span] at whole
  have within := endIdx_lt (n := singleIndirectCount) (c := cur) (b := new) pos
  have startNonneg := startIdx_nonneg (c := cur) (a := old) pos
  have begins (j : Nat) := startIdx_le_iff (c := cur) (a := old) pos (Int.natCast_nonneg j)
  have ends (j : Nat) (inside : j < singleIndirectCount) := le_endIdx_iff (n := singleIndirectCount)
    (c := cur) (b := new) pos (Nat.cast_lt.mpr inside)
  simp only [Int.add_mul,Int.one_mul] at begins
  have loopSpec := growChildren_spec bound.le proper spec cur
    (endIdx singleIndirectCount cur (indirectCount level) new + 1 -
      startIdx cur (indirectCount level) old).toNat
    (startIdx cur (indirectCount level) old).toNat w data free 0 list ownedKids some
    fun j first last => by
      have begins := (begins j).mp (by omega)
      have ends := (ends j (by omega)).mp (by omega)
      exact ⟨by omega,ends,by omega⟩
  rw [Int.toNat_of_nonneg startNonneg] at loopSpec
  unfold growIndirect
  dsimp only
  constructor
  · intro mapped
    obtain ⟨loop,run⟩ := loopSpec.1 fun j first last => mapped j (by omega)
    rw [run,ok_bind]
    split <;> exact ⟨_,rfl⟩
  intro r run
  obtain ⟨loop,ran,run⟩ := bind_ok.mp run
  have grown := loopSpec.2 loop ran
  obtain ⟨free',moved⟩ := grown.moved
  have lower := grown.lower
  have upper := grown.upper
  have exact' := grown.exact
  have less' := grown.less
  have mapped' := grown.mapped
  have kept' := grown.kept
  have short' := grown.short
  have cut' := grown.cut
  rw [Int.toNat_of_nonneg startNonneg] at upper exact' less' mapped' short' cut'
  rw [Int.toNat_of_nonneg (by omega),whole,zero_add] at upper exact' less'
  rw [Int.sub_zero] at mapped' kept' short'
  have unit (rest : Multiset Int) : rest + {b} = b ::ₘ rest := by
    rw [add_comm,Multiset.singleton_add]
  have movedAll := moved.add {b}
  rw [unit,unit,Int.sub_zero] at movedAll
  have owned' := movedAll.owned owned
  have covers := startIdx_covers (c := cur) (a := old) pos
  -- the loop starts at the first index that is not mapped
  have front : max old (cur + startIdx cur (indirectCount level) old * indirectCount level) =
      max old cur := by
    have : 0 ≤ startIdx cur (indirectCount level) old * indirectCount level :=
      Int.mul_nonneg startNonneg pos.le
    rcases covers with zero | le
    · rw [zero,Int.zero_mul,add_zero]
    · omega
  rw [front] at mapped' short'
  have gains (success : loop.success = true) : 0 < loop.sum := by
    rw [exact' success,overlap]
    have : (0 : Int) < indirectCount (level + 1) := by
      exact_mod_cast indirectCount_pos (show level + 1 ≤ 3 by omega)
    omega
  -- only a tree that starts behind the old count gives its index block back safely
  have early (before : cur < old) : startIdx cur (indirectCount level) old = 0 →
      Straddles old (level + 1) cur := fun zero =>
    .inl ⟨before,by have := (begins 0).mp (by omega); push_cast at this; omega⟩
  have kidsSafe (safe : IndirectSafe level old w data cur loop.sum) : KidsSafe level old w data cur
      (startIdx cur (indirectCount level) old).toNat
      (endIdx singleIndirectCount cur (indirectCount level) new + 1 -
        startIdx cur (indirectCount level) old).toNat loop.sum := by
    refine ⟨fun j first last => safe.1 j (by omega),fun straddles => safe.2 (.inr ⟨_,?_,straddles⟩)⟩
    omega
  have mappedLoop (safe : IndirectSafe level old w data cur loop.sum) (j : Nat)
      (inside : j < singleIndirectCount) : Mapped loop.disk level (word loop.indirectData j)
        (cur + j * indirectCount level) (max old cur + loop.sum) := by
    by_cases visited : startIdx cur (indirectCount level) old ≤ j ∧
      (j : Int) ≤ endIdx singleIndirectCount cur (indirectCount level) new
    · exact mapped' (kidsSafe safe) j (by omega) (by omega)
    · obtain ⟨samePtr,sameBlocks⟩ := grown.untouched j inside (by omega)
      rw [samePtr]
      refine (mapped_congr bound.le fun x low' high' => ?_).mp (mapped_frame (fun c member =>
        sameBlocks c (Multiset.mem_of_le (index_le_tree _ _ _) member)) (safe.1 j inside))
      have begins := begins j
      have ends := ends j inside
      unfold overlap at upper
      omega
  have shortAll (mapped : ∀ j : Nat, j < singleIndirectCount →
      Mapped w level (word data j) (cur + j * indirectCount level) old)
      (failure : loop.success = false) : free.card + kidsSize level cur old <
        kidsSize level cur (max old cur + loop.sum + 1) := by
    have short := short' (fun j first last => mapped j (by omega)) failure
    have inside : Ico (startIdx cur (indirectCount level) old).toNat
        ((startIdx cur (indirectCount level) old).toNat +
          (endIdx singleIndirectCount cur (indirectCount level) new + 1 -
            startIdx cur (indirectCount level) old).toNat) ⊆ Finset.range singleIndirectCount := by
      intro j member
      rw [mem_Ico] at member
      rw [mem_range]
      omega
    unfold kidsSize
    rw [← sum_sdiff inside,← sum_sdiff inside]
    have others := sum_le_sum fun j (_ : j ∈ Finset.range singleIndirectCount \ Ico
      (startIdx cur (indirectCount level) old).toNat ((startIdx cur (indirectCount level) old).toNat +
        (endIdx singleIndirectCount cur (indirectCount level) new + 1 -
          startIdx cur (indirectCount level) old).toNat)) =>
      treeSize_mono level (cur + j * indirectCount level)
        (show old ≤ max old cur + loop.sum + 1 by omega)
    omega
  split at run
  · -- the block is given back: its children hold nothing unless an index block in use is lost
    rename_i dropped
    rw [Except.ok.injEq] at run
    subst run
    obtain ⟨failure,zero,none⟩ := dropped
    have behind (safe : IndirectSafe level old w data cur 0) : old ≤ cur := by
      by_contra before
      exact lt_irrefl _ (safe.2 (early (by omega) zero))
    have freed := (blockFree_moved (b := b) moved.list
      (owned'.mono (add_le_add_right (by simp) _))).add (kids loop.disk level loop.indirectData)
    rw [Multiset.singleton_add] at freed
    have lost := movedAll.trans freed
    refine ⟨⟨free' + {b},?_⟩,le_rfl,overlap_nonneg _ _ _ _,nofun,nofun,
      fun _ => freed.frame.exhausted (grown.failed failure),fun _ => by
        have := less' failure
        dsimp only
        omega,fun safe => ?_,fun safe before => ?_,
      fun mapped _ => ?_,fun _ _ _ => head_mem_route⟩
    · rw [tree_eof]
      dsimp only
      by_cases safe : IndirectSafe level old w data cur 0
      · have safe' : IndirectSafe level old w data cur loop.sum := by rw [none]; exact safe
        have empty : kids loop.disk level loop.indirectData = 0 := sum_eq_zero fun j inside => by
          have mapped := mappedLoop safe' j (mem_range.mp inside)
          have le := behind safe
          have run := child_inside bound (mem_range.mp inside) cur
          have null : word loop.indirectData j = eof := by
            by_contra there
            have := mapped.present.mp there
            omega
          rw [null,tree_eof]
        rw [empty,add_zero] at lost
        exact lost.weaken fun _ => ⟨.inr (kidsSafe safe'),trivial⟩
      · refine lost.drop (Multiset.zero_le _) ?_
        rintro (done | safe')
        · cases done
        · exact safe safe'
    · have le := behind safe
      exact mapped_eof (by dsimp only; omega)
    · have le := behind safe
      omega
    · have short := shortAll mapped failure
      rwa [none] at short
  · rename_i stays
    rw [Except.ok.injEq,diskWrite_block _ (by omega) (by rw [moved.frame.nblocks]; exact range.2)]
      at run
    subst run
    obtain ⟨written,staysChild⟩ := Moved.store moved.list owned'
    have fails (none : loop.sum = 0) : loop.success = false := by
      cases success : loop.success with
      | false => rfl
      | true =>
        have := gains success
        omega
    refine ⟨⟨free',?_⟩,lower,upper,exact',grown.calm,grown.failed,less',fun safe => ⟨⟨fun _ => ?_,fun _ => present⟩,
      fun _ j inside => ?_⟩,fun safe before => ⟨rfl,fun j inside => ?_⟩,shortAll,
      fun mapped straddles none => ?_⟩
    · exact (movedAll.trans written).weaken fun whole => ⟨whole.imp_right kidsSafe,trivial⟩
    · dsimp only at safe ⊢
      by_contra nothing
      have none : loop.sum = 0 := by omega
      refine stays ⟨fails none,?_,none⟩
      exact if_neg (by omega)
    · rw [put_block_self]
      exact mapped_frame (fun c member => staysChild j inside c
        (Multiset.mem_of_le (index_le_tree _ _ _) member)) (mappedLoop safe j inside)
    · rw [put_block_self]
      have kept : Kept w loop.disk level (word data j) (word loop.indirectData j)
          (cur + j * indirectCount level) old := by
        by_cases visited : startIdx cur (indirectCount level) old ≤ j ∧
          (j : Int) ≤ endIdx singleIndirectCount cur (indirectCount level) new
        · exact kept' (kidsSafe safe) j (by omega) (by omega)
        · obtain ⟨samePtr,sameBlocks⟩ := grown.untouched j inside (by omega)
          rw [samePtr]
          exact Kept.frame bound.le (safe.1 j inside) le_rfl sameBlocks
      exact kept.trans (Kept.frame bound.le (mappedLoop safe j inside)
        (show old ≤ max old cur + loop.sum by omega) (staysChild j inside))
    · -- the child that is lost is the first one the loop visits
      dsimp only at none
      rcases straddles with ⟨before,inFirst⟩ | ⟨j,inside,straddles⟩
      · refine absurd ⟨fails none,?_,none⟩ stays
        have := (begins 0).mpr (by push_cast; omega)
        push_cast at this
        omega
      · have span' := straddles.inside bound.le
        have after := (begins j).mpr (by omega)
        have start : startIdx cur (indirectCount level) old = j := by
          by_contra differ
          have earlier := (begins (j - 1)).mp (by omega)
          have step := child_after level (show j - 1 < j by omega) cur
          omega
        rw [start,Int.toNat_natCast] at cut'
        rw [route_child (i := j) (by omega) (by omega),put_block_self]
        refine List.mem_cons_of_mem _ ((cut_frame bound.le (by omega) (by omega) fun c member =>
          staysChild j inside c (Multiset.mem_of_le (index_le_tree _ _ _) member)).mpr ?_)
        exact cut' (by omega) (mapped j inside) straddles none

end

theorem FreeSet.exhaust {w : World} {free : Multiset Int} (list : FreeSet w free) :
    FreeSet { w with exhausted := true } free :=
  list.imp fun _ h => h.congr (fun _ _ => rfl) rfl rfl

theorem Moved.exhaust {w : World} {free before : Multiset Int} (list : FreeSet w free)
    (complete : Prop) : Moved w { w with exhausted := true } free before free before complete where
  list := list.exhaust
  frame := ⟨rfl,rfl,fun _ => rfl,fun _ _ _ => rfl,fun _ _ => rfl⟩
  blocks := le_rfl
  all := fun _ => rfl

theorem inodeIndirectGrow_spec {old new : Int} (proper : old < new) {level : Nat}
    (bound : level ≤ 3) : GrowSpec level old new (inodeIndirectGrow old new level) := by
  induction level with
  | zero =>
    intro w dest cur free list owned some low high
    simp only [indirectCount,Nat.cast_one] at high
    constructor
    · intro mapped
      have null : dest = eof := by
        by_contra present
        have := mapped.mp present
        omega
      simp only [inodeIndirectGrow,if_pos null]
      split <;> exact ⟨_,rfl⟩
    · intro r run
      have one : overlap cur (indirectCount 0 : Nat) old new = 1 := by
        simp only [indirectCount,overlap,Nat.cast_one]
        omega
      by_cases null : dest = eof
      · subst null
        simp only [inodeIndirectGrow,if_pos] at run
        rcases blockAllocate_moved list (owned.mono (Multiset.le_add_right _ _)) some with
          ⟨empty,none,same⟩ | ⟨free',positive,below,calm,_,moved⟩
        · rw [none,same,if_pos (by decide),Except.ok.injEq] at run
          subst run
          refine ⟨⟨free,Moved.exhaust list _⟩,le_rfl,by simp [one],by simp,by simp,fun _ => rfl,
            fun _ => by simp [one],fun _ => mapped_eof (by dsimp only; omega),fun _ => Kept.none (by omega),fun _ _ => ?_,
            fun _ => False.elim⟩
          rw [empty,treeSize_none (by omega)]
          simp only [treeSize]
          rw [if_pos (by omega)]
          decide
        · generalize blockAllocate w = taken at *
          rw [if_neg (by omega),Except.ok.injEq] at run
          subst run
          have present : taken.1 ≠ eof := ne_eof (by omega)
          refine ⟨⟨free',?_⟩,by simp,by simp [one],by simp [one],fun _ => calm,by simp,by simp,
            fun _ => ?_,fun _ => Kept.none (by omega),fun _ => by simp,fun _ => False.elim⟩
          · simp only [tree,pointer_eof,pointer_of_ne present]
            exact moved.weaken fun _ => trivial
          · exact ⟨fun _ => by dsimp only; omega,fun _ => present⟩
      · simp only [inodeIndirectGrow,if_neg null] at run
        cases run
  | succ level ih =>
    intro w dest cur free list owned some low high
    have child := ih (by omega)
    by_cases null : dest = eof
    · subst null
      simp only [inodeIndirectGrow,if_pos]
      have before (mapped : Mapped w (level + 1) eof cur old) : old ≤ cur := by
        by_contra inside
        exact mapped.1.mpr (by omega) rfl
      have straight (mapped : Mapped w (level + 1) eof cur old) : ¬Straddles old (level + 1) cur := by
        intro straddles
        have := before mapped
        have := straddles.inside bound
        omega
      rcases blockAllocate_moved list (owned.mono (Multiset.le_add_right _ _)) some with
        ⟨empty,none,same⟩ | ⟨free',positive,below,calm,_,moved⟩
      · rw [none,same,if_pos (by decide)]
        refine ⟨fun _ => ⟨_,rfl⟩,fun r run => ?_⟩
        rw [Except.ok.injEq] at run
        subst run
        have some' := indirectCount_pos bound
        refine ⟨⟨free,Moved.exhaust list _⟩,le_rfl,overlap_nonneg _ _ _ _,by simp,by simp,fun _ => rfl,
          fun _ => by unfold overlap; dsimp only; omega,fun safe => mapped_eof ?_,fun safe => Kept.none (before safe.1),fun mapped _ => ?_,
          fun mapped straddles => absurd straddles (straight mapped)⟩
        · have := before safe.1
          dsimp only
          omega
        · have := before mapped
          rw [empty,treeSize_none this]
          dsimp only
          rw [treeSize_succ (by omega),Multiset.card_zero]
          omega
      · generalize blockAllocate w = taken at *
        have fresh := moved.owned (by rwa [tree_eof] at owned)
        have all : taken.1 ::ₘ kids taken.2 level (ofWords fun _ => eof) = {taken.1} := by
          rw [kids_eof]
          rfl
        obtain ⟨total,grown⟩ := growIndirect_spec bound proper child cur
          (ofWords fun _ => eof) moved.list (by rwa [all]) low high
        have empty (j : Nat) : word (ofWords fun _ => eof) j = eof := by
          rw [word_ofWords,wrap_of_fits eof_fits]
        rw [if_neg (by omega)]
        have children (mapped : Mapped w (level + 1) eof cur old) (j : Nat)
            (inside : j < singleIndirectCount) : Mapped taken.2 level
              (word (ofWords fun _ => eof) j) (cur + j * indirectCount level) old := by
          have := before mapped
          have run := child_inside bound inside cur
          rw [empty]
          exact mapped_eof (by omega)
        refine ⟨fun mapped => total (children mapped),fun r run => ?_⟩
        have made := grown r run
        obtain ⟨free2,rest⟩ := made.moved
        rw [all] at rest
        refine ⟨⟨free2,?_⟩,made.nonneg,made.upper,made.exact,
          fun success => (made.calm success).trans calm,made.failed,made.less,
          fun safe => made.mapped ⟨children safe.1,safe.2⟩,fun safe => Kept.none (before safe.1),
          fun mapped failure => ?_,fun mapped straddles => absurd straddles (straight mapped)⟩
        · rw [tree_eof]
          exact (moved.trans rest).weaken fun whole =>
            ⟨trivial,whole.imp_right fun safe => ⟨children safe.1,safe.2⟩⟩
        · have le := before mapped
          have short := made.short (children mapped) failure
          have cards := congrArg Multiset.card (moved.all trivial)
          rw [Multiset.card_add,Multiset.card_singleton,add_zero] at cards
          have nonneg := made.nonneg
          rw [kidsSize_none le] at short
          rw [treeSize_none le,treeSize_succ (by omega)]
          omega
    · simp only [inodeIndirectGrow,if_neg null]
      have range := owned.2 dest (by simp [mem_tree_self null])
      rw [diskRead_block _ (by omega) range.2]
      rw [tree_succ null] at owned
      obtain ⟨total,grown⟩ := growIndirect_spec bound proper child cur _ list owned low high
      refine ⟨fun mapped => total (mapped.2 null),fun r run => ?_⟩
      have made := grown r run
      have safe' (safe : GrowSafe (level + 1) old w dest cur r.allocated) :
          IndirectSafe level old w (w.block dest) cur r.allocated := ⟨safe.1.2 null,safe.2⟩
      refine ⟨?_,made.nonneg,made.upper,made.exact,made.calm,made.failed,made.less,
        fun safe => made.mapped (safe' safe),
        fun safe => ?_,fun mapped failure => ?_,fun mapped => made.cut (mapped.2 null)⟩
      · rw [tree_succ null]
        exact made.moved.imp fun _ moved => moved.weaken fun whole => whole.imp_right safe'
      · obtain ⟨same,kept⟩ := made.kept (safe' safe) (safe.1.1.mp null)
        rw [same]
        exact Kept.node bound kept
      · have short := made.short (mapped.2 null) failure
        have inside := mapped.1.mp null
        have nonneg := made.nonneg
        rw [treeSize_succ inside,treeSize_succ (by omega)]
        omega

theorem growChildren_orderly {grow : World → Int → Int → Run GrowResult}
    (child : ∀ w dest cur, Orderly w.exhausted (·.disk.exhausted) (grow w dest cur)) (cur sub : Int)
    (n : Nat) : ∀ i w data sum,
    Orderly w.exhausted (·.disk.exhausted) (growChildren grow cur sub n i w data sum) := by
  induction n with
  | zero => exact fun _ _ _ _ => Orderly.ok id
  | succ n ih =>
    intro i w data sum
    refine (child _ _ _).bind fun c _ => ?_
    split
    · exact ih _ _ _ _
    · exact Orderly.ok id

theorem inodeIndirectGrow_orderly (old new : Int) (level : Nat) : ∀ w dest cur,
    Orderly w.exhausted (·.disk.exhausted) (inodeIndirectGrow old new level w dest cur) := by
  induction level with
  | zero =>
    intro w dest cur
    have allocated := blockAllocate_exhausted w
    simp only [inodeIndirectGrow]
    split
    · split <;> exact Orderly.ok allocated
    · exact Orderly.abort id
  | succ level ih =>
    intro w dest cur
    have part (w : World) (b : Int) (data : Block) : Orderly w.exhausted (·.disk.exhausted)
        (growIndirect (inodeIndirectGrow old new level) (indirectCount level) old new w b data cur) := by
      refine (growChildren_orderly ih _ _ _ _ _ _ _).bind fun loop _ => ?_
      split <;> exact Orderly.ok fun raised => by simpa using raised
    have allocated := blockAllocate_exhausted w
    simp only [inodeIndirectGrow]
    split
    · split
      · exact Orderly.ok allocated
      · exact (part _ _ _).from allocated
    · exact part _ _ _

end CandyFs
