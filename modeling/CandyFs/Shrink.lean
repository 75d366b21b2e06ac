import CandyFs.PointerTree
import CandyFs.Inode

/-! `inode_indirect_shrink`: it gives the blocks of the block indexes from the new count on
back to the free list, an index block with its last child, and loses none.
-/
namespace CandyFs
open Bytes Finset ChildRange

variable [Geometry]

/-- What shrinking the tree under one pointer achieves. -/
structure Shrunk (level : Nat) (old new : Int) (w : World) (dest cur : Int) (free : Multiset Int)
    (r : ShrinkResult) : Prop where
  moved : ∃ free', Moved w r.disk free (tree w level dest) free' (tree r.disk level r.dest) True
  freed : r.freed = overlap cur (indirectCount level) new old
  mapped : Mapped w level dest cur old → Mapped r.disk level r.dest cur new
  kept : Mapped w level dest cur old → Routed w r.disk level dest r.dest cur new

/-- What is required of the function that shrinks one child. -/
def ShrinkSpec (level : Nat) (old new : Int) (shrink : World → Int → Int → Run ShrinkResult) : Prop :=
  ∀ (w : World) (dest cur : Int) (free : Multiset Int), FreeSet w free →
    Owned w (free + tree w level dest) → cur < old → new < cur + indirectCount level →
    (Mapped w level dest cur old → ∃ r, shrink w dest cur = .ok r) ∧
    ∀ r, shrink w dest cur = .ok r → Shrunk level old new w dest cur free r

/-- What the loop over `count` children from `first` on achieves. -/
structure ShrunkChildren (level : Nat) (old new cur : Int) (first count : Nat) (w : World)
    (data : Block) (free : Multiset Int) (sum : Int) (r : ShrinkLoop) : Prop where
  moved : ∃ free', Moved w r.disk free (kids w level data) free' (kids r.disk level r.indirectData) True
  sum : r.sum = sum +
    overlap (cur + first * indirectCount level) (count * indirectCount level) new old
  untouched : ∀ j, j < singleIndirectCount → j < first ∨ first + count ≤ j →
    word r.indirectData j = word data j ∧
    ∀ b ∈ tree w level (word data j), r.disk.block b = w.block b
  mapped : ∀ j : Nat, first ≤ j → j < first + count →
    Mapped w level (word data j) (cur + j * indirectCount level) old →
    Mapped r.disk level (word r.indirectData j) (cur + j * indirectCount level) new
  kept : ∀ j : Nat, first ≤ j → j < first + count →
    Mapped w level (word data j) (cur + j * indirectCount level) old →
    Routed w r.disk level (word data j) (word r.indirectData j) (cur + j * indirectCount level) new

section
variable {level : Nat} {old new : Int} {shrink : World → Int → Int → Run ShrinkResult}

theorem shrinkChildren_spec (bound : level ≤ 3) (proper : new < old)
    (spec : ShrinkSpec level old new shrink) (cur : Int) (n : Nat) : ∀ (first : Nat) (w : World) (data : Block) (free : Multiset Int) (sum : Int),
    FreeSet w free → Owned w (free + kids w level data) →
    (∀ j : Nat, first ≤ j → j < first + n → j < singleIndirectCount ∧
      cur + j * indirectCount level < old ∧
      new < cur + j * indirectCount level + indirectCount level) →
    ((∀ j : Nat, first ≤ j → j < first + n →
        Mapped w level (word data j) (cur + j * indirectCount level) old) →
      ∃ r, shrinkChildren shrink cur (indirectCount level) n first w data sum = .ok r) ∧
    ∀ r, shrinkChildren shrink cur (indirectCount level) n first w data sum = .ok r →
      ShrunkChildren level old new cur first n w data free sum r := by
  induction n with
  | zero =>
    intro first w data free sum list owned range
    refine ⟨fun _ => ⟨_,rfl⟩,fun r run => ?_⟩
    simp only [shrinkChildren,Except.ok.injEq] at run
    subst run
    have none := overlap_zero (cur + first * indirectCount level) new old
    exact ⟨⟨free,Moved.refl list⟩,by simp [none],fun j _ _ => ⟨rfl,fun _ _ => rfl⟩,
      fun j _ _ => by omega,fun j _ _ => by omega⟩
  | succ n ih =>
    intro first w data free sum list owned range
    have here := range first le_rfl (by omega)
    have part : Owned w (free + tree w level (word data first)) := owned.mono
      (add_le_add_right (le_sum_range (f := fun j => tree w level (word data j)) here.1) free)
    obtain ⟨total,shrunk⟩ := spec w (word data first) (cur + first * indirectCount level) free list
      part here.2.1 here.2.2
    have next : ((first : Int) + 1) = ((first + 1 : Nat) : Int) := by push_cast; rfl
    simp only [shrinkChildren,Int.toNat_natCast,next]
    constructor
    · intro mapped
      obtain ⟨c,run⟩ := total (mapped first le_rfl (by omega))
      obtain ⟨free1,moved⟩ := (shrunk c run).moved
      obtain ⟨stored,movedKids,others⟩ := moved.child here.1 owned
      rw [run,ok_bind]
      refine (ih (first + 1) c.disk (setWord data first c.dest) free1 (sum + c.freed)
        moved.list (movedKids.owned owned) fun j low high =>
        range j (by omega) (by omega)).1 fun j low high => ?_
      rw [word_setWord_ne _ _ _ _ (by omega)]
      exact mapped_frame (fun b member => others j (range j (by omega) (by omega)).1 (by omega) b
        (Multiset.mem_of_le (index_le_tree _ _ _) member)) (mapped j (by omega) (by omega))
    · intro r run
      obtain ⟨c,ran,run⟩ := bind_ok.mp run
      have child := shrunk c ran
      obtain ⟨free1,moved⟩ := child.moved
      obtain ⟨stored,movedKids,others⟩ := moved.child here.1 owned
      have pos : (0 : Int) < indirectCount level := by exact_mod_cast indirectCount_pos bound
      have run_split : ((n + 1 : Nat) : Int) * indirectCount level =
          indirectCount level + n * indirectCount level := by push_cast; ring
      have run_next : cur + ((first + 1 : Nat) : Int) * indirectCount level =
          cur + first * indirectCount level + indirectCount level := by push_cast; ring
      have rest_nonneg : (0 : Int) ≤ n * indirectCount level := Int.mul_nonneg (by omega) pos.le
      have both := overlap_add (cur + first * indirectCount level) new old pos.le rest_nonneg
      have rest := (ih (first + 1) c.disk (setWord data first c.dest) free1 (sum + c.freed)
        moved.list (movedKids.owned owned) fun j low high =>
        range j (by omega) (by omega)).2 r run
      obtain ⟨free2,movedRest⟩ := rest.moved
      have headUntouched := rest.untouched first here.1 (.inl (by omega))
      rw [stored] at headUntouched
      have headFreed := child.freed
      have tailFreed := rest.sum
      rw [run_next] at tailFreed
      refine ⟨⟨free2,(movedKids.trans movedRest).weaken fun h => ⟨h,h⟩⟩,?_,?_,?_,?_⟩
      · rw [run_split,both]
        omega
      · intro j inside outside
        obtain ⟨samePtr,sameBlocks⟩ := rest.untouched j inside (by omega)
        rw [word_setWord_ne _ _ _ _ (by omega)] at samePtr sameBlocks
        have before := others j inside (by omega)
        refine ⟨samePtr,fun b member => ?_⟩
        rw [← before b member]
        exact sameBlocks b (by rw [tree_congr before]; exact member)
      · intro j low high mapped
        by_cases head : j = first
        · subst head
          rw [headUntouched.1]
          exact mapped_frame (fun b member => headUntouched.2 b
            (Multiset.mem_of_le (index_le_tree _ _ _) member)) (child.mapped mapped)
        · have before := others j (range j low high).1 head
          have later := rest.mapped j (by omega) (by omega)
          rw [word_setWord_ne _ _ _ _ head] at later
          exact later (mapped_frame (fun b member => before b
            (Multiset.mem_of_le (index_le_tree _ _ _) member)) mapped)
      · intro j low high mapped
        by_cases head : j = first
        · subst head
          rw [headUntouched.1]
          exact (child.kept mapped).trans
            (Routed.frame bound (child.mapped mapped) le_rfl headUntouched.2)
        · have before := others j (range j low high).1 head
          have later := rest.kept j (by omega) (by omega)
          rw [word_setWord_ne _ _ _ _ head] at later
          exact (Routed.frame bound mapped proper.le before).trans (later (mapped_frame (fun b member =>
            before b (Multiset.mem_of_le (index_le_tree _ _ _) member)) mapped))

end

theorem inodeIndirectShrink_spec {old new : Int} (proper : new < old) {level : Nat}
    (bound : level ≤ 3) : ShrinkSpec level old new (inodeIndirectShrink old new level) := by
  induction level with
  | zero =>
    intro w dest cur free list owned low high
    simp only [indirectCount,Nat.cast_one] at high
    constructor
    · intro mapped
      have present : dest ≠ eof := mapped.mpr low
      simp only [inodeIndirectShrink,check_true present,ok_bind]
      exact ⟨_,rfl⟩
    · intro r run
      obtain ⟨_,present,run⟩ := bind_ok.mp run
      rw [check_ok] at present
      rw [Except.ok.injEq] at run
      subst run
      rw [tree,pointer_of_ne present] at owned
      have moved := blockFree_moved list owned
      refine ⟨⟨free + {dest},?_⟩,?_,fun _ => ?_,fun _ => Routed.none (by omega)⟩
      · rw [tree,pointer_of_ne present,tree,pointer_eof]
        exact moved
      · simp only [indirectCount,overlap,Nat.cast_one]
        omega
      · exact mapped_eof (by omega)
  | succ level ih =>
    intro w dest cur free list owned low high
    have pos : (0 : Int) < indirectCount level := by
      exact_mod_cast indirectCount_pos (show level ≤ 3 by omega)
    have fanout : (0 : Int) < singleIndirectCount := by
      exact_mod_cast indirectCount_pos (show 1 ≤ 3 by omega)
    have span : (indirectCount (level + 1) : Int) = singleIndirectCount * indirectCount level := by
      exact_mod_cast indirectCount_succ bound
    by_cases present : dest ≠ eof
    swap
    · simp only [inodeIndirectShrink]
      refine ⟨fun mapped => absurd (mapped.1.mpr low) present,fun r run => ?_⟩
      obtain ⟨_,checked,_⟩ := bind_ok.mp run
      exact absurd (check_ok.mp checked) present
    have range := owned.2 dest (by simp [mem_tree_self present])
    rw [tree_succ present] at owned
    have ownedKids : Owned w (free + kids w level (w.block dest)) :=
      owned.mono (add_le_add_right (Multiset.le_cons_self _ _) free)
    have ordered := startIdx_le_endIdx pos fanout proper low (span ▸ high)
    have whole := overlap_children pos fanout proper low (span ▸ high)
    rw [← span] at whole
    have within := endIdx_lt (n := singleIndirectCount) (c := cur) (b := old) pos
    have startNonneg := startIdx_nonneg (c := cur) (a := new) pos
    have loopSpec := shrinkChildren_spec (by omega) proper (ih (by omega)) cur
      (endIdx singleIndirectCount cur (indirectCount level) old + 1 -
        startIdx cur (indirectCount level) new).toNat
      (startIdx cur (indirectCount level) new).toNat w (w.block dest) free 0 list ownedKids
      fun j first last => by
        have begins := (startIdx_le_iff (c := cur) (a := new) pos (i := j) (by omega)).mp (by omega)
        have ends := (le_endIdx_iff (n := singleIndirectCount) (c := cur) (b := old) pos (i := j)
          (by omega)).mp (by omega)
        rw [Int.add_mul] at begins
        exact ⟨by omega,ends,by omega⟩
    rw [Int.toNat_of_nonneg startNonneg] at loopSpec
    simp only [inodeIndirectShrink,check_true present,ok_bind]
    rw [diskRead_block _ (by omega) range.2]
    constructor
    · intro mapped
      obtain ⟨loop,run⟩ := loopSpec.1 fun j first last => mapped.2 present j (by omega)
      rw [run,ok_bind]
      split <;> exact ⟨_,rfl⟩
    intro r run
    obtain ⟨loop,ran,run⟩ := bind_ok.mp run
    have shrunk := loopSpec.2 loop ran
    obtain ⟨free',moved⟩ := shrunk.moved
    have sum := shrunk.sum
    rw [Int.toNat_of_nonneg startNonneg,Int.toNat_of_nonneg (by omega),whole,zero_add] at sum
    have unit (rest : Multiset Int) : rest + {dest} = dest ::ₘ rest := by
      rw [add_comm,Multiset.singleton_add]
    have movedAll := moved.add {dest}
    rw [unit,unit] at movedAll
    have owned' := movedAll.owned owned
    -- all children, visited or not, map the indexes below the new count
    have mappedLoop (mapped : Mapped w (level + 1) dest cur old) {j : Nat}
        (inside : j < singleIndirectCount) :
        Mapped loop.disk level (word loop.indirectData j) (cur + j * indirectCount level) new := by
      have before := mapped.2 present j inside
      by_cases visited : startIdx cur (indirectCount level) new ≤ j ∧
        (j : Int) ≤ endIdx singleIndirectCount cur (indirectCount level) old
      · exact shrunk.mapped j (by omega) (by omega) before
      · obtain ⟨samePtr,sameBlocks⟩ := shrunk.untouched j inside (by omega)
        rw [samePtr]
        exact (mapped_outside (by omega) proper (n := singleIndirectCount) (by omega)
          (by omega)).mpr (mapped_frame (fun c member => sameBlocks c
            (Multiset.mem_of_le (index_le_tree _ _ _) member)) before)
    split at run
    · rename_i everything
      rw [Except.ok.injEq] at run
      subst run
      have empty (j : Nat) (inside : j < singleIndirectCount) : word loop.indirectData j = eof := by
        simpa using List.all_eq_true.mp everything j (List.mem_range.mpr inside)
      have none : kids loop.disk level loop.indirectData = 0 := sum_eq_zero fun j inside => by
        rw [empty j (mem_range.mp inside),tree_eof]
      have alone : dest ::ₘ (0 : Multiset Int) = {dest} := rfl
      rw [none,alone] at movedAll owned'
      have freed := blockFree_moved moved.list owned'
      have past (mapped : Mapped w (level + 1) dest cur old) : new ≤ cur := by
        have first : 0 < singleIndirectCount := by exact_mod_cast fanout
        have head := (mappedLoop mapped first).present.not.mp (not_not.mpr (empty 0 first))
        simpa using head
      refine ⟨⟨free' + {dest},?_⟩,sum,fun mapped => mapped_eof (past mapped),
        fun mapped => Routed.none (past mapped)⟩
      rw [tree_eof,tree_succ present]
      exact (movedAll.trans freed).weaken fun h => ⟨h,h⟩
    · rename_i remaining
      rw [Except.ok.injEq,diskWrite_block _ (by omega) (by rw [moved.frame.nblocks]; exact range.2)]
        at run
      subst run
      obtain ⟨written,staysChild⟩ := Moved.store moved.list owned'
      refine ⟨⟨free',?_⟩,sum,fun mapped => ⟨⟨fun _ => ?_,fun _ => present⟩,fun _ j inside => ?_⟩,
        fun mapped => Routed.node bound fun j inside => ?_⟩
      · rw [tree_succ present]
        exact (movedAll.trans written).weaken fun h => ⟨h,h⟩
      · -- a child that is left maps an index below the new count
        simp only [List.all_eq_true,List.mem_range,decide_eq_true_eq,not_forall] at remaining
        obtain ⟨j,inside,left⟩ := remaining
        have reached := (mappedLoop mapped inside).present.mp left
        have run := child_inside bound inside cur
        omega
      · rw [put_block_self]
        exact mapped_frame (fun c member => staysChild j inside c
          (Multiset.mem_of_le (index_le_tree _ _ _) member)) (mappedLoop mapped inside)
      · rw [put_block_self]
        have before := mapped.2 present j inside
        have kept : Routed w loop.disk level (word (w.block dest) j) (word loop.indirectData j)
            (cur + j * indirectCount level) new := by
          by_cases visited : startIdx cur (indirectCount level) new ≤ j ∧
            (j : Int) ≤ endIdx singleIndirectCount cur (indirectCount level) old
          · exact shrunk.kept j (by omega) (by omega) before
          · obtain ⟨samePtr,sameBlocks⟩ := shrunk.untouched j inside (by omega)
            rw [samePtr]
            exact Routed.frame (by omega) before proper.le sameBlocks
        exact kept.trans
          (Routed.frame (by omega) (mappedLoop mapped inside) le_rfl (staysChild j inside))

theorem shrinkChildren_orderly {shrink : World → Int → Int → Run ShrinkResult}
    (child : ∀ w dest cur, Orderly w.exhausted (·.disk.exhausted) (shrink w dest cur)) (cur sub : Int)
    (n : Nat) : ∀ i w data sum,
    Orderly w.exhausted (·.disk.exhausted) (shrinkChildren shrink cur sub n i w data sum) := by
  induction n with
  | zero => exact fun _ _ _ _ => Orderly.ok id
  | succ n ih => exact fun i w data sum => (child _ _ _).bind fun c _ => ih _ _ _ _

theorem inodeIndirectShrink_orderly (old new : Int) (level : Nat) : ∀ w dest cur,
    Orderly w.exhausted (·.disk.exhausted) (inodeIndirectShrink old new level w dest cur) := by
  induction level with
  | zero =>
    intro w dest cur
    exact Orderly.check.bind fun _ _ => Orderly.ok fun raised => by simpa using raised
  | succ level ih =>
    intro w dest cur
    refine Orderly.check.bind fun _ _ => (shrinkChildren_orderly ih _ _ _ _ _ _ _).bind fun loop _ => ?_
    split <;> exact Orderly.ok fun raised => by simpa using raised

end CandyFs
