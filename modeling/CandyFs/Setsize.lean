import CandyFs.Slots

/-! `inode_setsize`: the loops over the slots of an inode, and the size they leave.
-/
namespace CandyFs
open Bytes Finset ChildRange

variable [Geometry]

/-- Where the loop that grows a file stands: at the old count, or at the start of a slot. -/
def AtSlot (old c : Int) : Prop := c = old ∨ ∃ slot, slot < numBlockSlots ∧ c = slotStart slot

/-- Nothing is lost when a file grows from `c` blocks to `k`: if no block is gained, no index
block in use is given back. -/
def GrowthSafe (old c k : Int) (w : World) (inode : Block) : Prop :=
  FileMapped w inode c ∧ (c = old → Fragile old → c < k)

/-- What the loop that grows a file from `c` blocks on achieves. -/
structure GrownFile (old new c : Int) (w : World) (inode : Block) (free : Multiset Int)
    (r : SizeLoop) : Prop where
  moved : ∃ free', Moved w r.disk free (fileBlocks w inode) free' (fileBlocks r.disk r.inode)
    (r.disk.exhausted = false ∨ GrowthSafe old c r.blockcount w inode)
  lower : c ≤ r.blockcount
  upper : r.blockcount ≤ new
  exact : r.disk.exhausted = false → r.blockcount = new
  calm : r.blockcount = new → r.disk.exhausted = w.exhausted
  head : ∀ k, k < 104 → r.inode k = inode k
  mapped : GrowthSafe old c r.blockcount w inode → FileMapped r.disk r.inode r.blockcount
  kept : GrowthSafe old c r.blockcount w inode → FileKept w r.disk inode r.inode old
  short : FileMapped w inode c → r.blockcount < new →
    free.card + footprint c < footprint (r.blockcount + 1)
  cut : FileMapped w inode c → c = old → Fragile old → r.blockcount = old →
    eof ∈ fileRoute r.disk r.inode (old - 1)

section
variable {old new : Int}

theorem atSlot_run {c : Int} {slot : Nat} (place : AtSlot old c) (bound : slot < numBlockSlots)
    (order : old ≤ c) (low : slotStart slot ≤ c) (high : c < slotStart slot + slotSpan slot) :
    c = max old (slotStart slot) := by
  rcases place with rfl | ⟨other,bound',rfl⟩
  · exact (max_eq_left low).symm
  · have pos := slotSpan_pos other
    have found := blockidx2blockslot_unique bound low high
    rw [blockidx2blockslot_unique bound' le_rfl (by omega)] at found
    rw [Nat.cast_inj.mp found]
    exact (max_eq_right (Nat.cast_inj.mp found ▸ order)).symm

theorem setsizeGrow_slot {w : World} {inode : Block} {free : Multiset Int}
    {c : Int} {slot : Nat} {r : GrowResult} (owned : Owned w (free + fileBlocks w inode))
    (bound : slot < numBlockSlots) (run : c = max old (slotStart slot))
    (high : c < slotStart slot + slotSpan slot)
    (grown : Grown (slotLevel slot) old new w (slotPtr inode slot) (slotStart slot) free r) :
    (∃ free', Moved w r.disk free (fileBlocks w inode) free'
        (fileBlocks r.disk (setWord inode (Inode.slotWord slot) r.dest)) (r.success = true ∨
          GrowSafe (slotLevel slot) old w (slotPtr inode slot) (slotStart slot) r.allocated)) ∧
      (FileMapped w inode c →
        GrowSafe (slotLevel slot) old w (slotPtr inode slot) (slotStart slot) r.allocated →
        FileMapped r.disk (setWord inode (Inode.slotWord slot) r.dest) (c + r.allocated) ∧
        FileKept w r.disk inode (setWord inode (Inode.slotWord slot) r.dest) old) ∧
      c + r.allocated ≤ slotStart slot + slotSpan slot := by
  obtain ⟨free',moved⟩ := grown.moved
  obtain ⟨stored,movedFile,others⟩ := moved.inSlot bound owned
  have pos := slotSpan_pos slot
  have nonneg := grown.nonneg
  have upper : r.allocated ≤ overlap (slotStart slot) (slotSpan slot) old new := grown.upper
  have within : c + r.allocated ≤ slotStart slot + slotSpan slot := by
    unfold overlap at upper
    omega
  refine ⟨⟨free',movedFile⟩,fun mapped safe => ⟨fun other bound' => ?_,fun other bound' => ?_⟩,within⟩
  · by_cases same : other = slot
    · subst same
      rw [stored,run]
      exact grown.mapped safe
    · rw [slotPtr_setWord_ne same]
      refine (mapped_slot fun x low high => ?_).mp (mapped_frame (fun b member =>
        others other bound' same b (Multiset.mem_of_le (index_le_tree _ _ _) member))
        (mapped other bound'))
      rcases Nat.lt_or_gt_of_ne same with before | after
      · have := slotEnd_le_start before bound
        omega
      · have := slotEnd_le_start after bound'
        omega
  · by_cases same : other = slot
    · subst same
      rw [stored]
      exact grown.kept safe
    · rw [slotPtr_setWord_ne same]
      exact Kept.frame (slotLevel_le other) (mapped other bound') (by omega) (others other bound' same)

theorem setsizeGrow_done {c : Int} (done : new ≤ c) (fuel : Nat) (w : World) (inode : Block)
    (last : Int) : setsizeGrow old new fuel w inode c last = .ok ⟨w,inode,c,last⟩ := by
  cases fuel <;> simp [setsizeGrow,not_lt.mpr done]

theorem GrownFile.done {w : World} {free : Multiset Int} (list : FreeSet w free) (order : old < new)
    (inode : Block) (last : Int) : GrownFile old new new w inode free ⟨w,inode,new,last⟩ :=
  ⟨⟨free,Moved.refl list⟩,le_rfl,le_rfl,fun _ => rfl,fun _ => rfl,fun _ _ => rfl,fun safe => safe.1,
    fun safe => FileKept.frame (fun _ => rfl) (fun _ _ => rfl) safe.1 order.le,
    fun _ less => absurd less (lt_irrefl _),fun _ same => absurd same order.ne'⟩

theorem GrownFile.stop {w : World} {inode : Block} {free : Multiset Int} {c : Int} {slot : Nat}
    {g : GrowResult} (owned : Owned w (free + fileBlocks w inode)) (bound : slot < numBlockSlots)
    (run : c = max old (slotStart slot)) (more : c < new) (high : c < slotStart slot + slotSpan slot)
    (grown : Grown (slotLevel slot) old new w (slotPtr inode slot) (slotStart slot) free g)
    (failure : g.success = false) : GrownFile old new c w inode free
      ⟨g.disk,setWord inode (Inode.slotWord slot) g.dest,c + g.allocated,slot⟩ := by
  obtain ⟨⟨free1,moved⟩,mappedSlot,within⟩ := setsizeGrow_slot owned bound run high grown
  have failed := grown.failed failure
  have upper : g.allocated ≤ overlap (slotStart slot) (slotSpan slot) old new := grown.upper
  have nonneg := grown.nonneg
  have start (mapped : FileMapped w inode c) :
      Mapped w (slotLevel slot) (slotPtr inode slot) (slotStart slot) old :=
    (mapped_slot fun x low high => by omega).mp (mapped slot bound)
  have safe' (safe : GrowthSafe old c (c + g.allocated) w inode) :
      GrowSafe (slotLevel slot) old w (slotPtr inode slot) (slotStart slot) g.allocated := by
    refine ⟨start safe.1,fun straddles => ?_⟩
    have inside := straddles.inside (slotLevel_le slot)
    have := safe.2 (by omega) ⟨slot,bound,straddles⟩
    omega
  have less : g.allocated < overlap (slotStart slot) (slotSpan slot) old new := grown.less failure
  refine ⟨⟨free1,moved.weaken fun whole => ?_⟩,by dsimp only; omega,?_,fun fine => ?_,fun all => ?_,
    fun k inside => setSlot_head _ inside,fun safe => (mappedSlot safe.1 (safe' safe)).1,
    fun safe => (mappedSlot safe.1 (safe' safe)).2,fun mapped _ => ?_,
    fun mapped same fragile none => ?_⟩
  · rcases whole with fine | safe
    · rw [failed] at fine
      cases fine
    · exact .inr (safe' safe)
  · unfold overlap at upper
    dsimp only
    omega
  · rw [failed] at fine
    cases fine
  · unfold overlap at less
    dsimp only at all
    omega
  · have short := grown.short (start mapped) failure
    dsimp only
    rw [← run] at short
    have same : treeSize (slotLevel slot) (slotStart slot) old =
        treeSize (slotLevel slot) (slotStart slot) c :=
      treeSize_congr (slotLevel_le slot) fun x low _ => by omega
    rw [same] at short
    exact footprint_lt bound (by omega) short
  · dsimp only at none ⊢
    have straddles := fragile.slot bound (by omega) (by omega)
    have inside := straddles.inside (slotLevel_le slot)
    rw [fileRoute_slot bound (by omega) (by omega),(grown.moved.choose_spec.inSlot bound owned).1]
    exact grown.cut (start mapped) straddles (by omega)

theorem GrownFile.next (proper : old < new) {w : World} {inode : Block} {free : Multiset Int}
    {c : Int} {slot : Nat} {g : GrowResult} {r : SizeLoop}
    (owned : Owned w (free + fileBlocks w inode)) (bound : slot < numBlockSlots) (order : old ≤ c)
    (run : c = max old (slotStart slot)) (more : c < new) (high : c < slotStart slot + slotSpan slot)
    (grown : Grown (slotLevel slot) old new w (slotPtr inode slot) (slotStart slot) free g)
    (success : g.success = true)
    (rest : ∀ free1, FreeSet g.disk free1 →
      Owned g.disk (free1 + fileBlocks g.disk (setWord inode (Inode.slotWord slot) g.dest)) →
      GrownFile old new (c + g.allocated) g.disk (setWord inode (Inode.slotWord slot) g.dest)
        free1 r) : GrownFile old new c w inode free r := by
  obtain ⟨⟨free1,moved⟩,mappedSlot,within⟩ := setsizeGrow_slot owned bound run high grown
  replace rest := rest free1 moved.list (moved.owned owned)
  obtain ⟨free2,movedRest⟩ := rest.moved
  have gained := grown.gained (slotLevel_le slot) proper (by omega)
    (by unfold slotSpan at high; omega) success
  have lower := rest.lower
  have safe (mapped : FileMapped w inode c) :
      GrowSafe (slotLevel slot) old w (slotPtr inode slot) (slotStart slot) g.allocated :=
    ⟨(mapped_slot fun x low high => by omega).mp (mapped slot bound),fun _ => gained⟩
  have restSafe (mapped : FileMapped w inode c) : GrowthSafe old (c + g.allocated) r.blockcount g.disk
      (setWord inode (Inode.slotWord slot) g.dest) :=
    ⟨(mappedSlot mapped (safe mapped)).1,fun same => by omega⟩
  refine ⟨⟨free2,(moved.trans movedRest).weaken fun whole => ⟨.inl success,?_⟩⟩,by omega,rest.upper,
    rest.exact,fun all => (rest.calm all).trans (grown.calm success),
    fun k inside => (rest.head k inside).trans (setSlot_head _ inside),
    fun whole => rest.mapped (restSafe whole.1),fun whole => ?_,fun mapped less => ?_,
    fun _ _ _ none => by omega⟩
  · exact whole.imp_right fun safe => restSafe safe.1
  · exact (mappedSlot whole.1 (safe whole.1)).2.trans (rest.kept (restSafe whole.1))
  · have short := rest.short (restSafe mapped).1 less
    have cards := congrArg Multiset.card (moved.all (.inl success))
    rw [Multiset.card_add,Multiset.card_add,(restSafe mapped).1.card,mapped.card] at cards
    omega

theorem setsizeGrow_spec (proper : old < new) (top : new ≤ firstUnreachableBlock) (nonneg : 0 ≤ old)
    (fuel : Nat) : ∀ (w : World) (inode : Block) (c last : Int) (free : Multiset Int),
    FreeSet w free → Owned w (free + fileBlocks w inode) → 0 < w.nblocks → old ≤ c → c ≤ new →
    (c < new → AtSlot old c) → new - c ≤ fuel →
    (FileMapped w inode c → (c < new → last = -1 ∨ last + 1 = blockidx2blockslot c) →
      ∃ r, setsizeGrow old new fuel w inode c last = .ok r) ∧
    Orderly w.exhausted (·.disk.exhausted) (setsizeGrow old new fuel w inode c last) ∧
    ∀ r, setsizeGrow old new fuel w inode c last = .ok r → GrownFile old new c w inode free r := by
  induction fuel with
  | zero =>
    intro w inode c last free list owned some order within place enough
    obtain rfl : c = new := by omega
    rw [setsizeGrow_done le_rfl]
    refine ⟨fun _ _ => ⟨_,rfl⟩,Orderly.ok id,fun r run => ?_⟩
    rw [Except.ok.injEq] at run
    exact run ▸ GrownFile.done list proper inode last
  | succ fuel ih =>
    intro w inode c last free list owned some order within place enough
    by_cases done : c = new
    · subst done
      rw [setsizeGrow_done le_rfl]
      refine ⟨fun _ _ => ⟨_,rfl⟩,Orderly.ok id,fun r run => ?_⟩
      rw [Except.ok.injEq] at run
      exact run ▸ GrownFile.done list proper inode last
    have more : c < new := by omega
    obtain ⟨slot,bound,found,level,low,high⟩ :=
      blockidx2blockslot_spec (show 0 ≤ c by omega) (by omega)
    have run := atSlot_run (place more) bound order low high
    have spec := inodeIndirectGrow_spec proper (slotLevel_le slot) w (slotPtr inode slot)
      (slotStart slot) free list (owned.mono (add_le_add_right (tree_le_fileBlocks bound) free)) some
      (by omega) (by unfold slotSpan at high; omega)
    have next : min new (slotStart slot + slotSpan slot) < new →
        AtSlot old (min new (slotStart slot + slotSpan slot)) ∧
        blockidx2blockslot (min new (slotStart slot + slotSpan slot)) = slot + 1 := by
      intro below
      rw [min_eq_right (by omega)] at below ⊢
      obtain ⟨inside,start⟩ := slotStart_next bound (by omega)
      have pos := slotSpan_pos (slot + 1)
      rw [← start]
      exact ⟨.inr ⟨slot + 1,inside,rfl⟩,by
        rw [blockidx2blockslot_unique inside le_rfl (by omega)]
        push_cast
        rfl⟩
    simp only [setsizeGrow,if_pos more,found,level,Int.toNat_natCast]
    have after (g : GrowResult) (grown : Grown (slotLevel slot) old new w (slotPtr inode slot)
        (slotStart slot) free g) (success : g.success = true) :
        c + g.allocated = min new (slotStart slot + slotSpan slot) := by
      rw [grown.exact success,show overlap (slotStart slot) (indirectCount (slotLevel slot)) old new =
        overlap (slotStart slot) (slotSpan slot) old new from rfl,overlap]
      omega
    -- what remains to be done after a slot that grew all the way
    have step (g : GrowResult) (grown : Grown (slotLevel slot) old new w (slotPtr inode slot)
        (slotStart slot) free g) (success : g.success = true) (free1 : Multiset Int)
        (list1 : FreeSet g.disk free1) (owned1 : Owned g.disk
          (free1 + fileBlocks g.disk (setWord inode (Inode.slotWord slot) g.dest))) :
        (FileMapped g.disk (setWord inode (Inode.slotWord slot) g.dest) (c + g.allocated) →
          ∃ r, setsizeGrow old new fuel g.disk (setWord inode (Inode.slotWord slot) g.dest)
            (c + g.allocated) slot = .ok r) ∧
        Orderly g.disk.exhausted (·.disk.exhausted) (setsizeGrow old new fuel g.disk
          (setWord inode (Inode.slotWord slot) g.dest) (c + g.allocated) slot) ∧
        ∀ r, setsizeGrow old new fuel g.disk (setWord inode (Inode.slotWord slot) g.dest)
            (c + g.allocated) slot = .ok r →
          GrownFile old new (c + g.allocated) g.disk (setWord inode (Inode.slotWord slot) g.dest)
            free1 r := by
      have count := after g grown success
      obtain ⟨_,moved⟩ := grown.moved
      obtain ⟨total,orderly,result⟩ := ih g.disk (setWord inode (Inode.slotWord slot) g.dest)
        (c + g.allocated) slot free1 list1 owned1 (by rw [moved.frame.nblocks]; exact some)
        (by omega) (by omega) (fun below => by rw [count] at below ⊢; exact (next below).1) (by omega)
      refine ⟨fun mapped => total mapped fun below => ?_,orderly,result⟩
      rw [count] at below ⊢
      exact .inr (next below).2.symm
    refine ⟨fun mapped sequential => ?_,?_,fun r ran => ?_⟩
    · have mappedSlot : Mapped w (slotLevel slot) (slotPtr inode slot) (slotStart slot) old :=
        (mapped_slot fun x low high => by omega).mp (mapped slot bound)
      obtain ⟨g,ran⟩ := spec.1 mappedSlot
      have grown := spec.2 g ran
      rw [slotPtr] at ran
      rw [check_true (sequential more),ok_bind,ran,ok_bind]
      split
      · rename_i success
        obtain ⟨⟨free1,moved⟩,safe,_⟩ := setsizeGrow_slot owned bound run high grown
        have gained := grown.gained (slotLevel_le slot) proper (by omega)
          (by unfold slotSpan at high; omega) success
        exact (step g grown success free1 moved.list (moved.owned owned)).1
          (safe mapped ⟨mappedSlot,fun _ => gained⟩).1
      · exact ⟨_,rfl⟩
    · refine Orderly.check.bind fun _ _ =>
        (inodeIndirectGrow_orderly _ _ _ _ _ _).bind fun g ran => ?_
      split
      · rename_i success
        have grown := spec.2 g ran
        obtain ⟨⟨free1,moved⟩,_,_⟩ := setsizeGrow_slot owned bound run high grown
        exact (step g grown success free1 moved.list (moved.owned owned)).2.1
      · exact Orderly.ok id
    · obtain ⟨_,_,ran⟩ := bind_ok.mp ran
      obtain ⟨g,grew,ran⟩ := bind_ok.mp ran
      have grown := spec.2 g grew
      split at ran
      · rename_i success
        exact GrownFile.next proper owned bound order run more high grown success
          fun free1 list1 owned1 => (step g grown success free1 list1 owned1).2.2 r ran
      · rename_i failure
        rw [Except.ok.injEq] at ran
        subst ran
        exact GrownFile.stop owned bound run more high grown (by simpa using failure)

end

/-- Where the loop that shrinks a file stands: at the old count, or at the end of a slot. -/
def AtSlotEnd (old c : Int) : Prop :=
  c = old ∨ ∃ slot, slot < numBlockSlots ∧ c = slotStart slot + slotSpan slot

/-- What the loop that shrinks a file from `c` blocks on achieves. -/
structure ShrunkFile (new c : Int) (w : World) (inode : Block) (free : Multiset Int)
    (r : SizeLoop) : Prop where
  moved : ∃ free', Moved w r.disk free (fileBlocks w inode) free' (fileBlocks r.disk r.inode) True
  count : r.blockcount = new
  head : ∀ k, k < 104 → r.inode k = inode k
  mapped : FileMapped w inode c → FileMapped r.disk r.inode new
  kept : FileMapped w inode c → FileRouted w r.disk inode r.inode new

section
variable {old new : Int}

theorem atSlotEnd_run {c : Int} {slot : Nat} (place : AtSlotEnd old c) (bound : slot < numBlockSlots)
    (order : c ≤ old) (low : slotStart slot ≤ c - 1) (high : c - 1 < slotStart slot + slotSpan slot) :
    c = min old (slotStart slot + slotSpan slot) := by
  rcases place with rfl | ⟨other,bound',rfl⟩
  · exact (min_eq_left (by omega)).symm
  · have pos := slotSpan_pos other
    have found := blockidx2blockslot_unique bound low high
    rw [blockidx2blockslot_unique bound' (by omega) (by omega)] at found
    rw [Nat.cast_inj.mp found] at order ⊢
    exact (min_eq_right order).symm

theorem setsizeShrink_slot {w : World} {inode : Block} {free : Multiset Int}
    {c : Int} {slot : Nat} {r : ShrinkResult} (owned : Owned w (free + fileBlocks w inode))
    (bound : slot < numBlockSlots) (run : c = min old (slotStart slot + slotSpan slot))
    (more : new < c) (low : slotStart slot < c)
    (shrunk : Shrunk (slotLevel slot) old new w (slotPtr inode slot) (slotStart slot) free r) :
    (∃ free', Moved w r.disk free (fileBlocks w inode) free'
        (fileBlocks r.disk (setWord inode (Inode.slotWord slot) r.dest)) True) ∧
      (FileMapped w inode c →
        FileMapped r.disk (setWord inode (Inode.slotWord slot) r.dest) (max new (slotStart slot)) ∧
        FileRouted w r.disk inode (setWord inode (Inode.slotWord slot) r.dest) new) := by
  obtain ⟨free',moved⟩ := shrunk.moved
  obtain ⟨stored,movedFile,others⟩ := moved.inSlot bound owned
  have pos := slotSpan_pos slot
  refine ⟨⟨free',movedFile⟩,fun mapped => ⟨fun other bound' => ?_,fun other bound' => ?_⟩⟩
  · by_cases same : other = slot
    · subst same
      rw [stored]
      refine (mapped_slot fun x low high => ?_).mp (shrunk.mapped ?_)
      · omega
      · exact (mapped_slot fun x low high => by omega).mp (mapped other bound)
    · rw [slotPtr_setWord_ne same]
      refine (mapped_slot fun x low high => ?_).mp (mapped_frame (fun b member =>
        others other bound' same b (Multiset.mem_of_le (index_le_tree _ _ _) member))
        (mapped other bound'))
      rcases Nat.lt_or_gt_of_ne same with before | after
      · have := slotEnd_le_start before bound
        omega
      · have := slotEnd_le_start after bound'
        omega
  · by_cases same : other = slot
    · subst same
      rw [stored]
      exact shrunk.kept ((mapped_slot fun x low high => by omega).mp (mapped other bound))
    · rw [slotPtr_setWord_ne same]
      exact Routed.frame (slotLevel_le other) (mapped other bound') (by omega) (others other bound' same)

theorem setsizeShrink_done {c : Int} (done : c ≤ new) (fuel : Nat) (w : World) (inode : Block)
    (last : Int) : setsizeShrink old new fuel w inode c last = .ok ⟨w,inode,c,last⟩ := by
  cases fuel <;> simp [setsizeShrink,not_lt.mpr done]

theorem ShrunkFile.done {w : World} {free : Multiset Int} (list : FreeSet w free) (inode : Block)
    (last : Int) : ShrunkFile new new w inode free ⟨w,inode,new,last⟩ :=
  ⟨⟨free,Moved.refl list⟩,rfl,fun _ _ => rfl,id,
    fun mapped => FileRouted.frame (fun _ => rfl) (fun _ _ => rfl) mapped le_rfl⟩

theorem setsizeShrink_spec (proper : new < old) (top : old ≤ firstUnreachableBlock) (nonneg : 0 ≤ new)
    (fuel : Nat) : ∀ (w : World) (inode : Block) (c last : Int) (free : Multiset Int),
    FreeSet w free → Owned w (free + fileBlocks w inode) → c ≤ old → new ≤ c →
    (new < c → AtSlotEnd old c) → c - new ≤ fuel →
    (FileMapped w inode c → (new < c → last = -1 ∨ last - 1 = blockidx2blockslot (c - 1)) →
      ∃ r, setsizeShrink old new fuel w inode c last = .ok r) ∧
    Orderly w.exhausted (·.disk.exhausted) (setsizeShrink old new fuel w inode c last) ∧
    ∀ r, setsizeShrink old new fuel w inode c last = .ok r → ShrunkFile new c w inode free r := by
  induction fuel with
  | zero =>
    intro w inode c last free list owned order within place enough
    obtain rfl : c = new := by omega
    rw [setsizeShrink_done le_rfl]
    refine ⟨fun _ _ => ⟨_,rfl⟩,Orderly.ok id,fun r run => ?_⟩
    rw [Except.ok.injEq] at run
    exact run ▸ ShrunkFile.done list inode last
  | succ fuel ih =>
    intro w inode c last free list owned order within place enough
    by_cases done : c = new
    · subst done
      rw [setsizeShrink_done le_rfl]
      refine ⟨fun _ _ => ⟨_,rfl⟩,Orderly.ok id,fun r run => ?_⟩
      rw [Except.ok.injEq] at run
      exact run ▸ ShrunkFile.done list inode last
    have more : new < c := by omega
    obtain ⟨slot,bound,found,level,low,high⟩ :=
      blockidx2blockslot_spec (show 0 ≤ c - 1 by omega) (by omega)
    have run := atSlotEnd_run (place more) bound order low high
    have spec := inodeIndirectShrink_spec proper (slotLevel_le slot) w (slotPtr inode slot)
      (slotStart slot) free list (owned.mono (add_le_add_right (tree_le_fileBlocks bound) free))
      (by omega) (by unfold slotSpan at high; omega)
    have amount : overlap (slotStart slot) (slotSpan slot) new old = c - max new (slotStart slot) := by
      unfold overlap
      omega
    have next : new < max new (slotStart slot) → AtSlotEnd old (max new (slotStart slot)) ∧
        blockidx2blockslot (max new (slotStart slot) - 1) = slot - 1 := by
      intro below
      rw [max_eq_right (by omega)] at below ⊢
      obtain ⟨other,rfl⟩ : ∃ other, slot = other + 1 := by
        cases slot with
        | zero =>
          rw [slotStart_zero] at below
          omega
        | succ other => exact ⟨other,rfl⟩
      have pos := slotSpan_pos other
      rw [slotStart_succ bound]
      exact ⟨.inr ⟨other,by omega,rfl⟩,by
        rw [blockidx2blockslot_unique (show other < numBlockSlots by omega) (by omega) (by omega)]
        push_cast
        omega⟩
    have after (g : ShrinkResult) (shrunk : Shrunk (slotLevel slot) old new w (slotPtr inode slot)
        (slotStart slot) free g) : c - g.freed = max new (slotStart slot) := by
      rw [shrunk.freed,show overlap (slotStart slot) (indirectCount (slotLevel slot)) new old =
        overlap (slotStart slot) (slotSpan slot) new old from rfl,amount]
      omega
    have step (g : ShrinkResult) (shrunk : Shrunk (slotLevel slot) old new w (slotPtr inode slot)
        (slotStart slot) free g) :
        ∃ free', Moved w g.disk free (fileBlocks w inode) free'
          (fileBlocks g.disk (setWord inode (Inode.slotWord slot) g.dest)) True ∧
        (FileMapped g.disk (setWord inode (Inode.slotWord slot) g.dest) (c - g.freed) →
          ∃ r, setsizeShrink old new fuel g.disk (setWord inode (Inode.slotWord slot) g.dest)
            (c - g.freed) slot = .ok r) ∧
        Orderly g.disk.exhausted (·.disk.exhausted) (setsizeShrink old new fuel g.disk
          (setWord inode (Inode.slotWord slot) g.dest) (c - g.freed) slot) ∧
        ∀ r, setsizeShrink old new fuel g.disk (setWord inode (Inode.slotWord slot) g.dest)
            (c - g.freed) slot = .ok r →
          ShrunkFile new (c - g.freed) g.disk (setWord inode (Inode.slotWord slot) g.dest)
            free' r := by
      obtain ⟨⟨free',moved⟩,_⟩ := setsizeShrink_slot owned bound run more (by omega) shrunk
      have count := after g shrunk
      obtain ⟨total,orderly,result⟩ := ih g.disk (setWord inode (Inode.slotWord slot) g.dest)
        (c - g.freed) slot free' moved.list (moved.owned owned) (by omega) (by omega)
        (fun below => by rw [count] at below ⊢; exact (next below).1) (by omega)
      refine ⟨free',moved,fun mapped => total mapped fun below => ?_,orderly,result⟩
      rw [count] at below ⊢
      exact .inr (next below).2.symm
    simp only [setsizeShrink,if_pos more,found,level,Int.toNat_natCast]
    refine ⟨fun mapped sequential => ?_,?_,fun r ran => ?_⟩
    · obtain ⟨g,ran⟩ := spec.1 ((mapped_slot fun x low high => by omega).mp (mapped slot bound))
      have shrunk := spec.2 g ran
      rw [slotPtr] at ran
      rw [check_true (sequential more),ok_bind,ran,ok_bind]
      obtain ⟨_,_,total,_⟩ := step g shrunk
      rw [after g shrunk] at total ⊢
      exact total ((setsizeShrink_slot owned bound run more (by omega) shrunk).2 mapped).1
    · refine Orderly.check.bind fun _ _ =>
        (inodeIndirectShrink_orderly _ _ _ _ _ _).bind fun g ran => ?_
      obtain ⟨_,_,_,orderly,_⟩ := step g (spec.2 g ran)
      exact orderly
    · obtain ⟨_,_,ran⟩ := bind_ok.mp ran
      obtain ⟨g,shrank,ran⟩ := bind_ok.mp ran
      have shrunk := spec.2 g shrank
      have mappedSlot := (setsizeShrink_slot owned bound run more (by omega) shrunk).2
      obtain ⟨free',moved,_,_,result⟩ := step g shrunk
      have rest := result r ran
      obtain ⟨free2,movedRest⟩ := rest.moved
      refine ⟨⟨free2,(moved.trans movedRest).weaken fun h => ⟨h,h⟩⟩,rest.count,
        fun k inside => (rest.head k inside).trans (setSlot_head _ inside),fun mapped => ?_,
        fun mapped => ?_⟩
      · rw [after g shrunk] at rest
        exact rest.mapped (mappedSlot mapped).1
      · rw [after g shrunk] at rest
        exact (mappedSlot mapped).2.trans (rest.kept (mappedSlot mapped).1)

end

theorem blockcount_le_iff {size n : Int} (nonneg : 0 ≤ size) :
    blockcount size ≤ n ↔ size ≤ n * blocksize := by
  have large := blocksize_large
  have unit : (0 : Int) < blocksize := by omega
  have parts := Int.mul_ediv_add_emod size blocksize
  have low := Int.emod_nonneg size unit.ne'
  have high := Int.emod_lt_of_pos size unit
  rw [blockcount,offset2blockidx,Int.tdiv_eq_ediv_of_nonneg nonneg,Int.tmod_eq_emod_of_nonneg nonneg]
  constructor
  · intro le
    have := Int.mul_le_mul_of_nonneg_right le unit.le
    rw [Int.add_mul,Int.mul_comm _ (blocksize : Int)] at this
    split at this <;> omega
  · intro le
    by_contra more
    have := Int.mul_le_mul_of_nonneg_right (show n ≤ size / blocksize + (if size % (blocksize : Int) ≠ 0
      then 1 else 0) - 1 by omega) unit.le
    rw [Int.sub_mul,Int.add_mul,Int.mul_comm (size / _)] at this
    split at this <;> omega

theorem blockcount_nonneg {size : Int} (nonneg : 0 ≤ size) : 0 ≤ blockcount size := by
  rw [blockcount,offset2blockidx,Int.tdiv_eq_ediv_of_nonneg nonneg]
  have := Int.ediv_nonneg nonneg (show (0 : Int) ≤ blocksize by omega)
  split <;> omega

theorem blockcount_top {size : Int} (nonneg : 0 ≤ size) (top : size ≤ maxFilesize) :
    blockcount size ≤ firstUnreachableBlock := by
  rw [blockcount_le_iff nonneg]
  simpa [maxFilesize] using top

theorem le_blockcount {size : Int} (nonneg : 0 ≤ size) : size ≤ blockcount size * blocksize :=
  (blockcount_le_iff nonneg).mp le_rfl

theorem blockcount_mul (n : Int) : blockcount (n * blocksize) = n := by
  have large := blocksize_large
  have unit : (0 : Int) < blocksize := by omega
  rw [blockcount,offset2blockidx,Int.mul_tdiv_cancel _ unit.ne',Int.mul_tmod_left]
  simp

/-- `inumber` names the inode in block `b`. -/
structure Names (w : World) (inumber b : Int) : Prop where
  number : inoGet w inumber = b
  low : 1 ≤ b
  high : b < w.nblocks
  magic : Inode.magic (w.block b) = inodeMagic

theorem Names.load {w : World} {inumber b : Int} (h : Names w inumber b) :
    loadInode w inumber = some (b,w.block b) := by
  have low := h.low
  simp only [loadInode,h.number]
  rw [if_neg (by omega),diskRead_block _ (by omega) h.high,if_neg (not_not.mpr h.magic)]

/-- The members of an inode that `inode_setsize` may change before the slots: the size and
the times of the last change. -/
def SizeMember (k : Nat) : Prop := 24 ≤ k ∧ k < 32 ∨ 64 ≤ k ∧ k < 96

theorem storeSize_spec {w : World} {b : Int} (inode : Block) (size : Int) (low : 1 ≤ b)
    (high : b < w.nblocks) (fits : Fits size) :
    (storeSize w b inode size).1 = size ∧ Edit w (storeSize w b inode size).2 (· = b) ∧
      word ((storeSize w b inode size).2.block b) Inode.size = size ∧
      ∀ k, ¬SizeMember k → (storeSize w b inode size).2.block b k = inode k := by
  have stored : word (setWord inode Inode.size size) Inode.size = size := by
    rw [word_setWord_self,wrap_of_fits fits]
  have outside (k : Nat) (other : ¬SizeMember k) : setWord inode Inode.size size k = inode k :=
    setWord_outside _ _ _ _ (by simp only [SizeMember,Inode.size] at *; omega)
  unfold storeSize
  simp only [stored]
  split
  · simp only [now]
    rw [diskWrite_block _ (by omega) (by exact high)]
    refine ⟨trivial,⟨rfl,rfl,rfl,fun c low' other =>
      put_block_ne _ _ _ (by omega) low' other⟩,?_,fun k other => ?_⟩
    · rw [put_block_self]
      simp only [Inode.setTime]
      rw [word_setWord_ne _ _ _ _ (by decide),word_setWord_ne _ _ _ _ (by decide),
        word_setWord_ne _ _ _ _ (by decide),word_setWord_ne _ _ _ _ (by decide),stored]
    · rw [put_block_self]
      simp only [Inode.setTime]
      have apart := outside k other
      simp only [SizeMember] at other
      rw [setWord_outside _ _ _ _ (by simp only [Inode.lastChange]; omega),
        setWord_outside _ _ _ _ (by simp only [Inode.lastChange]; omega),
        setWord_outside _ _ _ _ (by simp only [Inode.lastStatchange]; omega),
        setWord_outside _ _ _ _ (by simp only [Inode.lastStatchange]; omega),apart]
  · rw [diskWrite_block _ (by omega) high]
    refine ⟨rfl,Edit.put _ (by omega),?_,fun k other => ?_⟩
    · rw [put_block_self,stored]
    · rw [put_block_self,outside k other]

theorem storeSize_exhausted (w : World) (b : Int) (inode : Block) (size : Int) :
    (storeSize w b inode size).2.exhausted = w.exhausted := by
  unfold storeSize
  dsimp only
  split <;> simp [now]

/-- Nothing is lost when the file in `inode` goes to `k` blocks on the way to `size`. -/
def ResizeSafe (size : Int) (w : World) (inode : Block) (k : Int) : Prop :=
  FileMapped w inode (blockcount (word inode Inode.size)) ∧
  (blockcount (word inode Inode.size) < blockcount (min size maxFilesize) →
    Fragile (blockcount (word inode Inode.size)) → blockcount (word inode Inode.size) < k)

/-- What `inode_setsize` to `size` does to the inode in block `b`. -/
structure Resized (size : Int) (w : World) (b : Int) (free : Multiset Int) (r : Int × World) :
    Prop where
  moved : ∃ free', Moved w r.2 free (b ::ₘ fileBlocks w (w.block b)) free'
    (b ::ₘ fileBlocks r.2 (r.2.block b))
    (r.2.exhausted = false ∨ ResizeSafe size w (w.block b) (blockcount r.1))
  stored : word (r.2.block b) Inode.size = r.1
  nonneg : 0 ≤ r.1
  upper : r.1 ≤ size
  top : r.1 ≤ maxFilesize
  lower : min (blockcount (word (w.block b) Inode.size)) (blockcount (min size maxFilesize)) ≤
    blockcount r.1
  count : blockcount r.1 ≤ blockcount (min size maxFilesize)
  value : r.1 = if blockcount r.1 = blockcount (min size maxFilesize) then min size maxFilesize
    else blockcount r.1 * blocksize
  exact : r.2.exhausted = false → r.1 = min size maxFilesize
  head : ∀ k, k < 104 → ¬SizeMember k → r.2.block b k = w.block b k
  mapped : ResizeSafe size w (w.block b) (blockcount r.1) →
    FileMapped r.2 (r.2.block b) (blockcount r.1)
  kept : ResizeSafe size w (w.block b) (blockcount r.1) → FileKept w r.2 (w.block b) (r.2.block b)
    (min (blockcount (word (w.block b) Inode.size)) (blockcount r.1))
  short : FileMapped w (w.block b) (blockcount (word (w.block b) Inode.size)) →
    blockcount r.1 < blockcount (min size maxFilesize) →
    free.card + footprint (blockcount (word (w.block b) Inode.size)) < footprint (blockcount r.1 + 1)
  cut : FileMapped w (w.block b) (blockcount (word (w.block b) Inode.size)) →
    ¬ResizeSafe size w (w.block b) (blockcount r.1) →
    blockcount r.1 = blockcount (word (w.block b) Inode.size) ∧
    Fragile (blockcount (word (w.block b) Inode.size)) ∧
    eof ∈ fileRoute r.2 (r.2.block b) (blockcount (word (w.block b) Inode.size) - 1)

/-- What the two loops together do to the trees of a file. -/
structure Refitted (old new : Int) (w : World) (inode : Block) (free : Multiset Int)
    (loop : SizeLoop) : Prop where
  moved : ∃ free', Moved w loop.disk free (fileBlocks w inode) free'
    (fileBlocks loop.disk loop.inode) (loop.disk.exhausted = false ∨
      FileMapped w inode old ∧ (old < new → Fragile old → old < loop.blockcount))
  nonneg : 0 ≤ loop.blockcount
  lower : min old new ≤ loop.blockcount
  upper : loop.blockcount ≤ new
  exact : loop.disk.exhausted = false → loop.blockcount = new
  calm : loop.blockcount = new → old ≤ new → loop.disk.exhausted = w.exhausted
  head : ∀ k, k < 104 → loop.inode k = inode k
  mapped : FileMapped w inode old → (old < new → Fragile old → old < loop.blockcount) →
    FileMapped loop.disk loop.inode loop.blockcount
  kept : FileMapped w inode old → (old < new → Fragile old → old < loop.blockcount) →
    FileKept w loop.disk inode loop.inode (min old loop.blockcount)
  routed : FileMapped w inode old → new ≤ old → FileRouted w loop.disk inode loop.inode new
  short : FileMapped w inode old → loop.blockcount < new →
    free.card + footprint old < footprint (loop.blockcount + 1)
  cut : FileMapped w inode old → old < new → Fragile old → loop.blockcount = old →
    eof ∈ fileRoute loop.disk loop.inode (old - 1)

theorem setsizeLoops_spec {old new : Int} {w : World} {inode : Block} {free : Multiset Int}
    (list : FreeSet w free) (owned : Owned w (free + fileBlocks w inode)) (some : 0 < w.nblocks)
    (oldNonneg : 0 ≤ old) (oldTop : old ≤ firstUnreachableBlock) (newNonneg : 0 ≤ new)
    (newTop : new ≤ firstUnreachableBlock) :
    let run := (do
      let loop ← setsizeGrow old new (new - old).toNat w inode old (-1)
      setsizeShrink old new (loop.blockcount - new).toNat loop.disk loop.inode loop.blockcount
        loop.lastSlot)
    (FileMapped w inode old → ∃ loop, run = .ok loop) ∧
      Orderly w.exhausted (·.disk.exhausted) run ∧
      ∀ loop, run = .ok loop → Refitted old new w inode free loop := by
  intro run
  rcases lt_trichotomy old new with less | same | more
  · obtain ⟨total,orderly,result⟩ := setsizeGrow_spec less newTop oldNonneg (new - old).toNat w inode
      old (-1) free list owned some le_rfl less.le (fun _ => .inl rfl) (by omega)
    have stops (loop : SizeLoop) (grew : setsizeGrow old new (new - old).toNat w inode old (-1) =
        .ok loop) : run = .ok loop := by
      simp only [run,grew,ok_bind]
      exact setsizeShrink_done (result loop grew).upper _ _ _ _
    refine ⟨fun mapped => ?_,?_,fun loop ran => ?_⟩
    · obtain ⟨loop,grew⟩ := total mapped fun _ => .inl rfl
      exact ⟨loop,stops loop grew⟩
    · refine orderly.bind fun loop grew => ?_
      rw [setsizeShrink_done (result loop grew).upper]
      exact Orderly.ok id
    · obtain ⟨loop',grew,_⟩ := bind_ok.mp ran
      obtain rfl : loop' = loop := Except.ok.inj ((stops loop' grew).symm.trans ran)
      have grown := result loop' grew
      have lower := grown.lower
      refine ⟨grown.moved.imp fun _ moved => moved.weaken fun whole => whole.imp_right fun safe =>
          ⟨safe.1,fun _ => safe.2 less⟩,by omega,by omega,grown.upper,grown.exact,
        fun all _ => grown.calm all,grown.head,
        fun mapped safe => grown.mapped ⟨mapped,fun _ => safe less⟩,fun mapped safe => ?_,
        fun _ le => absurd less (not_lt.mpr le),grown.short,
        fun mapped _ => grown.cut mapped rfl⟩
      rw [min_eq_left lower]
      exact grown.kept ⟨mapped,fun _ => safe less⟩
  · subst same
    have stops : run = .ok ⟨w,inode,old,-1⟩ := by
      simp only [run,setsizeGrow_done le_rfl,ok_bind]
      exact setsizeShrink_done le_rfl _ _ _ _
    rw [stops]
    refine ⟨fun _ => ⟨_,rfl⟩,Orderly.ok id,fun loop ran => ?_⟩
    rw [Except.ok.injEq] at ran
    subst ran
    exact ⟨⟨free,Moved.refl list⟩,oldNonneg,min_le_left _ _,le_rfl,fun _ => rfl,fun _ _ => rfl,
      fun _ _ => rfl,fun mapped _ => mapped,
      fun mapped _ => FileKept.frame (fun _ => rfl) (fun _ _ => rfl) mapped (min_le_left _ _),
      fun mapped _ => FileRouted.frame (fun _ => rfl) (fun _ _ => rfl) mapped le_rfl,
      fun _ less => absurd less (lt_irrefl _),fun _ less => absurd less (lt_irrefl _)⟩
  · obtain ⟨total,orderly,result⟩ := setsizeShrink_spec more oldTop newNonneg (old - new).toNat w
      inode old (-1) free list owned le_rfl more.le (fun _ => .inl rfl) (by omega)
    have stops : run = setsizeShrink old new (old - new).toNat w inode old (-1) := by
      simp only [run,setsizeGrow_done more.le,ok_bind]
    rw [stops]
    refine ⟨fun mapped => total mapped fun _ => .inl rfl,orderly,fun loop ran => ?_⟩
    have shrunk := result loop ran
    obtain ⟨free',moved⟩ := shrunk.moved
    have count := shrunk.count
    refine ⟨⟨free',moved.weaken fun _ => trivial⟩,by omega,by omega,by omega,fun _ => count,
      fun _ _ => by omega,shrunk.head,fun mapped _ => ?_,fun mapped _ => ?_,
      fun mapped _ => shrunk.kept mapped,fun _ less => by omega,
      fun _ less => by omega⟩
    · rw [count]
      exact shrunk.mapped mapped
    · rw [count,min_eq_right more.le]
      exact (shrunk.kept mapped).kept

/-- What the flush of the inode at the end of `inode_setsize` leaves of the file. -/
structure Flushed (old new s : Int) (w : World) (b : Int) (free : Multiset Int) (loop : SizeLoop)
    (r : Int × World) : Prop where
  refitted : Refitted old new w (w.block b) free loop
  returned : r.1 = s
  stored : word (r.2.block b) Inode.size = s
  exhausted : r.2.exhausted = loop.disk.exhausted
  moved : ∃ free', Moved w r.2 free (b ::ₘ fileBlocks w (w.block b)) free'
    (b ::ₘ fileBlocks r.2 (r.2.block b)) (r.2.exhausted = false ∨
      FileMapped w (w.block b) old ∧ (old < new → Fragile old → old < loop.blockcount))
  head : ∀ k, k < 104 → ¬SizeMember k → r.2.block b k = w.block b k
  mapped : FileMapped w (w.block b) old → (old < new → Fragile old → old < loop.blockcount) →
    FileMapped r.2 (r.2.block b) loop.blockcount
  kept : FileMapped w (w.block b) old → (old < new → Fragile old → old < loop.blockcount) →
    FileKept w r.2 (w.block b) (r.2.block b) (min old loop.blockcount)
  routed : FileMapped w (w.block b) old → new ≤ old → FileRouted w r.2 (w.block b) (r.2.block b) new
  cut : FileMapped w (w.block b) old → old < new → Fragile old → loop.blockcount = old →
    eof ∈ fileRoute r.2 (r.2.block b) (old - 1)

theorem Refitted.flush {old new : Int} {w : World} {b : Int} {free : Multiset Int} {loop : SizeLoop}
    (h : Refitted old new w (w.block b) free loop)
    (owned : Owned w (free + (b ::ₘ fileBlocks w (w.block b)))) {s : Int} (fits : Fits s) :
    Flushed old new s w b free loop (storeSize loop.disk b loop.inode s) := by
  have range := owned.2 b (by simp)
  obtain ⟨free',moved⟩ := h.moved
  obtain ⟨returned,edit,inside,others⟩ := storeSize_spec (w := loop.disk) (b := b) loop.inode
    s range.1 (by rw [moved.frame.nblocks]; exact range.2) fits
  generalize storeSize loop.disk b loop.inode s = r at *
  obtain ⟨ret,w'⟩ := r
  simp only at returned edit inside others
  subst returned
  have movedAll := moved.add {b}
  have unit (rest : Multiset Int) : rest + {b} = b ::ₘ rest := by
    rw [add_comm,Multiset.singleton_add]
  rw [unit,unit] at movedAll
  have owned' := movedAll.owned owned
  have slots (slot : Nat) : slotPtr (w'.block b) slot = slotPtr loop.inode slot :=
    slotPtr_congr (fun k tail => others k (by unfold SizeMember; omega)) slot
  have same : ∀ c ∈ fileBlocks loop.disk loop.inode, w'.block c = loop.disk.block c := by
    intro c member
    have positive := (owned'.2 c (by simp [member])).1
    have fresh := (Multiset.nodup_cons.mp (Multiset.nodup_add.mp owned'.1).2.1).1
    exact edit.block c (by omega) fun eq => fresh (eq ▸ member)
  have flushed : Moved loop.disk w' free' (b ::ₘ fileBlocks loop.disk loop.inode) free'
      (b ::ₘ fileBlocks w' (w'.block b)) True :=
    edit.moved movedAll.list owned' (by rintro c rfl; simp) (by rw [fileBlocks_congr slots same])
  refine ⟨h,rfl,inside,edit.exhausted,⟨free',(movedAll.trans flushed).weaken fun whole =>
      ⟨by rwa [← edit.exhausted],trivial⟩⟩,fun k first other => (others k other).trans (h.head k first),
    fun mapped safe => fileMapped_frame slots same (h.mapped mapped safe),fun mapped safe =>
      (h.kept mapped safe).trans (FileKept.frame slots same (h.mapped mapped safe) (min_le_right _ _)),
    fun mapped le => (h.routed mapped le).trans ?_,fun mapped less fragile none => ?_⟩
  · have lower := h.lower
    rw [min_eq_right le] at lower
    refine FileRouted.frame slots same (h.mapped mapped fun less => ?_) lower
    omega
  · have last := fragile.last
    exact (fileRoute_cut_frame slots same last.1 (by omega)).mpr (h.cut mapped less fragile none)

theorem inodeSetsize_flushed {w : World} {inumber b size : Int} {free : Multiset Int}
    (names : Names w inumber b) (list : FreeSet w free)
    (owned : Owned w (free + (b ::ₘ fileBlocks w (w.block b))))
    (sizeNonneg : 0 ≤ word (w.block b) Inode.size)
    (sizeTop : word (w.block b) Inode.size ≤ maxFilesize) (fits : Fits (min size maxFilesize))
    (countNonneg : 0 ≤ blockcount (min size maxFilesize))
    (countTop : blockcount (min size maxFilesize) ≤ firstUnreachableBlock) :
    (FileMapped w (w.block b) (blockcount (word (w.block b) Inode.size)) →
      ∃ r, inodeSetsize w inumber size = .ok r) ∧
    Orderly w.exhausted (·.2.exhausted) (inodeSetsize w inumber size) ∧
    ∀ r, inodeSetsize w inumber size = .ok r → ∃ loop,
      Flushed (blockcount (word (w.block b) Inode.size)) (blockcount (min size maxFilesize))
        (if loop.blockcount = blockcount (min size maxFilesize) then min size maxFilesize
          else loop.blockcount * blocksize) w b free loop r := by
  have high := names.high
  have low := names.low
  have large := blocksize_large
  have maxFits := maxFilesize_lt
  have cap : (if size > maxFilesize then (maxFilesize : Int) else size) = min size maxFilesize := by
    split <;> omega
  have apart : free + (b ::ₘ fileBlocks w (w.block b)) = free + fileBlocks w (w.block b) + {b} := by
    rw [← Multiset.singleton_add,add_comm ({b} : Multiset Int),add_assoc]
  obtain ⟨total,orderly,result⟩ := setsizeLoops_spec list
    (owned.mono (by rw [apart]; exact Multiset.le_add_right _ _)) (by omega)
    (blockcount_nonneg sizeNonneg) (blockcount_top sizeNonneg sizeTop) countNonneg countTop
  simp only [inodeSetsize,names.load,cap]
  rw [if_neg (not_lt.mpr countNonneg),← bind_assoc]
  refine ⟨fun mapped => ?_,?_,fun r run => ?_⟩
  · obtain ⟨loop,ran⟩ := total mapped
    rw [ran,ok_bind]
    split <;> exact ⟨_,rfl⟩
  · refine orderly.bind fun loop _ => ?_
    split <;> exact Orderly.ok fun raised => (storeSize_exhausted _ _ _ _).trans raised
  · obtain ⟨loop,ran,run⟩ := bind_ok.mp run
    have refitted := result loop ran
    refine ⟨loop,?_⟩
    split at run <;> rename_i count <;> rw [Except.ok.injEq] at run <;> rw [← run]
    · rw [if_pos count]
      exact refitted.flush owned fits
    · have nonneg := refitted.nonneg
      have top := Int.mul_le_mul_of_nonneg_right (refitted.upper.trans countTop)
        (show 0 ≤ (blocksize : Int) by omega)
      rw [if_neg count]
      refine refitted.flush owned ?_
      have := Int.mul_nonneg nonneg (show 0 ≤ (blocksize : Int) by omega)
      simp only [maxFilesize] at maxFits
      unfold Fits
      constructor
      · omega
      · have cast : ((firstUnreachableBlock * blocksize : Nat) : Int) =
            firstUnreachableBlock * blocksize := Nat.cast_mul _ _
        omega

theorem inodeSetsize_spec {w : World} {inumber b size : Int} {free : Multiset Int}
    (names : Names w inumber b) (list : FreeSet w free)
    (owned : Owned w (free + (b ::ₘ fileBlocks w (w.block b))))
    (sizeNonneg : 0 ≤ word (w.block b) Inode.size)
    (sizeTop : word (w.block b) Inode.size ≤ maxFilesize) (nonneg : 0 ≤ size) :
    (FileMapped w (w.block b) (blockcount (word (w.block b) Inode.size)) →
      ∃ r, inodeSetsize w inumber size = .ok r) ∧
    Orderly w.exhausted (·.2.exhausted) (inodeSetsize w inumber size) ∧
    ∀ r, inodeSetsize w inumber size = .ok r → Resized size w b free r := by
  have maxFits := maxFilesize_lt
  have cappedNonneg : 0 ≤ min size (maxFilesize : Int) := by omega
  obtain ⟨total,orderly,result⟩ := inodeSetsize_flushed names list owned sizeNonneg sizeTop
    (show Fits (min size maxFilesize) by unfold Fits; omega) (blockcount_nonneg cappedNonneg)
    (blockcount_top cappedNonneg (by omega))
  refine ⟨total,orderly,fun r run => ?_⟩
  obtain ⟨loop,flushed⟩ := result r run
  have large := blocksize_large
  have refitted := flushed.refitted
  have countNonneg := refitted.nonneg
  have upper := refitted.upper
  have returned := flushed.returned
  -- the size stored has the blocks the loops left, and is the one asked for if nothing failed
  have sizes : 0 ≤ r.1 ∧ r.1 ≤ min size maxFilesize ∧ blockcount r.1 = loop.blockcount := by
    split at returned
    · rename_i all
      rw [returned]
      exact ⟨cappedNonneg,le_rfl,all.symm⟩
    · rename_i part
      have short := (blockcount_le_iff cappedNonneg (n := loop.blockcount)).not.mp (by omega)
      rw [returned,blockcount_mul]
      exact ⟨Int.mul_nonneg countNonneg (by omega),by omega,rfl⟩
  obtain ⟨valueNonneg,valueUpper,count⟩ := sizes
  refine ⟨?_,by rw [flushed.stored,returned],valueNonneg,by omega,by omega,by rw [count]; exact refitted.lower,
    by rw [count]; exact upper,by rw [count]; exact returned,fun fine => ?_,flushed.head,
    fun safe => ?_,fun safe => ?_,fun mapped less => ?_,fun mapped lost => ?_⟩
  · unfold ResizeSafe
    rw [count]
    exact flushed.moved
  · rw [flushed.exhausted] at fine
    rw [returned,if_pos (refitted.exact fine)]
  · unfold ResizeSafe at safe
    rw [count] at safe ⊢
    exact flushed.mapped safe.1 safe.2
  · unfold ResizeSafe at safe
    rw [count] at safe ⊢
    exact flushed.kept safe.1 safe.2
  · rw [count] at less ⊢
    exact refitted.short mapped less
  · have lower := refitted.lower
    unfold ResizeSafe at lost
    rw [count] at lost
    simp only [mapped,true_and,not_forall] at lost
    obtain ⟨less,fragile,none⟩ := lost
    rw [count]
    exact ⟨by omega,fragile,flushed.cut mapped less fragile (by omega)⟩

theorem Resized.broken {size : Int} {w : World} {b : Int} {free : Multiset Int} {r : Int × World}
    (h : Resized size w b free r)
    (mapped : FileMapped w (w.block b) (blockcount (word (w.block b) Inode.size)))
    (lost : ¬ResizeSafe size w (w.block b) (blockcount r.1)) {m : Int}
    (le : blockcount (word (w.block b) Inode.size) ≤ m) : ¬FileMapped r.2 (r.2.block b) m := by
  intro whole
  obtain ⟨_,fragile,cut⟩ := h.cut mapped lost
  have last := fragile.last
  exact whole.uncut last.1 (by omega) (by omega) cut

theorem Resized.safe {size : Int} {w : World} {b : Int} {free : Multiset Int} {r : Int × World}
    (h : Resized size w b free r)
    (mapped : FileMapped w (w.block b) (blockcount (word (w.block b) Inode.size)))
    (calm : r.2.exhausted = false) : ResizeSafe size w (w.block b) (blockcount r.1) :=
  ⟨mapped,fun more _ => by rw [h.exact calm]; exact more⟩

end CandyFs
