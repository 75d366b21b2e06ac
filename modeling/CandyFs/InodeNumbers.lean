import CandyFs.StorageRuns

/-! The numbers of inodes: `inode_allocate` hands each out once until `inode_free` takes it back, and
no call works on a number that is not handed out.
-/
namespace CandyFs
open Bytes Finset

section
variable [Geometry]

/-- Every call on an inode refuses `inumber` and leaves the disk as it is. -/
structure Refuses (w : World) (inumber : Int) : Prop where
  getinfo : ∀ info, inodeGetinfo w inumber info = (-1,info)
  read : ∀ pos data size, inodeRead w inumber pos data size = .ok (-1,data,w)
  write : ∀ pos data size, inodeWrite w inumber pos data size = .ok (-1,w)
  truncate : ∀ size, inodeTruncate w inumber size = .ok (-1,w)
  chmod : ∀ mode, inodeChmod w inumber mode = (-1,w)
  chown : ∀ owner group, inodeChown w inumber owner group = (-1,w)
  utime : ∀ lastAccess lastChange, inodeUtime w inumber lastAccess lastChange = (-1,w)
  link : inodeLink w inumber = (nlinkError,w)
  unlink : inodeUnlink w inumber = (nlinkError,w)
  free : inodeFree w inumber = .ok (-1,w)

/-- A run of `inode_allocate` and `inode_free`. The numbers in use, by what was handed out and taken
back. -/
inductive NumberRun (start : World) (ilistSize : Nat) (initial : Finset Int) :
    World → Finset Int → Prop where
  | start : NumberRun start ilistSize initial start initial
  | allocate {w : World} {used : Finset Int} (run : NumberRun start ilistSize initial w used)
      (some : 0 ≤ (inodeAllocate w).1) :
      NumberRun start ilistSize initial (inodeAllocate w).2 (insert (inodeAllocate w).1 used)
  | none {w : World} {used : Finset Int} (run : NumberRun start ilistSize initial w used)
      (none : (inodeAllocate w).1 < 0) : NumberRun start ilistSize initial (inodeAllocate w).2 used
  | free {w w' : World} {used : Finset Int} (run : NumberRun start ilistSize initial w used)
      {inumber : Int} (numbered : Numbered ilistSize inumber) (ran : inodeFree w inumber = .ok (0,w')) :
      NumberRun start ilistSize initial w' (used.erase inumber)
  | refused {w w' : World} {used : Finset Int} (run : NumberRun start ilistSize initial w used)
      {inumber result : Int} (numbered : Numbered ilistSize inumber)
      (ran : inodeFree w inumber = .ok (result,w')) (failed : result ≠ 0) :
      NumberRun start ilistSize initial w' used

/-- What the calls on inode numbers do next, when the numbers `used` are in use. -/
structure HandsOut (w : World) (ilistSize : Nat) (used : Finset Int) : Prop where
  fresh : 0 ≤ (inodeAllocate w).1 →
    Numbered ilistSize (inodeAllocate w).1 ∧ (inodeAllocate w).1 ∉ used
  none : ∃ free, FreeSet w free ∧
    ((inodeAllocate w).1 < 0 ↔ (∀ n, Numbered ilistSize n → n ∈ used) ∨ free = 0)
  unchanged : (inodeAllocate w).1 < 0 → (inodeAllocate w).2.data = w.data
  count : word (w.block 0) Superblock.freeInodes =
    (Finset.Ico 0 (ilistSize * inumsPerIlistBlock : Int) \ used).card
  refused : ∀ n, Numbered ilistSize n → n ∉ used → Refuses w n
  returns : ∀ n, Numbered ilistSize n → ∃ r, inodeFree w n = .ok r

/-- A sound disk on which exactly the numbers `used` name inodes, each with its blocks. -/
structure Numbers (w : World) (ilistSize : Nat) (free : Multiset Int) (numbers : List Int)
    (used : Finset Int) : Prop where
  storage : Storage w ilistSize free numbers
  mapped : ∀ n, Numbered ilistSize n → 0 < inoGet w n →
    FileMapped w (w.block (inoGet w n)) (blockcount (word (w.block (inoGet w n)) Inode.size))
  used : ∀ n, n ∈ used ↔ Numbered ilistSize n ∧ 0 < inoGet w n

section
variable {w w' start : World} {ilistSize : Nat} {inumber : Int} {free : Multiset Int}
  {numbers : List Int} {used initial : Finset Int}

theorem refuses (none : loadInode w inumber = none) : Refuses w inumber where
  getinfo info := by rw [inodeGetinfo,none]
  read pos data size := by rw [inodeRead,none]
  write pos data size := by rw [inodeWrite,none]
  truncate size := by rw [inodeTruncate,none]
  chmod mode := by rw [inodeChmod,changeInode,none]
  chown owner group := by rw [inodeChown,changeInode,none]
  utime lastAccess lastChange := by rw [inodeUtime,changeInode,none]
  link := by rw [inodeLink,changeInode,none]
  unlink := by rw [inodeUnlink,changeInode,none]
  free := by rw [inodeFree,none]

/-- Without a number or a block `inode_allocate` leaves every word of the disk as it was. -/
theorem inodeAllocate_fails (h : Storage w ilistSize free numbers) (none : numbers = [] ∨ free = 0) :
    (inodeAllocate w).1 = -1 ∧ (inodeAllocate w).2.data = w.data := by
  have room := h.room
  obtain ⟨clock,ticked⟩ : ∃ clock, (fun n => w.clock (n + 1)) = clock := ⟨_,rfl⟩
  obtain ⟨w0,given⟩ : ∃ w0, { w with clock := clock } = w0 := ⟨_,rfl⟩
  obtain ⟨h0,_⟩ := h.clock clock
  have room0 : ilistSize < w0.nblocks := by
    rw [← given]
    exact (show ilistSize < w.nblocks by omega)
  have data0 : w0.data = w.data := given ▸ rfl
  rw [given] at h0
  simp only [inodeAllocate,now,ticked,given]
  rcases inoAllocate_spec h0.inodes room0 with ⟨empty,eq⟩ | ⟨number,rest,super,shape,numbered,eq,same,_⟩
  · rw [eq]
    dsimp only
    rw [if_pos (by decide)]
    exact ⟨rfl,data0⟩
  · have noBlock : free = 0 := none.resolve_left (by rw [shape]; exact List.cons_ne_nil _ _)
    have start : word (w0.block 0) Superblock.inoFreelistStart = number := by
      have chain := h0.inodes.chain
      rw [shape] at chain
      exact chain.1
    have undone := inoFree_undoes room0 numbered start true
    have low := numbered.1
    rw [noBlock] at h0
    have list0 : FreeSet (w0.put 0 super) 0 := freeSet_super h0.list
      (fun b member => absurd member (Multiset.notMem_zero b)) same
    rw [eq] at undone
    rw [eq]
    dsimp only at undone ⊢
    rw [if_neg (show ¬number < 0 by omega)]
    rcases blockAllocate_moved list0 ⟨Multiset.nodup_zero,fun b member =>
        absurd member (Multiset.notMem_zero b)⟩ (by rw [put_nblocks]; omega) with
      ⟨_,failed,left⟩ | ⟨free',_,_,_,_,moved⟩
    · rw [failed,left,if_pos (by decide)]
      exact ⟨rfl,undone.trans data0⟩
    · have all := congrArg Multiset.card (moved.all trivial)
      simp at all

theorem inodeAllocate_result (h : Storage w ilistSize free numbers) :
    ((inodeAllocate w).1 < 0 ↔ numbers = [] ∨ free = 0) ∧
      (0 ≤ (inodeAllocate w).1 → (inodeAllocate w).1 ∈ numbers) := by
  obtain ⟨_,_,_,outcome⟩ := inodeAllocate_spec h (inodeAllocate w).1 (inodeAllocate w).2 Prod.mk.eta.symm
  rcases outcome with ⟨failed,none,_⟩ | ⟨rest,_,_,shape,numbered,_⟩
  · exact ⟨⟨fun _ => none,fun _ => by omega⟩,fun some => by omega⟩
  · have low := numbered.1
    refine ⟨⟨fun negative => by omega,fun none => ?_⟩,fun _ => by rw [shape]; exact List.mem_cons_self⟩
    have := (inodeAllocate_fails h none).1
    omega

theorem Numbers.unused (h : Numbers w ilistSize free numbers used) {n : Int}
    (numbered : Numbered ilistSize n) : n ∉ used ↔ n ∈ numbers := by
  rw [h.used,and_iff_right numbered,not_lt,h.storage.inodes.free n numbered,or_iff_left id]

theorem Numbers.handsOut (h : Numbers w ilistSize free numbers used) : HandsOut w ilistSize used := by
  obtain ⟨result,taken⟩ := inodeAllocate_result h.storage
  refine ⟨fun some => ?_,⟨free,h.storage.list,?_⟩,fun failed => ?_,?_,fun n numbered out => ?_,
    fun n numbered => ?_⟩
  · have member := taken some
    have numbered := h.storage.inodes.range _ member
    exact ⟨numbered,(h.unused numbered).mpr member⟩
  · rw [result]
    refine or_congr_left ⟨fun empty n numbered => ?_,fun all => ?_⟩
    · by_contra out
      have := (h.unused numbered).mp out
      rw [empty] at this
      exact List.not_mem_nil this
    · refine List.eq_nil_iff_forall_not_mem.mpr fun n member => ?_
      have numbered := h.storage.inodes.range n member
      exact (h.unused numbered).mpr member (all n numbered)
  · exact (inodeAllocate_fails h.storage (result.mp failed)).2
  · rw [h.storage.inodes.count,← List.toFinset_card_of_nodup h.storage.inodes.nodup]
    congr 2
    ext n
    rw [List.mem_toFinset,mem_sdiff,mem_Ico]
    constructor
    · intro member
      have numbered := h.storage.inodes.range n member
      exact ⟨numbered,(h.unused numbered).mpr member⟩
    · rintro ⟨numbered,out⟩
      exact (h.unused numbered).mp out
  · refine refuses (h.storage.load_none ?_)
    rw [h.used,and_iff_right numbered,not_lt] at out
    exact out
  · by_cases inUse : 0 < inoGet w n
    · have held := h.storage.held numbered inUse
      obtain ⟨total,_⟩ := inodeSetsize_spec held.names held.list held.owned held.sizeNonneg held.sizeTop
        (le_refl (0 : Int))
      obtain ⟨r,ran⟩ := total (h.mapped n numbered inUse)
      simp only [inodeFree,held.names.load]
      split
      · exact ⟨_,rfl⟩
      · rw [ran]
        exact ⟨_,rfl⟩
    · exact ⟨_,(refuses (h.storage.load_none (not_lt.mp inUse))).free⟩

theorem Numbers.untouched (h : Numbers w ilistSize free numbers used) {n : Int}
    (numbered : Numbered ilistSize n) (inUse : 0 < inoGet w n) (same : Untouched w w' n) :
    FileMapped w' (w'.block (inoGet w' n)) (blockcount (word (w'.block (inoGet w' n)) Inode.size)) := by
  have mapped := same.mapped inUse (h.mapped n numbered inUse)
  rwa [← (same.slots inUse).1,← same.entry] at mapped

theorem Numbers.allocate (h : Numbers w ilistSize free numbers used) :
    ∃ free' numbers', Numbers (inodeAllocate w).2 ilistSize free' numbers'
      (if 0 ≤ (inodeAllocate w).1 then insert (inodeAllocate w).1 used else used) := by
  obtain ⟨_,_,same,outcome⟩ := inodeAllocate_spec h.storage (inodeAllocate w).1 (inodeAllocate w).2 Prod.mk.eta.symm
  generalize (inodeAllocate w).1 = result at *
  generalize (inodeAllocate w).2 = w' at *
  rcases outcome with ⟨failed,_,storage,_⟩ | ⟨rest,free',ts,shape,numbered,storage,_,entry,inode⟩
  · have alike (n : Int) (numbered : Numbered ilistSize n) : 0 < inoGet w' n ↔ 0 < inoGet w n := by
      rw [← not_le,storage.inodes.free n numbered,← h.storage.inodes.free n numbered,not_le]
    rw [if_neg (by omega)]
    refine ⟨free,numbers,storage,fun n numbered inUse => ?_,fun n => ?_⟩
    · have inUse := (alike n numbered).mp inUse
      exact h.untouched numbered inUse (same n numbered inUse)
    · rw [h.used]
      exact and_congr_right fun numbered => (alike n numbered).symm
  · have nodup := h.storage.inodes.nodup
    rw [shape] at nodup
    have apart := (List.nodup_cons.mp nodup).1
    have alike (n : Int) (numbered : Numbered ilistSize n) :
        0 < inoGet w' n ↔ n = result ∨ 0 < inoGet w n := by
      rw [← not_le,storage.inodes.free n numbered,← not_le,h.storage.inodes.free n numbered,shape,
        List.mem_cons,or_iff_left id,or_iff_left id,not_or]
      by_cases new : n = result
      · subst new
        simpa using apart
      · simp [new]
    rw [if_pos numbered.1]
    refine ⟨free',rest,storage,fun n numbered inUse => ?_,fun n => ?_⟩
    · by_cases new : n = result
      · subst new
        rw [inode,freshInode_size,blockcount_zero]
        exact fileMapped_zero.mpr fun slot bound => freshInode_slot _ _ bound
      · have inUse := ((alike n numbered).mp inUse).resolve_left new
        exact h.untouched numbered inUse (same n numbered inUse)
    · rw [mem_insert,h.used]
      constructor
      · rintro (rfl | ⟨numbered',inUse⟩)
        · exact ⟨numbered,entry⟩
        · exact ⟨numbered',(alike n numbered').mpr (.inr inUse)⟩
      · rintro ⟨numbered',inUse⟩
        exact ((alike n numbered').mp inUse).imp_right fun inUse => ⟨numbered',inUse⟩

theorem Numbers.release (h : Numbers w ilistSize free numbers used) (numbered : Numbered ilistSize inumber)
    {result : Int} (ran : inodeFree w inumber = .ok (result,w')) :
    ∃ free' numbers', Numbers w' ilistSize free' numbers'
      (if result = 0 then used.erase inumber else used) := by
  rcases inodeFree_spec h.storage numbered ran with ⟨refused,same⟩ | ⟨zero,inUse,_,free',renewed⟩
  · rw [if_neg (by omega),same]
    exact ⟨free,numbers,h⟩
  · rw [if_pos zero]
    obtain ⟨storage,_⟩ := renewed.storage h.storage numbered
    have gone : ¬0 < inoGet w' inumber :=
      not_lt.mpr ((storage.inodes.free inumber numbered).mpr (.inl List.mem_cons_self))
    refine ⟨free',inumber :: numbers,storage,fun n numbered' inUse' => ?_,fun n => ?_⟩
    · have differ : n ≠ inumber := by
        rintro rfl
        exact gone inUse'
      have same := renewed.untouched h.storage numbered numbered' differ
      rw [same.entry] at inUse'
      exact h.untouched numbered' inUse' same
    · rw [mem_erase,h.used]
      by_cases same : n = inumber
      · subst same
        simp [gone]
      · rw [and_iff_right same]
        refine and_congr_right fun numbered' => ?_
        rw [(renewed.untouched h.storage numbered numbered' same).entry]

theorem NumberRun.keeps (run : NumberRun start ilistSize initial w used)
    (ok : Numbers start ilistSize free numbers initial) :
    ∃ free numbers, Numbers w ilistSize free numbers used := by
  induction run with
  | start => exact ⟨free,numbers,ok⟩
  | allocate run some ih =>
    obtain ⟨_,_,h⟩ := ih
    have step := h.allocate
    rwa [if_pos some] at step
  | none run none ih =>
    obtain ⟨_,_,h⟩ := ih
    have step := h.allocate
    rwa [if_neg (not_le.mpr none)] at step
  | free run numbered ran ih =>
    obtain ⟨_,_,h⟩ := ih
    have step := h.release numbered ran
    rwa [if_pos rfl] at step
  | refused run numbered ran failed ih =>
    obtain ⟨_,_,h⟩ := ih
    have step := h.release numbered ran
    rwa [if_neg failed] at step

/-- In every run `inode_allocate` returns a number not in use, or none, and then changes nothing,
exactly when no number or no block is free; the count of free numbers is right, and every number not
in use is refused. -/
theorem numbers_unique (sound : Storage start ilistSize free numbers) (calm : start.exhausted = false)
    (first : ∀ n, n ∈ initial ↔ Numbered ilistSize n ∧ 0 < inoGet start n)
    (run : NumberRun start ilistSize initial w used) : HandsOut w ilistSize used := by
  obtain ⟨_,_,h⟩ := run.keeps ⟨sound,sound.mapped calm,first⟩
  exact h.handsOut

end

end

section
attribute [local instance] Geometry.small

set_option maxRecDepth 100000 in
theorem numbersTiny_run : ∃ w0 w, mkfsStorage tinyDisk 1 = .ok w0 ∧ (inodeAllocate w0).1 = 0 ∧
    inodeFree (inodeAllocate w0).2 0 = .ok (0,w) := by
  have ran : (match mkfsStorage tinyDisk 1 with
      | .ok w0 => decide ((inodeAllocate w0).1 = 0) && match inodeFree (inodeAllocate w0).2 0 with
        | .ok (result,_) => decide (result = 0)
        | .error _ => false
      | .error _ => false) = true := by decide +kernel
  split at ran
  · rename_i w0 made
    rw [Bool.and_eq_true,decide_eq_true_eq] at ran
    obtain ⟨first,ran⟩ := ran
    split at ran
    · rename_i result w freed
      rw [decide_eq_true_eq] at ran
      subst ran
      exact ⟨w0,w,made,first,freed⟩
    · cases ran
  · cases ran

theorem numbers_unique_tiny : ∃ w0 w, mkfsStorage tinyDisk 1 = .ok w0 ∧
    inodeFree (inodeAllocate w0).2 0 = .ok (0,w) ∧ HandsOut w 1 ∅ := by
  obtain ⟨w0,w,made,first,freed⟩ := numbersTiny_run
  have room : 1 + 1 < tinyDisk.nblocks := by decide
  obtain ⟨w0',made',_,calm,_,fresh⟩ := mkfsStorage_spec (le_refl 1) room
  obtain rfl : w0' = w0 := Except.ok.inj (made'.symm.trans made)
  have empty (n : Int) : n ∈ (∅ : Finset Int) ↔ Numbered 1 n ∧ 0 < inoGet w0' n := by
    refine ⟨fun member => absurd member (Finset.notMem_empty n),fun ⟨numbered,inUse⟩ => ?_⟩
    have listed : n ∈ (List.range (1 * inumsPerIlistBlock)).map Nat.cast :=
      List.mem_map.mpr ⟨n.toNat,List.mem_range.mpr numbered.toNat_lt,Int.toNat_of_nonneg numbered.1⟩
    exact absurd inUse (not_lt.mpr ((fresh.inodes.free n numbered).mpr (.inl listed)))
  have run : NumberRun w0' 1 ∅ w ((insert (inodeAllocate w0').1 ∅ : Finset Int).erase 0) :=
    (NumberRun.start.allocate (by rw [first])).free (by decide) freed
  have unused : (insert (inodeAllocate w0').1 ∅ : Finset Int).erase 0 = ∅ := by
    rw [first]
    decide
  rw [unused] at run
  exact ⟨w0',w,made,freed,numbers_unique fresh calm empty run⟩

end

end CandyFs
