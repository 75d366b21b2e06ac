import CandyFs.Client
import CandyFs.InodeNumbers
import CandyFs.Abstraction

/-! Each call of `inode.c` on the disk and on the store it is represented by.
-/
namespace CandyFs
open Bytes ByteList Finset Client

section
variable [Geometry] {w w' : World} {ilistSize : Nat} {n : Int} {s : Store} {free free' : Multiset Int}
  {node : Node}

theorem Represents.modify (h : Represents w ilistSize s) (numbered : Numbered ilistSize n)
    {change : Timespec → Block → Block} {alter : Node → Node}
    (stays : ∀ ts inode k, ¬Member k → change ts inode k = inode k)
    (turned : ∀ ts inode, alter (w.node inode) = (w.node inode).withMembers (change ts inode)) :
    ∃ w', CandyFs.changeInode w n (-1) (fun _ => (0 : Int)) change = ((s.modify n alter).1,w') ∧
      Represents w' ilistSize (s.modify n alter).2 := by
  by_cases used : 0 < inoGet w n
  · obtain ⟨w',_,ran,h'⟩ := h.changeInode numbered used (-1) (fun _ => (0 : Int)) change _ stays
      fun ts => turned ts (w.block (inoGet w n))
    simp only [Store.modify,h.named numbered used]
    exact ⟨w',ran,h'⟩
  · obtain ⟨free,storage,_⟩ := h.sound
    simp only [CandyFs.changeInode,storage.load_none (not_lt.mp used),Store.modify,
      h.unnamed numbered (not_lt.mp used)]
    exact ⟨w,rfl,h⟩

theorem Represents.chmod (h : Represents w ilistSize s) (numbered : Numbered ilistSize n) {mode : Nat}
    (fits : mode < 2 ^ 32) : ∃ w', inodeChmod w n mode = ((s.inodeChmod n mode).1,w') ∧
      Represents w' ilistSize (s.inodeChmod n mode).2 := by
  refine h.modify numbered (fun ts inode k outside => ?_) fun ts inode => ?_
  · unfold Member at outside
    exact setField_outside _ _ _ _ _ (by omega)
  · have mode' : mode % 256 ^ 4 = mode := Nat.mod_eq_of_lt fits
    refine Node.withMembers_eq ?_ ?_ ?_ ?_ ?_ ?_ <;>
      simp only [Inode.mode,Inode.owner,Inode.group,Inode.nlinks,Inode.setMode,World.node_owner,
        World.node_group,World.node_nlinks,field_setField,mode'] <;>
      simp (disch := decide) only [field_setField_outside]

theorem Represents.chown (h : Represents w ilistSize s) (numbered : Numbered ilistSize n)
    {owner group : Nat} (fits : owner < 2 ^ 32) (fits' : group < 2 ^ 32) :
    ∃ w', inodeChown w n owner group = ((s.inodeChown n owner group).1,w') ∧
      Represents w' ilistSize (s.inodeChown n owner group).2 := by
  refine h.modify numbered (fun ts inode k outside => ?_) fun ts inode => ?_
  · unfold Member at outside
    split <;> split <;> simp only [Inode.setGroup,Inode.setOwner]
    · rw [setField_outside _ _ _ _ _ (by omega),setField_outside _ _ _ _ _ (by omega)]
    · rw [setField_outside _ _ _ _ _ (by omega)]
    · rw [setField_outside _ _ _ _ _ (by omega)]
  · have group' : group % 256 ^ 4 = group := Nat.mod_eq_of_lt fits'
    have owner' : owner % 256 ^ 4 = owner := Nat.mod_eq_of_lt fits
    refine Node.withMembers_eq ?_ ?_ ?_ ?_ ?_ ?_ <;>
      simp only [Inode.mode,Inode.owner,Inode.group,Inode.nlinks,World.node_mode,World.node_owner,
        World.node_group,World.node_nlinks] <;> split <;> (try split) <;>
      simp (disch := decide) only [Inode.setGroup,Inode.setOwner,field_setField_outside,field_setField,
        group',owner']

omit [Geometry] in
theorem utimeMember_outside {inode : Block} {member k : Nat} {time : Option Timespec} {ts : Timespec}
    (outside : k < 8 * member ∨ 8 * member + 16 ≤ k) : utimeMember inode member time ts k = inode k := by
  have stamp (ts : Timespec) : Inode.setTime inode member ts k = inode k := by
    rw [Inode.setTime,setWord_outside _ _ _ _ (by omega),setWord_outside _ _ _ _ (by omega)]
  cases time with
  | none => exact stamp ts
  | some time =>
    unfold utimeMember
    dsimp only
    split
    · exact stamp ts
    · split
      · exact stamp time
      · rfl

theorem Represents.utime (h : Represents w ilistSize s) (numbered : Numbered ilistSize n)
    (lastAccess lastChange : Option Timespec) :
    ∃ w', inodeUtime w n lastAccess lastChange = ((s.inodeUtime n).1,w') ∧
      Represents w' ilistSize (s.inodeUtime n).2 := by
  have outside (ts : Timespec) (inode : Block) (k : Nat) (early : k < 48 ∨ 80 ≤ k) :
      utimeMember (utimeMember inode Inode.lastAccess lastAccess ts) Inode.lastChange lastChange ts k =
        inode k := by
    rw [utimeMember_outside (by simp only [Inode.lastChange]; omega),
      utimeMember_outside (by simp only [Inode.lastAccess]; omega)]
  refine h.modify numbered (fun ts inode k apart => ?_) fun ts inode => ?_
  · unfold Member at apart
    exact outside ts inode k (by omega)
  · have same (off k : Nat) (inside : off + k ≤ 24) := field_congr
      (utimeMember (utimeMember inode Inode.lastAccess lastAccess ts) Inode.lastChange lastChange ts)
      inode off k fun j _ _ => outside ts inode j (.inl (by omega))
    refine Node.withMembers_eq ?_ ?_ ?_ ?_ ?_ ?_ <;>
      simp only [id,World.node_mode,World.node_owner,World.node_group,World.node_nlinks,Inode.mode,
        Inode.owner,Inode.group,Inode.nlinks]
    · exact (same 0 4 (by omega)).symm
    · exact (same 4 4 (by omega)).symm
    · exact (same 8 4 (by omega)).symm
    · exact (same 16 8 (by omega)).symm

theorem Represents.relink (h : Represents w ilistSize s) (numbered : Numbered ilistSize n)
    (used : 0 < inoGet w n) (count : Block → Nat) {nlinks : Nat}
    (counted : count (w.block (inoGet w n)) % 2 ^ 64 = nlinks) :
    ∃ w', CandyFs.changeInode w n nlinkError Inode.nlinks
        (fun _ inode => Inode.setNlinks inode (count inode)) = (nlinks,w') ∧
      Represents w' ilistSize (s.set n { w.node (w.block (inoGet w n)) with nlinks := nlinks }) := by
  have stored (inode : Block) : field (Inode.setNlinks inode (count inode)) 16 8 = count inode % 2 ^ 64 :=
    field_setField _ _ _ _
  have stays (ts : Timespec) (inode : Block) (k : Nat) (outside : ¬Member k) :
      Inode.setNlinks inode (count inode) k = inode k := by
    unfold Member at outside
    exact setField_outside _ _ _ _ _ (by omega)
  have turned : { w.node (w.block (inoGet w n)) with nlinks := nlinks } =
      (w.node (w.block (inoGet w n))).withMembers (Inode.setNlinks (w.block (inoGet w n))
        (count (w.block (inoGet w n)))) := by
    refine Node.withMembers_eq ?_ ?_ ?_ ?_ ?_ ?_ <;>
      simp only [World.node_mode,World.node_owner,World.node_group,Inode.mode,Inode.owner,Inode.group,
        Inode.nlinks,stored,counted] <;>
      simp (disch := decide) only [Inode.setNlinks,field_setField_outside]
  obtain ⟨w',ts,ran,h'⟩ := h.changeInode numbered used nlinkError Inode.nlinks
    (fun _ inode => Inode.setNlinks inode (count inode)) _ stays fun _ => turned
  refine ⟨w',?_,h'⟩
  rw [ran]
  simp only [Inode.setTime,Inode.nlinks]
  simp (disch := decide) only [field_setWord_outside]
  rw [stored,counted]

theorem Represents.link (h : Represents w ilistSize s) (numbered : Numbered ilistSize n)
    (fits : ∀ node, s.inode n = some node → node.nlinks + 1 < 2 ^ 64) :
    ∃ w', inodeLink w n = (ulong (s.inodeLink n).1,w') ∧
      Represents w' ilistSize (s.inodeLink n).2 := by
  by_cases used : 0 < inoGet w n
  · have named := h.named numbered used
    have fits := fits _ named
    rw [World.node_nlinks] at fits
    obtain ⟨w',ran,h'⟩ := h.relink numbered used (fun inode => Inode.nlinks inode + 1) (Nat.mod_eq_of_lt fits)
    have told : ulong ((Inode.nlinks (w.block (inoGet w n)) : Int) + 1) =
        Inode.nlinks (w.block (inoGet w n)) + 1 := ulong_natCast fits
    simp only [Store.inodeLink,named,World.node_nlinks]
    exact ⟨w',by rw [told]; exact ran,h'⟩
  · obtain ⟨free,storage,_⟩ := h.sound
    simp only [inodeLink,CandyFs.changeInode,storage.load_none (not_lt.mp used),Store.inodeLink,
      h.unnamed numbered (not_lt.mp used)]
    exact ⟨w,rfl,h⟩

theorem Represents.unlink (h : Represents w ilistSize s) (numbered : Numbered ilistSize n) :
    ∃ w', inodeUnlink w n = (ulong (s.inodeUnlink n).1,w') ∧
      Represents w' ilistSize (s.inodeUnlink n).2 := by
  by_cases used : 0 < inoGet w n
  · have named := h.named numbered used
    have fits : Inode.nlinks (w.block (inoGet w n)) < 2 ^ 64 := field_lt _ 16 8
    have counted : (Inode.nlinks (w.block (inoGet w n)) + (2 ^ 64 - 1)) % 2 ^ 64 =
        Store.pred (Inode.nlinks (w.block (inoGet w n))) := by
      unfold Store.pred
      split <;> omega
    have fits' : Store.pred (Inode.nlinks (w.block (inoGet w n))) < 2 ^ 64 := by
      unfold Store.pred
      split <;> omega
    obtain ⟨w',ran,h'⟩ := h.relink numbered used (fun inode => Inode.nlinks inode + (2 ^ 64 - 1)) counted
    simp only [Store.inodeUnlink,named,World.node_nlinks]
    exact ⟨w',by rw [ulong_natCast fits']; exact ran,h'⟩
  · obtain ⟨free,storage,_⟩ := h.sound
    simp only [inodeUnlink,CandyFs.changeInode,storage.load_none (not_lt.mp used),Store.inodeUnlink,
      h.unnamed numbered (not_lt.mp used)]
    exact ⟨w,rfl,h⟩

theorem Represents.touched (h : Represents w ilistSize s) (storage : Storage w ilistSize free s.freeInodes)
    (numbered : Numbered ilistSize n) (used : 0 < inoGet w n)
    (updated : Updated w (inoGet w n) free w') (list : FreeSet w' free)
    (mapped : FileMapped w' (w'.block (inoGet w n)) (blockcount (word (w'.block (inoGet w n)) Inode.size)))
    (bytes : contents w' (w'.block (inoGet w n)) = contents w (w.block (inoGet w n))) :
    Represents w' ilistSize s := by
  have size : word (w'.block (inoGet w n)) Inode.size = word (w.block (inoGet w n)) Inode.size := by
    rw [← length_contents updated.sizeNonneg,bytes,
      length_contents (storage.file n numbered used).sizeNonneg]
  have turned : w'.node (w'.block (inoGet w n)) = w.node (w.block (inoGet w n)) := by
    refine World.node_congr (fun k head => updated.head k ?_) size bytes
    unfold MetaMember
    omega
  have step := h.rewritten storage numbered used updated mapped list turned
  rwa [h.same storage (h.named numbered used)] at step

theorem Represents.read (h : Represents w ilistSize s) (numbered : Numbered ilistSize n) {pos size : Int}
    (nonneg : 0 ≤ pos) (sum : Fits (pos + size)) (data : Block) :
    ∃ w', inodeRead w n pos data size =
        .ok ((s.inodeRead n pos data size).1,(s.inodeRead n pos data size).2,w') ∧
      Represents w' ilistSize s := by
  obtain ⟨free,storage,_⟩ := h.sound
  by_cases used : 0 < inoGet w n
  · have held := storage.held numbered used
    have lenNonneg := held.sizeNonneg
    have mapped := h.mapped n numbered used
    obtain ⟨count,data',w',ran,counted,bytes,beyond⟩ := inodeRead_bytes held nonneg data (.inl sum) mapped
    obtain ⟨updated,_,after,list⟩ := inodeRead_updated held data _ ran
    have h' : Represents w' ilistSize s := h.touched storage numbered used updated list (after mapped).1
      (after mapped).2
    have length := length_contents (w := w) lenNonneg
    refine ⟨w',?_,h'⟩
    rw [ran]
    simp only [Store.inodeRead,h.named numbered used,World.node_size]
    rw [length_readAt] at counted
    have got (k : Nat) (inside : (k : Int) < count) :
        data' k = (w.node (w.block (inoGet w n))).byte (pos.toNat + k) := by
      have same := congrArg (·[k]?) bytes
      rw [supplied,getElem?_range_map,if_pos (by omega),getElem?_readAt,if_pos (by omega),
        getElem?_contents lenNonneg,if_pos (by omega)] at same
      rw [World.node_byte,if_pos (by omega)]
      exact Option.some.inj same
    split
    · rename_i empty
      have none : count = 0 := by omega
      rw [none,show data' = data from funext fun k => beyond k (by omega)]
    · rename_i proper
      have some : count = min (pos + size) (word (w.block (inoGet w n)) Inode.size) - pos := by omega
      have buffer : data' = copyBytes data 0 (w.node (w.block (inoGet w n))).byte pos.toNat
          (min (pos + size) (word (w.block (inoGet w n)) Inode.size) - pos).toNat := by
        funext k
        by_cases inside : (k : Int) < count
        · rw [copyBytes_inside _ _ _ _ _ _ (by omega) (by omega),got k inside,Nat.sub_zero]
        · rw [copyBytes_outside _ _ _ _ _ _ (by omega),beyond k (by omega)]
      rw [some,buffer]
  · refine ⟨w,?_,h⟩
    simp only [inodeRead,storage.load_none (not_lt.mp used),Store.inodeRead,
      h.unnamed numbered (not_lt.mp used)]

theorem freshInode_node {w : World} {stack : Block} {ts : Timespec} :
    w.node (freshInode stack ts) = Store.freshNode := by
  have size := freshInode_size stack ts
  have head (j : Nat) (early : j < 24) : freshInode stack ts j = Inode.setGroup (Inode.setOwner
      (Inode.setNlinks (Inode.setMode (Inode.setMagic stack inodeMagic) 0o777) 0) 0) 0 j := by
    rw [freshInode,clearSlots_head (by omega)]
    simp only [Inode.setTime,Inode.created,Inode.lastAccess,Inode.lastChange,Inode.lastStatchange,
      Inode.size]
    simp (disch := omega) only [setWord_outside]
  have member (off k : Nat) (inside : off + k ≤ 24) := field_congr (freshInode stack ts) _ off k
    fun j _ high => head j (by omega)
  refine Node.ext ?_ ?_ ?_ ?_ (by rw [World.node_size,size]; rfl) fun a inside => ?_
  · rw [World.node_mode,Inode.mode,member 0 4 (by omega)]
    simp only [Inode.setGroup,Inode.setOwner,Inode.setNlinks,Inode.setMode]
    simp (disch := decide) only [field_setField_outside,field_setField]
    rfl
  · rw [World.node_owner,Inode.owner,member 4 4 (by omega)]
    simp only [Inode.setGroup,Inode.setOwner]
    simp (disch := decide) only [field_setField_outside,field_setField]
    rfl
  · rw [World.node_group,Inode.group,member 8 4 (by omega)]
    simp only [Inode.setGroup]
    simp (disch := decide) only [field_setField]
    rfl
  · rw [World.node_nlinks,freshInode_nlinks]
    rfl
  · rw [World.node_size,size] at inside
    exact absurd inside (Nat.not_lt_zero a)

theorem Represents.allocate (h : Represents w ilistSize s) : ∃ w',
    CandyFs.inodeAllocate w = (s.inodeAllocate.1,w') ∧ Represents w' ilistSize s.inodeAllocate.2 := by
  obtain ⟨free,storage,count⟩ := h.sound
  obtain ⟨result,w',ran⟩ : ∃ result w', CandyFs.inodeAllocate w = (result,w') :=
    ⟨_,_,Prod.mk.eta.symm⟩
  obtain ⟨_,_,others,outcome⟩ := inodeAllocate_spec storage result w' ran
  refine ⟨w',?_⟩
  rcases outcome with ⟨failed,none,storage',_⟩ | ⟨rest,free',ts,shape,numbered,storage',all,used,inode⟩
  · have none : s.freeInodes = [] ∨ s.freeBlocks = 0 := by
      rw [count,Multiset.card_eq_zero]
      exact none
    rw [Store.inodeAllocate_none none,ran,failed]
    dsimp only
    refine ⟨rfl,⟨⟨free,storage',count⟩,fun n numbered used => ?_,h.limit,fun n numbered => ?_,h.beyond⟩⟩
    all_goals
      have alike : inoGet w' n ≤ 0 ↔ inoGet w n ≤ 0 := by
        rw [storage'.inodes.free n numbered,storage.inodes.free n numbered]
    · have used : 0 < inoGet w n := by omega
      exact (h.kept storage numbered used (others n numbered used)).2
    · by_cases used : 0 < inoGet w n
      · rw [h.inode n numbered,(h.kept storage numbered used (others n numbered used)).1]
      · rw [h.unnamed numbered (not_lt.mp used),World.nodeAt_none (alike.mpr (not_lt.mp used))]
  · have unused : inoGet w result ≤ 0 := (storage.inodes.free result numbered).mpr
      (.inl (by rw [shape]; exact List.mem_cons_self))
    have idle (m : Int) (numbered' : Numbered ilistSize m) (differ : m ≠ result)
        (none : inoGet w m ≤ 0) : inoGet w' m ≤ 0 := by
      rw [storage'.inodes.free m numbered']
      rw [storage.inodes.free m numbered',shape,List.mem_cons] at none
      exact none.imp_left fun listed => listed.resolve_left differ
    have none (slot : Nat) (bound : slot < numBlockSlots) :
        slotPtr (w'.block (inoGet w' result)) slot = eof := by
      rw [inode]
      exact freshInode_slot _ _ bound
    have same (m : Int) (numbered' : Numbered ilistSize m) (differ : m ≠ result) :
        inodeBlocks w' m = inodeBlocks w m := by
      by_cases used : 0 < inoGet w m
      · exact (others m numbered' used).blocks
      · rw [inodeBlocks_none (not_lt.mp used),
          inodeBlocks_none (idle m numbered' differ (not_lt.mp used))]
    obtain ⟨left,before,after⟩ := usedBlocks_change numbered same
    have card : free.card = free'.card + 1 := by
      have cards := congrArg Multiset.card all
      rw [before,after,inodeBlocks_none unused,inodeBlocks_pos used,fileBlocks_zero none] at cards
      simp only [Multiset.card_add,Multiset.card_cons,Multiset.card_zero] at cards
      omega
    have step := h.change numbered storage storage' (fun m numbered' _ used => others m numbered' used) idle
      fun _ => by
        rw [inode,freshInode_size,blockcount_zero]
        exact fileMapped_zero.mpr fun slot bound => freshInode_slot _ _ bound
    rw [World.nodeAt_some used,inode,freshInode_node] at step
    have taken : s.inodeAllocate = (result,{ s.set result Store.freshNode with
        freeInodes := rest
        freeBlocks := s.freeBlocks - 1 }) := by
      rw [Store.inodeAllocate,shape]
      exact if_neg (by omega)
    rw [taken,ran,show s.freeBlocks - 1 = free'.card by omega]
    exact ⟨rfl,step⟩

theorem Represents.emptied (h : Represents w ilistSize s)
    (storage : Storage w ilistSize free s.freeInodes) (numbered : Numbered ilistSize n)
    (used : 0 < inoGet w n) {size : Int} {w1 : World}
    (ran : CandyFs.inodeSetsize w n 0 = .ok (size,w1)) :
    ∃ free1, Renewed w w1 ilistSize n free free1 s.freeInodes ∧ inoGet w1 n = inoGet w n ∧
      fileBlocks w1 (w1.block (inoGet w n)) = 0 ∧
      free1.card = free.card + Store.cost (word (w.block (inoGet w n)) Inode.size) := by
  have held := storage.held numbered used
  have mapped := h.mapped n numbered used
  have oldNonneg := blockcount_nonneg held.sizeNonneg
  obtain ⟨_,_,resized⟩ := inodeSetsize_spec held.names held.list held.owned held.sizeNonneg held.sizeTop
    (le_refl (0 : Int))
  have made : Resized 0 w (inoGet w n) free (size,w1) := resized _ ran
  have zero : size = 0 := le_antisymm made.upper made.nonneg
  have safe : ResizeSafe 0 w (w.block (inoGet w n)) (blockcount size) := by
    refine ⟨mapped,fun more => ?_⟩
    rw [min_eq_left (Int.natCast_nonneg _),blockcount_zero] at more
    omega
  have mapped1 : FileMapped w1 (w1.block (inoGet w n)) (blockcount size) := made.mapped safe
  have stored : word (w1.block (inoGet w n)) Inode.size = size := made.stored
  obtain ⟨free1,moved⟩ := made.moved
  have updated : Updated w (inoGet w n) free w1 := made.updated
  obtain ⟨_,held1,_⟩ := updated.held held
  have file1 : IsFile (w1.block (inoGet w n)) :=
    ⟨held1.names.magic,updated.sizeNonneg,updated.sizeTop⟩
  obtain ⟨number,renewed⟩ := (moved.weaken .inl).renewed storage numbered used file1 fun _ => by
    rw [stored]
    exact mapped1
  rw [zero,blockcount_zero] at mapped1
  have none := fileBlocks_zero (w := w1) (fileMapped_zero.mp mapped1)
  have cards := congrArg Multiset.card (moved.all (.inr safe))
  dsimp only at cards
  rw [none] at cards
  simp only [Multiset.card_add,Multiset.card_cons,Multiset.card_zero] at cards
  rw [mapped.card] at cards
  refine ⟨free1,renewed,number,none,?_⟩
  rw [Store.cost]
  omega

theorem Represents.freed (h : Represents w ilistSize s) (numbered : Numbered ilistSize n) : ∃ w',
    CandyFs.inodeFree w n = .ok ((s.inodeFree n).1,w') ∧ Represents w' ilistSize (s.inodeFree n).2 := by
  obtain ⟨free,storage,count⟩ := h.sound
  have noted : Represents w ilistSize { s with frees := n :: s.frees } :=
    ⟨h.sound,h.mapped,h.limit,h.inode,h.beyond⟩
  by_cases used : 0 < inoGet w n
  · have held := storage.held numbered used
    have named := h.named numbered used
    simp only [CandyFs.inodeFree,held.names.load,Store.inodeFree,named,World.node_nlinks,World.node_size]
    by_cases linked : Inode.nlinks (w.block (inoGet w n)) ≠ 0
    · rw [if_pos linked,if_pos linked]
      exact ⟨w,rfl,noted⟩
    · rw [if_neg linked,if_neg linked]
      obtain ⟨total,_⟩ := inodeSetsize_spec held.names held.list held.owned held.sizeNonneg held.sizeTop
        (le_refl (0 : Int))
      obtain ⟨⟨size,w1⟩,ran⟩ := total (h.mapped n numbered used)
      obtain ⟨free1,renewed,number,none,card⟩ := h.emptied storage numbered used ran
      have freed := free_renewed storage numbered used renewed number fun _ => none
      have storage' := (freed.storage storage numbered).1
      have unused : inoGet (blockFree (inoFree w1 n) (inoGet w n)) n ≤ 0 :=
        (storage'.inodes.free n numbered).mpr (.inl List.mem_cons_self)
      have step := noted.change numbered storage storage'
        (fun m numbered' differ _ => freed.untouched storage numbered numbered' differ)
        (fun m numbered' differ none => by
          rwa [(freed.untouched storage numbered numbered' differ).entry])
        fun used => absurd unused (not_le.mpr used)
      rw [World.nodeAt_none unused,Multiset.card_add,Multiset.card_singleton,card,← count] at step
      rw [ran,ok_bind]
      exact ⟨_,rfl,step⟩
  · simp only [CandyFs.inodeFree,storage.load_none (not_lt.mp used),Store.inodeFree,
      h.unnamed numbered (not_lt.mp used)]
    exact ⟨w,rfl,noted⟩

theorem Updated.refilled {b size : Int} (u : Updated w b free w') {bytes : Nat → UInt8}
    (sized : word (w'.block b) Inode.size = size)
    (same : ∀ a : Nat, (a : Int) < size → fileByte w' (w'.block b) a = bytes a) :
    w'.node (w'.block b) = (w.node (w.block b)).refill size bytes := by
  have member (off k : Nat) (inside : off + k ≤ 24) := field_congr (w'.block b)
    (w.block b) off k fun j _ _ => u.head j (.inl (by omega))
  refine Node.ext ?_ ?_ ?_ ?_ (by rw [World.node_size,sized,Node.refill_size]) fun a below => ?_
  · rw [World.node_mode,Node.refill_mode,World.node_mode]
    exact member 0 4 (by omega)
  · rw [World.node_owner,Node.refill_owner,World.node_owner]
    exact member 4 4 (by omega)
  · rw [World.node_group,Node.refill_group,World.node_group]
    exact member 8 4 (by omega)
  · rw [World.node_nlinks,Node.refill_nlinks,World.node_nlinks]
    exact member 16 8 (by omega)
  · rw [World.node_size,sized] at below
    rw [World.node_byte,sized,if_pos (by omega),Node.refill_byte,if_pos below,same a (by omega)]

/-- The write of the loop in `inode_write`, once the file has its size. What the range leaves out
must be there already. -/
theorem Represents.range (h : Represents w ilistSize s) (storage : Storage w ilistSize free s.freeInodes)
    (numbered : Numbered ilistSize n) (used : 0 < inoGet w n) {w1 : World} {free1 : Multiset Int}
    {pos zeroEndpos endpos size : Int} (updated : Updated w (inoGet w n) free w1) (list : FreeSet w1 free1)
    (stored : word (w1.block (inoGet w n)) Inode.size = size)
    (mapped : FileMapped w1 (w1.block (inoGet w n)) (blockcount size)) (nonneg : 0 ≤ pos)
    (zeros : pos ≤ zeroEndpos) (inside : endpos ≤ size) (data : Option Block)
    (named : w.node (w.block (inoGet w n)) = node)
    (kept : ∀ a : Nat, (a : Int) < size → a < pos ∨ endpos ≤ a →
      fileByte w1 (w1.block (inoGet w n)) a = node.byte a) :
    Alike (fun w s => Represents w ilistSize s)
      (CandyFs.writeRange w1 (inoGet w n) (w1.block (inoGet w n)) pos zeroEndpos endpos data)
      (({ s.set n (node.resize size) with freeBlocks := free1.card } : Store).writeRange n
        (node.resize size) pos zeroEndpos endpos data) := by
  have held := storage.held numbered used
  obtain ⟨free1',held1,_⟩ := updated.held held
  have sizeNonneg : 0 ≤ size := stored ▸ updated.sizeNonneg
  have sizeTop : size ≤ maxFilesize := stored ▸ updated.sizeTop
  rw [list.card_eq held1.list]
  clear list
  unfold Store.writeRange
  by_cases empty : endpos ≤ pos
  · rw [if_pos empty,CandyFs.writeRange,if_pos empty]
    refine .ok (h.rewritten storage numbered used updated (by rw [stored]; exact mapped) held1.list ?_)
    rw [updated.refilled stored fun a below => kept a below (by omega),named,Node.resize]
  · rw [if_neg empty]
    by_cases fits : zeroEndpos ≤ endpos
    · obtain ⟨w2,ran,_,sized,bytes,list⟩ := writeRange_bytes held1 nonneg zeros fits (not_le.mp empty)
        (by rw [stored]; exact inside) (by rw [stored]; exact mapped) data
      have wrote (free' : Multiset Int) (held' : Held w1 n (inoGet w n) free') :=
        (writeRange_updated held' nonneg (show 0 ≤ zeroEndpos by omega)
          (show endpos ≤ maxFilesize by omega) data).2 _ ran
      have updated2 : Updated w (inoGet w n) free w2 :=
        updated.trans held fun free' held' => (wrote free' held').1
      have mapped2 : FileMapped w2 (w2.block (inoGet w n))
          (blockcount (word (w2.block (inoGet w n)) Inode.size)) := by
        rw [sized,stored]
        exact ((wrote _ held1).2.1 _).mpr mapped
      rw [ran,check_true (by omega),ok_bind,Store.set_with,Node.resize_size,Node.resize,
        Node.refill_refill]
      refine .ok (h.rewritten storage numbered used updated2 mapped2 list ?_)
      rw [updated2.refilled (sized.trans stored) fun _ _ => rfl,named]
      refine Node.refill_congr fun a below => ?_
      rw [bytes a (by omega) (by rw [stored]; omega)]
      by_cases covered : pos ≤ a ∧ (a : Int) < endpos
      · rw [if_pos covered]
        by_cases zero : (a : Int) < zeroEndpos
        · rw [if_pos zero,if_pos ⟨covered.1,zero⟩]
        · rw [if_neg zero,if_neg (by omega),if_pos (by omega)]
      · rw [if_neg covered,if_neg (by omega),if_neg (by omega),kept a (by omega) (by omega),
          Node.refill_byte,if_pos below]
    · cases ran : CandyFs.writeRange w1 (inoGet w n) (w1.block (inoGet w n)) pos zeroEndpos endpos data with
      | error fault =>
        rw [check,if_neg (by omega)]
        exact .error
      | ok r =>
        have counted := writeRange_count ran
        rw [if_neg empty] at counted
        exact absurd counted.2 fits

/-- A growth of the inode to `size` does not find the first child of one of its index blocks partly
filled and no room for one more block. -/
def Store.Solid (s : Store) (inumber size : Int) : Prop := ∀ node, s.inode inumber = some node →
  ¬(blockcount node.size < blockcount (min size maxFilesize) ∧ Fragile (blockcount node.size) ∧
    s.freeBlocks + cost node.size < footprint (blockcount node.size + 1))

theorem Represents.resized (h : Represents w ilistSize s)
    (storage : Storage w ilistSize free s.freeInodes) (numbered : Numbered ilistSize n)
    (used : 0 < inoGet w n) {size : Int} (nonneg : 0 ≤ size) (solid : s.Solid n size) :
    ∃ newsize w1 free1, CandyFs.inodeSetsize w n size = .ok (newsize,w1) ∧
      Resized size w (inoGet w n) free (newsize,w1) ∧
      newsize = extent (word (w.block (inoGet w n)) Inode.size) size s.freeBlocks ∧
      FileMapped w1 (w1.block (inoGet w n)) (blockcount newsize) ∧ FreeSet w1 free1 ∧
      free1.card = s.freeBlocks + Store.cost (word (w.block (inoGet w n)) Inode.size) - Store.cost newsize ∧
      ∀ a, 0 ≤ a → a < word (w.block (inoGet w n)) Inode.size → a < newsize →
        fileByte w1 (w1.block (inoGet w n)) a = fileByte w (w.block (inoGet w n)) a := by
  obtain ⟨free0,storage0,count⟩ := h.sound
  rw [storage0.list.card_eq storage.list] at count
  have held := storage.held numbered used
  have lenNonneg := held.sizeNonneg
  have mapped := h.mapped n numbered used
  have solid := solid _ (h.named numbered used)
  rw [World.node_size,count] at solid
  obtain ⟨total,_,result⟩ := inodeSetsize_spec held.names held.list held.owned lenNonneg held.sizeTop nonneg
  obtain ⟨⟨newsize,w1⟩,ran⟩ := total mapped
  have made : Resized size w (inoGet w n) free (newsize,w1) := result _ ran
  have safe : ResizeSafe size w (w.block (inoGet w n)) (blockcount newsize) :=
    (made.safe_of_room mapped).mpr solid
  have mapped1 : FileMapped w1 (w1.block (inoGet w n)) (blockcount newsize) := made.mapped safe
  obtain ⟨free1,moved⟩ := made.moved
  have cards := congrArg Multiset.card (moved.all (.inr safe))
  simp only [Multiset.card_add,Multiset.card_cons] at cards
  rw [mapped.card,mapped1.card] at cards
  refine ⟨newsize,w1,free1,ran,made,?_,mapped1,moved.list,?_,
    fun a low old new => made.byte_safe held safe low old new⟩
  · rw [count]
    by_cases more : word (w.block (inoGet w n)) Inode.size < size
    · exact made.extent held mapped more
    · have top := held.sizeTop
      rw [extent_cut nonneg (not_lt.mp more) top]
      have capped : min size (maxFilesize : Int) = size := by omega
      have fits := footprint_mono (blockcount_mono nonneg (not_lt.mp more))
      rw [← capped]
      exact made.value_short mapped (by rw [capped]; omega)
  · rw [Store.cost,Store.cost]
    omega

theorem Represents.truncate (h : Represents w ilistSize s) (numbered : Numbered ilistSize n) {size : Int}
    (nonneg : 0 ≤ size) (solid : s.Solid n size) : ∃ w',
    CandyFs.inodeTruncate w n size = .ok ((s.inodeTruncate n size).1,w') ∧
      Represents w' ilistSize (s.inodeTruncate n size).2 := by
  obtain ⟨free,storage,_⟩ := h.sound
  by_cases used : 0 < inoGet w n
  · have held := storage.held numbered used
    have named := h.named numbered used
    have lenNonneg := held.sizeNonneg
    obtain ⟨newsize,w1,free1,ran,made,length,mapped1,list1,card,kept⟩ :=
      h.resized storage numbered used nonneg solid
    have stored : word (w1.block (inoGet w n)) Inode.size = newsize := made.stored
    have newNonneg : 0 ≤ newsize := made.nonneg
    have updated : Updated w (inoGet w n) free w1 := made.updated
    obtain ⟨_,held1,_⟩ := updated.held held
    have enough := blockcount_nonneg (show 0 ≤ min size (maxFilesize : Int) by omega)
    have kept' (a : Nat) (below : (a : Int) < newsize)
        (old : (a : Int) < word (w.block (inoGet w n)) Inode.size) :
        fileByte w1 (w1.block (inoGet w n)) a = (w.node (w.block (inoGet w n))).byte a := by
      rw [World.node_byte,if_pos old,kept a (by omega) old below]
    simp only [CandyFs.inodeTruncate,Store.inodeTruncate,Store.inodeSetsize,held.names.load,named,
      World.node_size,ran,ok_bind]
    rw [if_neg (not_lt.mpr enough),← length,← card]
    by_cases grew : newsize > word (w.block (inoGet w n)) Inode.size
    · rw [if_pos grew,inodeWrite_zeros held1 lenNonneg stored]
      -- the bytes gained are filled with zeros
      have filled := h.range storage numbered used updated list1 stored mapped1 lenNonneg le_rfl
        (le_refl newsize) none rfl fun a below outside => kept' a below (by omega)
      have zeros : ({ s.set n ((w.node (w.block (inoGet w n))).resize newsize) with
          freeBlocks := free1.card } : Store).writeRange n
            ((w.node (w.block (inoGet w n))).resize newsize) (word (w.block (inoGet w n)) Inode.size)
            (word (w.block (inoGet w n)) Inode.size) newsize none =
          .ok (newsize - word (w.block (inoGet w n)) Inode.size,
            { s.set n ((w.node (w.block (inoGet w n))).resize newsize) with freeBlocks := free1.card }) := by
        rw [Store.writeRange,if_neg (by omega),check_true (by omega),ok_bind,Store.set_with,
          Node.resize_size,Node.resize,Node.refill_refill]
        refine congrArg (fun node => Except.ok (newsize - word (w.block (inoGet w n)) Inode.size,
          { s.set n node with freeBlocks := free1.card })) (Node.refill_congr fun a below => ?_)
        rw [if_neg (by omega)]
        split
        · rename_i gained
          rw [World.node_byte,if_neg (by omega)]
          rfl
        · exact Node.refill_byte.trans (if_pos below)
      rw [zeros] at filled
      obtain ⟨w2,wrote,h2⟩ := filled.ok_right
      rw [wrote]
      exact ⟨w2,rfl,h2⟩
    · rw [if_neg grew]
      refine ⟨w1,rfl,h.rewritten storage numbered used updated (by rw [stored]; exact mapped1) list1 ?_⟩
      exact updated.refilled stored fun a below => kept' a below (by omega)
  · simp only [CandyFs.inodeTruncate,storage.load_none (not_lt.mp used),Store.inodeTruncate,
      Store.inodeSetsize,h.unnamed numbered (not_lt.mp used)]
    exact ⟨w,rfl,h⟩

theorem inodeWrite_start {b pos start : Int} (names : Names w n b)
    (started : start = if pos = -1 then word (w.block b) Inode.size else pos) (nonneg : 0 ≤ start)
    (data : Option Block) (size : Int) :
    CandyFs.inodeWrite w n pos data size = CandyFs.inodeWrite w n start data size := by
  simp only [CandyFs.inodeWrite,names.load,← started]
  rw [if_neg (show ¬start = -1 by omega)]

theorem Store.inodeWrite_start {pos start : Int} (named : s.inode n = some node)
    (started : start = if pos = -1 then node.size else pos) (nonneg : 0 ≤ start)
    (data : Option Block) (size : Int) :
    s.inodeWrite n pos data size = s.inodeWrite n start data size := by
  simp only [Store.inodeWrite,named,← started]
  rw [if_neg (show ¬start = -1 by omega)]

theorem Represents.writeInside (h : Represents w ilistSize s) (numbered : Numbered ilistSize n)
    (used : 0 < inoGet w n) {start size : Int} (nonneg : 0 ≤ start) (sizeNonneg : 0 ≤ size)
    (data : Option Block) (inside : start + size ≤ word (w.block (inoGet w n)) Inode.size) :
    Alike (fun w s => Represents w ilistSize s) (CandyFs.inodeWrite w n start data size)
      (s.inodeWrite n start data size) := by
  obtain ⟨free,storage,count⟩ := h.sound
  have held := storage.held numbered used
  have named := h.named numbered used
  have top := held.sizeTop
  have greatest := maxFilesize_lt
  have sum : wrap (start + size) = start + size := wrap_of_fits ⟨by omega,by omega⟩
  simp only [CandyFs.inodeWrite,Store.inodeWrite,held.names.load,named,World.node_size]
  rw [if_neg (show ¬start = -1 by omega),sum,if_neg (not_lt.mpr inside),if_neg (not_lt.mpr inside)]
  have step := h.range storage numbered used (Updated.refl held) held.list rfl (h.mapped n numbered used)
    nonneg le_rfl inside data rfl fun a below _ => by rw [World.node_byte,if_pos below]
  have same : (w.node (w.block (inoGet w n))).resize (word (w.block (inoGet w n)) Inode.size) =
      w.node (w.block (inoGet w n)) := by
    rw [← World.node_size (w := w),Node.resize_same]
  rw [same,h.same storage named] at step
  exact step

theorem Represents.writeBehind (h : Represents w ilistSize s) (numbered : Numbered ilistSize n)
    (used : 0 < inoGet w n) {start size : Int} (nonneg : 0 ≤ start) (sizeNonneg : 0 ≤ size)
    (sum : Fits (start + size)) (data : Option Block) (more : word (w.block (inoGet w n)) Inode.size < start + size)
    (solid : s.Solid n (start + size)) :
    Alike (fun w s => Represents w ilistSize s) (CandyFs.inodeWrite w n start data size)
      (s.inodeWrite n start data size) := by
  obtain ⟨free,storage,_⟩ := h.sound
  have held := storage.held numbered used
  have named := h.named numbered used
  have lenNonneg := held.sizeNonneg
  obtain ⟨newsize,w1,free1,ran,made,length,mapped1,list1,card,kept⟩ :=
    h.resized storage numbered used (show 0 ≤ start + size by omega) solid
  have stored : word (w1.block (inoGet w n)) Inode.size = newsize := made.stored
  have newNonneg : 0 ≤ newsize := made.nonneg
  have upper : newsize ≤ start + size := made.upper
  have updated : Updated w (inoGet w n) free w1 := made.updated
  have enough := blockcount_nonneg (show 0 ≤ min (start + size) (maxFilesize : Int) by omega)
  rw [inodeWrite_extended held data nonneg sum more ran made]
  have clipped : (if start > word (w.block (inoGet w n)) Inode.size
      then word (w.block (inoGet w n)) Inode.size else start) =
      min start (word (w.block (inoGet w n)) Inode.size) := by split <;> omega
  simp only [Store.inodeWrite,Store.inodeSetsize,named,World.node_size]
  rw [if_neg (show ¬start = -1 by omega),if_pos more,if_neg (not_lt.mpr enough),← length,← card]
  dsimp only
  rw [if_neg (not_lt.mpr newNonneg),check_true upper,ok_bind,clipped]
  have step (zeroEndpos endpos : Int)
      (zeros : min start (word (w.block (inoGet w n)) Inode.size) ≤ zeroEndpos)
      (ends : endpos = newsize) :=
    h.range storage numbered used updated list1 stored mapped1
      (show 0 ≤ min start (word (w.block (inoGet w n)) Inode.size) by omega) zeros ends.le data rfl
      fun a below outside => by
        rw [World.node_byte,if_pos (by omega)]
        exact kept a (by omega) (by omega) below
  by_cases short : start + size > newsize
  · rw [if_pos short,if_pos short,min_eq_right upper]
    exact step _ _ (by split <;> omega) rfl
  · rw [if_neg short,if_neg short,min_eq_left (not_lt.mp short)]
    exact step _ _ (by omega) (by omega)

theorem Represents.write (h : Represents w ilistSize s) (numbered : Numbered ilistSize n) {pos size : Int}
    (place : 0 ≤ pos ∨ pos = -1) (sizeNonneg : 0 ≤ size) (data : Option Block)
    (room : ∀ node, s.inode n = some node → Fits ((if pos = -1 then node.size else pos) + size) ∧
      s.Solid n ((if pos = -1 then node.size else pos) + size)) :
    Alike (fun w s => Represents w ilistSize s) (CandyFs.inodeWrite w n pos data size)
      (s.inodeWrite n pos data size) := by
  obtain ⟨free,storage,_⟩ := h.sound
  by_cases used : 0 < inoGet w n
  · have held := storage.held numbered used
    have named := h.named numbered used
    have lenNonneg := held.sizeNonneg
    have room := room _ named
    rw [World.node_size] at room
    obtain ⟨start,started⟩ : ∃ start, start = if pos = -1 then word (w.block (inoGet w n)) Inode.size
      else pos := ⟨_,rfl⟩
    have nonneg : 0 ≤ start := by split at started <;> omega
    rw [CandyFs.inodeWrite_start held.names started nonneg,
      Store.inodeWrite_start named (by rw [World.node_size]; exact started) nonneg]
    rw [← started] at room
    by_cases inside : start + size ≤ word (w.block (inoGet w n)) Inode.size
    · exact h.writeInside numbered used nonneg sizeNonneg data inside
    · exact h.writeBehind numbered used nonneg sizeNonneg room.1 data (not_le.mp inside) room.2
  · simp only [CandyFs.inodeWrite,storage.load_none (not_lt.mp used),Store.inodeWrite,
      h.unnamed numbered (not_lt.mp used)]
    exact .ok h

end

end CandyFs
