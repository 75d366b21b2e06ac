import CandyFs.DirRuns

/-! What `dir_destroy` finds out about a directory from its size and one entry, and what is left of a
directory that it has destroyed.
-/
namespace CandyFs
open Bytes DirMapBlock

section
variable [Geometry]

section
variable {block copy : Block} {before after : List Binding} {name : Name} {n : Nat}

theorem strlen_copy {nameoff k : Nat} (ran : strlen block nameoff = .ok k)
    (same : ∀ j ≤ k, copy (names + nameoff + j) = block (names + nameoff + j)) :
    strlen copy nameoff = .ok k := by
  unfold strlen at ran ⊢
  split at ran
  · rename_i curlen found
    obtain rfl := Except.ok.inj ran
    rw [List.find?_range_eq_some] at found
    have found' : (List.range (namespacePerDirBlock - nameoff)).find? (fun k =>
        copy (names + nameoff + k) = 0) = some curlen := by
      rw [List.find?_range_eq_some]
      refine ⟨?_,found.2.1,fun j low => ?_⟩
      · rw [same curlen le_rfl]
        exact found.1
      · rw [same j low.le]
        exact found.2.2 j low
    rw [found']
  · cases ran

theorem scanBlock_copy (shown : Shows block (before ++ after)) (fits : BlockFits (before ++ after))
    (few : (before ++ after).length < entriesPerDirBlock)
    (words : ∀ i < entriesPerDirBlock, word copy i = word block i)
    (letters : ∀ j < (namesOf (before ++ after)).length, copy (names + j) = block (names + j))
    (rounds : n + before.length = entriesPerDirBlock) :
    scanBlock copy name n before.length (namesOf before).length =
      scanBlock block name n before.length (namesOf before).length := by
  induction after generalizing before n with
  | nil =>
    rw [List.append_nil] at shown fits few
    obtain ⟨n,rfl⟩ : ∃ m, n = m + 1 := ⟨n - 1,by omega⟩
    rw [scanBlock,scanBlock,words _ few,if_pos (shown.number_end fits le_rfl few),
      if_pos (shown.number_end fits le_rfl few)]
  | cons e after ih =>
    have inside := few
    rw [List.length_append,List.length_cons] at inside
    obtain ⟨n,rfl⟩ : ∃ m, n = m + 1 := ⟨n - 1,by omega⟩
    have length : (namesOf (before ++ e :: after)).length =
        (namesOf before).length + (e.1.length + ((namesOf after).length + 1)) := by
      simp only [namesOf_append,namesOf_cons,List.length_append,List.length_cons]
    have here : ∀ j ≤ e.1.length, copy (names + (namesOf before).length + j) =
        block (names + (namesOf before).length + j) := fun j low => by
      rw [Nat.add_assoc]
      exact letters _ (by omega)
    have called : nameAt copy (namesOf before).length e.1.length =
        nameAt block (namesOf before).length e.1.length := by
      apply List.map_congr_left
      intro j member
      exact here j (List.mem_range.mp member).le
    have measured := strlen_spec shown fits
    rw [scanBlock,scanBlock,words _ (by omega),measured,strlen_copy measured here,ok_bind,ok_bind,called]
    rw [List.append_cons] at shown fits few letters
    have rest := ih (n := n) shown fits few letters (by simp; omega)
    simp only [List.length_append,namesOf_append,namesOf_cons,namesOf_nil,
      List.length_cons,List.length_nil] at rest
    split
    · rfl
    · split
      · rfl
      · exact rest

end

section
variable {s s' s0 : Store} {directory parent : Int} {node : Node} {blocks : List (List Binding)}
  {name : Name}

theorem dirInsert_long (dir : Directory s directory node blocks) (some : blocks ≠ [])
    (long : nameMax < name.length) (target : Int) :
    dirInsert s directory name target = .ok (-eNAMETOOLONG,s) := by
  rw [dirInsert,dir.named]
  dsimp only
  rw [if_neg (not_not.mpr dir.isDir),if_neg (not_lt.mpr (dir.size_le some)),if_pos long]

theorem dirRemove_long (dir : Directory s directory node blocks) (some : blocks ≠ [])
    (long : nameMax < name.length) : dirRemove s directory name = .ok (-eNAMETOOLONG,s) := by
  rw [dirRemove,dir.named]
  dsimp only
  rw [if_neg (not_not.mpr dir.isDir),if_neg (not_lt.mpr (dir.size_le some)),if_pos long]

/-- A call with a name as a path can have it, which may be too long. -/
def DirCall.Named : DirCall → Prop
  | .insert name target => name ≠ [] ∧ 0 ∉ name ∧ GoodTarget target
  | .remove name => name ≠ [] ∧ 0 ∉ name

abbrev NamedCall := { call : DirCall // call.Named }

/-- What calls on a directory lead to when anything but the directory may change between them. -/
inductive Reached {Call : Type} (directory : Int) (run : Store → Call → Try (Int × Store))
    (initial : Store) : Store → Prop where
  | start : Reached directory run initial initial
  | call {s s' : Store} {call : Call} {res : Int} (before : Reached directory run initial s)
      (ran : run s call = .ok (res,s')) : Reached directory run initial s'
  | elsewhere {s s' : Store} (before : Reached directory run initial s)
      (same : s'.inode directory = s.inode directory) : Reached directory run initial s'

/-- A directory whose last block is in use. -/
structure Trimmed (s : Store) (directory parent : Int) : Prop where
  ok : ∃ node blocks, DirOk s directory node blocks parent ∧ LastUsed blocks

theorem DirOk.elsewhere (ok : DirOk s directory node blocks parent)
    (same : s'.inode directory = s.inode directory) : DirOk s' directory node blocks parent :=
  ⟨⟨same.trans ok.named,ok.isDir,ok.shown,ok.fits,ok.top⟩,ok.start,ok.distinct⟩

theorem Trimmed.elsewhere (trimmed : Trimmed s directory parent) (same : s'.inode directory = s.inode directory) :
    Trimmed s' directory parent := by
  obtain ⟨node,blocks,ok,used⟩ := trimmed
  exact ⟨node,blocks,ok.elsewhere same,used⟩

theorem Trimmed.step (trimmed : Trimmed s directory parent) (call : NamedCall) :
    ∃ res s', call.1.run s directory = .ok (res,s') ∧ Trimmed s' directory parent := by
  have trimmed' := trimmed
  obtain ⟨node,blocks,ok,used⟩ := trimmed
  obtain ⟨call,named⟩ := call
  cases call with
  | insert name target =>
    obtain ⟨some,noNul,target'⟩ := named
    by_cases short : name.length ≤ nameMax
    · obtain ⟨res,s',ran,inserted⟩ := dirInsert_spec ok.toDirectory ok.some ⟨some,short,noNul⟩ target
      refine ⟨res,s',ran,?_⟩
      rcases inserted.keeps ok ⟨some,short,noNul⟩ target' with ⟨rfl,_⟩ | ⟨_,_,blocks',rfl,ok',_,used'⟩
      · exact trimmed'
      · exact ⟨_,blocks',ok',used' used⟩
    · exact ⟨_,s,dirInsert_long ok.toDirectory ok.some (not_le.mp short) target,trimmed'⟩
  | remove name =>
    obtain ⟨some,noNul⟩ := named
    by_cases short : name.length ≤ nameMax
    · by_cases self : name = dot
      · subst self
        exact ⟨_,s,dirRemove_dot ok.toDirectory ok.some,trimmed'⟩
      by_cases up : name = dotdot
      · subst up
        exact ⟨_,s,dirRemove_dotdot ok.toDirectory ok.some,trimmed'⟩
      obtain ⟨res,s',ran,removed⟩ := dirRemove_spec ok.toDirectory ok.some ⟨some,short,noNul⟩ ⟨self,up⟩
      refine ⟨res,s',ran,?_⟩
      rcases removed.keeps ok ⟨self,up⟩ with ⟨rfl,_⟩ | ⟨_,blocks',rfl,ok',_,used',_⟩
      · exact trimmed'
      · exact ⟨_,blocks',ok',used' used⟩
    · exact ⟨_,s,dirRemove_long ok.toDirectory ok.some (not_le.mp short),trimmed'⟩

theorem Trimmed.run (trimmed : Trimmed s0 directory parent)
    (reached : Reached directory (fun s (call : NamedCall) => call.1.run s directory) s0 s) :
    Trimmed s directory parent := by
  induction reached with
  | start => exact trimmed
  | call _ ran ih =>
    obtain ⟨res,s',ran',trimmed'⟩ := ih.step _
    rw [ran,Except.ok.injEq,Prod.mk.injEq] at ran'
    exact ran'.2 ▸ trimmed'
  | elsewhere _ same ih => exact ih.elsewhere same

theorem Created.trimmed (h : Created s parent directory s0) (sound : s.Sound) (up : GoodTarget parent)
    (made : 0 ≤ directory) : Trimmed s0 directory parent := by
  have small : ((blocksize : Nat) : Int) ≤ maxFilesize := by
    exact_mod_cast Nat.le_mul_of_pos_left blocksize firstUnreachableBlock_pos
  cases h with
  | none _ => exact absurd made (by decide)
  | undone _ _ _ _ => exact absurd made (by decide)
  | made _ rest first room =>
    refine ⟨_,[dots parent directory],⟨⟨Store.adopt_inode_self,?_,showsDir_showing,?_,?_⟩,⟨[],[],by simp⟩,?_⟩,?_⟩
    · exact (by decide : sISDIR (sIFDIR ||| 0o777))
    · intro es member
      obtain rfl := List.mem_singleton.mp member
      exact blockFits_dots up (sound_target sound first).2
    · rw [dirNode,showing_size,List.length_singleton,Nat.cast_one,one_mul]
      exact small
    · simp [dots,dot,dotdot]
    · simp [LastUsed,dots]

/-- A call that may still be made on a destroyed directory. -/
inductive LateCall where
  | entry (call : DirCall)
  | reparent (newParent : Int)
  | destroy

def LateCall.run (s : Store) (directory : Int) : LateCall → Try (Int × Store)
  | .entry call => call.run s directory
  | .reparent newParent => dirReparent s directory newParent
  | .destroy => dirDestroy s directory

theorem late_refused (named : s.inode directory = some node) (isDir : sISDIR node.mode)
    (short : node.size < blocksize) (late : LateCall) : late.run s directory = .ok (-eNOENT,s) := by
  cases late with
  | entry call =>
    cases call with
    | insert name target =>
      simp only [LateCall.run,DirCall.run,dirInsert,named]
      rw [if_neg (not_not.mpr isDir),if_pos short]
    | remove name =>
      simp only [LateCall.run,DirCall.run,dirRemove,named]
      rw [if_neg (not_not.mpr isDir),if_pos short]
  | reparent newParent =>
    simp only [LateCall.run,dirReparent,named]
    rw [if_neg (not_not.mpr isDir),if_pos short]
  | destroy =>
    simp only [LateCall.run,dirDestroy,named]
    rw [if_neg (not_not.mpr isDir),if_pos short]

theorem dirLookup_destroyed (dir : Directory s directory node [dots parent directory])
    (named : s'.inode directory = some node.destroyed) (good : GoodName name) :
    dirLookup s' directory name = .ok (((dots parent directory).lookup name).getD (-eNOENT)) := by
  have large := blocksize_large
  have many := entriesPerDirBlock_large
  have size : node.destroyed.size = blocksize - 1 := rfl
  have fits := dir.fits (dots parent directory) (by simp)
  have whole : Directory s directory node ([] ++ dots parent directory :: []) := dir
  obtain ⟨block,read,shown⟩ := whole.read s'.stack
  -- the byte behind the end of the directory is the buffer's
  obtain ⟨copy,read',bytes⟩ : ∃ copy, s'.inodeRead directory 0 s'.stack blocksize =
      ((blocksize : Int) - 1,copy) ∧ ∀ k < blocksize - 1, copy k = block k := by
    refine ⟨copyBytes s'.stack 0 node.destroyed.byte 0 (blocksize - 1),?_,fun k low => ?_⟩
    · have short : min (0 + (blocksize : Int)) node.destroyed.size = blocksize - 1 := by
        rw [size]
        omega
      simp only [Store.inodeRead,named,short]
      rw [if_neg (by omega),sub_zero]
      congr 2
      omega
    · rw [copyBytes_inside _ _ _ _ _ _ (Nat.zero_le _) (by omega),Nat.sub_zero,Nat.zero_add,
        Node.destroyed,Node.resize_byte,if_pos (by omega),shown k (by omega),
        dir.shown.bytes k (by simp; omega)]
      have inside : dirByte ([] ++ dots parent directory :: []) (([] : List Binding).length * blocksize + k) = _ :=
        dirByte_block (show k < blocksize by omega)
      simpa using inside
  have ends : s'.inodeRead directory blocksize copy blocksize = (0,copy) := by
    simp only [Store.inodeRead,named,size]
    rw [if_pos (by omega)]
  have room : names + nameMax < blocksize ∧ names = 8 * entriesPerDirBlock :=
    ⟨(Nat.add_lt_add_left nameMax_lt _).trans_le names_add,names_eq⟩
  have words : ∀ i < entriesPerDirBlock, word copy i = word block i := fun i low =>
    word_congr _ _ _ fun k _ inside => bytes k (by omega)
  have letters : ∀ j < (namesOf (dots parent directory)).length,
      copy (names + j) = block (names + j) := fun j low => by
    have count : (namesOf (dots parent directory)).length = 5 := rfl
    have most : nameMax = 255 := rfl
    exact bytes _ (by omega)
  have scanned : scanBlock copy name entriesPerDirBlock ([] : List Binding).length (namesOf []).length = _ :=
    scanBlock_copy shown fits (by simp; omega) words letters rfl
  have rounds : dirFuel node.destroyed = 2 := by
    rw [dirFuel,size]
    have : ((blocksize : Int) - 1).toNat / blocksize = 0 := Nat.div_eq_of_lt (by omega)
    omega
  rw [dirLookup,named]
  dsimp only
  rw [if_neg (not_not.mpr (show sISDIR node.destroyed.mode from dir.isDir)),
    if_neg (not_lt.mpr good.short),rounds,dirLookupLoop,read']
  dsimp only
  rw [if_pos (by omega)]
  rw [namesOf_nil,List.length_nil,List.length_nil] at scanned
  rw [scanned]
  obtain ⟨absent,found⟩ | ⟨before,target,after,split,_,found,number,hit⟩ := fits.search shown name
  · rw [found,ok_bind,absent]
    dsimp only
    rw [zero_add,dirLookupLoop,ends]
    rfl
  · rw [hit,ok_bind,found]
    dsimp only
    rw [words,number]
    · rfl
    · have : (dots parent directory).length = 2 := rfl
      rw [split,List.length_append,List.length_cons] at this
      omega

/-- What `dir_destroy` has destroyed stays so, whatever else happens. -/
structure Final (s : Store) (directory parent : Int) : Prop where
  later : ∀ s', Reached directory (fun s (late : LateCall) => late.run s directory) s s' →
    s'.inode directory = s.inode directory ∧
    (∀ late : LateCall, late.run s' directory = .ok (-eNOENT,s')) ∧
    ∀ name, GoodName name →
      dirLookup s' directory name = .ok (((dots parent directory).lookup name).getD (-eNOENT))

theorem final_destroyed (dir : Directory s directory node [dots parent directory])
    (named : s'.inode directory = some node.destroyed) : Final s' directory parent := by
  have short : node.destroyed.size < blocksize := by
    rw [Node.destroyed,Node.resize_size]
    omega
  refine ⟨fun s1 reached => ?_⟩
  have same : s1.inode directory = s'.inode directory := by
    induction reached with
    | start => rfl
    | elsewhere _ same ih => exact same.trans ih
    | call _ ran ih =>
      rw [late_refused (ih.trans named) dir.isDir short,Except.ok.injEq,Prod.mk.injEq] at ran
      exact ran.2 ▸ ih
  exact ⟨same,late_refused (same.trans named) dir.isDir short,fun name =>
    dirLookup_destroyed dir (same.trans named)⟩

/-- The directory is in order, calls on it return, and `dir_destroy` tells whether it is empty. -/
structure DestroyExact (s : Store) (directory parent : Int) : Prop where
  returns : ∀ call : NamedCall, ∃ res s', call.1.run s directory = .ok (res,s')
  exact : ∃ node blocks, DirOk s directory node blocks parent ∧ LastUsed blocks ∧
    ∃ res s', dirDestroy s directory = .ok (res,s') ∧
      (res = 0 ↔ ∀ name, blocks.flatten.lookup name ≠ none → name = dotdot ∨ name = dot) ∧
      (res ≠ 0 → res = -eNOTEMPTY ∧ s' = s) ∧ (res = 0 → Final s' directory parent)

theorem DirOk.other_name (ok : DirOk s directory node blocks parent) {rest : List Binding}
    {tail : List (List Binding)} (split : blocks = (dots parent directory ++ rest) :: tail)
    {e : Binding} (member : e ∈ rest ++ tail.flatten) :
    ¬∀ name, blocks.flatten.lookup name ≠ none → name = dotdot ∨ name = dot := by
  intro only
  have distinct := ok.distinct
  rw [split,List.flatten_cons,List.append_assoc,List.map_append,List.nodup_append] at distinct
  have fresh := distinct.2.2
  have bound : blocks.flatten.lookup e.1 ≠ none := by
    rw [Ne,lookup_none_iff,not_not,split,List.flatten_cons,List.append_assoc]
    exact List.mem_map_of_mem (List.mem_append_right _ member)
  have apart (first : Binding) (among : first ∈ dots parent directory) : first.1 ≠ e.1 :=
    fresh _ (List.mem_map_of_mem among) _ (List.mem_map_of_mem member)
  rcases only e.1 bound with same | same
  · exact apart (dotdot,parent) (by simp [dots]) same.symm
  · exact apart (dot,directory) (by simp [dots]) same.symm

theorem Trimmed.destroyExact (trimmed : Trimmed s directory parent) : DestroyExact s directory parent := by
  have step := trimmed.step
  obtain ⟨node,blocks,ok,used⟩ := trimmed
  refine ⟨fun call => ?_,node,blocks,ok,used,?_⟩
  · obtain ⟨res,s',ran,_⟩ := step call
    exact ⟨res,s',ran⟩
  · obtain ⟨rest,tail,split⟩ := ok.start
    have named : (0 : Int) ≠ -eNOTEMPTY := by decide
    cases tail with
    | cons next tail =>
      -- the last block is in use, so it binds another name
      have full : ∃ e, e ∈ rest ++ (next :: tail).flatten := by
        rw [split,LastUsed,List.getLast?_cons_cons,List.getLast?_eq_some_getLast (List.cons_ne_nil _ _),
          Ne,Option.some.injEq] at used
        obtain ⟨e,member⟩ := List.exists_mem_of_ne_nil _ used
        exact ⟨e,List.mem_append_right _ (List.mem_flatten_of_mem (List.getLast_mem _) member)⟩
      obtain ⟨e,member⟩ := full
      refine ⟨-eNOTEMPTY,s,dirDestroy_full ok.toDirectory (by simp [split]),?_,fun _ => ⟨rfl,rfl⟩,?_⟩
      · exact iff_of_false named.symm (ok.other_name split member)
      · exact fun same => absurd same.symm named
    | nil =>
      have dir := ok.toDirectory
      rw [split] at dir
      have ran := dirDestroy_block dir
      cases rest with
      | cons e rest =>
        rw [if_pos (by simp [dots])] at ran
        refine ⟨-eNOTEMPTY,s,ran,?_,fun _ => ⟨rfl,rfl⟩,fun same => absurd same.symm named⟩
        exact iff_of_false named.symm (ok.other_name split (e := e) (by simp))
      | nil =>
        rw [List.append_nil] at dir
        rw [if_neg (by simp [dots])] at ran
        refine ⟨0,_,ran,iff_of_true rfl ?_,fun some => absurd rfl some,fun _ =>
          final_destroyed dir (Store.set_inode_self ..)⟩
        intro name bound
        rw [Ne,lookup_none_iff,not_not,split] at bound
        simpa [dots] using bound

/-- The test `dir_destroy` makes for an empty directory is exact, and what it destroys is gone. -/
theorem dir_destroy_exact {s1 : Store} (sound : s.Sound) (up : GoodTarget parent)
    (ran : dirCreate s parent = .ok (directory,s0)) (made : 0 ≤ directory)
    (reached : Reached directory (fun s (call : NamedCall) => call.1.run s directory) s0 s1) :
    DestroyExact s1 directory parent := by
  obtain ⟨res,s',ran',created⟩ := dirCreate_spec sound parent
  rw [ran,Except.ok.injEq,Prod.mk.injEq] at ran'
  obtain ⟨rfl,rfl⟩ := ran'
  exact ((created.trimmed sound up made).run reached).destroyExact

end

end

end CandyFs

/-! A directory that gets one entry. -/
namespace CandyFs
attribute [local instance] Geometry.small

theorem dir_destroy_exact_tiny : ∃ directory s0 s1 res, dirCreate tinyStore 0 = .ok (directory,s0) ∧
    dirInsert s0 directory [97] 5 = .ok (res,s1) ∧ DestroyExact s1 directory 0 := by
  have made : (match dirCreate tinyStore 0 with
      | .ok (directory,_) => decide (0 ≤ directory)
      | .error _ => false) = true := by decide +kernel
  split at made
  · rename_i directory s0 ran
    have up : GoodTarget 0 := ⟨⟨by decide,by decide⟩,by decide⟩
    have nonneg : 0 ≤ directory := of_decide_eq_true made
    have named : DirCall.Named (.insert [97] 5) :=
      ⟨List.cons_ne_nil _ _,by decide,⟨by decide,by decide⟩,by decide⟩
    obtain ⟨res,s1,inserted⟩ :=
      (dir_destroy_exact tinyStore_sound up ran nonneg .start).returns ⟨_,named⟩
    exact ⟨directory,s0,s1,res,ran,inserted,dir_destroy_exact tinyStore_sound up ran nonneg
      (@Reached.call NamedCall _ _ _ _ _ ⟨_,named⟩ _ .start inserted)⟩
  · cases made

end CandyFs
