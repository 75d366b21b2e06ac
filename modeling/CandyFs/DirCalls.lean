import CandyFs.DirDestroy
import CandyFs.Walk

/-! The calls on directories as the operations on paths see them: what becomes of the map of a
directory, and that nothing becomes of anything else.
-/
namespace CandyFs
open Store (Affords cost)

section
variable [Geometry] {s s' : Store} {directory parent target newParent : Int} {m m' : Bindings}
  {node : Node} {blocks : List (List Binding)} {name : Name}

/-- The store with another map for one directory. -/
structure Edited (s s' : Store) (directory parent : Int) (m : Bindings) : Prop where
  holds : HoldsMap s' directory parent m
  made : ∃ node blocks, s.inode directory = some node ∧ s' = s.refile directory node (node.showing blocks)

/-- There is room for a further entry: in a block that has entries already, or in a further one. -/
def HasSpace (s : Store) (directory : Int) (name : Name) : Prop :=
  ∃ node blocks parent, DirOk s directory node blocks parent ∧
    ((∃ es ∈ blocks, es ≠ [] ∧ HasRoom es name) ∨
      Affords s.freeBlocks node.size (node.size + blocksize))

/-- An empty directory of one block. -/
def EmptyDir (s : Store) (directory : Int) : Prop :=
  ∃ node parent, DirOk s directory node [dots parent directory] parent

theorem HoldsMap.named (holds : HoldsMap s directory parent m) : s.inode directory ≠ none := by
  obtain ⟨node,blocks,ok,_⟩ := holds.ok
  rw [ok.named]
  exact Option.some_ne_none _

theorem HoldsMap.isDir (holds : HoldsMap s directory parent m) : s.isDir directory := by
  obtain ⟨node,blocks,ok,_⟩ := holds.ok
  exact ⟨node,ok.named,ok.isDir⟩

theorem HoldsMap.elsewhere (holds : HoldsMap s directory parent m)
    (same : s'.inode directory = s.inode directory) : HoldsMap s' directory parent m := by
  obtain ⟨node,blocks,ok,bound⟩ := holds.ok
  exact ⟨node,blocks,ok.elsewhere same,bound⟩

theorem HoldsMap.above (holds : HoldsMap s directory parent m) : m dotdot = parent := by
  obtain ⟨node,blocks,ok,same⟩ := holds.ok
  obtain ⟨rest,tail,split⟩ := ok.start
  rw [same,split]
  rfl

theorem HoldsMap.here (holds : HoldsMap s directory parent m) : m dot = directory := by
  obtain ⟨node,blocks,ok,same⟩ := holds.ok
  obtain ⟨rest,tail,split⟩ := ok.start
  rw [same,split]
  rfl

theorem refile_links (named : s.inode directory = some node) (blocks : List (List Binding)) (inode : Int) :
    (s.refile directory node (node.showing blocks)).nlinksOf inode = s.nlinksOf inode := by
  by_cases same : inode = directory
  · subst same
    rw [Store.nlinksOf,Store.nlinksOf,named,Store.refile]
    dsimp only
    rw [Store.set_inode_self]
    rfl
  · rw [Store.nlinksOf,Store.nlinksOf,refile_other _ same]

theorem Edited.others (edited : Edited s s' directory parent m) :
    ∀ inode, inode ≠ directory → s'.inode inode = s.inode inode := by
  obtain ⟨node,blocks,_,rfl⟩ := edited.made
  exact fun inode differ => refile_other inode differ

theorem Edited.links (edited : Edited s s' directory parent m) :
    ∀ inode, s'.nlinksOf inode = s.nlinksOf inode := by
  obtain ⟨node,blocks,named,rfl⟩ := edited.made
  exact refile_links named blocks

theorem DirOk.hasSpace (ok : DirOk s directory node blocks parent) :
    HasSpace s directory name ↔ (∃ es ∈ blocks, es ≠ [] ∧ HasRoom es name) ∨
      Affords s.freeBlocks node.size (node.size + blocksize) := by
  constructor
  · rintro ⟨node',blocks',parent',ok',room⟩
    obtain ⟨rfl,rfl⟩ := ok.toDirectory.unique ok'.toDirectory
    exact room
  · exact fun room => ⟨node,blocks,parent,ok,room⟩

theorem HoldsMap.insert (holds : HoldsMap s directory parent m) (free : m name = none)
    (good : GoodName name) (target' : GoodTarget target) :
    (HasSpace s directory name ∧ ∃ s', dirInsert s directory name target = .ok (0,s') ∧
      Edited s s' directory parent (Function.update m name (some target))) ∨
    (¬HasSpace s directory name ∧ dirInsert s directory name target = .ok (-eNOSPC,s)) := by
  obtain ⟨node,blocks,ok,same⟩ := holds.ok
  obtain ⟨res,s',ran,inserted⟩ := dirInsert_spec ok.toDirectory ok.some good target
  have kept := inserted.keeps ok good target'
  have space : HasSpace s directory name ↔ _ := ok.hasSpace
  have full : res = -eNOSPC → ¬HasSpace s directory name := by
    rintro short
    cases inserted with
    | exist bound => exact absurd short (by decide)
    | slot => exact absurd short (by decide)
    | block => exact absurd short (by decide)
    | nospace _ full tight =>
      rw [space]
      rintro (⟨es,member,used,room⟩ | afforded)
      · exact full es member used room
      · exact tight afforded
  have some : res = 0 → HasSpace s directory name := by
    rintro stored
    cases inserted with
    | exist bound => exact absurd stored (by decide)
    | nospace => exact absurd stored (by decide)
    | slot front es back split _ used room => exact space.mpr (.inl ⟨es,by simp [split],used,room⟩)
    | block _ _ afforded => exact space.mpr (.inr afforded)
  rcases kept with ⟨rfl,⟨rfl,bound⟩ | ⟨rfl,_⟩⟩ | ⟨rfl,_,blocks',rfl,ok',perm,_⟩
  · exact absurd (same name ▸ free) bound
  · exact .inr ⟨full rfl,ran⟩
  · refine .inl ⟨some rfl,_,ran,?_,_,_,ok.named,rfl⟩
    exact ⟨_,blocks',ok',lookup_inserted ok.distinct ok'.distinct same free perm⟩

theorem HoldsMap.remove (holds : HoldsMap s directory parent m) (bound : m name = some target)
    (good : GoodName name) (named : name ≠ dot ∧ name ≠ dotdot) :
    ∃ s', dirRemove s directory name = .ok (target,s') ∧
      Edited s s' directory parent (Function.update m name none) := by
  obtain ⟨node,blocks,ok,same⟩ := holds.ok
  obtain ⟨res,s',ran,removed⟩ := dirRemove_spec ok.toDirectory ok.some good named
  rcases removed.keeps ok named with ⟨_,_,free⟩ | ⟨found,blocks',rfl,ok',perm,_⟩
  · rw [same,free] at bound
    cases bound
  · rw [same,found,Option.some.injEq] at bound
    subst bound
    refine ⟨_,ran,?_,_,_,ok.named,rfl⟩
    exact ⟨_,blocks',ok',lookup_removed ok.distinct ok'.distinct same perm⟩

theorem EmptyDir.holds (empty : EmptyDir s directory) : ∃ node parent m,
    s.inode directory = some node ∧ HoldsMap s directory parent m ∧
    (∀ name, m name ≠ none → name = dotdot ∨ name = dot) ∧
    dirDestroy s directory = .ok (0,s.refile directory node node.destroyed) := by
  obtain ⟨node,parent,ok⟩ := empty
  refine ⟨node,parent,_,ok.named,⟨node,_,ok,fun _ => rfl⟩,fun name bound => ?_,?_⟩
  · rw [Ne,lookup_none_iff,not_not] at bound
    simpa [dots] using bound
  · rw [dirDestroy_block ok.toDirectory,if_neg (by simp [dots])]

theorem HoldsMap.destroy (holds : HoldsMap s directory parent m) (used : ¬EmptyDir s directory) :
    dirDestroy s directory = .ok (-eNOTEMPTY,s) := by
  obtain ⟨node,blocks,ok,same⟩ := holds.ok
  obtain ⟨rest,tail,split⟩ := ok.start
  cases tail with
  | cons next tail => exact dirDestroy_full ok.toDirectory (by simp [split])
  | nil =>
    have dir := ok.toDirectory
    rw [split] at dir
    cases rest with
    | nil =>
      rw [List.append_nil] at split
      exact absurd ⟨node,parent,split ▸ ok⟩ used
    | cons e rest => rw [dirDestroy_block dir,if_pos (by simp [dots])]

/-- A destroyed directory, and everything else as it was. -/
structure Destroyed (s s' : Store) (directory : Int) : Prop where
  made : ∃ node, s.inode directory = some node ∧ node.size = blocksize ∧
    s' = s.refile directory node node.destroyed
  late : ∀ late : LateCall, late.run s' directory = .ok (-eNOENT,s')

theorem Node.destroyed_cost (node : Node) (size : node.size = blocksize) :
    cost node.destroyed.size = cost node.size := by
  have large := blocksize_large
  have one : blockcount (blocksize : Int) = 1 := by simpa using blockcount_mul 1
  have least : ¬blockcount ((blocksize : Int) - 1) ≤ 0 := by
    rw [blockcount_le_iff (by omega)]
    omega
  have most := blockcount_mono (show (0 : Int) ≤ blocksize - 1 by omega) (sub_one_lt _).le
  have mark : node.destroyed.size = blocksize - 1 := rfl
  rw [cost,cost,mark,size,show blockcount ((blocksize : Int) - 1) = blockcount blocksize by omega]

theorem EmptyDir.size (empty : EmptyDir s directory) (named : s.inode directory = some node) :
    node.size = blocksize := by
  obtain ⟨node',parent,ok⟩ := empty
  obtain rfl := Option.some.inj (named.symm.trans ok.named)
  rw [ok.shown.size]
  simp

section
variable (destroyed : Destroyed s s' directory)
include destroyed

theorem Destroyed.self : ∃ node, s.inode directory = some node ∧
    s'.inode directory = some node.destroyed := by
  obtain ⟨node,named,_,rfl⟩ := destroyed.made
  exact ⟨node,named,Store.set_inode_self ..⟩

theorem Destroyed.others : ∀ inode, inode ≠ directory → s'.inode inode = s.inode inode := by
  obtain ⟨node,_,_,rfl⟩ := destroyed.made
  exact fun inode differ => refile_other inode differ

theorem Destroyed.links : ∀ inode, s'.nlinksOf inode = s.nlinksOf inode := by
  obtain ⟨node,named,_,rfl⟩ := destroyed.made
  intro inode
  by_cases same : inode = directory
  · subst same
    rw [Store.nlinksOf,Store.nlinksOf,named,Store.refile]
    dsimp only
    rw [Store.set_inode_self]
    rfl
  · rw [Store.nlinksOf,Store.nlinksOf,refile_other _ same]

theorem Destroyed.space : s'.freeBlocks = s.freeBlocks := by
  obtain ⟨node,_,size,rfl⟩ := destroyed.made
  rw [Store.refile,node.destroyed_cost size]
  exact Nat.add_sub_cancel ..

end

theorem EmptyDir.destroy (empty : EmptyDir s directory) :
    ∃ s', dirDestroy s directory = .ok (0,s') ∧ Destroyed s s' directory := by
  obtain ⟨node,parent,m,named,holds,_,ran⟩ := empty.holds
  obtain ⟨node',named',isDir⟩ := holds.isDir
  rw [named,Option.some.injEq] at named'
  subst named'
  have marked : (s.refile directory node node.destroyed).inode directory = some node.destroyed :=
    Store.set_inode_self ..
  exact ⟨_,ran,⟨node,named,empty.size named,rfl⟩,fun late =>
    late_refused marked isDir (sub_one_lt _) late⟩

theorem HoldsMap.reparent (holds : HoldsMap s directory parent m) (up : GoodTarget newParent) :
    ∃ s', dirReparent s directory newParent = .ok (0,s') ∧
      Edited s s' directory newParent (Function.update m dotdot (some newParent)) := by
  obtain ⟨node,blocks,ok,same⟩ := holds.ok
  obtain ⟨rest,tail,split⟩ := ok.start
  subst split
  have fits : BlockFits (dots newParent directory ++ rest) := by
    have fits := ok.fits (dots parent directory ++ rest) (by simp)
    refine ⟨fits.count,fits.room,fun e member => ?_,fun e member => ?_⟩
    · rcases List.mem_cons.mp member with rfl | member
      · exact fits.names (dotdot,parent) List.mem_cons_self
      · exact fits.names e (List.mem_cons_of_mem _ member)
    · rcases List.mem_cons.mp member with rfl | member
      · exact up
      · exact fits.targets e (List.mem_cons_of_mem _ member)
  refine ⟨_,dirReparent_spec ok.toDirectory newParent,?_,_,_,ok.named,rfl⟩
  refine ⟨_,_,⟨ok.toDirectory.refile (fun es member => ?_) (ok.toDirectory.top_le (by simp)),
    ⟨rest,tail,rfl⟩,ok.distinct⟩,fun other => ?_⟩
  · rcases List.mem_cons.mp member with rfl | member
    · exact fits
    · exact ok.fits es (List.mem_cons_of_mem _ member)
  · by_cases this : other = dotdot
    · subst this
      rw [Function.update_self]
      rfl
    · rw [Function.update_of_ne this,same]
      simp [dots,List.lookup_cons,beq_eq_false_iff_ne.mpr this]

end

end CandyFs
