import CandyFs.Tree

/-! Removing an entry and what it was for: the steps that the operations on paths have in common, and
`path_unlink` and `path_rmdir`.
-/
namespace CandyFs
open Bytes

section
variable [Geometry] {fs : Fs} {s s' : Store} {held : Multiset Int} {inode directory parent target : Int}
  {info : Node} {m : Bindings} {node : OpenPathNode} {path : Int} {user group : Nat}

/-- What closing an inode leaves of the disk: the last reference to one without links frees it. -/
def Fs.dropRef (fs : Fs) (held : Multiset Int) (inode : Int) : Store :=
  if fs.opens inode = 0 ∧ inode ∉ held ∧ fs.store.nlinksOf inode = 0 then (fs.store.inodeFree inode).2
  else fs.store

/-- What giving up a link and a reference leaves of the disk. -/
def Fs.dropLink (fs : Fs) (held : Multiset Int) (inode : Int) : Store :=
  (fs.over (fs.store.inodeUnlink inode).2).dropRef held inode

theorem inodeFree_others {other : Int} (differ : other ≠ inode) :
    (s.inodeFree inode).2.inode other = s.inode other := by
  rw [Store.inodeFree]
  dsimp only
  split
  · rfl
  · split
    · rfl
    · exact Function.update_of_ne differ ..

omit [Geometry] in
theorem inodeUnlink_others {other : Int} (differ : other ≠ inode) :
    (s.inodeUnlink inode).2.inode other = s.inode other := by
  rw [Store.inodeUnlink]
  split
  · rfl
  · exact Store.set_inode_ne _ _ _ differ

theorem dropRef_others {other : Int} (differ : other ≠ inode) :
    (fs.dropRef held inode).inode other = fs.store.inode other := by
  rw [Fs.dropRef]
  split
  · exact inodeFree_others differ
  · rfl

theorem dropLink_others {other : Int} (differ : other ≠ inode) :
    (fs.dropLink held inode).inode other = fs.store.inode other := by
  rw [Fs.dropLink,dropRef_others differ]
  exact inodeUnlink_others differ

theorem Tables.close_held (ok : Tables fs) (fits : Fits inode) (named : fs.store.inode inode ≠ none) :
    closeHeld inode (fs.holding (inode ::ₘ held)) =
      .ok ((),(fs.over (fs.dropRef held inode)).holding held) := by
  obtain ⟨info,found⟩ := Option.ne_none_iff_exists'.mp named
  have links : fs.store.nlinksOf inode = info.nlinks := by rw [Store.nlinksOf,found]; rfl
  rw [closeHeld,Fs.dropRef]
  split
  · rename_i last
    rw [act_bind (ok.close_last fits last.1 last.2.1 found (links ▸ last.2.2)),assert_true rfl]
  · rename_i more
    have kept : fs.opens inode ≠ 0 ∨ inode ∈ held ∨ fs.store.nlinksOf inode ≠ 0 := by
      by_contra none
      simp only [not_or,not_not] at none
      exact more none
    rw [act_bind (ok.close_holding fits kept),assert_true rfl,ok.over_self]

theorem Tables.unlink_held (ok : Tables fs) (fits : Fits inode) (named : fs.store.inode inode ≠ none) :
    unlinkHeld inode (fs.holding (inode ::ₘ held)) =
      .ok ((),(fs.over (fs.dropLink held inode)).holding held) := by
  obtain ⟨info,found⟩ := Option.ne_none_iff_exists'.mp named
  have still : (fs.over (fs.store.inodeUnlink inode).2).store.inode inode ≠ none := by
    change (fs.store.inodeUnlink inode).2.inode inode ≠ none
    rw [Store.inodeUnlink,found]
    dsimp only
    rw [Store.set_inode_self]
    exact Option.some_ne_none _
  rw [unlinkHeld,act_bind (ok.unlink_holding fits found (.inl (Multiset.mem_cons_self _ _))),
    act_bind (assert_true rfl),(ok.over _).close_held fits still,over_over]
  rfl

theorem Tables.remove_entry (ok : Tables fs) (holds : HoldsMap fs.store node.parentDir parent m)
    (bound : m node.name = some target) (good : GoodName node.name)
    (named : node.name ≠ dot ∧ node.name ≠ dotdot) :
    ∃ s', removeEntry node target (fs.holding held) = .ok ((),(fs.over s').holding held) ∧
      dirRemove fs.store node.parentDir node.name = .ok (target,s') ∧
      Edited fs.store s' node.parentDir parent (Function.update m node.name none) := by
  obtain ⟨s',ran,edited⟩ := holds.remove bound good named
  refine ⟨s',?_,ran,edited⟩
  rw [removeEntry,act_bind (ok.onDisk_holding ran edited.links),assert_true rfl]

theorem Tables.remove_fails (ok : Tables fs) {res : Int}
    (ran : dirRemove fs.store node.parentDir node.name = .ok (res,fs.store)) (differ : res ≠ target) :
    removeEntry node target (fs.holding held) = .error (.abort ()) := by
  rw [removeEntry,act_bind (ok.onDisk_holding ran fun _ => rfl)]
  exact assert_false differ

section
variable (tree : Tree fs) (opened : OpenPath fs path node)
include tree opened

theorem OpenPath.onPath : onPath path (fs.holding held) = .ok (some node,fs.holding held) := by
  have entry := opened.opened
  rw [CandyFs.onPath,Fs.path,tree.tables.holding_paths]
  rw [Fs.path] at entry
  rw [entry]

theorem OpenPath.get (held : Multiset Int) :
    (∃ inode, Entry fs.store node.parentDir node.name inode ∧ Live fs.store inode ∧
      pathGet path (fs.holding held) = .ok (inode,fs.holding (inode ::ₘ held))) ∨
    ((∀ inode, ¬Entry fs.store node.parentDir node.name inode) ∧
      pathGet path (fs.holding held) = .ok (-eNOENT,fs.holding held)) := by
  have absent (found : dirLookup fs.store node.parentDir node.name = .ok (-eNOENT)) :
      pathGet path (fs.holding held) = .ok (-eNOENT,fs.holding held) := by
    rw [pathGet,act_bind (opened.onPath tree)]
    exact tree.dirLookupOpen_fails found (by decide)
  rcases opened.directory with none | live
  · refine .inr ⟨fun inode entry => ?_,absent ?_⟩
    · exact absurd entry.1 (by rw [none]; decide)
    · rw [dirLookup,none,tree.rooted.outside eof (by decide)]
  · obtain ⟨parent,m,holds⟩ := live.holds
    cases bound : m node.name with
    | none =>
      refine .inr ⟨fun inode entry => ?_,absent ?_⟩
      · rw [entry.bound holds] at bound
        cases bound
      · rw [holds.lookup opened.good.short,bound]
        rfl
    | some inode =>
      have entry : Entry fs.store node.parentDir node.name inode := ⟨live.nonneg,parent,m,holds,bound⟩
      refine .inl ⟨inode,entry,tree.bound entry,?_⟩
      rw [pathGet,act_bind (opened.onPath tree)]
      refine tree.dirLookupOpen ?_ (tree.bound entry)
      rw [holds.lookup opened.good.short,bound]
      rfl

end

/-- The disk without an entry, and with its inode let go: a directory has been destroyed before. -/
structure Cleared (fs : Fs) (held : Multiset Int) (directory : Int) (name : Name) (inode : Int)
    (s' : Store) : Prop where
  made : ∃ s0 s1 parent m, HoldsMap fs.store directory parent m ∧ m name = some inode ∧
    (s0 = fs.store ∧ ¬fs.store.isDir inode ∨ EmptyDir fs.store inode ∧ Destroyed fs.store s0 inode) ∧
    dirRemove s0 directory name = .ok (inode,s1) ∧
    Edited s0 s1 directory parent (Function.update m name none) ∧
    s' = (fs.over s1).dropLink held inode

theorem Entry.isDir {name : Name} (entry : Entry s directory name target) : s.isDir directory := by
  obtain ⟨_,parent,m,holds,_⟩ := entry
  exact holds.isDir

theorem EmptyDir.isDir (empty : EmptyDir s inode) : s.isDir inode := by
  obtain ⟨node,parent,ok⟩ := empty
  exact ⟨node,ok.named,ok.isDir⟩

theorem Live.dir_iff (live : Live s inode) : LiveDir s inode ↔ s.isDir inode := by
  constructor
  · intro dir
    exact dir.info
  · exact live.isDir

theorem Rooted.dots (rooted : Rooted s) {name : Name} (entry : Entry s directory name target)
    (named : name = dot ∨ name = dotdot) : LiveDir s target := by
  rcases named with rfl | rfl
  · obtain ⟨nonneg,parent,m,holds,bound⟩ := entry
    obtain rfl : directory = target := Option.some.inj (holds.here.symm.trans bound)
    exact ⟨nonneg,parent,m,holds⟩
  · exact rooted.up directory target entry

theorem Rooted.dots_empty (rooted : Rooted s) {name : Name} (entry : Entry s directory name target)
    (named : name = dot ∨ name = dotdot) (empty : EmptyDir s target) : target = directory := by
  rcases named with rfl | rfl
  · obtain ⟨_,parent,m,holds,bound⟩ := entry
    exact (Option.some.inj (holds.here.symm.trans bound)).symm
  · by_cases root : directory = 0
    · rw [root] at entry ⊢
      exact rooted.top target entry
    · obtain ⟨name,child⟩ := rooted.listed directory target entry root
      exact absurd empty child.used

theorem Child.apart {name : Name} (child : Child s directory name inode)
    (ready : ¬s.isDir inode ∨ EmptyDir s inode) : directory ≠ inode := by
  rintro rfl
  rcases ready with plain | empty
  · exact plain child.1.isDir
  · exact child.used empty

theorem Tree.clear (tree : Tree fs) {s0 : Store} (held : Multiset Int)
    (child : Child fs.store node.parentDir node.name inode) (good : GoodName node.name)
    (ready : s0 = fs.store ∧ ¬fs.store.isDir inode ∨
      EmptyDir fs.store inode ∧ Destroyed fs.store s0 inode) :
    ∃ s1, removeEntry node inode ((fs.over s0).holding (inode ::ₘ held)) =
        .ok ((),(fs.over s1).holding (inode ::ₘ held)) ∧
      unlinkHeld inode ((fs.over s1).holding (inode ::ₘ held)) =
        .ok ((),(fs.over ((fs.over s1).dropLink held inode)).holding held) ∧
      Cleared fs held node.parentDir node.name inode ((fs.over s1).dropLink held inode) := by
  have live := tree.bound child.1
  have fits := tree.fits live.nonneg live.some
  obtain ⟨_,parent,m,holds,bound⟩ := child.1
  have apart : node.parentDir ≠ inode :=
    child.apart (ready.imp (fun ready => ready.2) fun ready => ready.1)
  have holds0 : HoldsMap s0 node.parentDir parent m := by
    rcases ready with ⟨rfl,_⟩ | ⟨_,destroyed⟩
    · exact holds
    · exact holds.elsewhere (destroyed.others _ apart)
  obtain ⟨s1,removed,ran,edited⟩ : ∃ s1, removeEntry node inode ((fs.over s0).holding (inode ::ₘ held)) =
      .ok ((),((fs.over s0).over s1).holding (inode ::ₘ held)) ∧
      dirRemove s0 node.parentDir node.name = .ok (inode,s1) ∧
      Edited s0 s1 node.parentDir parent (Function.update m node.name none) :=
    (tree.tables.over s0).remove_entry holds0 bound good child.2
  have still : s1.inode inode ≠ none := by
    rw [edited.others _ apart.symm]
    rcases ready with ⟨rfl,_⟩ | ⟨_,destroyed⟩
    · exact live.some
    · obtain ⟨_,_,marked⟩ := destroyed.self
      rw [marked]
      exact Option.some_ne_none _
  rw [over_over] at removed
  have unlinked : unlinkHeld inode ((fs.over s1).holding (inode ::ₘ held)) =
      .ok ((),((fs.over s1).over ((fs.over s1).dropLink held inode)).holding held) :=
    (tree.tables.over s1).unlink_held fits still
  rw [over_over] at unlinked
  exact ⟨s1,removed,unlinked,s0,s1,parent,m,holds,bound,ready,ran,edited,rfl⟩

/-- The user may write the directory of the handle. -/
def MayWrite (s : Store) (node : OpenPathNode) (user group : Nat) : Prop :=
  0 ≤ permCheck s node.parentDir permWrite user group

/-- What `path_unlink` returns and leaves. -/
inductive Unlinks (fs : Fs) (node : OpenPathNode) (user group : Nat) : Int → Fs → Prop where
  | absent (none : ∀ inode, ¬Entry fs.store node.parentDir node.name inode) :
      Unlinks fs node user group (-eNOENT) fs
  /-- The reference to the directory is not given back. -/
  | isDir (inode : Int) (entry : Entry fs.store node.parentDir node.name inode)
      (live : LiveDir fs.store inode) : Unlinks fs node user group (-ePERM) (fs.holding {inode})
  | denied (inode : Int) (entry : Entry fs.store node.parentDir node.name inode)
      (plain : ¬LiveDir fs.store inode) (denied : ¬MayWrite fs.store node user group) :
      Unlinks fs node user group (permCheck fs.store node.parentDir permWrite user group) fs
  | removed (inode : Int) (child : Child fs.store node.parentDir node.name inode)
      (plain : ¬LiveDir fs.store inode) (allowed : MayWrite fs.store node user group) (s' : Store)
      (cleared : Cleared fs 0 node.parentDir node.name inode s') :
      Unlinks fs node user group 0 (fs.over s')

theorem Tree.check (tree : Tree fs) (directory : Int) (perms user group : Nat) :
    reading (.ok <| permCheck · directory perms user group) (fs.holding held) =
      .ok (permCheck fs.store directory perms user group,fs.holding held) :=
  tree.tables.reading_holding rfl

theorem Tree.close_live (tree : Tree fs) (live : Live fs.store inode) :
    closeHeld inode (fs.holding (inode ::ₘ held)) = .ok ((),fs.holding held) := by
  rw [closeHeld,act_bind (tree.close live),assert_true rfl]

theorem Tree.getinfo (tree : Tree fs) (live : Live fs.store inode) (held : Multiset Int) : ∃ info,
    fs.store.inode inode = some info ∧ (sISDIR info.mode ↔ LiveDir fs.store inode) ∧
    CandyFs.getinfo inode (fs.holding held) = .ok (some info,fs.holding held) := by
  obtain ⟨info,named,_⟩ := live.named
  refine ⟨info,named,?_,?_⟩
  · rw [live.dir_iff]
    simp [Store.isDir,named]
  · rw [tree.tables.getinfo_holding,named]

theorem pathUnlink_spec (tree : Tree fs) (opened : OpenPath fs path node) (user group : Nat) :
    ∃ res fs', pathUnlink path user group fs = .ok (res,fs') ∧ Unlinks fs node user group res fs' := by
  have handle : onPath path (fs.holding 0) = _ := opened.onPath tree
  have got := opened.get tree 0
  rw [holding_zero] at handle got
  rw [pathUnlink,act_bind handle]
  dsimp only
  rcases got with ⟨inode,entry,live,got⟩ | ⟨none,got⟩
  · obtain ⟨info,named,dir,asked⟩ := tree.getinfo live {inode}
    rw [act_bind got,if_neg (not_lt.mpr live.nonneg),Multiset.cons_zero,act_bind asked]
    dsimp only
    by_cases isDir : LiveDir fs.store inode
    · rw [if_pos (dir.mpr isDir)]
      exact ⟨_,_,rfl,.isDir inode entry isDir⟩
    · rw [if_neg (mt dir.mp isDir),act_bind (tree.check ..),← Multiset.cons_zero]
      by_cases denied : permCheck fs.store node.parentDir permWrite user group < 0
      · rw [if_pos denied,act_bind (tree.close_live live),holding_zero]
        exact ⟨_,_,rfl,.denied inode entry isDir (not_le.mpr denied)⟩
      · have child : Child fs.store node.parentDir node.name inode :=
          ⟨entry,fun same => isDir (tree.rooted.dots entry (.inl same)),
            fun same => isDir (tree.rooted.dots entry (.inr same))⟩
        have plain : ¬fs.store.isDir inode := mt live.dir_iff.mpr isDir
        obtain ⟨s1,removed,unlinked,cleared⟩ :=
          tree.clear 0 child opened.good (.inl ⟨rfl,plain⟩)
        rw [tree.tables.over_self] at removed
        rw [if_neg denied,act_bind removed,act_bind unlinked,holding_zero]
        exact ⟨_,_,rfl,.removed inode child isDir (not_lt.mp denied) _ cleared⟩
  · rw [act_bind got]
    exact ⟨_,_,rfl,.absent none⟩

/-- What `path_rmdir` returns and leaves. -/
inductive Rmdirs (fs : Fs) (node : OpenPathNode) (user group : Nat) : Int → Fs → Prop where
  | absent (none : ∀ inode, ¬Entry fs.store node.parentDir node.name inode) :
      Rmdirs fs node user group (-eNOENT) fs
  | denied (inode : Int) (entry : Entry fs.store node.parentDir node.name inode)
      (denied : ¬MayWrite fs.store node user group) :
      Rmdirs fs node user group (permCheck fs.store node.parentDir permWrite user group) fs
  | notDir (inode : Int) (entry : Entry fs.store node.parentDir node.name inode)
      (allowed : MayWrite fs.store node user group) (plain : ¬LiveDir fs.store inode) :
      Rmdirs fs node user group (-eNOTDIR) fs
  | notEmpty (inode : Int) (entry : Entry fs.store node.parentDir node.name inode)
      (allowed : MayWrite fs.store node user group) (live : LiveDir fs.store inode)
      (used : ¬EmptyDir fs.store inode) : Rmdirs fs node user group (-eNOTEMPTY) fs
  | removed (inode : Int) (child : Child fs.store node.parentDir node.name inode)
      (allowed : MayWrite fs.store node user group) (empty : EmptyDir fs.store inode) (s' : Store)
      (cleared : Cleared fs 0 node.parentDir node.name inode s') :
      Rmdirs fs node user group 0 (fs.over s')

/-- The directory that is to be removed is empty and named by `.` or `..`. -/
structure RmdirBreaks (s : Store) (node : OpenPathNode) (user group : Nat) : Prop where
  dots : node.name = dot ∨ node.name = dotdot
  allowed : MayWrite s node user group
  empty : ∃ inode, Entry s node.parentDir node.name inode ∧ EmptyDir s inode

theorem Destroyed.remove_fails (destroyed : Destroyed fs.store s' inode) (ok : Tables fs)
    (same : node.parentDir = inode) (nonneg : 0 ≤ target) :
    removeEntry node target ((fs.over s').holding held) = .error (.abort ()) := by
  have ran : dirRemove s' node.parentDir node.name = .ok (-eNOENT,s') := by
    rw [same]
    exact destroyed.late (.entry (.remove node.name))
  exact (ok.over s').remove_fails ran fun equal => absurd nonneg (by rw [← equal]; decide)

theorem pathRmdir_spec (tree : Tree fs) (opened : OpenPath fs path node) (user group : Nat) :
    (RmdirBreaks fs.store node user group ∧ pathRmdir path user group fs = .error (.abort ())) ∨
    (¬RmdirBreaks fs.store node user group ∧
      ∃ res fs', pathRmdir path user group fs = .ok (res,fs') ∧ Rmdirs fs node user group res fs') := by
  have handle : onPath path (fs.holding 0) = _ := opened.onPath tree
  have got := opened.get tree 0
  rw [holding_zero] at handle got
  rw [pathRmdir,act_bind handle]
  dsimp only
  rcases got with ⟨inode,entry,live,got⟩ | ⟨none,got⟩
  · rw [act_bind got,if_neg (not_lt.mpr live.nonneg),act_bind (tree.check ..)]
    by_cases denied : permCheck fs.store node.parentDir permWrite user group < 0
    · rw [if_pos denied,act_bind (tree.close_live live),holding_zero]
      exact .inr ⟨fun breaks => absurd breaks.allowed (not_le.mpr denied),_,_,rfl,
        .denied inode entry (not_le.mpr denied)⟩
    rw [if_neg denied]
    by_cases empty : EmptyDir fs.store inode
    · obtain ⟨s0,ran,destroyed⟩ := empty.destroy
      rw [act_bind (tree.tables.onDisk_holding ran destroyed.links),if_neg (lt_irrefl _)]
      by_cases dots : node.name = dot ∨ node.name = dotdot
      · have same := tree.rooted.dots_empty entry dots empty
        rw [act_stop (destroyed.remove_fails tree.tables same.symm live.nonneg)]
        exact .inl ⟨⟨dots,not_lt.mp denied,inode,entry,empty⟩,rfl⟩
      · have child : Child fs.store node.parentDir node.name inode := ⟨entry,not_or.mp dots⟩
        obtain ⟨s1,removed,unlinked,cleared⟩ :=
          tree.clear 0 child opened.good (.inr ⟨empty,destroyed⟩)
        rw [act_bind removed,act_bind unlinked,holding_zero]
        exact .inr ⟨fun breaks => dots breaks.dots,_,_,rfl,
          .removed inode child (not_lt.mp denied) empty _ cleared⟩
    · have mayWrite : MayWrite fs.store node user group := not_lt.mp denied
      obtain ⟨res,ran,negative,outcome⟩ : ∃ res, dirDestroy fs.store inode = .ok (res,fs.store) ∧ res < 0 ∧
          Rmdirs fs node user group res fs := by
        by_cases isDir : LiveDir fs.store inode
        · obtain ⟨parent,m,holds⟩ := isDir.holds
          exact ⟨_,holds.destroy empty,by decide,.notEmpty inode entry mayWrite isDir empty⟩
        · obtain ⟨info,named,dir,_⟩ := tree.getinfo live 0
          refine ⟨-eNOTDIR,?_,by decide,.notDir inode entry mayWrite isDir⟩
          rw [dirDestroy,named]
          exact if_pos (mt dir.mp isDir)
      rw [act_bind (tree.tables.onDisk_holding ran fun _ => rfl),tree.tables.over_self,if_pos negative,
        act_bind (tree.close_live live),holding_zero]
      refine .inr ⟨fun breaks => ?_,_,_,rfl,outcome⟩
      obtain ⟨other,entry',empty'⟩ := breaks.empty
      exact empty (entry.unique entry' ▸ empty')
  · rw [act_bind got]
    exact .inr ⟨fun breaks => by
      obtain ⟨inode,entry,_⟩ := breaks.empty
      exact none inode entry,_,_,rfl,.absent none⟩

end

end CandyFs
