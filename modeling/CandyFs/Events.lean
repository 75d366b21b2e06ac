import CandyFs.Names

/-! What the calls of the lower layers make of the space of a file system.
-/
namespace CandyFs
open Bytes

abbrev FsEvent := Naming.Event Int Name

section
variable [Geometry]

/-- From one file system to another by some events in its space. -/
structure Evolves (fs : Fs) (es : List FsEvent) (fs' : Fs) : Prop where
  sane : Sane fs'
  allows : fs.space.Allows dirDots es
  space : fs'.space = fs.space.run dirDots es

variable {fs fs' fs'' : Fs} {s s' s0 s1 : Store} {held : Multiset Int} {es es' : List FsEvent} {e : FsEvent}
  {inode directory parent target : Int} {name : Name} {m : Bindings} {info info' : Node}

theorem Evolves.refl (sane : Sane fs) : Evolves fs [] fs := ⟨sane,trivial,rfl⟩

theorem Evolves.append (evolves : Evolves fs es fs') (evolves' : Evolves fs' es' fs'') :
    Evolves fs (es ++ es') fs'' := by
  refine ⟨evolves'.sane,(Naming.allows_append es es' _).mpr ⟨evolves.allows,?_⟩,?_⟩
  · rw [← evolves.space]
    exact evolves'.allows
  · rw [evolves'.space,evolves.space,Naming.run_append]

theorem Sane.evolves (sane : Sane fs) (tidy : fs'.store.Tidy) (tables : Tables fs')
    (allowed : e.Allowed dirDots fs.space) (space : fs'.space = fs.space.step dirDots e) :
    Evolves fs [e] fs' := by
  refine ⟨⟨tidy,tables,?_⟩,⟨allowed,trivial⟩,space⟩
  rw [space]
  exact sane.valid.step allowed

omit [Geometry] in
theorem Tables.holding_cons (ok : Tables fs) :
    (fs.holding held).holding {inode} = fs.holding (inode ::ₘ held) := by
  rw [ok.holding_add,add_comm,Multiset.singleton_add]

theorem object_some : fs.space.object inode ≠ none ↔ fs.store.inode inode ≠ none := by
  rw [Fs.space]
  dsimp only
  rw [Ne,Option.map_eq_none_iff]

theorem Sane.fits (sane : Sane fs) (named : fs.store.inode inode ≠ none) : Fits inode :=
  sane.tidy.number (sane.nonneg named) named

theorem Sane.hold (sane : Sane fs) (named : fs.store.inode inode ≠ none) :
    Evolves fs [.hold inode] (fs.holding {inode}) := by
  have store : (fs.holding {inode}).store = fs.store := sane.tables.holding_store
  refine sane.evolves (store ▸ sane.tidy) sane.tables.holding (object_some.mpr named) ?_
  rw [Naming.Space.step]
  refine Naming.Space.ext ?_ ?_ ?_
  · change (fs.holding {inode}).store.names = _
    rw [store]
    rfl
  · change (fun n => ((fs.holding {inode}).store.inode n).map Node.object) = _
    rw [store]
    rfl
  · funext other
    change (fs.holding {inode}).opens other = Function.update fs.opens inode (fs.opens inode + 1) other
    rw [sane.tables.opens_holding,Function.update_apply,Multiset.count_singleton]
    by_cases same : other = inode
    · rw [same,if_pos (sane.fits named),if_pos rfl,if_pos rfl]
    · rw [if_neg same,if_neg same,ite_self,Nat.add_zero]

theorem Sane.holding (sane : Sane fs) (named : ∀ inode ∈ held, fs.store.inode inode ≠ none) :
    Sane (fs.holding held) := by
  induction held using Multiset.induction with
  | empty =>
    rw [holding_zero]
    exact sane
  | cons inode held ih =>
    rw [← sane.tables.holding_cons]
    refine ((ih fun other member => named other (Multiset.mem_cons_of_mem member)).hold ?_).sane
    rw [sane.tables.holding_store]
    exact named inode (Multiset.mem_cons_self _ _)

theorem over_space : (fs.over s).space =
    ⟨s.names,fun n => (s.inode n).map Node.object,fs.opens⟩ := by
  refine Naming.Space.ext rfl rfl ?_
  funext inode
  exact over_opens

theorem nlinks_space : fs.space.nlinks inode = fs.store.nlinksOf inode := by
  rw [Naming.Space.nlinks,Fs.space,Store.nlinksOf]
  dsimp only
  cases fs.store.inode inode with
  | none => rfl
  | some info => rfl

theorem inodeFree_inode (named : s.inode inode = some info) (unlinked : info.nlinks = 0) :
    (s.inodeFree inode).2.inode = Function.update s.inode inode none := by
  rw [Store.inodeFree]
  simp only [named]
  rw [if_neg (not_not.mpr unlinked)]

theorem inodeFree_lists (named : s.inode inode = some info) (unlinked : info.nlinks = 0) :
    (s.inodeFree inode).2.limit = s.limit ∧ (s.inodeFree inode).2.freeInodes = inode :: s.freeInodes := by
  rw [Store.inodeFree]
  simp only [named]
  rw [if_neg (not_not.mpr unlinked)]
  exact ⟨rfl,rfl⟩

theorem inodeFree_names (named : s.inode inode = some info) (unlinked : info.nlinks = 0)
    (plain : ¬LiveDir s inode) : (s.inodeFree inode).2.names = s.names := by
  funext other
  by_cases same : other = inode
  · subst same
    rw [names_plain plain,names_plain]
    intro live
    obtain ⟨info,found,_⟩ := live.info
    rw [inodeFree_inode named unlinked,Function.update_self] at found
    cases found
  · exact names_same (inodeFree_others same)

theorem Sane.linked_dir (sane : Sane fs) (live : LiveDir fs.store inode) : fs.store.nlinksOf inode ≠ 0 := by
  intro none
  have dir : Naming.IsDir dirDots fs.space.names inode := isDir_iff.mpr live
  rw [← nlinks_space] at none
  exact sane.valid.unnamed none (sane.valid.rooted.self inode dir)

theorem Sane.release (sane : Sane (fs.holding (inode ::ₘ held))) (tables : Tables fs)
    (named : fs.store.inode inode ≠ none) : Evolves (fs.holding (inode ::ₘ held)) [.release inode]
      ((fs.over (fs.dropRef held inode)).holding held) := by
  have store : (fs.holding (inode ::ₘ held)).store = fs.store := tables.holding_store
  have store' : ((fs.over (fs.dropRef held inode)).holding held).store = fs.dropRef held inode :=
    (tables.over _).holding_store
  obtain ⟨info,found⟩ := Option.ne_none_iff_exists'.mp named
  have links : fs.store.nlinksOf inode = info.nlinks := by rw [Store.nlinksOf,found]; rfl
  have fits : Fits inode := sane.fits (by rw [store]; exact named)
  have count : (fs.holding (inode ::ₘ held)).opens inode = fs.opens inode + held.count inode + 1 := by
    rw [tables.opens_holding,if_pos fits,Multiset.count_cons_self,Nat.add_assoc]
  have last : ((fs.holding (inode ::ₘ held)).space.opens inode - 1 = 0 ∧
      (fs.holding (inode ::ₘ held)).space.nlinks inode = 0) ↔
      fs.opens inode = 0 ∧ inode ∉ held ∧ fs.store.nlinksOf inode = 0 := by
    rw [nlinks_space,store,← Multiset.count_eq_zero,
      show (fs.holding (inode ::ₘ held)).space.opens = (fs.holding (inode ::ₘ held)).opens from rfl,count]
    omega
  have tidy : (fs.dropRef held inode).Tidy := by
    have tidy := sane.tidy
    rw [store] at tidy
    rw [Fs.dropRef]
    split
    · exact tidy.inodeFree (sane.nonneg (by rw [store]; exact named))
    · exact tidy
  refine sane.evolves (by rw [store']; exact tidy) (tables.over _).holding (by
    change (fs.holding (inode ::ₘ held)).opens inode ≠ 0
    omega) (Naming.Space.ext ?_ ?_ ?_)
  · change Store.names _ = Store.names _
    rw [store',store,Fs.dropRef]
    split
    · rename_i free
      have none := free.2.2
      refine inodeFree_names found (links ▸ none) fun live => ?_
      rw [← store] at live none
      exact sane.linked_dir live none
    · rfl
  · change (fun n => (Store.inode _ n).map Node.object) =
      if _ then _ else fun n => (Store.inode _ n).map Node.object
    rw [store',store,if_congr last rfl rfl,Fs.dropRef]
    split
    · rename_i free
      rw [inodeFree_inode found (links ▸ free.2.2)]
      funext other
      rw [Function.update_apply,Function.update_apply]
      split
      · rfl
      · change _ = (Store.inode _ other).map Node.object
        rw [store]
    · rfl
  · funext other
    change ((fs.over (fs.dropRef held inode)).holding held).opens other =
      Function.update (fs.holding (inode ::ₘ held)).opens inode
        ((fs.holding (inode ::ₘ held)).opens inode - 1) other
    rw [(tables.over _).opens_holding,over_opens,Function.update_apply,count]
    by_cases same : other = inode
    · rw [same,if_pos fits,if_pos rfl]
      rfl
    · rw [if_neg same,tables.opens_holding,Multiset.count_cons_of_ne same]

theorem refile_self {node node' : Node} : (s.refile inode node node').inode inode = some node' :=
  Store.set_inode_self ..

theorem Edited.object (edited : Edited s s' directory parent m) (n : Int) :
    (s'.inode n).map Node.object = (s.inode n).map Node.object := by
  obtain ⟨node,blocks,named,rfl⟩ := edited.made
  by_cases same : n = directory
  · rw [same,named,refile_self]
    rfl
  · rw [refile_other _ same]

theorem Destroyed.object (destroyed : Destroyed s s' directory) (n : Int) :
    (s'.inode n).map Node.object = (s.inode n).map Node.object := by
  obtain ⟨node,named,_,rfl⟩ := destroyed.made
  by_cases same : n = directory
  · rw [same,named,refile_self]
    rfl
  · rw [refile_other _ same]

theorem Destroyed.names (destroyed : Destroyed s s' directory) :
    s'.names = Function.update s.names directory fun _ => none := by
  funext other
  by_cases same : other = directory
  · subst same
    rw [Function.update_self]
    refine names_plain fun live => ?_
    obtain ⟨parent,m,holds⟩ := live.holds
    obtain ⟨node,blocks,ok,_⟩ := holds.ok
    obtain ⟨old,_,marked⟩ := destroyed.self
    obtain rfl := Option.some.inj (marked.symm.trans ok.named)
    have size : ((blocksize : Int) - 1) = blocks.length * blocksize := ok.shown.size
    have large := blocksize_large
    -- one byte less than a block is no number of blocks
    have whole : (blocksize : Int) ∣ blocksize - 1 := size ▸ dvd_mul_left _ _
    have := Int.le_of_dvd (by omega) (dvd_sub (dvd_refl (blocksize : Int)) whole)
    omega
  · rw [Function.update_of_ne same]
    exact names_same (destroyed.others other same)

omit [Geometry] in
theorem inodeUnlink_set (named : s.inode inode = some info) :
    (s.inodeUnlink inode).2 = s.set inode { info with nlinks := Store.pred info.nlinks } := by
  rw [Store.inodeUnlink,named]

theorem inodeUnlink_names (named : s.inode inode = some info) : (s.inodeUnlink inode).2.names = s.names := by
  rw [inodeUnlink_set named]
  exact names_set named (sameBytes_nlinks info _)

omit [Geometry] in
theorem relinked_object {space : Naming.Space Int Name} {nlinks : Nat}
    (same : ∀ n, (s.inode n).map Node.object = space.object n) (named : s.inode inode = some info) (n : Int) :
    ((s.set inode { info with nlinks := nlinks }).inode n).map Node.object =
      (space.setLinks inode nlinks).object n := by
  rw [Naming.setLinks_object]
  by_cases here : n = inode
  · rw [if_pos here,here,Store.set_inode_self,← same,named]
    rfl
  · rw [if_neg here,Store.set_inode_ne _ _ _ here]
    exact same n

theorem holding_over_space (tables : Tables fs) : ((fs.over s).holding held).space =
    ⟨s.names,fun n => (s.inode n).map Node.object,(fs.holding held).opens⟩ := by
  rw [← tables.over_holding]
  exact over_space

theorem Sane.unlink (sane : Sane (fs.holding (inode ::ₘ held))) (tables : Tables fs)
    (child : Child fs.store directory name inode)
    (ready : s0 = fs.store ∧ ¬fs.store.isDir inode ∨ EmptyDir fs.store inode ∧ Destroyed fs.store s0 inode)
    (holds : HoldsMap s0 directory parent m)
    (edited : Edited s0 s1 directory parent (Function.update m name none)) :
    Evolves (fs.holding (inode ::ₘ held)) [.unlink directory name inode]
      ((fs.over (s1.inodeUnlink inode).2).holding (inode ::ₘ held)) := by
  have store : (fs.holding (inode ::ₘ held)).store = fs.store := tables.holding_store
  have tidy := sane.tidy
  have apart := child.apart (ready.imp (fun ready => ready.2) fun ready => ready.1)
  have child' : Naming.Child dirDots (fs.holding (inode ::ₘ held)).space.names directory name inode := by
    change Naming.Child dirDots (Store.names _) directory name inode
    rw [store]
    exact child_iff.mpr child
  have named : fs.store.inode inode ≠ none := by
    rw [← store]
    exact object_some.mp (sane.valid.child_object child')
  have nonneg : 0 ≤ inode := sane.nonneg (by rw [store]; exact named)
  rw [store] at tidy
  obtain ⟨info,found⟩ := Option.ne_none_iff_exists'.mp named
  have names0 : s0.names = Function.update fs.store.names inode fun _ => none := by
    rcases ready with ⟨rfl,plain⟩ | ⟨_,destroyed⟩
    · have plain : ¬LiveDir fs.store inode := mt LiveDir.info plain
      rw [← names_plain plain,Function.update_eq_self]
    · exact destroyed.names
  have object0 (n : Int) : (s0.inode n).map Node.object = (fs.store.inode n).map Node.object := by
    rcases ready with ⟨rfl,_⟩ | ⟨_,destroyed⟩
    · rfl
    · exact destroyed.object n
  have tidy0 : s0.Tidy := by
    rcases ready with ⟨rfl,_⟩ | ⟨empty,destroyed⟩
    · exact tidy
    · exact destroyed.tidy empty.isDir tidy
  have object1 (n : Int) : (s1.inode n).map Node.object = (fs.store.inode n).map Node.object :=
    (edited.object n).trans (object0 n)
  obtain ⟨info1,found1,object⟩ := Option.map_eq_some_iff.mp
    ((object1 inode).trans (congrArg (Option.map Node.object) found))
  have tidy1 := edited.tidy tidy0
  have links : fs.store.nlinksOf inode = info1.nlinks := by
    rw [Store.nlinksOf,found]
    exact (congrArg Naming.Object.nlinks object).symm
  have pos : 0 < info1.nlinks := by
    have pos := sane.valid.counts.pos child'
    rwa [nlinks_space,store,links] at pos
  have less : Store.pred info1.nlinks = info1.nlinks - 1 := if_neg (by omega)
  refine sane.evolves ?_ (tables.over _).holding ⟨child',?_,?_⟩ ?_
  · rw [(tables.over _).holding_store,over_store,inodeUnlink_set found1]
    exact tidy1.set (by rw [found1]; exact Option.some_ne_none _) (tidy1.used inode info1 nonneg found1).2
      (tidy1.symlinks inode info1 found1)
  · intro n t inner
    have inner : Naming.Child dirDots (Store.names _) inode n t := inner
    rw [store] at inner
    have used := child_iff.mp inner
    rcases ready with ⟨_,plain⟩ | ⟨empty,_⟩
    · exact plain used.1.isDir
    · exact used.used empty
  · change (fs.holding (inode ::ₘ held)).opens inode ≠ 0
    rw [tables.opens_holding,if_pos (sane.fits (by rw [store]; exact named)),Multiset.count_cons_self]
    omega
  · rw [holding_over_space tables]
    refine Naming.Space.ext ?_ ?_ rfl
    · change Store.names _ = Naming.remove (Store.names _) directory name inode
      rw [inodeUnlink_names found1,edited.unbind holds child.1.1,names0,store]
      rfl
    · funext n
      change (Store.inode _ n).map Node.object = ((fs.holding (inode ::ₘ held)).space.setLinks inode _).object n
      rw [inodeUnlink_set found1,nlinks_space,store,links,less]
      refine relinked_object (fun n => ?_) found1 n
      change _ = (Store.inode _ n).map Node.object
      rw [store]
      exact object1 n

theorem Sane.clear (sane : Sane (fs.holding (inode ::ₘ held))) (tables : Tables fs)
    (child : Child fs.store directory name inode) (cleared : Cleared fs held directory name inode s') :
    Evolves (fs.holding (inode ::ₘ held)) [.unlink directory name inode,.release inode]
      ((fs.over s').holding held) := by
  obtain ⟨s0,s1,parent,m,holds,bound,ready,ran,edited,rfl⟩ := cleared.made
  have apart := child.apart (ready.imp (fun ready => ready.2) fun ready => ready.1)
  have holds0 : HoldsMap s0 directory parent m := by
    rcases ready with ⟨rfl,_⟩ | ⟨_,destroyed⟩
    · exact holds
    · exact holds.elsewhere (destroyed.others _ apart)
  have unlinked := sane.unlink tables child ready holds0 edited
  change Evolves _ ([.unlink directory name inode] ++ [.release inode]) _
  refine unlinked.append ?_
  have kept : (s1.inodeUnlink inode).2.inode inode ≠ none := by
    have fits : Fits inode := by
      have child' : Naming.Child dirDots (fs.holding (inode ::ₘ held)).space.names directory name inode := by
        change Naming.Child dirDots (Store.names _) directory name inode
        rw [tables.holding_store]
        exact child_iff.mpr child
      exact sane.fits (object_some.mp (sane.valid.child_object child'))
    have open' := unlinked.sane.valid.opened inode (by
      change ((fs.over _).holding (inode ::ₘ held)).opens inode ≠ 0
      rw [(tables.over _).opens_holding,if_pos fits,Multiset.count_cons_self]
      omega)
    rw [object_some,(tables.over _).holding_store] at open'
    exact open'
  have released := unlinked.sane.release (tables.over _) kept
  rw [over_over] at released
  rw [Fs.dropLink,over_over]
  exact released

end

end CandyFs
