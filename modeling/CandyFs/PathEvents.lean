import CandyFs.Events
import CandyFs.Refill

/-! What the operations on paths make of the space of a file system.
-/
namespace CandyFs
open Bytes

section
variable [Geometry]

/-- Other names on the disk, and everything else about the space as before. -/
structure Rebound (s s' : Store) (names : Naming.Names Int Name) : Prop where
  names : s'.names = names
  tidy : s.Tidy → s'.Tidy
  object : ∀ n, (s'.inode n).map Node.object = (s.inode n).map Node.object

/-- What `path_unlink` returns and what happens. -/
inductive Unlinking (fs : Fs) (node : OpenPathNode) (user group : Nat) : Int → List FsEvent → Prop where
  | absent (none : ∀ inode, ¬Entry fs.store node.parentDir node.name inode) :
      Unlinking fs node user group (-eNOENT) []
  /-- The reference to the directory is not given back. -/
  | isDir (inode : Int) (entry : Entry fs.store node.parentDir node.name inode)
      (live : LiveDir fs.store inode) : Unlinking fs node user group (-ePERM) [.hold inode]
  | denied (inode : Int) (entry : Entry fs.store node.parentDir node.name inode)
      (plain : ¬LiveDir fs.store inode) (denied : ¬MayWrite fs.store node user group) :
      Unlinking fs node user group (permCheck fs.store node.parentDir permWrite user group) []
  | removed (inode : Int) (child : Child fs.store node.parentDir node.name inode)
      (plain : ¬LiveDir fs.store inode) (allowed : MayWrite fs.store node user group) :
      Unlinking fs node user group 0
        [.hold inode,.unlink node.parentDir node.name inode,.release inode]

/-- What `path_rmdir` returns and what happens. -/
inductive Removing (fs : Fs) (node : OpenPathNode) (user group : Nat) : Int → List FsEvent → Prop where
  | absent (none : ∀ inode, ¬Entry fs.store node.parentDir node.name inode) :
      Removing fs node user group (-eNOENT) []
  | denied (inode : Int) (entry : Entry fs.store node.parentDir node.name inode)
      (denied : ¬MayWrite fs.store node user group) :
      Removing fs node user group (permCheck fs.store node.parentDir permWrite user group) []
  | notDir (inode : Int) (entry : Entry fs.store node.parentDir node.name inode)
      (allowed : MayWrite fs.store node user group) (plain : ¬LiveDir fs.store inode) :
      Removing fs node user group (-eNOTDIR) []
  | notEmpty (inode : Int) (entry : Entry fs.store node.parentDir node.name inode)
      (allowed : MayWrite fs.store node user group) (live : LiveDir fs.store inode)
      (used : ¬EmptyDir fs.store inode) : Removing fs node user group (-eNOTEMPTY) []
  | removed (inode : Int) (child : Child fs.store node.parentDir node.name inode)
      (allowed : MayWrite fs.store node user group) (empty : EmptyDir fs.store inode) :
      Removing fs node user group 0
        [.hold inode,.unlink node.parentDir node.name inode,.release inode]

/-- What `path_link` returns and what happens. -/
inductive Linking (fs : Fs) (node : OpenPathNode) (inode : Int) (user group : Nat) :
    Int → List FsEvent → Prop where
  | isDir (isDir : fs.store.isDir inode) : Linking fs node inode user group (-ePERM) []
  | denied (res : Int) (negative : res < 0) (denied : ¬MayWrite fs.store node user group) :
      Linking fs node inode user group res []
  | exists' (target : Int) (entry : Entry fs.store node.parentDir node.name target) :
      Linking fs node inode user group (-eEXIST) []
  | full (full : ¬HasSpace fs.store node.parentDir node.name) :
      Linking fs node inode user group (-eNOSPC) []
  | linked (plain : ¬fs.store.isDir inode) (allowed : MayWrite fs.store node user group)
      (free : ∀ target, ¬Entry fs.store node.parentDir node.name target)
      (room : HasSpace fs.store node.parentDir node.name) :
      Linking fs node inode user group 0 [.link node.parentDir node.name inode]

/-- The same disk: the inodes and what is free. -/
structure Store.Same (s s' : Store) : Prop where
  inode : s'.inode = s.inode
  limit : s'.limit = s.limit
  freeInodes : s'.freeInodes = s.freeInodes
  freeBlocks : s'.freeBlocks = s.freeBlocks

/-- What a run returns and what happens in it. Where nothing happens the disk is as before. -/
structure Happens (ran : Try (Int × Fs)) (fs : Fs) (outcome : Int → List FsEvent → Prop) : Prop where
  some : ∃ res fs' es, ran = .ok (res,fs') ∧ Evolves fs es fs' ∧
    fs'.openPathTable = fs.openPathTable ∧ outcome res es ∧ (es = [] → fs.store.Same fs'.store)

end

section
variable [Geometry] {fs fs' : Fs} {s s' s'' : Store} {held : Multiset Int} {es : List FsEvent} {e : FsEvent}
  {inode directory parent target : Int} {name : Name} {m : Bindings} {node : OpenPathNode} {path : Int}
  {names names' : Naming.Names Int Name} {user group : Nat}

theorem Sane.setPath (sane : Sane fs) (k : Nat) (node : OpenPathNode) : Sane (fs.setPath k node) :=
  ⟨sane.tidy,⟨sane.tables.sorted,sane.tables.hashed,sane.tables.fits,sane.tables.held,sane.tables.cached⟩,
    sane.valid⟩

omit [Geometry] in
theorem Store.Same.refl : s.Same s := ⟨rfl,rfl,rfl,rfl⟩

theorem Rebound.links (rebound : Rebound s s' names) (n : Int) : s'.nlinksOf n = s.nlinksOf n := by
  have object := congrArg (fun o => (o.map Naming.Object.nlinks).getD 0) (rebound.object n)
  rwa [Option.map_map,Option.map_map] at object

theorem Edited.rebound (edited : Edited s s' directory parent m) (same : s'.names = names) :
    Rebound s s' names := ⟨same,edited.tidy,edited.object⟩

theorem LiveDir.insert (live : LiveDir s directory) (free : s.names directory name = none)
    (good : GoodName name) (target' : GoodTarget target) :
    (HasSpace s directory name ∧ ∃ s', dirInsert s directory name target = .ok (0,s') ∧
      Rebound s s' (Naming.bind s.names directory name target)) ∨
    (¬HasSpace s directory name ∧ dirInsert s directory name target = .ok (-eNOSPC,s)) := by
  obtain ⟨parent,m,holds⟩ := live.holds
  rw [holds.names live.nonneg] at free
  rcases holds.insert free good target' with ⟨room,s',ran,edited⟩ | full
  · exact .inl ⟨room,s',ran,edited.rebound (edited.bind holds live.nonneg)⟩
  · exact .inr full

theorem LiveDir.insert_bound (live : LiveDir s directory) (bound : s.names directory name ≠ none)
    (good : GoodName name) (target' : GoodTarget target) :
    dirInsert s directory name target = .ok (-eEXIST,s) := by
  obtain ⟨parent,m,holds⟩ := live.holds
  rw [holds.names live.nonneg] at bound
  obtain ⟨node,blocks,ok,same⟩ := holds.ok
  rw [same] at bound
  obtain ⟨res,s',ran,inserted⟩ := dirInsert_spec ok.toDirectory ok.some good target
  rcases inserted.keeps ok good target' with ⟨rfl,⟨rfl,_⟩ | ⟨_,free⟩⟩ | ⟨_,free,_⟩
  · exact ran
  · exact absurd free bound
  · exact absurd free bound

theorem LiveDir.remove (live : LiveDir s directory) (bound : s.names directory name = some target)
    (good : GoodName name) (named : name ≠ dot ∧ name ≠ dotdot) :
    ∃ s', dirRemove s directory name = .ok (target,s') ∧
      Rebound s s' (Naming.unbind s.names directory name) := by
  obtain ⟨parent,m,holds⟩ := live.holds
  rw [holds.names live.nonneg] at bound
  obtain ⟨s',ran,edited⟩ := holds.remove bound good named
  exact ⟨s',ran,edited.rebound (edited.unbind holds live.nonneg)⟩

theorem LiveDir.reparent (live : LiveDir s directory) (up : GoodTarget parent) :
    ∃ s', dirReparent s directory parent = .ok (0,s') ∧
      Rebound s s' (Naming.bind s.names directory dotdot parent) := by
  obtain ⟨old,m,holds⟩ := live.holds
  obtain ⟨s',ran,edited⟩ := holds.reparent up
  exact ⟨s',ran,edited.rebound (edited.bind holds live.nonneg)⟩

theorem Sane.good (sane : Sane fs) (named : fs.store.inode inode ≠ none) : GoodTarget inode := by
  refine ⟨sane.fits named,?_⟩
  rintro rfl
  exact absurd (sane.nonneg named) (by decide)

theorem Sane.rebound (sane : Sane (fs.holding held)) (tables : Tables fs) (rebound : Rebound fs.store s' names)
    (allowed : e.Allowed dirDots (fs.holding held).space)
    (step : (fs.holding held).space.step dirDots e = { (fs.holding held).space with names := names }) :
    Evolves (fs.holding held) [e] ((fs.over s').holding held) := by
  have store : (fs.holding held).store = fs.store := tables.holding_store
  have tidy := sane.tidy
  rw [store] at tidy
  refine sane.evolves ?_ (tables.over _).holding allowed ?_
  · rw [(tables.over _).holding_store]
    exact rebound.tidy tidy
  · rw [holding_over_space tables,step,rebound.names]
    refine Naming.Space.ext rfl ?_ rfl
    funext n
    change _ = (Store.inode _ n).map Node.object
    rw [store]
    exact rebound.object n

variable (sane : Sane fs)
include sane

theorem Sane.letGo (held : Multiset Int) (there : ∀ n ∈ held, fs.store.inode n ≠ none)
    (child : Child fs.store directory name inode) (cleared : Cleared fs held directory name inode s') :
    Evolves (fs.holding held) [.hold inode,.unlink directory name inode,.release inode]
      ((fs.over s').holding held) := by
  have named := (sane.live child.1).some
  have still : (fs.holding held).store.inode inode ≠ none := by
    rw [sane.tables.holding_store]
    exact named
  have held' := (sane.holding there).hold still
  rw [sane.tables.holding_cons] at held'
  exact held'.append (held'.sane.clear sane.tables child cleared)

theorem pathUnlink_happens (opened : OpenPath fs path node) (user group : Nat) :
    Happens (pathUnlink path user group fs) fs (Unlinking fs node user group) := by
  obtain ⟨res,fs',ran,outcome⟩ := pathUnlink_spec sane.tree opened user group
  cases outcome with
  | absent none => exact ⟨_,_,_,ran,.refl sane,rfl,.absent none,fun _ => .refl⟩
  | isDir inode entry live =>
    exact ⟨_,_,_,ran,sane.hold live.live.some,sane.tables.holding_paths,.isDir inode entry live,
      fun none => absurd none (List.cons_ne_nil _ _)⟩
  | denied inode entry plain denied =>
    exact ⟨_,_,_,ran,.refl sane,rfl,.denied inode entry plain denied,fun _ => .refl⟩
  | removed inode child plain allowed s' cleared =>
    have evolves := sane.letGo 0 (fun _ none => absurd none (Multiset.notMem_zero _)) child cleared
    rw [holding_zero,holding_zero] at evolves
    exact ⟨_,_,_,ran,evolves,rfl,.removed inode child plain allowed,fun none => absurd none (List.cons_ne_nil _ _)⟩

theorem pathRmdir_happens (opened : OpenPath fs path node) (user group : Nat) :
    (RmdirBreaks fs.store node user group ∧ pathRmdir path user group fs = .error (.abort ())) ∨
    (¬RmdirBreaks fs.store node user group ∧
      Happens (pathRmdir path user group fs) fs (Removing fs node user group)) := by
  refine (pathRmdir_spec sane.tree opened user group).imp_right fun ⟨fine,res,fs',ran,outcome⟩ => ⟨fine,?_⟩
  cases outcome with
  | absent none => exact ⟨_,_,_,ran,.refl sane,rfl,.absent none,fun _ => .refl⟩
  | denied inode entry denied => exact ⟨_,_,_,ran,.refl sane,rfl,.denied inode entry denied,fun _ => .refl⟩
  | notDir inode entry allowed plain =>
    exact ⟨_,_,_,ran,.refl sane,rfl,.notDir inode entry allowed plain,fun _ => .refl⟩
  | notEmpty inode entry allowed live used =>
    exact ⟨_,_,_,ran,.refl sane,rfl,.notEmpty inode entry allowed live used,fun _ => .refl⟩
  | removed inode child allowed empty s' cleared =>
    have evolves := sane.letGo 0 (fun _ none => absurd none (Multiset.notMem_zero _)) child cleared
    rw [holding_zero,holding_zero] at evolves
    exact ⟨_,_,_,ran,evolves,rfl,.removed inode child allowed empty,fun none => absurd none (List.cons_ne_nil _ _)⟩

omit sane in
theorem OpenPath.live (tree : Tree fs) (opened : OpenPath fs path node)
    (allowed : MayWrite fs.store node user group) : LiveDir fs.store node.parentDir := by
  refine opened.directory.resolve_left fun none => ?_
  rw [MayWrite,none,permCheck,tree.rooted.outside eof (by decide)] at allowed
  exact absurd (show (0 : Int) ≤ -eNOENT from allowed) (by decide)

theorem pathLink_happens (opened : OpenPath fs path node) (open' : fs.opens inode ≠ 0) (user group : Nat) :
    Happens (pathLink path inode user group fs) fs (Linking fs node inode user group) := by
  have tree := sane.tree
  have handle : onPath path (fs.holding 0) = _ := opened.onPath tree
  obtain ⟨_,named⟩ := tree.opened inode open'
  obtain ⟨info,found⟩ := Option.ne_none_iff_exists'.mp named
  have asked : getinfo inode fs = .ok (some info,fs) := by rw [getinfo,found]
  have kind : fs.store.isDir inode ↔ sISDIR info.mode := by simp [Store.isDir,found]
  rw [holding_zero] at handle
  rw [pathLink,act_bind handle]
  dsimp only
  rw [act_bind asked]
  dsimp only
  by_cases isDir : sISDIR info.mode
  · rw [if_pos isDir]
    exact ⟨_,_,_,rfl,.refl sane,rfl,.isDir (kind.mpr isDir),fun _ => .refl⟩
  have checked : reading (.ok <| permCheck · node.parentDir permWrite user group) fs =
      .ok (permCheck fs.store node.parentDir permWrite user group,fs) := reading_ok rfl
  rw [if_neg isDir,act_bind checked]
  by_cases denied : permCheck fs.store node.parentDir permWrite user group < 0
  · rw [if_pos denied]
    exact ⟨_,_,_,rfl,.refl sane,rfl,.denied _ denied (not_le.mpr denied),fun _ => .refl⟩
  rw [if_neg denied]
  have allowed : MayWrite fs.store node user group := not_lt.mp denied
  have live := opened.live tree allowed
  have unchanged {res : Int} (ran : dirInsert fs.store node.parentDir node.name inode = .ok (res,fs.store)) :
      onDisk (dirInsert · node.parentDir node.name inode) fs = .ok (res,fs) := by
    rw [onDisk,ran]
    rfl
  cases bound : fs.store.names node.parentDir node.name with
  | some target =>
    have ran := unchanged (live.insert_bound (by rw [bound]; exact Option.some_ne_none _) opened.good (sane.good named))
    rw [act_bind ran,if_pos (by decide)]
    exact ⟨_,_,_,rfl,.refl sane,rfl,.exists' target (names_iff.mp bound),fun _ => .refl⟩
  | none =>
    rcases live.insert bound opened.good (sane.good named) with ⟨room,s1,ran,rebound⟩ | ⟨full,ran⟩
    · have ran : onDisk (dirInsert · node.parentDir node.name inode) (fs.holding 0) =
          .ok (0,(fs.over s1).holding 0) := sane.tables.onDisk_holding ran rebound.links
      obtain ⟨info1,found1,object⟩ := Option.map_eq_some_iff.mp
        ((rebound.object inode).trans (congrArg (Option.map Node.object) found))
      have linked : refsLink inode ((fs.over s1).holding 0) =
          .ok (0,((fs.over s1).over (s1.inodeLink inode).2).holding 0) :=
        (sane.tables.over s1).link_holding (sane.fits named) found1 (.inr (by rw [over_opens]; exact open'))
      have set : (s1.inodeLink inode).2 = s1.set inode { info1 with nlinks := info1.nlinks + 1 } := by
        rw [Store.inodeLink,found1]
      rw [holding_zero,holding_zero] at ran
      rw [holding_zero,holding_zero,over_over] at linked
      rw [act_bind ran,if_neg (lt_irrefl _),act_bind linked,act_bind (assert_true rfl)]
      have tidy1 := rebound.tidy sane.tidy
      refine ⟨_,_,_,rfl,sane.evolves ?_ (sane.tables.over _) (e := .link node.parentDir node.name inode)
        ⟨isDir_iff.mpr live,bound,info.object,?_,?_⟩ ?_,rfl,.linked (mt kind.mp isDir) allowed ?_ room,
        fun none => absurd none (List.cons_ne_nil _ _)⟩
      · rw [over_store,set]
        exact tidy1.set (by rw [found1]; exact Option.some_ne_none _) (tidy1.used inode info1 (sane.nonneg named) found1).2
          (tidy1.symlinks inode info1 found1)
      · change (fs.store.inode inode).map Node.object = _
        rw [found]
        rfl
      · exact fun dir => isDir (of_decide_eq_true dir)
      · rw [over_space,set]
        refine Naming.Space.ext ?_ ?_ rfl
        · exact (names_set found1 (sameBytes_nlinks info1 _)).trans rebound.names
        · funext n
          have links : fs.store.nlinksOf inode = info1.nlinks := by
            rw [Store.nlinksOf,found]
            exact (congrArg Naming.Object.nlinks object).symm
          change _ = (fs.space.setLinks inode _).object n
          rw [nlinks_space,links]
          exact relinked_object rebound.object found1 n
      · exact fun target entry => by
          rw [names_iff.mpr entry] at bound
          cases bound
    · rw [act_bind (unchanged ran),if_pos (by decide)]
      exact ⟨_,_,_,rfl,.refl sane,rfl,.full full,fun _ => .refl⟩

end

end CandyFs

