import CandyFs.NodeEvents

/-! What `path_mkdir` and `mkfs_path` make of the space of a file system. -/
namespace CandyFs
open Bytes
open Store (cost)

/-- The node with the owner and the group that `perm_chown` gives. -/
def Node.give (info : Node) (user group : Nat) : Node := { info with
  owner := if user ≠ 2 ^ 32 - 1 then user else info.owner
  group := if group ≠ 2 ^ 32 - 1 then group else info.group }

/-- The node with the permissions that `perm_chmod` gives. -/
def Node.permit (info : Node) (mode : Nat) : Node :=
  { info with mode := mode ||| (info.mode &&& (2 ^ 32 - 1 - 0o7777)) }

section
variable [Geometry]

/-- The disk with the blocks of a new directory taken. -/
def Store.reserve (s : Store) : Store := { s with freeBlocks := s.freeBlocks - 1 - cost blocksize }

/-- What `path_mkdir` returns and what happens. -/
inductive Making (fs : Fs) (node : OpenPathNode) (mode user group : Nat) : Int → List FsEvent → Prop where
  | denied (res : Int) (negative : res < 0) (denied : ¬MayWrite fs.store node user group) :
      Making fs node mode user group res []
  | none (none : fs.store.freeInodes = [] ∨ fs.store.freeBlocks < 1 + cost blocksize) :
      Making fs node mode user group (-eNOSPC) []
  | invalid (invalid : mode &&& 0o7777 ≠ mode) : Making fs node mode user group (-eINVAL) []
  /-- `perm_chown` leaves the directory to the superuser. -/
  | nobody (nobody : user = 2 ^ 32 - 1) : Making fs node mode user group (-eACCES) []
  | exists' (target : Int) (entry : Entry fs.store node.parentDir node.name target) :
      Making fs node mode user group (-eEXIST) []
  | full (full : ¬HasSpace fs.store.reserve node.parentDir node.name) :
      Making fs node mode user group (-eNOSPC) []
  | made (directory : Int) (rest : List Int) (first : fs.store.freeInodes = directory :: rest)
      (allowed : MayWrite fs.store node user group) (blocks : 1 + cost blocksize ≤ fs.store.freeBlocks)
      (proper : mode &&& 0o7777 = mode) (somebody : user ≠ 2 ^ 32 - 1)
      (free : ∀ target, ¬Entry fs.store node.parentDir node.name target)
      (room : HasSpace fs.store.reserve node.parentDir node.name) :
      Making fs node mode user group 0 [.mkdir node.parentDir node.name directory]

/-- The part of `path_mkdir` that enters the new directory. -/
def mkdirEnter (node : OpenPathNode) (directory : Int) : Act Int := do
  let ores ← onDisk (dirInsert · node.parentDir node.name directory)
  if ores < 0 then do
    closeHeld directory
    pure ores
  else do
    let res ← refsLink directory
    assert (res = 0)
    closeHeld directory
    pure 0

/-- The part of `path_mkdir` with the new directory open. -/
def mkdirOpened (node : OpenPathNode) (directory : Int) (mode user group : Nat) : Act Int := do
  let ores ← onDisk (.ok <| permChown · directory 0 user group)
  if ores < 0 then do
    closeHeld directory
    pure ores
  else do
    let ores ← onDisk (.ok <| permChmod · directory mode user)
    if ores < 0 then do
      closeHeld directory
      pure ores
    else mkdirEnter node directory

theorem pathMkdir_eq (path : Int) (mode user group : Nat) : pathMkdir path mode user group = (do
    match ← onPath path with
    | none => pure (-1)
    | some node => do
      let ores ← reading (.ok <| permCheck · node.parentDir permWrite user group)
      if ores < 0 then pure ores
      else do
        let directory ← onDisk (dirCreate · node.parentDir)
        if directory < 0 then pure directory
        else do
          let res ← refsOpen directory
          assert (res = 0)
          mkdirOpened node directory mode user group) := rfl

variable {fs : Fs} {s s' : Store} {inode directory parent : Int} {name : Name} {info info' : Node}
  {node : OpenPathNode} {path : Int} {mode user group : Nat} {m : Bindings}

omit [Geometry] in
theorem Adopted.set (adopted : Adopted s s' inode info) : Adopted s (s'.set inode info') inode info' := by
  refine ⟨adopted.first,?_,adopted.limit⟩
  change Function.update s'.inode inode (some info') = _
  rw [adopted.inode,Function.update_idem]

omit [Geometry] in
theorem permChown_adopted (adopted : Adopted s s' inode info) :
    permChown s' inode 0 user group = (0,s'.set inode (info.give user group)) := by
  rw [permChown,if_neg (not_not.mpr rfl),Store.inodeChown,Store.modify,adopted.self]
  rfl

omit [Geometry] in
theorem permChmod_adopted (adopted : Adopted s s' inode (info.give user group)) (owner : info.owner = 0)
    (mode : Nat) : permChmod s' inode mode user = if mode &&& 0o7777 ≠ mode then (-eINVAL,s')
      else if user = 2 ^ 32 - 1 then (-eACCES,s') else (0,s'.set inode ((info.give user group).permit mode)) := by
  rw [permChmod,adopted.self]
  dsimp only
  congr 1
  by_cases nobody : user = 2 ^ 32 - 1
  · have given : (info.give user group).owner = 0 := by
      rw [← owner]
      exact if_neg (not_not.mpr nobody)
    rw [if_pos nobody,given,if_pos]
    omega
  · have given : (info.give user group).owner = user := if_pos nobody
    rw [if_neg nobody,given,if_neg fun both => both.2 rfl,Store.inodeChmod,Store.modify,adopted.self]
    rfl

theorem HoldsMap.set (holds : HoldsMap s inode parent m) (named : s.inode inode = some info)
    (bytes : SameBytes info info') : HoldsMap (s.set inode info') inode parent m := by
  refine holds.carry fun node found => ⟨info',Store.set_inode_self ..,?_⟩
  rw [named,Option.some.injEq] at found
  exact found ▸ bytes

theorem hasSpace_congr (same : s'.inode directory = s.inode directory) (blocks : s'.freeBlocks = s.freeBlocks) :
    HasSpace s' directory name ↔ HasSpace s directory name := by
  rw [HasSpace,HasSpace,blocks]
  constructor
  · rintro ⟨node,blocks,parent,ok,room⟩
    exact ⟨node,blocks,parent,ok.elsewhere same.symm,room⟩
  · rintro ⟨node,blocks,parent,ok,room⟩
    exact ⟨node,blocks,parent,ok.elsewhere same,room⟩

/-- An inode just made, with the map of a new directory and without links. -/
structure NewDir (s s' : Store) (directory parent : Int) (info : Node) : Prop where
  adopted : Adopted s s' directory info
  isDir : sISDIR info.mode
  unlinked : info.nlinks = 0
  holds : HoldsMap s' directory parent (newBindings parent directory)
  size : info.size = blocksize
  blocks : s'.freeBlocks = s.reserve.freeBlocks

theorem NewDir.set (new : NewDir s s' directory parent info) (bytes : SameBytes info info')
    (links : info'.nlinks = info.nlinks) : NewDir s (s'.set directory info') directory parent info' where
  adopted := new.adopted.set
  isDir := bytes.1.trans new.isDir
  unlinked := links.trans new.unlinked
  holds := new.holds.set new.adopted.self bytes
  size := bytes.2.1.trans new.size
  blocks := new.blocks

theorem NewDir.back (new : NewDir s s' directory parent info) (blocks : 1 + cost blocksize ≤ s.freeBlocks) :
    s'.freeBlocks + cost info.size + 1 = s.freeBlocks := by
  rw [new.blocks,new.size,Store.reserve]
  dsimp only
  omega

theorem NewDir.names (new : NewDir s s' directory parent info) (nonneg : 0 ≤ directory) :
    s'.names = Function.update s.names directory (newBindings parent directory) := by
  funext other
  by_cases same : other = directory
  · subst same
    rw [Function.update_self]
    exact new.holds.names nonneg
  · rw [Function.update_of_ne same]
    exact names_same (new.adopted.others same)

section
variable (sane : Sane fs) (new : NewDir fs.store s' directory node.parentDir info)
  (live : LiveDir fs.store node.parentDir) (good : GoodName node.name)
include sane new live good

omit good in
theorem NewDir.entered {s1 : Store} {info1 : Node} (free : fs.store.names node.parentDir node.name = none)
    (rebound : Rebound s' s1 (Naming.bind s'.names node.parentDir node.name directory))
    (named : s1.inode directory = some info1) :
    Evolves fs [.mkdir node.parentDir node.name directory]
      (fs.over (s1.set directory { info1 with nlinks := 1 })) := by
  have adopted := new.adopted
  obtain ⟨low,_,unused⟩ := sane.tidy.free directory (by simp [adopted.first])
  have object : info1.object = info.object := by
    have object := rebound.object directory
    rw [named,adopted.self] at object
    exact Option.some.inj object
  have isDir : sISDIR info1.mode := by
    have kind := congrArg Naming.Object.isDir object
    exact of_decide_eq_true (kind.trans (decide_eq_true new.isDir))
  obtain ⟨node',blocks',ok,_⟩ := new.holds.ok
  obtain rfl := Option.some.inj (adopted.self.symm.trans ok.named)
  have tidy' : s'.Tidy := adopted.tidy sane.tidy ok.top fun link => absurd link (isDir_not_link new.isDir)
  have tidy1 := rebound.tidy tidy'
  refine sane.evolves ?_ (sane.tables.over _) ⟨isDir_iff.mpr live,free,?_⟩ ?_
  · exact tidy1.set (by rw [named]; exact Option.some_ne_none _) (tidy1.used directory info1 low named).2 fun link =>
      absurd link (isDir_not_link isDir)
  · change (fs.store.inode directory).map Node.object = none
    rw [unused]
    rfl
  · rw [over_space]
    refine Naming.Space.ext ?_ ?_ rfl
    · rw [names_set named (sameBytes_nlinks info1 1),rebound.names,new.names low]
      exact congrArg (fun f => Naming.bind (Function.update fs.store.names directory f) _ _ _)
        (funext newBindings_apply)
    · funext n
      change Option.map Node.object (Store.inode _ n) =
        Function.update fs.space.object directory (some ⟨true,1⟩) n
      rw [Function.update_apply]
      split
      · rename_i same
        rw [same,Store.set_inode_self,Option.map_some,Node.object]
        dsimp only
        rw [decide_eq_true isDir]
      · rename_i differ
        rw [Store.set_inode_ne _ _ _ differ,rebound.object,adopted.others differ]
        rfl

theorem mkdirEnter_spec (blocks : 1 + cost blocksize ≤ fs.store.freeBlocks) : ∃ s'',
    (fs.store.names node.parentDir node.name ≠ none ∧
      mkdirEnter node directory ((fs.over s').holding {directory}) = .ok (-eEXIST,fs.over s'') ∧
      Evolves fs [] (fs.over s'') ∧ fs.store.Same s'') ∨
    (¬HasSpace fs.store.reserve node.parentDir node.name ∧
      mkdirEnter node directory ((fs.over s').holding {directory}) = .ok (-eNOSPC,fs.over s'') ∧
      Evolves fs [] (fs.over s'') ∧ fs.store.Same s'') ∨
    (fs.store.names node.parentDir node.name = none ∧ HasSpace fs.store.reserve node.parentDir node.name ∧
      mkdirEnter node directory ((fs.over s').holding {directory}) = .ok (0,fs.over s'') ∧
      Evolves fs [.mkdir node.parentDir node.name directory] (fs.over s'')) := by
  have adopted := new.adopted
  obtain ⟨low,inside,unused⟩ := sane.tidy.free directory (by simp [adopted.first])
  have apart : node.parentDir ≠ directory := fun same => live.live.some (same ▸ unused)
  have here : s'.inode node.parentDir = fs.store.inode node.parentDir := adopted.others apart
  have live' : LiveDir s' node.parentDir := by
    obtain ⟨parent,m,holds⟩ := live.holds
    exact ⟨live.nonneg,parent,m,holds.elsewhere here⟩
  have fits := sane.adopted_fits adopted
  have target : GoodTarget directory := ⟨fits,fun same => absurd low (by rw [same]; decide)⟩
  have names : s'.names node.parentDir = fs.store.names node.parentDir := names_same here
  have space : HasSpace s' node.parentDir node.name ↔ HasSpace fs.store.reserve node.parentDir node.name :=
    hasSpace_congr here new.blocks
  have tables := sane.tables.over s'
  have inserting {res : Int} {s1 : Store} (ran : dirInsert s' node.parentDir node.name directory = .ok (res,s1))
      (links : ∀ n, s1.nlinksOf n = s'.nlinksOf n) :
      onDisk (dirInsert · node.parentDir node.name directory) ((fs.over s').holding {directory}) =
        .ok (res,(fs.over s1).holding {directory}) := by
    have ran : onDisk (dirInsert · node.parentDir node.name directory) ((fs.over s').holding {directory}) =
        .ok (res,((fs.over s').over s1).holding {directory}) := tables.onDisk_holding ran links
    rwa [over_over] at ran
  -- nothing stays of a directory that is not entered
  have undone {res : Int} (negative : res < 0)
      (ran : dirInsert s' node.parentDir node.name directory = .ok (res,s')) : ∃ s'',
      mkdirEnter node directory ((fs.over s').holding {directory}) = .ok (res,fs.over s'') ∧
      Evolves fs [] (fs.over s'') ∧ fs.store.Same s'' := by
    obtain ⟨s'',closed,rebound,same⟩ := sane.discard adopted new.unlinked
    refine ⟨s'',?_,rebound.evolves sane,same (new.back blocks)⟩
    rw [mkdirEnter,act_bind (inserting ran fun _ => rfl),if_pos negative,act_bind closed]
    rfl
  by_cases bound : fs.store.names node.parentDir node.name = none
  · rcases live'.insert (by rw [names,bound]) good target with ⟨room,s1,ran,rebound⟩ | ⟨full,ran⟩
    · obtain ⟨info1,found1,object⟩ := Option.map_eq_some_iff.mp
        ((rebound.object directory).trans (congrArg (Option.map Node.object) adopted.self))
      have unlinked : info1.nlinks = 0 := (congrArg Naming.Object.nlinks object).trans new.unlinked
      have linked : refsLink directory ((fs.over s1).holding {directory}) =
          .ok (0,((fs.over s1).over (s1.inodeLink directory).2).holding {directory}) :=
        (sane.tables.over s1).link_holding fits found1 (.inl (Multiset.mem_singleton_self _))
      obtain ⟨s2,set⟩ : ∃ s2, s1.set directory { info1 with nlinks := 1 } = s2 := ⟨_,rfl⟩
      have more : (s1.inodeLink directory).2 = s2 := by
        rw [Store.inodeLink,found1,← set]
        dsimp only
        rw [unlinked]
      rw [more,over_over] at linked
      have found2 : s2.inode directory = some { info1 with nlinks := 1 } := by
        rw [← set,Store.set_inode_self]
      have closed : closeHeld directory ((fs.over s2).holding (directory ::ₘ 0)) = _ :=
        (sane.tables.over s2).close_held fits (by rw [over_store,found2]; exact Option.some_ne_none _)
      rw [Fs.dropRef,if_neg,over_store,over_over,holding_zero,Multiset.cons_zero] at closed
      · refine ⟨s2,.inr (.inr ⟨bound,space.mp room,?_,?_⟩)⟩
        · rw [mkdirEnter,act_bind (inserting ran rebound.links),if_neg (lt_irrefl _),act_bind linked,
            act_bind (assert_true rfl),act_bind closed]
          rfl
        · rw [← set]
          exact new.entered sane live bound rebound found1
      · rintro ⟨_,_,none⟩
        rw [over_store,Store.nlinksOf,found2] at none
        cases none
    · obtain ⟨s'',ran,evolves⟩ := undone (by decide) ran
      exact ⟨s'',.inr (.inl ⟨mt space.mpr full,ran,evolves⟩)⟩
  · obtain ⟨s'',ran,evolves⟩ := undone (by decide) (live'.insert_bound (by rw [names]; exact bound) good target)
    exact ⟨s'',.inl ⟨bound,ran,evolves⟩⟩

end

theorem NewDir.created {rest : List Int} (sound : s.Sound) (up : GoodTarget parent)
    (first : s.freeInodes = directory :: rest) (room : 1 + cost blocksize ≤ s.freeBlocks) :
    NewDir s (s.adopt directory rest (dirNode parent directory)) directory parent (dirNode parent directory) where
  adopted := adopted_adopt first
  isDir := (by decide : sISDIR (sIFDIR ||| 0o777))
  unlinked := rfl
  holds := (Created.made directory rest first room).holds sound up (sound_target sound first).1
  size := by rw [dirNode,showing_size,List.length_singleton,Nat.cast_one,one_mul]
  blocks := by
    have size : (dirNode parent directory).size = blocksize := by
      rw [dirNode,showing_size,List.length_singleton,Nat.cast_one,one_mul]
    rw [Store.adopt,Store.reserve,size]

theorem NewDir.give (new : NewDir s s' directory parent info) :
    NewDir s (s'.set directory (info.give user group)) directory parent (info.give user group) :=
  new.set ⟨rfl,rfl,fun _ => rfl⟩ rfl

theorem NewDir.permit (new : NewDir s s' directory parent info) (proper : mode &&& 0o7777 = mode) :
    NewDir s (s'.set directory (info.permit mode)) directory parent (info.permit mode) :=
  new.set ⟨kind_permissions proper,rfl,fun _ => rfl⟩ rfl

theorem mkdirOpened_events (sane : Sane fs) (new : NewDir fs.store s' directory node.parentDir info)
    (owner : info.owner = 0) (allowed : MayWrite fs.store node user group)
    (blocks : 1 + cost blocksize ≤ fs.store.freeBlocks) (live : LiveDir fs.store node.parentDir)
    (good : GoodName node.name) (mode : Nat) :
    Happens (mkdirOpened node directory mode user group ((fs.over s').holding {directory})) fs
      (Making fs node mode user group) := by
  have given : NewDir fs.store (s'.set directory (info.give user group)) directory node.parentDir
    (info.give user group) := new.give
  have own : onDisk (.ok <| permChown · directory 0 user group) ((fs.over s').holding {directory}) =
      .ok (0,((fs.over s').over (s'.set directory (info.give user group))).holding {directory}) := by
    refine (sane.tables.over s').onDisk_holding (congrArg Except.ok (permChown_adopted new.adopted)) fun n => ?_
    rw [over_store,sane.adopted_links given.adopted given.unlinked,sane.adopted_links new.adopted new.unlinked]
  rw [mkdirOpened,act_bind own,if_neg (lt_irrefl _),over_over]
  have chmod := permChmod_adopted given.adopted owner mode
  generalize s'.set directory (info.give user group) = s1 at given chmod
  have permit {res : Int} {s2 : Store} (ran : permChmod s1 directory mode user = (res,s2))
      (links : ∀ n, s2.nlinksOf n = s1.nlinksOf n) :
      onDisk (.ok <| permChmod · directory mode user) ((fs.over s1).holding {directory}) =
        .ok (res,(fs.over s2).holding {directory}) := by
    have ran : onDisk (.ok <| permChmod · directory mode user) ((fs.over s1).holding {directory}) =
        .ok (res,((fs.over s1).over s2).holding {directory}) :=
      (sane.tables.over s1).onDisk_holding (congrArg Except.ok ran) links
    rwa [over_over] at ran
  obtain ⟨s'',closed,rebound,same⟩ := sane.discard given.adopted given.unlinked
  have same : fs.store.Same s'' := same (given.back blocks)
  by_cases invalid : mode &&& 0o7777 ≠ mode
  · rw [if_pos invalid] at chmod
    rw [act_bind (permit chmod fun _ => rfl),if_pos (by decide),act_bind closed]
    exact ⟨_,_,_,rfl,rebound.evolves sane,rfl,.invalid invalid,fun _ => same⟩
  rw [if_neg invalid] at chmod
  by_cases nobody : user = 2 ^ 32 - 1
  · rw [if_pos nobody] at chmod
    rw [act_bind (permit chmod fun _ => rfl),if_pos (by decide),act_bind closed]
    exact ⟨_,_,_,rfl,rebound.evolves sane,rfl,.nobody nobody,fun _ => same⟩
  rw [if_neg nobody] at chmod
  have permitted := given.permit (not_not.mp invalid)
  rw [act_bind (permit chmod fun n => by
    rw [sane.adopted_links permitted.adopted permitted.unlinked,
      sane.adopted_links given.adopted given.unlinked]),if_neg (lt_irrefl _)]
  obtain ⟨s3,⟨bound,ran,evolves,same⟩ | ⟨full,ran,evolves,same⟩ | ⟨free,room,ran,evolves⟩⟩ :=
    mkdirEnter_spec sane permitted live good blocks
  · obtain ⟨target,bound⟩ := Option.ne_none_iff_exists'.mp bound
    exact ⟨_,_,_,ran,evolves,rfl,.exists' target (names_iff.mp bound),fun _ => same⟩
  · exact ⟨_,_,_,ran,evolves,rfl,.full full,fun _ => same⟩
  · refine ⟨_,_,_,ran,evolves,rfl,.made directory _ new.adopted.first allowed blocks (not_not.mp invalid) nobody
      (fun target entry => ?_) room,fun none => absurd none (List.cons_ne_nil _ _)⟩
    rw [names_iff.mpr entry] at free
    cases free

theorem pathMkdir_happens (sane : Sane fs) (opened : OpenPath fs path node) (mode user group : Nat) :
    Happens (pathMkdir path mode user group fs) fs (Making fs node mode user group) := by
  have tree := sane.tree
  have handle : onPath path (fs.holding 0) = _ := opened.onPath tree
  have checked : reading (.ok <| permCheck · node.parentDir permWrite user group) fs =
      .ok (permCheck fs.store node.parentDir permWrite user group,fs) := reading_ok rfl
  rw [holding_zero] at handle
  rw [pathMkdir_eq,act_bind handle]
  dsimp only
  rw [act_bind checked]
  by_cases denied : permCheck fs.store node.parentDir permWrite user group < 0
  · rw [if_pos denied]
    exact ⟨_,_,_,rfl,.refl sane,rfl,.denied _ denied (not_le.mpr denied),fun _ => .refl⟩
  rw [if_neg denied]
  have allowed : MayWrite fs.store node user group := not_lt.mp denied
  have live := opened.live tree allowed
  obtain ⟨res,s',ran,created⟩ := dirCreate_spec sane.tidy.toSound node.parentDir
  cases created with
  | none none =>
    obtain ⟨ran,evolves⟩ := sane.onDisk (dirCreate · node.parentDir) ran .refl
    rw [act_bind ran,if_pos (by decide)]
    refine ⟨_,_,_,rfl,evolves,rfl,.none (none.imp_right fun none => ?_),fun _ => .refl⟩
    omega
  | undone number rest first room short =>
    obtain ⟨ran,evolves⟩ := sane.onDisk (dirCreate · node.parentDir) ran (.of_inode rfl rfl rfl)
    rw [act_bind ran,if_pos (by decide)]
    exact ⟨_,_,_,rfl,evolves,rfl,.none (.inr short),fun _ => ⟨rfl,rfl,rfl,rfl⟩⟩
  | made _ rest first room =>
    have up : GoodTarget node.parentDir := sane.good live.live.some
    have new := NewDir.created sane.tidy.toSound up first room
    have ran : onDisk (dirCreate · node.parentDir) (fs.holding 0) = .ok (res,(fs.over _).holding 0) :=
      sane.tables.onDisk_holding ran (sane.adopted_links new.adopted new.unlinked)
    rw [holding_zero,holding_zero] at ran
    obtain ⟨low,_⟩ := sound_target sane.tidy.toSound first
    rw [act_bind ran,if_neg (not_lt.mpr low),act_bind (sane.adopted_open new.adopted),act_bind (assert_true rfl)]
    exact mkdirOpened_events sane new rfl allowed room live opened.good mode

/-- A disk with no inode in use, and blocks for a directory. -/
structure Blank (s : Store) : Prop where
  sound : s.Sound
  unused : ∀ n, s.inode n = none
  first : ∃ rest, s.freeInodes = 0 :: rest
  room : 1 + cost blocksize ≤ s.freeBlocks

theorem Blank.tidy (blank : Blank s) : s.Tidy where
  toSound := blank.sound
  outside n _ := blank.unused n
  symlinks n info named := by
    rw [blank.unused] at named
    cases named

theorem Blank.start (blank : Blank s) (new : NewDir s s' 0 0 info) (links : info'.nlinks = 1)
    (bytes : SameBytes info info') :
    Sane ((Fs.closed s).over (s'.set 0 info')) ∧
    ((Fs.closed s).over (s'.set 0 info')).space = Naming.Space.start dirDots 0 := by
  have adopted : Adopted s (s'.set 0 info') 0 info' := new.adopted.set
  obtain ⟨node',blocks',ok,_⟩ := new.holds.ok
  obtain rfl := Option.some.inj (new.adopted.self.symm.trans ok.named)
  have isDir : sISDIR info'.mode := bytes.1.trans new.isDir
  have tidy : (s'.set 0 info').Tidy := adopted.tidy blank.tidy (bytes.2.1 ▸ ok.top) fun link =>
    absurd link (isDir_not_link isDir)
  refine start_sane tidy (new.holds.set new.adopted.self bytes) adopted.self links fun n differ => ?_
  rw [adopted.others differ,blank.unused]

theorem mkfsMade_start (blank : Blank s) (new : NewDir s s' 0 0 info) (owned : info.owner = 0)
    (ran : dirCreate s 0 = .ok (0,s')) (owner group : Nat) :
    (owner = 2 ^ 32 - 1 ∧ mkfsPath owner group (Fs.closed s) = .error (.abort ())) ∨
    (owner ≠ 2 ^ 32 - 1 ∧ ∃ fs, mkfsPath owner group (Fs.closed s) = .ok (0,fs) ∧ Sane fs ∧
      fs.space = Naming.Space.start dirDots 0 ∧ ∀ path, fs.path path = none) := by
  have tables := Fs.closed_tables s
  obtain ⟨rest,first⟩ := blank.first
  have fits : Fits 0 := (sound_target blank.sound first).2.1
  -- the disk after each step
  obtain ⟨info1,made1⟩ : ∃ info1, { info with nlinks := 1 } = info1 := ⟨_,rfl⟩
  have own1 : info1.owner = 0 := by rw [← made1]; exact owned
  have links1 : info1.nlinks = 1 := by rw [← made1]
  have bytes1 : SameBytes info info1 := by rw [← made1]; exact ⟨rfl,rfl,fun _ => rfl⟩
  have adopted1 : Adopted s (s'.set 0 info1) 0 info1 := new.adopted.set
  have adopted2 : Adopted s (s'.set 0 (info1.give owner group)) 0 (info1.give owner group) := new.adopted.set
  have make : onDisk (dirCreate · 0) ((Fs.closed s).holding 0) = .ok (0,((Fs.closed s).over s').holding 0) :=
    tables.onDisk_holding ran (new.adopted.links (blank.unused 0) new.unlinked)
  have link : refsLink 0 (((Fs.closed s).over s').holding {0}) =
      .ok (0,(((Fs.closed s).over s').over (s'.inodeLink 0).2).holding {0}) :=
    (tables.over s').link_holding fits new.adopted.self (.inl (Multiset.mem_singleton_self _))
  have linked : (s'.inodeLink 0).2 = s'.set 0 info1 := by
    rw [Store.inodeLink,new.adopted.self,← made1]
    dsimp only
    rw [new.unlinked]
  have links {info2 : Node} (same : info2.nlinks = 1) (n : Int) :
      (s'.set 0 info2).nlinksOf n = (s'.set 0 info1).nlinksOf n := by
    by_cases here : n = 0
    · rw [here,Store.nlinksOf,Store.nlinksOf,Store.set_inode_self,Store.set_inode_self]
      exact same.trans links1.symm
    · rw [Store.nlinksOf,Store.nlinksOf,Store.set_inode_ne _ _ _ here,Store.set_inode_ne _ _ _ here]
  have chown : onDisk (.ok <| permChown · 0 0 owner group) (((Fs.closed s).over (s'.set 0 info1)).holding {0}) =
      .ok (0,(((Fs.closed s).over (s'.set 0 info1)).over (s'.set 0 (info1.give owner group))).holding {0}) := by
    refine (tables.over _).onDisk_holding ?_ (links links1)
    rw [over_store,permChown_adopted adopted1,Store.set_set]
  have chmod := permChmod_adopted adopted2 own1 0o755
  rw [holding_zero,holding_zero] at make
  rw [linked,over_over] at link
  rw [over_over] at chown
  rw [mkfsPath,act_bind make,act_bind (assert_true rfl),act_bind (new.adopted.open tables fits),
    act_bind (assert_true rfl),act_bind link,act_bind (assert_true rfl),act_bind chown,
    act_bind (assert_true rfl)]
  rw [if_neg (not_not.mpr (by decide))] at chmod
  by_cases nobody : owner = 2 ^ 32 - 1
  · rw [if_pos nobody] at chmod
    have refused : onDisk (.ok <| permChmod · 0 0o755 owner)
        (((Fs.closed s).over (s'.set 0 (info1.give owner group))).holding {0}) = .ok (-eACCES,_) :=
      (tables.over _).onDisk_holding (congrArg Except.ok chmod) fun _ => rfl
    rw [act_bind refused,act_stop (assert_false (by decide))]
    exact .inl ⟨nobody,rfl⟩
  · rw [if_neg nobody,Store.set_set] at chmod
    have permit : onDisk (.ok <| permChmod · 0 0o755 owner)
        (((Fs.closed s).over (s'.set 0 (info1.give owner group))).holding {0}) = .ok (0,_) :=
      (tables.over _).onDisk_holding (congrArg Except.ok chmod) fun n =>
        have given : (info1.give owner group).nlinks = 1 := links1
        have permitted : ((info1.give owner group).permit 0o755).nlinks = 1 := links1
        (links permitted n).trans (links given n).symm
    obtain ⟨info2,made2⟩ : ∃ info2, (info1.give owner group).permit 0o755 = info2 := ⟨_,rfl⟩
    rw [made2,over_over] at permit
    have links2 : info2.nlinks = 1 := by rw [← made2]; exact links1
    have bytes2 : SameBytes info info2 := by
      rw [← made2]
      exact ⟨(kind_permissions (by decide)).trans bytes1.1,bytes1.2⟩
    obtain ⟨sane,space⟩ := blank.start new links2 bytes2
    have close : closeHeld 0 (((Fs.closed s).over (s'.set 0 info2)).holding (0 ::ₘ 0)) = _ :=
      (tables.over _).close_held fits (by rw [over_store,Store.set_inode_self]; exact Option.some_ne_none _)
    rw [Fs.dropRef,if_neg fun both => by
      have none := both.2.2
      rw [over_store,Store.nlinksOf,Store.set_inode_self] at none
      exact absurd (links2.symm.trans none) Nat.one_ne_zero,over_store,over_over,holding_zero,
      Multiset.cons_zero] at close
    rw [act_bind permit,act_bind (assert_true rfl),act_bind close]
    refine .inr ⟨nobody,_,rfl,sane,space,fun path => ?_⟩
    rw [Fs.path,if_pos (.inr (.inr rfl))]

theorem mkfsPath_start (blank : Blank s) (owner group : Nat) :
    (owner = 2 ^ 32 - 1 ∧ mkfsPath owner group (Fs.closed s) = .error (.abort ())) ∨
    (owner ≠ 2 ^ 32 - 1 ∧ ∃ fs, mkfsPath owner group (Fs.closed s) = .ok (0,fs) ∧ Sane fs ∧
      fs.space = Naming.Space.start dirDots 0 ∧ ∀ path, fs.path path = none) := by
  have tables := Fs.closed_tables s
  obtain ⟨rest,first⟩ := blank.first
  obtain ⟨_,up⟩ := sound_target blank.sound first
  have fits : Fits 0 := up.1
  have new := NewDir.created blank.sound up first blank.room
  obtain ⟨res,s',ran,created⟩ := dirCreate_spec blank.sound 0
  cases created with
  | none none => exact absurd none (by
      rw [not_or]
      exact ⟨by rw [first]; exact List.cons_ne_nil 0 rest,by have := blank.room; omega⟩)
  | undone _ _ _ _ short => exact absurd blank.room (by omega)
  | made _ rest' first' _ =>
    obtain ⟨rfl,rfl⟩ := List.cons.inj (first.symm.trans first')
    exact mkfsMade_start blank new rfl ran owner group

theorem mkfs_path_start (blank : Blank s) (owner group : Nat) :
    (owner = 2 ^ 32 - 1 ∧ mkfsPath owner group (Fs.closed s) = .error (.abort ())) ∨
    (owner ≠ 2 ^ 32 - 1 ∧ ∃ fs, mkfsPath owner group (Fs.closed s) = .ok (0,fs) ∧ Sane fs ∧
      fs.space = Naming.Space.start dirDots 0 ∧ ∀ path, fs.path path = none) :=
  mkfsPath_start blank owner group

end

end CandyFs

/-! Directories on a small disk. -/
namespace CandyFs
attribute [local instance] Geometry.small

theorem tinyStore_blank : Blank tinyStore :=
  ⟨tinyStore_sound,fun _ => rfl,⟨_,rfl⟩,by decide +kernel⟩

theorem mkfs_path_start_tiny : (1000 = 2 ^ 32 - 1 ∧ mkfsPath 1000 1000 (Fs.closed tinyStore) = .error (.abort ())) ∨
    (1000 ≠ 2 ^ 32 - 1 ∧ ∃ fs, mkfsPath 1000 1000 (Fs.closed tinyStore) = .ok (0,fs) ∧ Sane fs ∧
      fs.space = Naming.Space.start dirDots 0 ∧ ∀ path, fs.path path = none) :=
  mkfs_path_start tinyStore_blank 1000 1000

end CandyFs
