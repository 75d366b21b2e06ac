import CandyFs.Making
import CandyFs.Renaming

/-! What each operation on a handle returns and does, the directory of the handle being there.
-/
namespace CandyFs
open Bytes

section
variable [Geometry] {fs : Fs} {inode path dstpath srcpath : Int} {node dst src : OpenPathNode}
  {user group : Nat}

/-- A handle for a name in a directory that is there. -/
structure InDir (fs : Fs) (path : Int) (node : OpenPathNode) : Prop extends OpenPath fs path node where
  live : LiveDir fs.store node.parentDir

/-- The file system after a call that returns, and whether it returns this. -/
def Fs.after (fs : Fs) (call : Act Int) : Fs :=
  match call fs with
  | .ok (_,fs') => fs'
  | .error _ => fs

def Fs.returns (fs : Fs) (call : Act Int) (res : Int) : Bool :=
  match call fs with
  | .ok (other,_) => decide (other = res)
  | .error _ => false

omit [Geometry] in
theorem Fs.returned {call : Act Int} {res : Int} (told : fs.returns call res = true) :
    call fs = .ok (res,fs.after call) := by
  rw [Fs.returns] at told
  rw [Fs.after]
  split at told
  · rename_i other fs' ran
    rw [ran,of_decide_eq_true told]
  · cases told

theorem Happens.returned {call : Act Int} {res : Int} {outcome : Int → List FsEvent → Prop}
    (happens : Happens (call fs) fs outcome) (told : fs.returns call res = true) :
    ∃ es, Evolves fs es (fs.after call) ∧ (fs.after call).openPathTable = fs.openPathTable ∧ outcome res es := by
  obtain ⟨res',fs',es,ran,evolves,same,out,_⟩ := happens.some
  rw [Fs.returned told,Except.ok.injEq,Prod.mk.injEq] at ran
  obtain ⟨rfl,rfl⟩ := ran
  exact ⟨es,evolves,same,out⟩

end

section
attribute [local instance] Geometry.small

def tinyPaths : Fs := ((Fs.closed tinyRoot).setPath 0 ⟨1,0,[97]⟩).setPath 1 ⟨1,0,[98]⟩

theorem tinyPaths_sane : Sane tinyPaths := (tinyRoot_sane.setPath 0 _).setPath 1 _

theorem tinyPaths_root : LiveDir tinyRoot 0 := ⟨le_rfl,0,_,tinyRoot_holds⟩

theorem tinyPaths_first : InDir tinyPaths 0 ⟨1,0,[97]⟩ :=
  ⟨⟨rfl,.inr tinyPaths_root,by decide⟩,tinyPaths_root⟩

/-- The first handle names a directory. -/
def tinyMade : Fs := tinyPaths.after (pathMkdir 0 0o755 0 0)

set_option maxRecDepth 100000 in
theorem tinyMade_returns : tinyPaths.returns (pathMkdir 0 0o755 0 0) 0 = true := by decide +kernel

theorem Making.made_of_zero {fs : Fs} {node : OpenPathNode} {mode user group : Nat} {res : Int}
    {es : List FsEvent} (out : Making fs node mode user group res es) (zero : res = 0) :
    ∃ directory rest, fs.store.freeInodes = directory :: rest ∧
      es = [.mkdir node.parentDir node.name directory] := by
  cases out with
  | made directory rest first => exact ⟨directory,rest,first,rfl⟩
  | denied _ negative => exact absurd zero negative.ne
  | none | invalid | nobody | exists' | full => exact absurd zero (by decide)

theorem tinyMade_evolves : Evolves tinyPaths [.mkdir 0 [97] 1] tinyMade ∧
    tinyMade.openPathTable = tinyPaths.openPathTable := by
  obtain ⟨es,evolves,same,out⟩ :=
    (pathMkdir_happens tinyPaths_sane tinyPaths_first.toOpenPath 0o755 0 0).returned tinyMade_returns
  obtain ⟨directory,rest,first,rfl⟩ := out.made_of_zero rfl
  obtain rfl : (1 : Int) = directory := (List.cons.inj first).1
  exact ⟨evolves,same⟩

theorem tinyMade_sane : Sane tinyMade := tinyMade_evolves.1.sane

theorem tinyMade_names : tinyMade.store.names = Naming.mkdir dirDots tinyPaths.store.names 0 [97] 1 :=
  congrArg Naming.Space.names tinyMade_evolves.1.space

theorem tinyMade_root : LiveDir tinyMade.store 0 := isDir_iff.mp tinyMade_sane.valid.rooted.root_dir

theorem tinyMade_entry : Entry tinyMade.store 0 [97] 1 :=
  names_iff.mp (by rw [tinyMade_names,Naming.mkdir_apply,if_pos ⟨rfl,rfl⟩])

theorem tinyMade_dir : LiveDir tinyMade.store 1 := by
  rw [← isDir_iff,Naming.IsDir,tinyMade_names,Naming.mkdir_up (by decide),if_pos rfl]
  exact Option.some_ne_none _

theorem tinyMade_first : InDir tinyMade 0 ⟨1,0,[97]⟩ := by
  refine ⟨⟨?_,.inr tinyMade_root,by decide⟩,tinyMade_root⟩
  rw [Fs.path,tinyMade_evolves.2]
  rfl

theorem tinyMade_second : InDir tinyMade 1 ⟨1,0,[98]⟩ := by
  refine ⟨⟨?_,.inr tinyMade_root,by decide⟩,tinyMade_root⟩
  rw [Fs.path,tinyMade_evolves.2]
  rfl

/-- An inode without a name is open, and then linked. -/
def tinyNode : Node := { Store.freshNode with mode := sIFREG ||| 0o777 }
def tinyOpen : Fs := (tinyPaths.over (tinyRoot.adopt 1 [2] tinyNode)).after (refsOpen 1)
def tinyLinked : Fs := tinyOpen.after (pathLink 0 1 0 0)

theorem tinyOpen_evolves : Evolves tinyPaths [.create 1] tinyOpen ∧
    tinyOpen.openPathTable = tinyPaths.openPathTable ∧ tinyOpen.opens 1 = 1 := by
  have adopted : Adopted tinyPaths.store (tinyRoot.adopt 1 [2] tinyNode) 1 tinyNode := adopted_adopt rfl
  have evolves := tinyPaths_sane.create adopted (by decide) rfl (Int.natCast_nonneg maxFilesize)
    fun link => absurd link (by decide)
  have state : tinyOpen = (tinyPaths.over (tinyRoot.adopt 1 [2] tinyNode)).holding {1} := by
    rw [tinyOpen,Fs.after,tinyPaths_sane.adopted_open adopted]
  have tables := tinyPaths_sane.tables.over (tinyRoot.adopt 1 [2] tinyNode)
  refine ⟨state ▸ evolves,?_,?_⟩
  · rw [state,tables.holding_paths]
    rfl
  · rw [state,tables.opens_holding,if_pos (by decide),Multiset.count_singleton_self]
    rfl

theorem tinyOpen_first : InDir tinyOpen 0 ⟨1,0,[97]⟩ := by
  have root : LiveDir tinyOpen.store 0 := isDir_iff.mp tinyOpen_evolves.1.sane.valid.rooted.root_dir
  refine ⟨⟨?_,.inr root,by decide⟩,root⟩
  rw [Fs.path,tinyOpen_evolves.2.1]
  rfl

set_option maxRecDepth 100000 in
theorem tinyLinked_returns : tinyOpen.returns (pathLink 0 1 0 0) 0 = true := by decide +kernel

theorem Linking.linked_of_zero {fs : Fs} {node : OpenPathNode} {inode res : Int} {user group : Nat}
    {es : List FsEvent} (out : Linking fs node inode user group res es) (zero : res = 0) :
    es = [.link node.parentDir node.name inode] := by
  cases out with
  | linked => rfl
  | denied _ negative => exact absurd zero negative.ne
  | isDir | exists' | full => exact absurd zero (by decide)

theorem tinyLinked_evolves : Evolves tinyOpen [.link 0 [97] 1] tinyLinked ∧
    tinyLinked.openPathTable = tinyOpen.openPathTable := by
  obtain ⟨_,_,opens⟩ := tinyOpen_evolves
  obtain ⟨es,evolves,same,out⟩ := (pathLink_happens tinyOpen_evolves.1.sane tinyOpen_first.toOpenPath
    (by rw [opens]; exact Nat.one_ne_zero) 0 0).returned tinyLinked_returns
  exact ⟨out.linked_of_zero rfl ▸ evolves,same⟩

theorem tinyLinked_first : InDir tinyLinked 0 ⟨1,0,[97]⟩ := by
  have root : LiveDir tinyLinked.store 0 := isDir_iff.mp tinyLinked_evolves.1.sane.valid.rooted.root_dir
  refine ⟨⟨?_,.inr root,by decide⟩,root⟩
  rw [Fs.path,tinyLinked_evolves.2,tinyOpen_evolves.2.1]
  rfl

end

section
variable [Geometry] {fs : Fs} {inode path dstpath srcpath : Int} {node dst src : OpenPathNode}
  {user group : Nat}

theorem path_unlink_events (sane : Sane fs) (opened : InDir fs path node) (user group : Nat) :
    Happens (pathUnlink path user group fs) fs (Unlinking fs node user group) :=
  pathUnlink_happens sane opened.toOpenPath user group

end

section
attribute [local instance] Geometry.small

theorem Unlinking.removed_of_zero {fs : Fs} {node : OpenPathNode} {user group : Nat} {res : Int}
    {es : List FsEvent} (out : Unlinking fs node user group res es) (zero : res = 0) :
    ∃ inode, Child fs.store node.parentDir node.name inode ∧
      es = [.hold inode,.unlink node.parentDir node.name inode,.release inode] := by
  cases out with
  | removed inode child => exact ⟨inode,child,rfl⟩
  | denied _ _ _ denied => exact absurd zero.ge denied
  | absent | isDir => exact absurd zero (by decide)

set_option maxRecDepth 100000 in
theorem tinyLinked_unlinks : tinyLinked.returns (pathUnlink 0 0 0) 0 = true := by decide +kernel

/-- The name of a file goes, which is still open. -/
theorem path_unlink_events_tiny : pathUnlink 0 0 0 tinyLinked = .ok (0,tinyLinked.after (pathUnlink 0 0 0)) ∧
    ∃ inode, Child tinyLinked.store 0 [97] inode ∧
      Evolves tinyLinked [.hold inode,.unlink 0 [97] inode,.release inode]
      (tinyLinked.after (pathUnlink 0 0 0)) := by
  obtain ⟨es,evolves,_,out⟩ := (path_unlink_events tinyLinked_evolves.1.sane tinyLinked_first 0 0).returned
    tinyLinked_unlinks
  obtain ⟨inode,child,rfl⟩ := out.removed_of_zero rfl
  exact ⟨Fs.returned tinyLinked_unlinks,inode,child,evolves⟩

end

section
variable [Geometry] {fs : Fs} {inode path dstpath srcpath : Int} {node dst src : OpenPathNode}
  {user group : Nat}

theorem path_rmdir_events (sane : Sane fs) (opened : InDir fs path node) (user group : Nat) :
    (RmdirBreaks fs.store node user group ∧ pathRmdir path user group fs = .error (.abort ())) ∨
    (¬RmdirBreaks fs.store node user group ∧
      Happens (pathRmdir path user group fs) fs (Removing fs node user group)) :=
  pathRmdir_happens sane opened.toOpenPath user group

end

section
attribute [local instance] Geometry.small

theorem Removing.removed_of_zero {fs : Fs} {node : OpenPathNode} {user group : Nat} {res : Int}
    {es : List FsEvent} (out : Removing fs node user group res es) (zero : res = 0) :
    ∃ inode, EmptyDir fs.store inode ∧
      es = [.hold inode,.unlink node.parentDir node.name inode,.release inode] := by
  cases out with
  | removed inode _ _ empty => exact ⟨inode,empty,rfl⟩
  | denied _ _ denied => exact absurd zero.ge denied
  | absent | notDir | notEmpty => exact absurd zero (by decide)

set_option maxRecDepth 100000 in
theorem tinyMade_removes : tinyMade.returns (pathRmdir 0 0 0) 0 = true := by decide +kernel

theorem path_rmdir_events_tiny : pathRmdir 0 0 0 tinyMade = .ok (0,tinyMade.after (pathRmdir 0 0 0)) ∧
    ∃ inode, EmptyDir tinyMade.store inode ∧
      Evolves tinyMade [.hold inode,.unlink 0 [97] inode,.release inode] (tinyMade.after (pathRmdir 0 0 0)) := by
  have ran := Fs.returned tinyMade_removes
  refine ⟨ran,?_⟩
  rcases path_rmdir_events tinyMade_sane tinyMade_first 0 0 with ⟨_,broke⟩ | ⟨_,happens⟩
  · rw [broke] at ran
    cases ran
  obtain ⟨es,evolves,_,out⟩ := happens.returned tinyMade_removes
  obtain ⟨inode,empty,rfl⟩ := out.removed_of_zero rfl
  exact ⟨inode,empty,evolves⟩

end

section
variable [Geometry] {fs : Fs} {inode path dstpath srcpath : Int} {node dst src : OpenPathNode}
  {user group : Nat}

theorem path_link_events (sane : Sane fs) (opened : InDir fs path node) (open' : fs.opens inode ≠ 0) (user group : Nat) :
    Happens (pathLink path inode user group fs) fs (Linking fs node inode user group) :=
  pathLink_happens sane opened.toOpenPath open' user group

end

section
attribute [local instance] Geometry.small

theorem path_link_events_tiny : pathLink 0 1 0 0 tinyOpen = .ok (0,tinyLinked) ∧
    Evolves tinyOpen [.link 0 [97] 1] tinyLinked := by
  obtain ⟨_,_,opens⟩ := tinyOpen_evolves
  obtain ⟨es,evolves,_,out⟩ := (path_link_events tinyOpen_evolves.1.sane tinyOpen_first
    (by rw [opens]; exact Nat.one_ne_zero) 0 0).returned tinyLinked_returns
  exact ⟨Fs.returned tinyLinked_returns,out.linked_of_zero rfl ▸ evolves⟩

end

section
variable [Geometry] {fs : Fs} {inode path dstpath srcpath : Int} {node dst src : OpenPathNode}
  {user group : Nat}

theorem path_mkdir_events (sane : Sane fs) (opened : InDir fs path node) (mode user group : Nat) :
    Happens (pathMkdir path mode user group fs) fs (Making fs node mode user group) :=
  pathMkdir_happens sane opened.toOpenPath mode user group

end

section
attribute [local instance] Geometry.small

theorem path_mkdir_events_tiny : pathMkdir 0 0o755 0 0 tinyPaths = .ok (0,tinyMade) ∧
    Evolves tinyPaths [.mkdir 0 [97] 1] tinyMade := by
  obtain ⟨es,evolves,_,out⟩ := (path_mkdir_events tinyPaths_sane tinyPaths_first 0o755 0 0).returned
    tinyMade_returns
  obtain ⟨directory,rest,first,rfl⟩ := out.made_of_zero rfl
  obtain rfl : (1 : Int) = directory := (List.cons.inj first).1
  exact ⟨Fs.returned tinyMade_returns,evolves⟩

end

section
variable [Geometry] {fs : Fs} {inode path dstpath srcpath : Int} {node dst src : OpenPathNode}
  {user group : Nat}

theorem path_rename_events (sane : Sane fs) (dstOpen : InDir fs dstpath dst)
    (srcOpen : InDir fs srcpath src)
    (distinct : ¬(src.parentDir = dst.parentDir ∧ src.name = dst.name)) (user group : Nat) :
    (RenameBreaks fs dst src user group ∧
      pathRename dstpath srcpath user group fs = .error (.abort ())) ∨
    (¬RenameBreaks fs dst src user group ∧
      Happens (pathRename dstpath srcpath user group fs) fs (Renaming fs dst src user group)) :=
  pathRename_happens sane dstOpen.toOpenPath srcOpen.toOpenPath distinct user group

end

section
attribute [local instance] Geometry.small

theorem Renaming.moved_of_zero {fs : Fs} {dst src : OpenPathNode} {user group : Nat} {res : Int}
    {es : List FsEvent} (out : Renaming fs dst src user group res es) (zero : res = 0) :
    ∃ inode gone e, Child fs.store src.parentDir src.name inode ∧ TargetEvents fs.store dst inode gone ∧
      MoveEvent fs.store dst src inode e ∧ es = [.hold inode] ++ gone ++ [e,.release inode] := by
  cases out with
  | moved inode child gone target _ e moves => exact ⟨inode,gone,e,child,target,moves,rfl⟩
  | denied _ negative => exact absurd zero negative.ne
  | refused _ _ _ negative => exact absurd zero negative.ne
  | absent | full => exact absurd zero (by decide)

theorem tinyMade_target (inode : Int) : ¬Entry tinyMade.store 0 [98] inode := by
  rw [← names_iff,tinyMade_names,Naming.mkdir_apply,if_neg (by decide),if_neg (by decide)]
  change Store.names tinyRoot 0 [98] ≠ _
  rw [tinyRoot_holds.names le_rfl]
  exact Option.some_ne_none _ ∘ Eq.symm

set_option maxRecDepth 100000 in
theorem tinyMade_renames : tinyMade.returns (pathRename 1 0 0 0) 0 = true := by decide +kernel

/-- A directory gets another name. -/
theorem path_rename_events_tiny : pathRename 1 0 0 0 tinyMade = .ok (0,tinyMade.after (pathRename 1 0 0 0)) ∧
    Evolves tinyMade [.hold 1,.move 0 [98] 1 0 [97],.release 1] (tinyMade.after (pathRename 1 0 0 0)) := by
  have ran := Fs.returned tinyMade_renames
  refine ⟨ran,?_⟩
  rcases path_rename_events tinyMade_sane tinyMade_second tinyMade_first (by decide) 0 0 with
    ⟨_,broke⟩ | ⟨_,happens⟩
  · rw [broke] at ran
    cases ran
  obtain ⟨es,evolves,_,out⟩ := happens.returned tinyMade_renames
  obtain ⟨inode,gone,e,child,target,moves,rfl⟩ := out.moved_of_zero rfl
  obtain rfl := child.1.unique tinyMade_entry
  cases target with
  | replaced current child => exact absurd child.1 (tinyMade_target current)
  | absent =>
    cases moves with
    | plain plain => exact absurd tinyMade_dir plain
    | dir => exact evolves

end

section
variable [Geometry] {fs : Fs} {inode path dstpath srcpath : Int} {node dst src : OpenPathNode}
  {user group : Nat}

theorem path_rename_tree (sane : Sane fs) (dstOpen : InDir fs dstpath dst) (srcOpen : InDir fs srcpath src)
    (distinct : ¬(src.parentDir = dst.parentDir ∧ src.name = dst.name))
    (tree : ∀ d, LiveDir fs.store d → ∃! way, Naming.Path dirDots fs.space.names 0 way d) {res : Int} {fs' : Fs}
    (ran : pathRename dstpath srcpath user group fs = .ok (res,fs')) :
    (∀ d, LiveDir fs'.store d → ∃! way, Naming.Path dirDots fs'.space.names 0 way d) ↔
      ¬(res = 0 ∧ Encloses fs dst src) := by
  have ways {fs : Fs} (sane : Sane fs) : (∀ d, LiveDir fs.store d →
      ∃! way, Naming.Path dirDots fs.space.names 0 way d) ↔ Naming.Connected dirDots fs.space.names 0 := by
    rw [sane.valid.rooted.connected_iff]
    exact forall_congr' fun d => imp_congr_left isDir_iff.symm
  rcases pathRename_happens sane dstOpen.toOpenPath srcOpen.toOpenPath distinct user group with
    ⟨_,broke⟩ | ⟨_,happens⟩
  · rw [broke] at ran
    cases ran
  obtain ⟨res,fs',es,ran',evolves,_,outcome,_⟩ := happens.some
  rw [ran] at ran'
  cases ran'
  rw [ways sane] at tree
  rw [ways evolves.sane,evolves.space]
  have allows := evolves.allows
  have kept (calm : ∀ e ∈ es, ∀ space, ¬e.Detaches dirDots space) (still : ¬(res = 0 ∧ Encloses fs dst src)) :
      Naming.Connected dirDots (fs.space.run dirDots es).names 0 ↔ ¬(res = 0 ∧ Encloses fs dst src) :=
    iff_of_true (sane.valid.calm_run es allows calm tree) still
  have nothing : ∀ e ∈ ([] : List FsEvent), ∀ space, ¬e.Detaches dirDots space :=
    fun e none => absurd none List.not_mem_nil
  cases outcome with
  | absent => exact kept nothing fun both => absurd both.1 (by decide)
  | denied _ negative => exact kept nothing fun both => absurd both.1 negative.ne
  | refused _ _ _ negative => exact kept nothing fun both => absurd both.1 negative.ne
  | full inode entry es target =>
    refine kept (fun e member space => ?_) fun both => absurd both.1 (by decide)
    simp only [List.mem_append,List.mem_singleton] at member
    rcases member with (rfl | member) | rfl
    · exact not_false
    · exact target.calm e member space
    · exact not_false
  | moved inode child es target proceeds e moves =>
    obtain ⟨before,now⟩ := (Naming.allows_append _ _ _).mp allows
    have valid := sane.valid.run _ before
    have calm : ∀ e ∈ [Naming.Event.hold inode] ++ es, ∀ space, ¬e.Detaches dirDots space := by
      intro e member space
      rcases List.mem_append.mp member with member | member
      · rw [List.mem_singleton.mp member]
        exact not_false
      · exact target.calm e member space
    have together := sane.valid.calm_run _ before calm tree
    have step := valid.connected now.1 together
    rw [Naming.run_append]
    change Naming.Connected dirDots (((fs.space.run dirDots ([.hold inode] ++ es)).step dirDots e).names) 0 ↔ _
    rw [step,not_iff_not,and_iff_right rfl]
    cases moves with
    | dir live =>
      refine (target.above sane before).trans ⟨fun above => ⟨inode,child.1,live,above⟩,?_⟩
      rintro ⟨other,entry,_,above⟩
      rwa [child.1.unique entry]
    | plain plain =>
      refine iff_of_false not_false ?_
      rintro ⟨other,entry,live,_⟩
      rw [child.1.unique entry] at plain
      exact plain live

end

section
attribute [local instance] Geometry.small

/-- The second handle is for a name in the new directory. -/
def tinyInto : Fs := tinyMade.setPath 1 ⟨1,1,[98]⟩

set_option maxRecDepth 100000 in
theorem tinyInto_renames : tinyInto.returns (pathRename 1 0 0 0) 0 = true := by decide +kernel

theorem tinyInto_tree (d : Int) (live : LiveDir tinyInto.store d) :
    ∃! way, Naming.Path dirDots tinyInto.space.names 0 way d := by
  have start : tinyPaths.space = Naming.Space.start dirDots 0 :=
    (start_sane tinyRoot_tidy tinyRoot_holds tinyRoot_named rfl tinyRoot_others).2
  have connected : Naming.Connected dirDots tinyPaths.space.names 0 := by
    intro x dir
    rw [start] at dir ⊢
    rw [Naming.start_isDir.mp dir]
    exact .refl
  have evolves := tinyMade_evolves.1
  have after := tinyPaths_sane.valid.calm_run _ evolves.allows (fun e member space => by
    rw [List.mem_singleton.mp member]
    exact not_false) connected
  rw [← evolves.space] at after
  exact tinyMade_sane.valid.rooted.connected_iff.mp after d (isDir_iff.mpr live)

/-- A directory is moved below itself, and is then not reached. -/
theorem path_rename_tree_tiny : ∃ fs', pathRename 1 0 0 0 tinyInto = .ok (0,fs') ∧
    ¬∀ d, LiveDir fs'.store d → ∃! way, Naming.Path dirDots fs'.space.names 0 way d := by
  have ran := Fs.returned tinyInto_renames
  have sane : Sane tinyInto := tinyMade_sane.setPath 1 _
  have dst : InDir tinyInto 1 ⟨1,1,[98]⟩ := ⟨⟨rfl,.inr tinyMade_dir,by decide⟩,tinyMade_dir⟩
  have src : InDir tinyInto 0 ⟨1,0,[97]⟩ := by
    refine ⟨⟨?_,.inr tinyMade_root,by decide⟩,tinyMade_root⟩
    refine path_some.mpr ⟨le_rfl,by decide,Nat.one_ne_zero,?_⟩
    rw [tinyInto,Fs.setPath]
    dsimp only
    rw [Function.update_of_ne (by decide),tinyMade_evolves.2]
    rfl
  refine ⟨_,ran,fun all => (path_rename_tree sane dst src (by decide) tinyInto_tree ran).mp all ⟨rfl,1,?_⟩⟩
  exact ⟨tinyMade_entry,tinyMade_dir,.refl⟩

end

end CandyFs
