import CandyFs.PathEvents
import CandyFs.Rename

/-! What `path_rename` makes of the space of a file system, and when it comes to an end.
-/
namespace CandyFs
open Bytes

section
variable [Geometry]

/-- The events of removing the target of a renaming. -/
inductive TargetEvents (s : Store) (dst : OpenPathNode) (inode : Int) : List FsEvent → Prop where
  | absent (none : ∀ current, ¬Entry s dst.parentDir dst.name current) : TargetEvents s dst inode []
  | replaced (current : Int) (child : Child s dst.parentDir dst.name current)
      (fit : Replaceable s inode current) : TargetEvents s dst inode
        [.hold current,.unlink dst.parentDir dst.name current,.release current]

/-- The target is gone or can go, and then there is room for it. -/
def Proceeds (fs : Fs) (dst : OpenPathNode) (inode : Int) : Prop :=
  (∀ current, ¬Entry fs.store dst.parentDir dst.name current) ∧
    HasSpace fs.store dst.parentDir dst.name ∨
  ∃ current, Child fs.store dst.parentDir dst.name current ∧ Replaceable fs.store inode current ∧
    Refills fs.store dst.parentDir dst.name (fs.freedWith {inode} current)

/-- An empty directory is replaced by way of `.` or `..`, or the source is named so. -/
structure RenameBreaks (fs : Fs) (dst src : OpenPathNode) (user group : Nat) : Prop where
  into : MayWrite fs.store dst user group
  from' : MayWrite fs.store src user group
  source : ∃ inode, Entry fs.store src.parentDir src.name inode ∧
    (TargetDots fs.store dst inode ∨ (src.name = dot ∨ src.name = dotdot) ∧ Proceeds fs dst inode)

/-- The event of one name becoming another. -/
inductive MoveEvent (s : Store) (dst src : OpenPathNode) (inode : Int) : FsEvent → Prop where
  | dir (live : LiveDir s inode) : MoveEvent s dst src inode
      (.move dst.parentDir dst.name inode src.parentDir src.name)
  | plain (plain : ¬LiveDir s inode) : MoveEvent s dst src inode
      (.rename dst.parentDir dst.name inode src.parentDir src.name)

/-- What `path_rename` returns and what happens. -/
inductive Renaming (fs : Fs) (dst src : OpenPathNode) (user group : Nat) : Int → List FsEvent → Prop where
  | absent (none : ∀ inode, ¬Entry fs.store src.parentDir src.name inode) :
      Renaming fs dst src user group (-eNOENT) []
  | denied (res : Int) (negative : res < 0)
      (denied : ¬(MayWrite fs.store dst user group ∧ MayWrite fs.store src user group)) :
      Renaming fs dst src user group res []
  | refused (res inode current : Int) (negative : res < 0)
      (entry : Entry fs.store src.parentDir src.name inode)
      (target : Entry fs.store dst.parentDir dst.name current)
      (unfit : ¬Replaceable fs.store inode current) : Renaming fs dst src user group res []
  /-- The target is gone for good. -/
  | full (inode : Int) (entry : Entry fs.store src.parentDir src.name inode) (es : List FsEvent)
      (target : TargetEvents fs.store dst inode es) (full : ¬Proceeds fs dst inode) :
      Renaming fs dst src user group (-eNOSPC) ([.hold inode] ++ es ++ [.release inode])
  | moved (inode : Int) (child : Child fs.store src.parentDir src.name inode) (es : List FsEvent)
      (target : TargetEvents fs.store dst inode es) (proceeds : Proceeds fs dst inode) (e : FsEvent)
      (moves : MoveEvent fs.store dst src inode e) :
      Renaming fs dst src user group 0 ([.hold inode] ++ es ++ [e,.release inode])

variable {fs : Fs} {s s' s'' : Store} {held : Multiset Int} {inode directory parent target : Int}
  {name : Name} {dst src : OpenPathNode} {dstpath srcpath : Int} {user group : Nat}
  {before after : Naming.Names Int Name}

theorem Rebound.trans (rebound : Rebound s s' before) (rebound' : Rebound s' s'' after) :
    Rebound s s'' after :=
  ⟨rebound'.names,fun tidy => rebound'.tidy (rebound.tidy tidy),fun n =>
    (rebound'.object n).trans (rebound.object n)⟩

theorem Rebound.some (rebound : Rebound s s' after) (named : s.inode inode ≠ none) : s'.inode inode ≠ none := by
  intro none
  have object := rebound.object inode
  rw [none] at object
  exact named (Option.map_eq_none_iff.mp object.symm)

theorem Sane.close (sane : Sane ((fs.over s).holding {inode})) (tables : Tables fs)
    (named : s.inode inode ≠ none) : ∃ s', closeHeld inode ((fs.over s).holding {inode}) = .ok ((),fs.over s') ∧
      Evolves ((fs.over s).holding {inode}) [.release inode] (fs.over s') := by
  have store : ((fs.over s).holding {inode}).store = s := (tables.over s).holding_store
  have fits : Fits inode := sane.fits (by rw [store]; exact named)
  have ran : closeHeld inode ((fs.over s).holding (inode ::ₘ 0)) = _ := (tables.over s).close_held fits named
  have evolves := sane
  rw [← Multiset.cons_zero] at evolves
  have evolves := evolves.release (tables.over s) named
  rw [over_over,holding_zero] at ran evolves
  rw [← Multiset.cons_zero]
  exact ⟨_,ran,evolves⟩

/-- The disk once the target has gone. -/
structure Vacated (fs : Fs) (dst : OpenPathNode) (inode : Int) (s' : Store) : Prop where
  free : s'.names dst.parentDir dst.name = none
  dir : LiveDir fs.store dst.parentDir → LiveDir s' dst.parentDir
  others : ∀ d n t, Child fs.store d n t → ¬(d = dst.parentDir ∧ n = dst.name) →
    Child s' d n t ∧ (LiveDir s' t ↔ LiveDir fs.store t)
  space : HasSpace s' dst.parentDir dst.name ↔ Proceeds fs dst inode

section
variable (sane : Sane fs)
include sane

theorem TargetGone.evolves (named : fs.store.inode inode ≠ none) (gone : TargetGone fs dst inode s') :
    ∃ es, TargetEvents fs.store dst inode es ∧
      Evolves (fs.holding {inode}) es ((fs.over s').holding {inode}) := by
  have there : ∀ n ∈ ({inode} : Multiset Int), fs.store.inode n ≠ none := by
    simpa using named
  cases gone with
  | absent none =>
    rw [sane.tables.over_self]
    exact ⟨[],.absent none,.refl (sane.holding there)⟩
  | replaced current child fit s' cleared =>
    exact ⟨_,.replaced current child fit,sane.letGo {inode} there child cleared⟩

theorem Cleared.names (there : ∀ n ∈ held, fs.store.inode n ≠ none) (child : Child fs.store directory name inode)
    (cleared : Cleared fs held directory name inode s') :
    s'.names = Naming.remove fs.store.names directory name inode := by
  have evolves := congrArg Naming.Space.names (sane.letGo held there child cleared).space
  have store : ((fs.over s').holding held).store = s' := (sane.tables.over _).holding_store
  change Store.names _ = Naming.remove (Store.names _) directory name inode at evolves
  rwa [store,sane.tables.holding_store] at evolves

theorem TargetGone.vacated (named : fs.store.inode inode ≠ none) (good : GoodName dst.name)
    (gone : TargetGone fs dst inode s') : Vacated fs dst inode s' := by
  cases gone with
  | absent none =>
    refine ⟨?_,id,fun d n t child _ => ⟨child,.rfl⟩,?_⟩
    · cases names : fs.store.names dst.parentDir dst.name with
      | none => rfl
      | some current => exact absurd (names_iff.mp names) (none current)
    · constructor
      · exact fun room => .inl ⟨none,room⟩
      · rintro (⟨_,room⟩ | ⟨current,child,_⟩)
        · exact room
        · exact absurd child.1 (none current)
  | replaced current child fit s' cleared =>
    have names := cleared.names sane (by simpa using named) child
    obtain ⟨_,_,_,_,_,_,ready,_,_,_⟩ := cleared.made
    have apart := child.apart (ready.imp (fun ready => ready.2) fun ready => ready.1)
    have childless {n : Name} {t : Int} : ¬Child fs.store current n t := fun inner => by
      rcases ready with ⟨_,plain⟩ | ⟨empty,_⟩
      · exact plain inner.1.isDir
      · exact inner.used empty
    have dirs {x : Int} (differ : x ≠ current) : LiveDir s' x ↔ LiveDir fs.store x := by
      rw [← isDir_iff,← isDir_iff,Naming.IsDir,names,Naming.remove_up child.2.2,if_neg differ]
      rfl
    refine ⟨?_,(dirs apart).mpr,fun d n t other differ => ?_,?_⟩
    · rw [names,Naming.remove_apply,if_pos ⟨rfl,rfl⟩]
    · have kept : Child s' d n t := by
        rw [← child_iff,names,Naming.child_remove fun n t inner => childless (child_iff.mp inner)]
        exact ⟨child_iff.mpr other,differ⟩
      refine ⟨kept,?_⟩
      by_cases same : t = current
      · subst same
        -- a directory has one name only
        have file : ¬LiveDir fs.store t := fun live => differ <|
          sane.valid.rooted.unique (child_iff.mpr child) (child_iff.mpr other) (isDir_iff.mpr live)
        refine iff_of_false ?_ file
        rw [← isDir_iff,Naming.IsDir,names,Naming.remove_up child.2.2,if_pos rfl]
        exact not_not.mpr rfl
      · exact dirs same
    · obtain ⟨info,found⟩ := Option.ne_none_iff_exists'.mp (sane.live child.1).some
      rw [cleared.refills good child found]
      constructor
      · exact fun room => .inr ⟨current,child,fit,room⟩
      · rintro (⟨none,_⟩ | ⟨other,child',_,room⟩)
        · exact absurd child.1 (none current)
        · exact child.1.unique child'.1 ▸ room

end

/-- The part of `path_rename` behind the removal of the target. -/
def renameRest (dst src : OpenPathNode) (inode : Int) (isdir : Bool) : Act Int := do
  let ores ← onDisk (dirInsert · dst.parentDir dst.name inode)
  if ores < 0 then do
    closeHeld inode
    pure ores
  else do
    removeEntry src inode
    if isdir = true then do
      let res ← onDisk (dirReparent · inode dst.parentDir)
      assert (res = 0)
      closeHeld inode
      pure 0
    else do
      closeHeld inode
      pure 0

section
variable (sane : Sane ((fs.over s).holding {inode})) (tables : Tables fs) (live : LiveDir s dst.parentDir)
  (free : s.names dst.parentDir dst.name = none) (goodDst : GoodName dst.name)
  (named : s.inode inode ≠ none) (isdir : Bool)
include sane tables live free goodDst named

theorem renameRest_full (src : OpenPathNode) (full : ¬HasSpace s dst.parentDir dst.name) :
    ∃ s', renameRest dst src inode isdir ((fs.over s).holding {inode}) = .ok (-eNOSPC,fs.over s') ∧
      Evolves ((fs.over s).holding {inode}) [.release inode] (fs.over s') := by
  have store : ((fs.over s).holding {inode}).store = s := (tables.over s).holding_store
  have target : GoodTarget inode := sane.good (by rw [store]; exact named)
  obtain ⟨s',closed,evolves⟩ := sane.close tables named
  refine ⟨s',?_,evolves⟩
  rcases live.insert free goodDst target with ⟨room,_⟩ | ⟨_,ran⟩
  · exact absurd room full
  · have ran : onDisk (dirInsert · dst.parentDir dst.name inode) ((fs.over s).holding {inode}) =
        .ok (-eNOSPC,((fs.over s).over s).holding {inode}) :=
      (tables.over s).onDisk_holding ran fun _ => rfl
    rw [renameRest,act_bind ran,over_over,if_pos (by decide),act_bind closed]
    rfl

theorem renameRest_dots (room : HasSpace s dst.parentDir dst.name)
    (named' : src.name = dot ∨ src.name = dotdot) :
    renameRest dst src inode isdir ((fs.over s).holding {inode}) = .error (.abort ()) := by
  have store : ((fs.over s).holding {inode}).store = s := (tables.over s).holding_store
  have target : GoodTarget inode := sane.good (by rw [store]; exact named)
  have nonneg : 0 ≤ inode := sane.nonneg (by rw [store]; exact named)
  rcases live.insert free goodDst target with ⟨_,s1,ran,rebound⟩ | ⟨full,_⟩
  · have ran : onDisk (dirInsert · dst.parentDir dst.name inode) ((fs.over s).holding {inode}) =
        .ok (0,((fs.over s).over s1).holding {inode}) :=
      (tables.over s).onDisk_holding ran rebound.links
    obtain ⟨res,fails,negative⟩ := dirRemove_dots named' s1 src.parentDir
    have fails : removeEntry src inode ((fs.over s1).holding {inode}) = .error (.abort ()) :=
      (tables.over s1).remove_fails fails (by omega)
    rw [renameRest,act_bind ran,over_over,if_neg (lt_irrefl _),act_stop fails]
  · exact absurd room full

theorem renameRest_moves (goodSrc : GoodName src.name)
    (distinct : ¬(src.parentDir = dst.parentDir ∧ src.name = dst.name))
    (isDir : isdir = true ↔ LiveDir s inode) (room : HasSpace s dst.parentDir dst.name)
    (child : Child s src.parentDir src.name inode) :
    ∃ s' e, renameRest dst src inode isdir ((fs.over s).holding {inode}) = .ok (0,fs.over s') ∧
      MoveEvent s dst src inode e ∧ Evolves ((fs.over s).holding {inode}) [e,.release inode] (fs.over s') := by
  have store : ((fs.over s).holding {inode}).store = s := (tables.over s).holding_store
  have target : GoodTarget inode := sane.good (by rw [store]; exact named)
  have names : ((fs.over s).holding {inode}).space.names = s.names := congrArg Store.names store
  have dirAllowed : Naming.IsDir dirDots ((fs.over s).holding {inode}).space.names dst.parentDir := by
    rw [names]
    exact isDir_iff.mpr live
  have freeAllowed : ((fs.over s).holding {inode}).space.names dst.parentDir dst.name = none := by
    rw [names]
    exact free
  obtain ⟨_,up⟩ := sane.valid.rooted.named dirAllowed freeAllowed
  rcases live.insert free goodDst target with ⟨_,s1,ran,inserted⟩ | ⟨full,_⟩
  · have ran : onDisk (dirInsert · dst.parentDir dst.name inode) ((fs.over s).holding {inode}) =
        .ok (0,((fs.over s).over s1).holding {inode}) :=
      (tables.over s).onDisk_holding ran inserted.links
    -- the source is still bound
    have bound : s1.names src.parentDir src.name = some inode := by
      rw [inserted.names,Naming.bind_apply,if_neg distinct]
      exact names_iff.mpr child.1
    obtain ⟨s2,ran2,removed⟩ := (names_iff.mp bound).live.remove bound goodSrc child.2
    have links2 (n : Int) : s2.nlinksOf n = s1.nlinksOf n := removed.links n
    have ran2 : removeEntry src inode ((fs.over s1).holding {inode}) =
        .ok ((),(fs.over s2).holding {inode}) := by
      have step : onDisk (dirRemove · src.parentDir src.name) ((fs.over s1).holding {inode}) =
          .ok (inode,((fs.over s1).over s2).holding {inode}) :=
        (tables.over s1).onDisk_holding ran2 links2
      rw [removeEntry,act_bind step,over_over,assert_true rfl]
    have names2 : s2.names = Naming.rename s.names dst.parentDir dst.name inode src.parentDir src.name := by
      rw [removed.names,inserted.names]
      rfl
    have moved : Rebound s s2 _ := inserted.trans removed
    rw [renameRest,act_bind ran,over_over,if_neg (lt_irrefl _),act_bind ran2]
    have childAllowed : Naming.Child dirDots ((fs.over s).holding {inode}).space.names
        src.parentDir src.name inode := by
      rw [names]
      exact child_iff.mpr child
    by_cases directory : LiveDir s inode
    · have inner : LiveDir s2 inode := by
        rw [← isDir_iff,Naming.IsDir,names2,Naming.rename_up up child.2.2]
        exact isDir_iff.mpr directory
      have above : GoodTarget dst.parentDir := sane.good (by
        rw [store]
        exact live.live.some)
      obtain ⟨s3,ran3,reparented⟩ := inner.reparent above
      have ran3 : onDisk (dirReparent · inode dst.parentDir) ((fs.over s2).holding {inode}) =
          .ok (0,((fs.over s2).over s3).holding {inode}) :=
        (tables.over s2).onDisk_holding ran3 reparented.links
      have whole := moved.trans reparented
      have names3 : s3.names = Naming.move dirDots s.names dst.parentDir dst.name inode
          src.parentDir src.name := by
        rw [whole.names,names2]
        rfl
      have evolves := sane.rebound (tables.over s) whole (e := .move dst.parentDir dst.name inode
        src.parentDir src.name) ⟨dirAllowed,freeAllowed,by rw [names]; exact isDir_iff.mpr directory,
          childAllowed⟩ (by
            rw [← whole.names,names3,← names]
            rfl)
      rw [over_over] at evolves
      obtain ⟨s4,closed,released⟩ := evolves.sane.close tables (whole.some named)
      refine ⟨s4,_,?_,.dir directory,evolves.append released⟩
      rw [if_pos (isDir.mpr directory),act_bind ran3,over_over,act_bind (assert_true rfl),act_bind closed]
      rfl
    · have evolves := sane.rebound (tables.over s) moved (e := .rename dst.parentDir dst.name inode
        src.parentDir src.name) ⟨dirAllowed,freeAllowed,by rw [names]; exact mt isDir_iff.mp directory,
          childAllowed⟩ (by
            rw [← moved.names,names2,← names]
            rfl)
      rw [over_over] at evolves
      obtain ⟨s4,closed,released⟩ := evolves.sane.close tables (moved.some named)
      refine ⟨s4,_,?_,.plain directory,evolves.append released⟩
      rw [if_neg (mt isDir.mp directory),act_bind closed]
      rfl
  · exact absurd room full

end

theorem pathRename_eq (dstpath srcpath : Int) (user group : Nat) :
    pathRename dstpath srcpath user group = (do
      match ← onPath srcpath with
      | none => pure (-1)
      | some src =>
        match ← onPath dstpath with
        | none => pure (-1)
        | some dst => do
          let inode ← pathGet srcpath
          if inode < 0 then pure (-eNOENT)
          else do
            let ores ← reading (.ok <| permCheck · dst.parentDir permWrite user group)
            if ores < 0 then do
              closeHeld inode
              pure ores
            else do
              let ores ← reading (.ok <| permCheck · src.parentDir permWrite user group)
              if ores < 0 then do
                closeHeld inode
                pure ores
              else
                match ← getinfo inode with
                | none => failed
                | some info => do
                  match ← renameTarget dst dstpath inode (decide (sISDIR info.mode)) with
                  | some ores => pure ores
                  | none => renameRest dst src inode (decide (sISDIR info.mode))) := rfl

theorem pathRename_happens (sane : Sane fs) (dstOpen : OpenPath fs dstpath dst)
    (srcOpen : OpenPath fs srcpath src)
    (distinct : ¬(src.parentDir = dst.parentDir ∧ src.name = dst.name)) (user group : Nat) :
    (RenameBreaks fs dst src user group ∧
      pathRename dstpath srcpath user group fs = .error (.abort ())) ∨
    (¬RenameBreaks fs dst src user group ∧
      Happens (pathRename dstpath srcpath user group fs) fs (Renaming fs dst src user group)) := by
  have tree := sane.tree
  have handle : onPath srcpath (fs.holding 0) = _ := srcOpen.onPath tree
  have handle' : onPath dstpath (fs.holding 0) = _ := dstOpen.onPath tree
  have got := srcOpen.get tree 0
  rw [holding_zero] at handle handle' got
  rw [pathRename_eq,act_bind handle]
  dsimp only
  rw [act_bind handle']
  dsimp only
  rcases got with ⟨inode,entry,live,got⟩ | ⟨none,got⟩
  · have back : closeHeld inode (fs.holding (inode ::ₘ 0)) = .ok ((),fs.holding 0) := tree.close_live live
    rw [holding_zero] at back
    rw [act_bind got,if_neg (not_lt.mpr live.nonneg),act_bind (tree.check ..)]
    by_cases dstDenied : permCheck fs.store dst.parentDir permWrite user group < 0
    · rw [if_pos dstDenied,act_bind back]
      exact .inr ⟨fun breaks => absurd breaks.into (not_le.mpr dstDenied),_,_,_,rfl,.refl sane,rfl,
        .denied _ dstDenied fun both => absurd both.1 (not_le.mpr dstDenied),fun _ => .refl⟩
    rw [if_neg dstDenied,act_bind (tree.check ..)]
    by_cases srcDenied : permCheck fs.store src.parentDir permWrite user group < 0
    · rw [if_pos srcDenied,act_bind back]
      exact .inr ⟨fun breaks => absurd breaks.from' (not_le.mpr srcDenied),_,_,_,rfl,.refl sane,rfl,
        .denied _ srcDenied fun both => absurd both.2 (not_le.mpr srcDenied),fun _ => .refl⟩
    rw [if_neg srcDenied]
    obtain ⟨info,named,dir,asked⟩ := tree.getinfo live (inode ::ₘ 0)
    have isDir : decide (sISDIR info.mode) = true ↔ LiveDir fs.store inode := by rw [decide_eq_true_iff,dir]
    rw [act_bind asked]
    dsimp only
    generalize decide (sISDIR info.mode) = isdir at isDir ⊢
    have into := dstOpen.live tree (not_lt.mp dstDenied)
    have unique {other : Int} (again : Entry fs.store src.parentDir src.name other) : inode = other :=
      entry.unique again
    rcases renameTarget_spec tree dstOpen live isDir with ⟨dots,stops⟩ | ⟨dots,outcome⟩
    · rw [Multiset.cons_zero,act_stop stops]
      exact .inl ⟨⟨not_lt.mp dstDenied,not_lt.mp srcDenied,inode,entry,.inl dots⟩,rfl⟩
    rw [Multiset.cons_zero]
    rcases outcome with ⟨res,negative,refused,current,target,unfit⟩ | ⟨s',gone,ran⟩
    · rw [act_bind refused]
      refine .inr ⟨fun breaks => ?_,_,_,_,rfl,.refl sane,rfl,
        .refused res inode current negative entry target unfit,fun _ => .refl⟩
      obtain ⟨other,again,broken | ⟨_,⟨none,_⟩ | ⟨current',child,fit,_⟩⟩⟩ := breaks.source
      · exact dots (unique again ▸ broken)
      · exact none current target
      · rw [← unique again] at fit
        exact unfit (target.unique child.1 ▸ fit)
    · have vacated := gone.vacated sane live.some dstOpen.good
      obtain ⟨es,events,evolves⟩ := gone.evolves sane live.some
      have start := (sane.hold live.some).append evolves
      have kept : s'.inode inode ≠ none := by
        have some := evolves.sane.valid.opened inode (by
          change ((fs.over s').holding {inode}).opens inode ≠ 0
          rw [(sane.tables.over s').opens_holding,if_pos (sane.fits live.some),
            Multiset.count_singleton_self]
          omega)
        rw [object_some,(sane.tables.over s').holding_store] at some
        exact some
      rw [act_bind ran]
      dsimp only
      by_cases room : HasSpace s' dst.parentDir dst.name
      · by_cases named' : src.name = dot ∨ src.name = dotdot
        · rw [renameRest_dots evolves.sane sane.tables (vacated.dir into) vacated.free dstOpen.good kept
            isdir room named']
          exact .inl ⟨⟨not_lt.mp dstDenied,not_lt.mp srcDenied,inode,entry,
            .inr ⟨named',vacated.space.mp room⟩⟩,rfl⟩
        · have child : Child fs.store src.parentDir src.name inode := ⟨entry,not_or.mp named'⟩
          obtain ⟨child',kind⟩ := vacated.others _ _ _ child distinct
          obtain ⟨s'',e,ran,moves,rest⟩ := renameRest_moves evolves.sane sane.tables (vacated.dir into)
            vacated.free dstOpen.good kept isdir srcOpen.good distinct (isDir.trans kind.symm) room child'
          refine .inr ⟨fun breaks => ?_,_,_,_,ran,start.append rest,rfl,?_,
            fun none => absurd none (List.cons_ne_nil _ _)⟩
          · obtain ⟨other,again,broken | ⟨named,_⟩⟩ := breaks.source
            · exact dots (unique again ▸ broken)
            · exact named' named
          · refine .moved inode child es events (vacated.space.mp room) e ?_
            cases moves with
            | dir live => exact .dir (kind.mp live)
            | plain plain => exact .plain (mt kind.mpr plain)
      · obtain ⟨s'',ran,rest⟩ := renameRest_full evolves.sane sane.tables (vacated.dir into)
          vacated.free dstOpen.good kept isdir src room
        have full := mt vacated.space.mpr room
        refine .inr ⟨fun breaks => ?_,_,_,_,ran,start.append rest,rfl,
          .full inode entry es events full,fun none => absurd none (List.cons_ne_nil _ _)⟩
        obtain ⟨other,again,broken | ⟨_,proceeds⟩⟩ := breaks.source
        · exact dots (unique again ▸ broken)
        · exact full (unique again ▸ proceeds)
  · rw [act_bind got]
    refine .inr ⟨fun breaks => ?_,_,_,_,rfl,.refl sane,rfl,.absent none,fun _ => .refl⟩
    obtain ⟨inode,entry,_⟩ := breaks.source
    exact none inode entry

/-- A directory is to be named in itself or below. -/
def Encloses (fs : Fs) (dst src : OpenPathNode) : Prop :=
  ∃ inode, Entry fs.store src.parentDir src.name inode ∧ LiveDir fs.store inode ∧
    Naming.Above dirDots fs.space.names dst.parentDir inode

theorem TargetEvents.calm {es : List FsEvent} (target : TargetEvents s dst inode es) :
    ∀ e ∈ es, ∀ space, ¬e.Detaches dirDots space := by
  cases target with
  | absent => exact fun e none => absurd none List.not_mem_nil
  | replaced current =>
    intro e member space
    simp only [List.mem_cons,List.not_mem_nil,or_false] at member
    rcases member with rfl | rfl | rfl <;> exact not_false

theorem TargetEvents.above {es : List FsEvent} (sane : Sane fs) (target : TargetEvents fs.store dst inode es)
    (allows : fs.space.Allows dirDots ([.hold inode] ++ es)) :
    Naming.Above dirDots (fs.space.run dirDots ([.hold inode] ++ es)).names dst.parentDir inode ↔
      Naming.Above dirDots fs.space.names dst.parentDir inode := by
  cases target with
  | absent => exact Iff.rfl
  | replaced current child =>
    obtain ⟨child,childless,_⟩ := allows.2.2.1
    refine Naming.above_remove sane.valid.rooted child childless ?_
    intro same
    rw [same] at child
    exact childless _ _ child

end

end CandyFs

