import CandyFs.Removal

/-! What `path_rename` does, step by step.
-/
namespace CandyFs
open Bytes

section
variable [Geometry] {fs : Fs} {s s' : Store} {held : Multiset Int} {inode directory parent target : Int}
  {m : Bindings} {dst src : OpenPathNode} {dstpath srcpath : Int} {user group : Nat}

theorem dirRemove_dots {name : Name} (named : name = dot ∨ name = dotdot) (s : Store) (directory : Int) :
    ∃ res, dirRemove s directory name = .ok (res,s) ∧ res < 0 := by
  unfold dirRemove
  split
  · exact ⟨_,rfl,by decide⟩
  · split
    · exact ⟨_,rfl,by decide⟩
    · split
      · exact ⟨_,rfl,by decide⟩
      · rcases named with rfl | rfl
        · exact ⟨_,rfl,by decide⟩
        · exact ⟨_,rfl,by decide⟩

/-- The target may be replaced: both are directories, the target an empty one, or neither is one. -/
def Replaceable (s : Store) (inode current : Int) : Prop :=
  LiveDir s inode ∧ EmptyDir s current ∨ ¬LiveDir s inode ∧ ¬LiveDir s current

/-- The disk without the target of a renaming. -/
inductive TargetGone (fs : Fs) (dst : OpenPathNode) (inode : Int) : Store → Prop where
  | absent (none : ∀ current, ¬Entry fs.store dst.parentDir dst.name current) :
      TargetGone fs dst inode fs.store
  | replaced (current : Int) (child : Child fs.store dst.parentDir dst.name current)
      (fit : Replaceable fs.store inode current) (s' : Store)
      (cleared : Cleared fs {inode} dst.parentDir dst.name current s') : TargetGone fs dst inode s'

/-- The target is an empty directory that is named by `.` or `..`, and a directory is to replace it. -/
structure TargetDots (s : Store) (dst : OpenPathNode) (inode : Int) : Prop where
  dots : dst.name = dot ∨ dst.name = dotdot
  source : LiveDir s inode
  empty : ∃ current, Entry s dst.parentDir dst.name current ∧ EmptyDir s current

theorem renameTarget_spec (tree : Tree fs) (opened : OpenPath fs dstpath dst) (live : Live fs.store inode)
    {isdir : Bool} (isDir : isdir = true ↔ LiveDir fs.store inode) :
    (TargetDots fs.store dst inode ∧
      renameTarget dst dstpath inode isdir (fs.holding {inode}) = .error (.abort ())) ∨
    ¬TargetDots fs.store dst inode ∧
    ((∃ res, res < 0 ∧ renameTarget dst dstpath inode isdir (fs.holding {inode}) = .ok (some res,fs) ∧
      ∃ current, Entry fs.store dst.parentDir dst.name current ∧ ¬Replaceable fs.store inode current) ∨
    ∃ s', TargetGone fs dst inode s' ∧
      renameTarget dst dstpath inode isdir (fs.holding {inode}) =
        .ok (none,(fs.over s').holding {inode})) := by
  rw [renameTarget]
  rcases opened.get tree {inode} with ⟨current,entry,live',got⟩ | ⟨none,got⟩
  · obtain ⟨info,named,dir,asked⟩ := tree.getinfo live' (current ::ₘ {inode})
    have back : closeHeld inode (fs.holding (current ::ₘ {inode})) = .ok ((),fs.holding {current}) := by
      rw [← Multiset.cons_zero,Multiset.cons_swap]
      exact tree.close_live live
    have back' : closeHeld current (fs.holding {current}) = .ok ((),fs) := by
      rw [← Multiset.cons_zero,tree.close_live live',holding_zero]
    have dots : TargetDots fs.store dst inode → EmptyDir fs.store current := fun breaks => by
      obtain ⟨other,entry',empty⟩ := breaks.empty
      exact entry.unique entry' ▸ empty
    rw [act_bind got,if_neg (not_lt.mpr live'.nonneg),act_bind asked]
    dsimp only
    -- the entry is removed when it is not `.` or `..`
    have removes {s0 : Store} (fit : Replaceable fs.store inode current)
        (child : Child fs.store dst.parentDir dst.name current)
        (ready : s0 = fs.store ∧ ¬fs.store.isDir current ∨
          EmptyDir fs.store current ∧ Destroyed fs.store s0 current) :
        ∃ s', TargetGone fs dst inode s' ∧ (removeEntry dst current >>= fun _ =>
          unlinkHeld current >>= fun _ => pure none : Act (Option Int))
            ((fs.over s0).holding (current ::ₘ {inode})) = .ok (none,(fs.over s').holding {inode}) := by
      obtain ⟨s1,removed,unlinked,cleared⟩ := tree.clear {inode} child opened.good ready
      exact ⟨_,.replaced current child fit _ cleared,by rw [act_bind removed,act_bind unlinked]; rfl⟩
    by_cases into : LiveDir fs.store current
    · rw [if_pos (dir.mpr into)]
      by_cases directory : LiveDir fs.store inode
      · rw [if_neg (by rw [isDir.mpr directory]; decide)]
        by_cases empty : EmptyDir fs.store current
        · obtain ⟨s0,ran,destroyed⟩ := empty.destroy
          rw [act_bind (tree.tables.onDisk_holding ran destroyed.links),if_neg (lt_irrefl _),
            act_bind act_pure,if_neg (not_not.mpr rfl)]
          by_cases named : dst.name = dot ∨ dst.name = dotdot
          · have same := tree.rooted.dots_empty entry named empty
            rw [act_stop (destroyed.remove_fails tree.tables same.symm live'.nonneg)]
            exact .inl ⟨⟨named,directory,current,entry,empty⟩,rfl⟩
          · exact .inr ⟨fun breaks => named breaks.dots,.inr (removes (.inl ⟨directory,empty⟩)
              ⟨entry,not_or.mp named⟩ (.inr ⟨empty,destroyed⟩))⟩
        · obtain ⟨parent,m,holds⟩ := into.holds
          rw [act_bind (tree.tables.onDisk_holding (holds.destroy empty) fun _ => rfl),
            tree.tables.over_self,if_pos (by decide),act_bind back,act_bind back',act_bind act_pure]
          refine .inr ⟨fun breaks => empty (dots breaks),.inl ⟨-eNOTEMPTY,by decide,rfl,current,entry,?_⟩⟩
          rintro (⟨_,empty'⟩ | ⟨file,_⟩)
          · exact empty empty'
          · exact file directory
      · rw [if_pos (by rw [← Bool.not_eq_true]; exact mt isDir.mp directory),act_bind back,
          act_bind back',act_bind act_pure]
        refine .inr ⟨fun breaks => directory breaks.source,.inl ⟨-eISDIR,by decide,rfl,current,entry,?_⟩⟩
        rintro (⟨source,_⟩ | ⟨_,file⟩)
        · exact directory source
        · exact file into
    · have file : ¬EmptyDir fs.store current := fun empty => into (live'.dir_iff.mpr empty.isDir)
      rw [if_neg (mt dir.mp into)]
      by_cases directory : LiveDir fs.store inode
      · rw [if_pos (isDir.mpr directory),act_bind back,act_bind back',act_bind act_pure]
        refine .inr ⟨fun breaks => file (dots breaks),.inl ⟨-eNOTDIR,by decide,rfl,current,entry,?_⟩⟩
        rintro (⟨_,empty⟩ | ⟨source,_⟩)
        · exact file empty
        · exact source directory
      · rw [if_neg (mt isDir.mp directory),act_bind act_pure,if_neg (not_not.mpr rfl)]
        have child : Child fs.store dst.parentDir dst.name current :=
          ⟨entry,fun same => into (tree.rooted.dots entry (.inl same)),
            fun same => into (tree.rooted.dots entry (.inr same))⟩
        have gone := removes (.inr ⟨directory,into⟩) child (.inl ⟨rfl,mt live'.dir_iff.mpr into⟩)
        rw [tree.tables.over_self] at gone
        exact .inr ⟨fun breaks => directory breaks.source,.inr gone⟩
  · rw [act_bind got]
    refine .inr ⟨fun breaks => ?_,.inr ⟨fs.store,.absent none,?_⟩⟩
    · obtain ⟨current,entry,_⟩ := breaks.empty
      exact none current entry
    · rw [tree.tables.over_self]
      rfl

end

end CandyFs
