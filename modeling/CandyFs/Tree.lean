import CandyFs.DirCalls
import CandyFs.PathOps

/-! File systems whose directories are named by those above them, and the handles of paths in them.
-/
namespace CandyFs
open Bytes

section
variable [Geometry]

/-- The directory binds the name. -/
def Entry (s : Store) (directory : Int) (name : Name) (target : Int) : Prop :=
  0 ≤ directory ∧ ∃ parent m, HoldsMap s directory parent m ∧ m name = some target

/-- The directory binds a name other than its first two. -/
def Child (s : Store) (directory : Int) (name : Name) (target : Int) : Prop :=
  Entry s directory name target ∧ name ≠ dot ∧ name ≠ dotdot

/-- Every directory but the root is bound by the one that its `..` names, under one name and nowhere
else, and no inode has a negative number. -/
structure Rooted (s : Store) : Prop where
  outside : ∀ n < 0, s.inode n = none
  up : ∀ directory parent, Entry s directory dotdot parent → LiveDir s parent
  top : ∀ parent, Entry s 0 dotdot parent → parent = 0
  below : ∀ directory name target, Child s directory name target → LiveDir s target →
    target ≠ 0 ∧ Entry s target dotdot directory
  once : ∀ directory name name' target, Child s directory name target →
    Child s directory name' target → LiveDir s target → name = name'
  listed : ∀ directory parent, Entry s directory dotdot parent → directory ≠ 0 →
    ∃ name, Child s parent name directory

/-- A well-formed file system. Directories that the root does not reach may be in a circle. -/
structure Tree (fs : Fs) : Prop extends WellFormed fs where
  rooted : Rooted fs.store

/-- An open handle. There may be no directory to it, where the code goes by what a buffer holds; a
handle whose directory has been removed since is left out. -/
structure OpenPath (fs : Fs) (path : Int) (node : OpenPathNode) : Prop where
  opened : fs.path path = some node
  directory : node.parentDir = eof ∨ LiveDir fs.store node.parentDir
  good : GoodName node.name

/-- Handles got from `path_open`, one after the other. -/
inductive Opened (fs : Fs) : Fs → List Int → Prop where
  | nil : Opened fs fs []
  | cons {fs1 fs2 : Fs} {paths : List Int} {path : Name} {deref : Bool} {user group : Nat}
      {noblock handle : Int} (before : Opened fs fs1 paths) (noNul : 0 ∉ path)
      (ran : pathOpen path deref user group noblock fs1 = .ok (handle,fs2)) (some : 0 ≤ handle) :
      Opened fs fs2 (handle :: paths)

end

section
variable [Geometry] {s : Store} {fs : Fs} {held : Multiset Int} {directory target target' parent : Int}
  {name path : Name} {m : Bindings}

theorem Entry.unique (entry : Entry s directory name target) (entry' : Entry s directory name target') :
    target = target' := by
  obtain ⟨_,_,m,holds,bound⟩ := entry
  obtain ⟨_,_,m',holds',bound'⟩ := entry'
  obtain ⟨_,rfl⟩ := holds.unique holds'
  exact Option.some.inj (bound.symm.trans bound')

theorem Entry.bound (entry : Entry s directory name target) (holds : HoldsMap s directory parent m) :
    m name = some target := by
  obtain ⟨_,_,m',holds',bound⟩ := entry
  obtain ⟨_,rfl⟩ := holds.unique holds'
  exact bound

theorem LiveDir.entry (live : LiveDir s directory) : ∃ parent, Entry s directory dotdot parent := by
  obtain ⟨parent,m,holds⟩ := live.holds
  exact ⟨parent,live.nonneg,parent,m,holds,holds.above⟩

theorem Entry.live (entry : Entry s directory name target) : LiveDir s directory := by
  obtain ⟨nonneg,parent,m,holds,_⟩ := entry
  exact ⟨nonneg,parent,m,holds⟩

theorem WellFormed.bound (wf : WellFormed fs) (entry : Entry fs.store directory name target) :
    Live fs.store target := by
  obtain ⟨nonneg,parent,m,holds,bound⟩ := entry
  exact wf.entries directory parent m nonneg holds name target bound

theorem Child.used (child : Child s directory name target) : ¬EmptyDir s directory := by
  intro empty
  obtain ⟨node,parent,m,_,holds,only,_⟩ := empty.holds
  have bound := child.1.bound holds
  rcases only name (by rw [bound]; exact Option.some_ne_none _) with rfl | rfl
  · exact child.2.2 rfl
  · exact child.2.1 rfl

omit [Geometry] in
theorem lastName_some (path : Name) : lastName path ≠ [] := by
  unfold lastName
  dsimp only
  split
  · exact List.cons_ne_nil _ _
  · rename_i some
    -- the last character before the slashes at the end is none
    intro none
    rw [List.reverse_eq_nil_iff] at none
    rw [List.reverse_eq_nil_iff] at some
    obtain ⟨c,rest,split⟩ := List.exists_cons_of_ne_nil some
    have first := List.head_dropWhile_not (fun c => decide (c = slash)) some
    simp only [split,List.head_cons] at first
    rw [List.reverse_reverse,split,List.takeWhile_cons] at none
    simp only [decide_eq_false_iff_not] at first
    simp [first] at none

omit [Geometry] in
theorem lastName_noNul (noNul : 0 ∉ path) : 0 ∉ lastName path := by
  unfold lastName
  dsimp only
  split
  · decide
  · intro member
    have member := (List.takeWhile_sublist _).subset (List.mem_reverse.mp member)
    rw [List.reverse_reverse] at member
    exact noNul (List.mem_reverse.mp ((List.dropWhile_sublist _).subset member))

theorem WellFormed.holding (wf : WellFormed fs) (live : ∀ inode ∈ held, Live fs.store inode) :
    WellFormed (fs.holding held) := by
  have store : (fs.holding held).store = fs.store := wf.tables.holding_store
  have opens (inode : Int) : (fs.holding held).opens inode ≠ 0 →
      fs.opens inode ≠ 0 ∨ inode ∈ held := fun some => by
    rw [wf.tables.opens_holding] at some
    by_contra none
    obtain ⟨closed,free⟩ := not_or.mp none
    rw [not_not.mp closed,Multiset.count_eq_zero.mpr free] at some
    simp at some
  have closed (inode : Int) : (fs.holding held).opens inode = 0 → fs.opens inode = 0 := fun none => by
    rw [wf.tables.opens_holding] at none
    omega
  constructor
  case sound => rw [store]; exact wf.sound
  case tables => exact wf.tables.holding
  case opened =>
    intro inode some
    rw [store]
    rcases opens inode some with some | member
    · exact wf.opened inode some
    · exact ⟨(live inode member).nonneg,(live inode member).some⟩
  case linked =>
    intro inode info nonneg named none
    rw [store] at named
    exact wf.linked inode info nonneg named (closed inode none)
  case root => rw [store]; exact wf.root
  case entries => rw [store]; exact wf.entries
  case symlinks => rw [store]; exact wf.symlinks

theorem WellFormed.setPath (wf : WellFormed fs) (handle : Nat) (node : OpenPathNode) :
    WellFormed (fs.setPath handle node) :=
  ⟨wf.sound,⟨wf.tables.sorted,wf.tables.hashed,wf.tables.fits,wf.tables.held,wf.tables.cached⟩,
    wf.opened,wf.linked,wf.root,wf.entries,wf.symlinks⟩

omit [Geometry] in
/-- What the scan of the table finds: a free handle, and that the path is not open already. -/
theorem pathChoose_spec {table : Nat → OpenPathNode} {noblock : Int} (handles : List Nat) :
    ∀ {chosen result : Int}, pathChoose table directory name noblock handles chosen = .ok (some result) →
      (result = chosen ∨ ∃ handle ∈ handles, result = handle ∧ (table handle).refs = 0) ∧
      ∀ handle ∈ handles, (table handle).refs ≠ 0 →
        ¬((table handle).parentDir = directory ∧ (table handle).name = name) := by
  induction handles with
  | nil =>
    intro chosen result ran
    cases ran
    exact ⟨.inl rfl,fun _ none => absurd none List.not_mem_nil⟩
  | cons handle rest ih =>
    intro chosen result ran
    rw [pathChoose] at ran
    split at ran
    · rename_i unused
      obtain ⟨found,others⟩ := ih ran
      refine ⟨.inr ?_,fun other member used => ?_⟩
      · rcases found with rfl | ⟨other,member,rfl,free⟩
        · exact ⟨handle,List.mem_cons_self,rfl,unused⟩
        · exact ⟨other,List.mem_cons_of_mem _ member,rfl,free⟩
      · rcases List.mem_cons.mp member with rfl | member
        · exact absurd unused used
        · exact others other member used
    · split at ran
      · split at ran
        · cases ran
        · cases ran
      · rename_i used differ
        obtain ⟨found,others⟩ := ih ran
        refine ⟨?_,fun other member used => ?_⟩
        · rcases found with same | ⟨other,member,same,free⟩
          · exact .inl same
          · exact .inr ⟨other,List.mem_cons_of_mem _ member,same,free⟩
        · rcases List.mem_cons.mp member with rfl | member
          · exact differ
          · exact others other member used

/-- The part of `path_open` behind the resolution of the path. -/
def pathInstall (path : Name) (noblock curdir : Int) : Act Int := do
  let token := lastName path
  if token.length > nameMax then do
    let res ← refsClose curdir
    assert (res = 0)
    pure (-eNAMETOOLONG)
  else do
    let fs ← get
    match ← reading fun _ => pathChoose fs.openPathTable curdir token noblock (List.range maxOpenPaths) (-1) with
    | none => do
      let res ← refsClose curdir
      assert (res = 0)
      pure (-eWOULDBLOCK)
    | some chosen =>
      if chosen = -1 then do
        let res ← refsClose curdir
        assert (res = 0)
        pure (-eNOMEM)
      else do
        modify (·.setPath chosen.toNat ⟨1,curdir,token⟩)
        pure chosen

theorem pathOpen_eq (path : Name) (deref : Bool) (user group : Nat) (noblock : Int) :
    pathOpen path deref user group noblock = (do
      let (target,curdir) ← namei path (some eof) eof deref user group
      if target < 0 ∧ target ≠ eof then pure target
      else if target ≠ eof then do
        let res ← refsClose target
        assert (res = 0)
        pathInstall path noblock curdir
      else pathInstall path noblock curdir) := rfl

/-- The handle of a path that is not open already. -/
structure Installed (fs fs' : Fs) (path : Name) (curdir handle : Int) : Prop where
  nonneg : 0 ≤ handle
  inside : handle < maxOpenPaths
  unused : (fs.openPathTable handle.toNat).refs = 0
  others : ∀ other < maxOpenPaths, (fs.openPathTable other).refs ≠ 0 →
    ¬((fs.openPathTable other).parentDir = curdir ∧ (fs.openPathTable other).name = lastName path)
  short : (lastName path).length ≤ nameMax
  done : fs' = fs.setPath handle.toNat ⟨1,curdir,lastName path⟩

theorem closed_negative {fs' : Fs} {inode answer handle : Int} (negative : answer < 0)
    (ran : (do
      let res ← refsClose inode
      assert (res = 0)
      pure answer : Act Int) fs = .ok (handle,fs')) : handle < 0 := by
  change (refsClose inode fs >>= fun result => (assert (result.1 = 0) >>= fun _ => pure answer) result.2) = _ at ran
  obtain ⟨⟨res,fs1⟩,_,ran⟩ := bind_ok.mp ran
  dsimp only at ran
  by_cases zero : res = 0
  · rw [act_bind (assert_true zero)] at ran
    cases ran
    exact negative
  · rw [act_stop (assert_false zero)] at ran
    cases ran

theorem pathInstall_spec {fs' : Fs} {noblock curdir handle : Int}
    (ran : pathInstall path noblock curdir fs = .ok (handle,fs')) (nonneg : 0 ≤ handle) :
    Installed fs fs' path curdir handle := by
  rw [pathInstall] at ran
  split at ran
  · exact absurd nonneg (not_le.mpr (closed_negative (by decide) ran))
  · rename_i short
    rw [act_bind act_get] at ran
    generalize all : List.range maxOpenPaths = handles at ran
    obtain ⟨scan,scanned⟩ : ∃ scan : Try (Option Int),
        pathChoose fs.openPathTable curdir (lastName path) noblock handles (-1) = scan := ⟨_,rfl⟩
    rw [scanned] at ran
    cases scan with
    | error fault =>
      have stopped : reading (fun _ => .error fault : Store → Try (Option Int)) fs = .error fault := rfl
      rw [act_stop stopped] at ran
      cases ran
    | ok found =>
      have read : reading (fun _ => .ok found : Store → Try (Option Int)) fs = .ok (found,fs) := rfl
      rw [act_bind read] at ran
      cases found with
      | none => exact absurd nonneg (not_le.mpr (closed_negative (by decide) ran))
      | some result =>
        dsimp only at ran
        split at ran
        · exact absurd nonneg (not_le.mpr (closed_negative (by decide) ran))
        · rename_i some
          have same : handle = result ∧ fs' = fs.setPath result.toNat ⟨1,curdir,lastName path⟩ := by
            cases ran
            exact ⟨rfl,rfl⟩
          obtain ⟨rfl,rfl⟩ := same
          obtain ⟨found,others⟩ := pathChoose_spec _ scanned
          rcases found with none | ⟨k,member,rfl,unused⟩
          · exact absurd none some
          · subst all
            exact ⟨Int.natCast_nonneg k,by exact_mod_cast List.mem_range.mp member,
              by rw [Int.toNat_natCast]; exact unused,
              fun other low => others other (List.mem_range.mpr low),not_lt.mp short,rfl⟩

theorem pathOpen_spec (wf : WellFormed fs) {fs' : Fs} {deref : Bool} {user group : Nat}
    {noblock handle : Int} (ran : pathOpen path deref user group noblock fs = .ok (handle,fs'))
    (nonneg : 0 ≤ handle) : ∃ curdir held, (curdir = eof ∨ LiveDir fs.store curdir ∧ curdir ∈ held) ∧
      (∀ inode ∈ held, Live fs.store inode) ∧ Installed (fs.holding held) fs' path curdir handle := by
  have none : ∀ inode ∈ (0 : Multiset Int), 0 ≤ inode := fun _ none =>
    absurd none (Multiset.notMem_zero _)
  have walked : namei path (some eof) eof deref user group (fs.holding 0) =
      (walkPath fs.store user group path 0 deref).settle fs 0 := namei_eof wf none
  have good := walkPath_good wf user group path deref wf.root
  rw [holding_zero] at walked
  rw [pathOpen_eq] at ran
  generalize walkPath fs.store user group path 0 deref = outcome at walked good
  cases outcome with
  | found last current =>
    rw [Outcome.settle] at walked
    rw [act_bind walked] at ran
    dsimp only at ran
    have named : current ≠ eof := fun same => absurd good.2.nonneg (by rw [same]; decide)
    rw [if_neg fun both => absurd good.2.nonneg (not_le.mpr both.1),if_pos named,
      act_bind (wf.close good.2),act_bind (assert_true rfl)] at ran
    refine ⟨last,{last},.inr ⟨good.1,Multiset.mem_singleton_self last⟩,fun inode member => ?_,
      pathInstall_spec ran nonneg⟩
    rw [Multiset.mem_singleton.mp member]
    exact good.1.live
  | absent dir why answer =>
    rw [Outcome.settle] at walked
    rw [act_bind walked] at ran
    dsimp only at ran
    by_cases missing : answer = eof
    · rw [if_neg fun both => both.2 missing,if_neg (not_not.mpr missing)] at ran
      refine ⟨dir,{dir},.inr ⟨good.1,Multiset.mem_singleton_self dir⟩,fun inode member => ?_,
        pathInstall_spec ran nonneg⟩
      rw [Multiset.mem_singleton.mp member]
      exact good.1.live
    · rw [if_pos ⟨good.2,missing⟩] at ran
      cases ran
      exact absurd nonneg (not_le.mpr good.2)
  | lost why answer leak =>
    rw [Outcome.settle] at walked
    rw [act_bind walked] at ran
    dsimp only at ran
    by_cases missing : answer = eof
    · rw [if_neg fun both => both.2 missing,if_neg (not_not.mpr missing)] at ran
      rw [add_zero] at ran
      exact ⟨eof,leak,.inl rfl,good.2,pathInstall_spec ran nonneg⟩
    · rw [if_pos ⟨good.1,missing⟩] at ran
      cases ran
      exact absurd nonneg (not_le.mpr good.1)
  | crash why =>
    rw [Outcome.settle] at walked
    rw [act_stop walked] at ran
    cases ran

omit [Geometry] in
theorem path_some {handle : Int} {node : OpenPathNode} : fs.path handle = some node ↔
    0 ≤ handle ∧ handle < maxOpenPaths ∧ node.refs ≠ 0 ∧ fs.openPathTable handle.toNat = node := by
  rw [Fs.path]
  split
  · rename_i bad
    refine iff_of_false (by simp) ?_
    rintro ⟨nonneg,inside,used,rfl⟩
    rcases bad with high | low | unused
    · omega
    · omega
    · exact used unused
  · rename_i fine
    obtain ⟨inside,nonneg,used⟩ := not_or.mp fine |>.imp_right not_or.mp
    constructor
    · rintro ⟨⟩
      exact ⟨not_lt.mp nonneg,not_le.mp inside,used,rfl⟩
    · rintro ⟨_,_,_,rfl⟩
      rfl

omit [Geometry] in
theorem Installed.path_other {fs' : Fs} {curdir handle other : Int} {node : OpenPathNode}
    (installed : Installed fs fs' path curdir handle) (opened : fs.path other = some node) :
    other ≠ handle ∧ fs'.path other = some node := by
  obtain ⟨nonneg,inside,used,entry⟩ := path_some.mp opened
  have differ : other.toNat ≠ handle.toNat := fun same => used (by
    rw [← entry,same]
    exact installed.unused)
  refine ⟨fun same => differ (by rw [same]),path_some.mpr ⟨nonneg,inside,used,?_⟩⟩
  rw [installed.done,Fs.setPath]
  dsimp only
  rw [Function.update_of_ne differ,entry]

omit [Geometry] in
theorem Installed.path_self {fs' : Fs} {curdir handle : Int}
    (installed : Installed fs fs' path curdir handle) :
    fs'.path handle = some ⟨1,curdir,lastName path⟩ := by
  refine path_some.mpr ⟨installed.nonneg,installed.inside,Nat.one_ne_zero,?_⟩
  rw [installed.done,Fs.setPath]
  exact Function.update_self ..

/-- What the handles got from `path_open` are for. -/
structure Handles (fs fs' : Fs) (paths : List Int) : Prop where
  tree : Tree fs'
  store : fs'.store = fs.store
  opened : ∀ path ∈ paths, ∃ node, OpenPath fs' path node
  distinct : ∀ path ∈ paths, ∀ path' ∈ paths, path ≠ path' → ∀ node node',
    fs'.path path = some node → fs'.path path' = some node' →
      ¬(node.parentDir = node'.parentDir ∧ node.name = node'.name)

theorem Opened.handles (tree : Tree fs) {fs' : Fs} {paths : List Int} (opened : Opened fs fs' paths) :
    Handles fs fs' paths := by
  induction opened with
  | nil =>
    exact ⟨tree,rfl,fun _ none => absurd none List.not_mem_nil,fun _ none => absurd none List.not_mem_nil⟩
  | @cons fs1 fs2 paths path deref user group noblock handle before noNul ran some ih =>
    obtain ⟨curdir,held,directory,live,installed⟩ := pathOpen_spec ih.tree.toWellFormed ran some
    have good : GoodName (lastName path) :=
      ⟨lastName_some path,installed.short,lastName_noNul noNul⟩
    have paths' : (fs1.holding held).openPathTable = fs1.openPathTable := ih.tree.tables.holding_paths
    have was {other : Int} {node : OpenPathNode} (entry : fs1.path other = Option.some node) :
        (fs1.holding held).path other = Option.some node := by
      rw [path_some] at entry ⊢
      rwa [paths']
    have wf := (ih.tree.toWellFormed.holding live).setPath handle.toNat ⟨1,curdir,lastName path⟩
    rw [← installed.done] at wf
    have store : fs2.store = fs1.store := by
      rw [installed.done]
      exact ih.tree.tables.holding_store
    have apart {other : Int} {node : OpenPathNode} (entry : fs1.path other = Option.some node) :
        ¬(node.parentDir = curdir ∧ node.name = lastName path) := by
      obtain ⟨nonneg,inside,used,same⟩ := path_some.mp (was entry)
      rw [← same]
      exact installed.others other.toNat (by omega) (by rw [same]; exact used)
    refine ⟨⟨wf,by rw [store]; exact ih.tree.rooted⟩,store.trans ih.store,fun other member => ?_,
      fun other member other' member' differ node node' entry entry' => ?_⟩
    · rcases List.mem_cons.mp member with rfl | member
      · exact ⟨_,installed.path_self,directory.imp_right fun found => by rw [store]; exact found.1,good⟩
      · obtain ⟨node,opened,dir,name⟩ := ih.opened other member
        exact ⟨node,(installed.path_other (was opened)).2,by rw [store]; exact dir,name⟩
    · rcases List.mem_cons.mp member with rfl | member
      · rcases List.mem_cons.mp member' with rfl | member'
        · exact absurd rfl differ
        · obtain ⟨old,opened,_,_⟩ := ih.opened other' member'
          obtain rfl := Option.some.inj (entry'.symm.trans (installed.path_other (was opened)).2)
          obtain rfl := Option.some.inj (entry.symm.trans installed.path_self)
          exact fun both => apart opened ⟨both.1.symm,both.2.symm⟩
      · obtain ⟨old,opened,_,_⟩ := ih.opened other member
        obtain rfl := Option.some.inj (entry.symm.trans (installed.path_other (was opened)).2)
        rcases List.mem_cons.mp member' with rfl | member'
        · obtain rfl := Option.some.inj (entry'.symm.trans installed.path_self)
          exact apart opened
        · obtain ⟨old',opened',_,_⟩ := ih.opened other' member'
          obtain rfl := Option.some.inj (entry'.symm.trans (installed.path_other (was opened')).2)
          exact ih.distinct other member other' member' differ _ _ opened opened'

end

end CandyFs
