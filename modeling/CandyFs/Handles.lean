import CandyFs.Making
import CandyFs.Renaming
import CandyFs.Triple

/-! Opening and closing paths and resolving them as events in the space of a file system. -/
namespace CandyFs
open Bytes
open Naming (net)
open Triple

section
variable [Geometry]

/-- From one file system to another by events that leave at least so many references more to each
inode. -/
structure Serves (fs : Fs) (gain : Int → Int) (fs' : Fs) : Prop where
  made : ∃ es, Evolves fs es fs' ∧ ∀ n, gain n ≤ net es n

/-- One reference to an inode. -/
def one (inode n : Int) : Int := if n = inode then 1 else 0

variable {fs fs' fs'' : Fs} {s s' : Store} {held fhs fhs' : Multiset Int} {gain gain' : Int → Int} {inode n : Int}
  {es : List FsEvent} {path : Name} {user group : Nat} {node : OpenPathNode} {handle : Int}

theorem Serves.sane (serves : Serves fs gain fs') : Sane fs' := by
  obtain ⟨es,evolves,_⟩ := serves.made
  exact evolves.sane

theorem Serves.refl (sane : Sane fs) : Serves fs (fun _ => 0) fs := ⟨[],.refl sane,fun _ => le_rfl⟩

theorem Serves.trans (serves : Serves fs gain fs') (serves' : Serves fs' gain' fs'') :
    Serves fs (fun n => gain n + gain' n) fs'' := by
  obtain ⟨es,evolves,least⟩ := serves.made
  obtain ⟨es',evolves',least'⟩ := serves'.made
  refine ⟨es ++ es',evolves.append evolves',fun n => ?_⟩
  rw [Naming.net_append]
  exact add_le_add (least n) (least' n)

theorem Serves.mono (serves : Serves fs gain fs') (le : ∀ n, gain' n ≤ gain n) : Serves fs gain' fs' := by
  obtain ⟨es,evolves,least⟩ := serves.made
  exact ⟨es,evolves,fun n => (le n).trans (least n)⟩

theorem Evolves.serves (evolves : Evolves fs es fs') (least : ∀ n, gain n ≤ net es n) : Serves fs gain fs' :=
  ⟨es,evolves,least⟩

theorem Serves.opens (sane : Sane fs) (serves : Serves fs gain fs') (n : Int) :
    (fs.opens n : Int) + gain n ≤ fs'.opens n := by
  obtain ⟨es,evolves,least⟩ := serves.made
  have count := sane.valid.opens_run n es evolves.allows
  rw [← evolves.space] at count
  change (fs'.opens n : Int) = fs.opens n + net es n at count
  rw [count]
  have := least n
  omega

theorem Sane.holds (sane : Sane fs) (live : ∀ inode ∈ held, Live fs.store inode) :
    Serves fs (fun n => held.count n) (fs.holding held) := by
  induction held using Multiset.induction with
  | empty =>
    rw [holding_zero]
    exact (Serves.refl sane).mono fun n => by rw [Multiset.count_zero]; rfl
  | cons inode held ih =>
    have before := ih fun other member => live other (Multiset.mem_cons_of_mem member)
    have named : (fs.holding held).store.inode inode ≠ none := by
      rw [sane.tables.holding_store]
      exact (live inode (Multiset.mem_cons_self _ _)).some
    have holds := before.sane.hold named
    rw [sane.tables.holding_cons] at holds
    have more : Serves (fs.holding held) (one inode) (fs.holding (inode ::ₘ held)) := holds.serves fun n => by
      rw [Naming.net_cons,Naming.net_nil,add_zero]
      exact le_rfl
    refine (before.trans more).mono fun n => ?_
    · rw [one,Multiset.count_cons]
      push_cast
      exact le_rfl

theorem Sane.closes (sane : Sane fs) (some : fs.opens inode ≠ 0) : ∃ fs', closeHeld inode fs = .ok ((),fs') ∧
    Serves fs (fun n => -one inode n) fs' ∧ fs'.openPathTable = fs.openPathTable := by
  have named : fs.store.inode inode ≠ none := object_some.mp (sane.valid.opened inode some)
  have fits := sane.fits named
  obtain ⟨fs0,made⟩ : ∃ fs0, fs.setOpens inode (fs.opens inode - 1) = fs0 := ⟨_,rfl⟩
  have tables0 : Tables fs0 := made ▸ sane.tables.setOpens fits
  have whole : fs = fs0.holding (inode ::ₘ 0) := by
    refine tables0.eq_holding sane.tables (by rw [← made]; rfl) (by rw [← made]; rfl) fun n fits' => ?_
    rw [← made,sane.tables.opens_setOpens fits,Multiset.cons_zero,Multiset.count_singleton]
    split
    · rename_i same
      rw [same]
      omega
    · rfl
  have store0 : fs0.store = fs.store := by rw [← made]; rfl
  have paths0 : fs0.openPathTable = fs.openPathTable := by rw [← made]; rfl
  have named0 : fs0.store.inode inode ≠ none := by rwa [store0]
  have ran : closeHeld inode (fs0.holding (inode ::ₘ 0)) = _ := tables0.close_held fits named0
  have evolves := sane
  rw [whole] at evolves
  have evolves := evolves.release tables0 named0
  rw [← whole,holding_zero] at ran evolves
  refine ⟨_,ran,evolves.serves fun n => ?_,paths0⟩
  rw [Naming.net_cons,Naming.net_nil,add_zero,Naming.Event.net,one]
  split <;> rfl

theorem Sane.closes_none (sane : Sane fs) (closed : fs.opens inode = 0) :
    closeHeld inode fs = .error (.abort ()) := by
  have kept : refsClose inode fs = .ok (-1,fs) := by
    by_cases fits : Fits inode
    · rw [sane.tables.close_eq fits,if_pos closed]
    have absent : nodeAt inode (findNodeLoc fs inode).2 = none := by
      cases loc : (findNodeLoc fs inode).2 with
      | nil => rfl
      | cons other after =>
        have member : other ∈ fs.openFileTable (hash inode) := by
          rw [findNodeLoc,List.span_eq_takeWhile_dropWhile] at loc
          exact (List.dropWhile_suffix _).subset (loc ▸ List.mem_cons_self)
        rw [nodeAt,if_neg]
        rintro rfl
        exact fits (sane.tables.fits _ _ member)
    rw [refsClose]
    dsimp only
    rw [absent]
  rw [closeHeld,act_bind kept,assert_false (by decide)]

theorem Sane.closes_open (sane : Sane fs) (ran : closeHeld inode fs = .ok ((),fs')) : fs.opens inode ≠ 0 := by
  intro closed
  rw [sane.closes_none closed] at ran
  cases ran

theorem Sane.eof_closed (sane : Sane fs) : fs.opens eof = 0 := by
  by_contra opens
  exact absurd (sane.nonneg (object_some.mp (sane.valid.opened eof opens))) (by decide)

theorem closes_with {answer : Int} (ran : (do
      let res ← refsClose inode
      assert (res = 0)
      pure answer : Act Int) fs = .ok (handle,fs')) :
    handle = answer ∧ closeHeld inode fs = .ok ((),fs') := by
  change (refsClose inode fs >>= fun result => (assert (result.1 = 0) >>= fun _ => pure answer) result.2) = _ at ran
  obtain ⟨⟨res,fs1⟩,closed,ran⟩ := bind_ok.mp ran
  dsimp only at ran
  by_cases zero : res = 0
  · rw [act_bind (assert_true zero)] at ran
    cases ran
    refine ⟨rfl,?_⟩
    rw [closeHeld,act_bind closed,assert_true zero]
  · rw [act_stop (assert_false zero)] at ran
    cases ran

theorem pathInstall_fails {noblock curdir : Int}
    (ran : pathInstall path noblock curdir fs = .ok (handle,fs')) (negative : handle < 0) :
    closeHeld curdir fs = .ok ((),fs') := by
  rw [pathInstall] at ran
  split at ran
  · exact (closes_with ran).2
  rw [act_bind act_get] at ran
  generalize scanned : pathChoose fs.openPathTable curdir (lastName path) noblock
    (List.range maxOpenPaths) (-1) = scan at ran
  cases scan with
  | error fault =>
    have stopped : reading (fun _ => .error fault : Store → Try (Option Int)) fs = .error fault := rfl
    rw [act_stop stopped] at ran
    cases ran
  | ok found =>
    have read : reading (fun _ => .ok found : Store → Try (Option Int)) fs = .ok (found,fs) := rfl
    rw [act_bind read] at ran
    cases found with
    | none => exact (closes_with ran).2
    | some result =>
      dsimp only at ran
      split at ran
      · exact (closes_with ran).2
      · rename_i some
        obtain ⟨rfl,_⟩ : handle = result ∧ fs' = fs.setPath result.toNat ⟨1,curdir,lastName path⟩ := by
          cases ran
          exact ⟨rfl,rfl⟩
        rcases (pathChoose_spec _ scanned).1 with none | ⟨k,_,rfl,_⟩
        · exact absurd none some
        · exact absurd negative (not_lt.mpr (Int.natCast_nonneg k))

theorem Sane.closed_again (sane : Sane fs) (live : Live fs.store inode)
    (ran : closeHeld inode (fs.holding {inode}) = .ok ((),fs')) : fs' = fs := by
  have closed : refsClose inode (fs.holding (inode ::ₘ 0)) = _ := sane.tree.close live
  rw [Multiset.cons_zero,holding_zero] at closed
  rw [closeHeld,act_bind closed,assert_true rfl] at ran
  cases ran
  rfl

theorem Sane.open_fails (sane : Sane fs) {deref : Bool} {noblock : Int}
    (ran : pathOpen path deref user group noblock fs = .ok (handle,fs')) (negative : handle < 0) :
    ∃ leak, (∀ inode ∈ leak, Live fs.store inode) ∧ fs' = fs.holding leak := by
  have tree := sane.tree
  have nothing : ∃ leak : Multiset Int, (∀ inode ∈ leak, Live fs.store inode) ∧ fs = fs.holding leak :=
    ⟨0,fun _ none => absurd none (Multiset.notMem_zero _),holding_zero.symm⟩
  have walked : namei path (some eof) eof deref user group (fs.holding 0) =
      (walkPath fs.store user group path 0 deref).settle fs 0 :=
    namei_eof tree.toWellFormed fun _ none => absurd none (Multiset.notMem_zero _)
  have good := walkPath_good tree.toWellFormed user group path deref tree.root
  rw [holding_zero] at walked
  rw [pathOpen_eq] at ran
  generalize walkPath fs.store user group path 0 deref = outcome at walked good
  cases outcome with
  | found last current =>
    rw [Outcome.settle] at walked
    rw [act_bind walked] at ran
    dsimp only at ran
    have named : current ≠ eof := fun same => absurd good.2.nonneg (by rw [same]; decide)
    rw [if_neg fun both => absurd good.2.nonneg (not_le.mpr both.1),if_pos named,
      act_bind (tree.close good.2),act_bind (assert_true rfl)] at ran
    rw [sane.closed_again good.1.live (pathInstall_fails ran negative)]
    exact nothing
  | absent dir why answer =>
    rw [Outcome.settle] at walked
    rw [act_bind walked] at ran
    dsimp only at ran
    by_cases missing : answer = eof
    · rw [if_neg fun both => both.2 missing,if_neg (not_not.mpr missing)] at ran
      rw [sane.closed_again good.1.live (pathInstall_fails ran negative)]
      exact nothing
    · rw [if_pos ⟨good.2,missing⟩,Multiset.cons_zero] at ran
      cases ran
      refine ⟨{dir},fun inode member => ?_,rfl⟩
      rw [Multiset.mem_singleton.mp member]
      exact good.1.live
  | lost why answer leak =>
    rw [Outcome.settle] at walked
    rw [act_bind walked] at ran
    dsimp only at ran
    by_cases missing : answer = eof
    · rw [if_neg fun both => both.2 missing,if_neg (not_not.mpr missing),add_zero] at ran
      have opens := (sane.holds good.2).sane.closes_open (pathInstall_fails ran negative)
      exact absurd (sane.holds good.2).sane.eof_closed opens
    · rw [if_pos ⟨good.1,missing⟩,add_zero] at ran
      cases ran
      exact ⟨leak,good.2,rfl⟩
  | crash why =>
    rw [Outcome.settle] at walked
    rw [act_stop walked] at ran
    cases ran

/-- How many paths in a directory are open. -/
def Fs.handles (fs : Fs) (directory : Int) : Nat :=
  ((Finset.range maxOpenPaths).filter fun k =>
    (fs.openPathTable k).refs ≠ 0 ∧ (fs.openPathTable k).parentDir = directory).card

/-- Each open path has a name of its own, and its own reference to its directory. There are
references to the inodes `fhs` besides. -/
structure Serving (fs : Fs) (fhs : Multiset Int) : Prop where
  sane : Sane fs
  entries : ∀ path node, fs.path path = some node → node.refs = 1 ∧ GoodName node.name
  distinct : ∀ path path' node node', path ≠ path' → fs.path path = some node → fs.path path' = some node' →
    ¬(node.parentDir = node'.parentDir ∧ node.name = node'.name)
  named : ∀ n ∈ fhs, n ≠ eof
  held : ∀ n, n ≠ eof → fs.handles n + fhs.count n ≤ fs.opens n

omit [Geometry] in
theorem handles_setPath (fs : Fs) (node : OpenPathNode) {k : Nat} (low : k < maxOpenPaths) (directory : Int) :
    (fs.setPath k node).handles directory +
      (if (fs.openPathTable k).refs ≠ 0 ∧ (fs.openPathTable k).parentDir = directory then 1 else 0) =
    fs.handles directory + (if node.refs ≠ 0 ∧ node.parentDir = directory then 1 else 0) := by
  have member : k ∈ Finset.range maxOpenPaths := Finset.mem_range.mpr low
  have others : ∑ j ∈ (Finset.range maxOpenPaths).erase k, (if ((fs.setPath k node).openPathTable j).refs ≠ 0 ∧
      ((fs.setPath k node).openPathTable j).parentDir = directory then 1 else 0) =
      ∑ j ∈ (Finset.range maxOpenPaths).erase k, (if (fs.openPathTable j).refs ≠ 0 ∧
        (fs.openPathTable j).parentDir = directory then 1 else 0) := by
    refine Finset.sum_congr rfl fun j other => ?_
    have kept : (fs.setPath k node).openPathTable j = fs.openPathTable j :=
      Function.update_of_ne (Finset.ne_of_mem_erase other) ..
    simp only [kept]
  have self : (fs.setPath k node).openPathTable k = node := Function.update_self ..
  rw [Fs.handles,Fs.handles,Finset.card_filter,Finset.card_filter,← Finset.add_sum_erase _ _ member,
    ← Finset.add_sum_erase _ _ member,others]
  simp only [self]
  omega

omit [Geometry] in
theorem handles_congr (same : fs'.openPathTable = fs.openPathTable) (directory : Int) :
    fs'.handles directory = fs.handles directory := by
  rw [Fs.handles,Fs.handles,same]

omit [Geometry] in
theorem path_congr (same : fs'.openPathTable = fs.openPathTable) (path : Int) :
    fs'.path path = fs.path path := by
  rw [Fs.path,Fs.path,same]

theorem Serving.kept (serving : Serving fs fhs) (serves : Serves fs gain fs')
    (same : fs'.openPathTable = fs.openPathTable) (named : ∀ n ∈ fhs', n ≠ eof)
    (enough : ∀ n, n ≠ eof → ((fs.handles n + fhs'.count n : Nat) : Int) ≤ fs.opens n + gain n) :
    Serving fs' fhs' := by
  refine ⟨serves.sane,?_,?_,named,fun directory named => ?_⟩
  · simpa only [path_congr same] using serving.entries
  · simpa only [path_congr same] using serving.distinct
  · have count := serves.opens serving.sane directory
    have := enough directory named
    rw [handles_congr same]
    omega

theorem Serving.gained (serving : Serving fs fhs) (serves : Serves fs gain fs')
    (same : fs'.openPathTable = fs.openPathTable) (least : ∀ n, 0 ≤ gain n) : Serving fs' fhs := by
  refine serving.kept serves same serving.named fun n named => ?_
  have := serving.held n named
  have := least n
  omega

theorem Serving.opened (serving : Serving fs fhs) {deref : Bool} {noblock : Int} (noNul : 0 ∉ path)
    (ran : pathOpen path deref user group noblock fs = .ok (handle,fs')) : Serving fs' fhs := by
  have sane := serving.sane
  by_cases negative : handle < 0
  · obtain ⟨leak,live,rfl⟩ := sane.open_fails ran negative
    exact serving.gained (sane.holds live) sane.tables.holding_paths fun n => Int.natCast_nonneg _
  obtain ⟨curdir,held,directory,live,installed⟩ := pathOpen_spec sane.tree.toWellFormed ran (not_lt.mp negative)
  have serves := sane.holds live
  have same : (fs.holding held).openPathTable = fs.openPathTable := sane.tables.holding_paths
  have before : Serving (fs.holding held) fhs := serving.gained serves same fun n => Int.natCast_nonneg _
  have good : GoodName (lastName path) := ⟨lastName_some path,installed.short,lastName_noNul noNul⟩
  have low : handle.toNat < maxOpenPaths := by
    have := installed.inside
    have := installed.nonneg
    omega
  -- a path that is open was open, or is the new one
  have was {other : Int} {entry : OpenPathNode} (found : fs'.path other = some entry) :
      other = handle ∧ entry = ⟨1,curdir,lastName path⟩ ∨ other ≠ handle ∧ (fs.holding held).path other = some entry := by
    by_cases here : other = handle
    · subst here
      rw [installed.path_self] at found
      exact .inl ⟨rfl,(Option.some.inj found).symm⟩
    · refine .inr ⟨here,?_⟩
      rw [path_some] at found ⊢
      refine ⟨found.1,found.2.1,found.2.2.1,?_⟩
      have entry := found.2.2.2
      rw [installed.done,Fs.setPath] at entry
      dsimp only at entry
      rwa [Function.update_of_ne (by have := found.1; have := installed.nonneg; omega)] at entry
  have apart {other : Int} {entry : OpenPathNode} (found : (fs.holding held).path other = some entry) :
      ¬(entry.parentDir = curdir ∧ entry.name = lastName path) := by
    obtain ⟨nonneg,inside,used,rfl⟩ := path_some.mp found
    exact installed.others other.toNat (by omega) used
  refine ⟨?_,fun other entry found => ?_,fun other other' entry entry' differ found found' => ?_,
    serving.named,fun n named => ?_⟩
  · rw [installed.done]
    exact before.sane.setPath _ _
  · rcases was found with ⟨rfl,rfl⟩ | ⟨_,found⟩
    · exact ⟨rfl,good⟩
    · exact before.entries other entry found
  · rcases was found with ⟨rfl,rfl⟩ | ⟨_,found⟩
    · rcases was found' with ⟨rfl,_⟩ | ⟨_,found'⟩
      · exact absurd rfl differ
      · exact fun both => apart found' ⟨both.1.symm,both.2.symm⟩
    · rcases was found' with ⟨rfl,rfl⟩ | ⟨_,found'⟩
      · exact apart found
      · exact before.distinct other other' entry entry' differ found found'
  · have count := handles_setPath (fs.holding held) ⟨1,curdir,lastName path⟩ low n
    have opens : fs'.opens n = (fs.holding held).opens n := by
      rw [installed.done]
      rfl
    have more := serves.opens sane n
    have least := serving.held n named
    rw [if_neg fun both => both.1 installed.unused,add_zero,← installed.done,handles_congr same] at count
    rw [opens,count]
    split
    · rename_i both
      obtain rfl : curdir = n := both.2
      have own : 1 ≤ held.count curdir := Multiset.one_le_count_iff_mem.mpr (directory.resolve_left named).2
      omega
    · omega

theorem Serving.vacated (serving : Serving fs fhs) (opened : fs.path handle = some node) :
    Serving (fs.setPath handle.toNat ⟨0,node.parentDir,node.name⟩) fhs ∧ ∀ n, n ≠ eof →
      ((fs.setPath handle.toNat ⟨0,node.parentDir,node.name⟩).handles n : Int) + fhs.count n +
        one node.parentDir n ≤ fs.opens n := by
  obtain ⟨nonneg,inside,used,entered⟩ := path_some.mp opened
  have low : handle.toNat < maxOpenPaths := by omega
  obtain ⟨fs0,vacated⟩ : ∃ fs0, fs.setPath handle.toNat ⟨0,node.parentDir,node.name⟩ = fs0 := ⟨_,rfl⟩
  have was {other : Int} {entry : OpenPathNode} (found : fs0.path other = some entry) :
      fs.path other = some entry := by
    obtain ⟨nonneg',inside',used',same⟩ := path_some.mp found
    rw [← vacated,Fs.setPath] at same
    dsimp only at same
    rw [Function.update_apply] at same
    split at same
    · rw [← same] at used'
      exact absurd rfl used'
    · exact path_some.mpr ⟨nonneg',inside',used',same⟩
  have count (n : Int) (named : n ≠ eof) : (fs0.handles n : Int) + fhs.count n +
      one node.parentDir n ≤ fs.opens n := by
    have total := handles_setPath fs ⟨0,node.parentDir,node.name⟩ low n
    have least := serving.held n named
    simp only [entered,vacated,ne_eq,not_true,false_and,if_false,add_zero] at total
    rw [one]
    split
    · rename_i same
      rw [if_pos ⟨used,same.symm⟩] at total
      omega
    · rename_i differ
      rw [if_neg fun both => differ both.2.symm] at total
      omega
  rw [vacated]
  refine ⟨⟨vacated ▸ serving.sane.setPath _ _,fun other entry found => serving.entries other entry (was found),
    fun other other' entry entry' differ found found' =>
      serving.distinct other other' entry entry' differ (was found) (was found'),serving.named,
    fun n named => ?_⟩,count⟩
  have bound := count n named
  have own : 0 ≤ one node.parentDir n := by
    rw [one]
    split <;> decide
  have opens : fs0.opens n = fs.opens n := by rw [← vacated]; rfl
  omega

theorem Serving.closes (serving : Serving fs fhs) (opened : fs.path handle = some node) :
    (node.parentDir = eof ∧ pathClose handle fs = .error (.abort ())) ∨
    (node.parentDir ≠ eof ∧ ∃ fs', pathClose handle fs = .ok (0,fs') ∧ Serving fs' fhs ∧ fs'.path handle = none) := by
  obtain ⟨vacated,count⟩ := serving.vacated opened
  obtain ⟨once,_⟩ := serving.entries handle node opened
  have entry : onPath handle fs = .ok (some node,fs) := by rw [onPath,opened]
  have emptied : (modify (·.setPath handle.toNat ⟨0,node.parentDir,node.name⟩) : Act Unit) fs =
      .ok ((),fs.setPath handle.toNat ⟨0,node.parentDir,node.name⟩) := rfl
  have ran : pathClose handle fs = (do closeHeld node.parentDir; pure 0 : Act Int)
      (fs.setPath handle.toNat ⟨0,node.parentDir,node.name⟩) := by
    rw [pathClose,act_bind entry]
    dsimp only
    rw [once,Nat.sub_self,act_bind emptied,act_bind (assert_true rfl),closeHeld,bind_assoc]
  rw [ran]
  by_cases named : node.parentDir = eof
  · refine .inl ⟨named,?_⟩
    rw [act_stop (vacated.sane.closes_none (named ▸ vacated.sane.eof_closed))]
  · refine .inr ⟨named,?_⟩
    have own := count node.parentDir named
    rw [one,if_pos rfl] at own
    have opens : fs.opens node.parentDir ≠ 0 := by omega
    obtain ⟨fs',closed,serves,same⟩ := vacated.sane.closes opens
    refine ⟨fs',by rw [act_bind closed]; rfl,vacated.kept serves same serving.named fun n named => ?_,?_⟩
    · have bound := count n named
      change _ ≤ (fs.opens n : Int) + -one node.parentDir n
      omega
    · rw [path_congr same,Fs.path,if_pos]
      refine .inr (.inr ?_)
      rw [Fs.setPath]
      dsimp only
      rw [Function.update_self]

/-- A handle from `path_open`, or none, and the handles that there were. -/
structure OpensPath (fs fs' : Fs) (handle : Int) : Prop where
  others : ∀ other node, OpenPath fs other node → OpenPath fs' other node ∧ other ≠ handle
  self : ¬handle < 0 → ∃ node, OpenPath fs' handle node

theorem Serving.pathOpen (serving : Serving fs fhs) (noNul : 0 ∉ path) (deref : Bool) (noblock : Int) :
    Yields (pathOpen path deref user group noblock) fs fun handle fs' =>
      Serving fs' fhs ∧ OpensPath fs fs' handle := by
  intro handle fs' ran
  refine ⟨serving.opened noNul ran,?_⟩
  have sane := serving.sane
  by_cases negative : handle < 0
  · obtain ⟨leak,live,rfl⟩ := sane.open_fails ran negative
    have store : (fs.holding leak).store = fs.store := sane.tables.holding_store
    refine ⟨fun other node opened => ⟨⟨?_,store.symm ▸ opened.directory,opened.good⟩,?_⟩,
      fun nonneg => absurd negative nonneg⟩
    · rw [path_congr sane.tables.holding_paths]
      exact opened.opened
    · have nonneg := (path_some.mp opened.opened).1
      omega
  obtain ⟨curdir,held,directory,live,installed⟩ := pathOpen_spec sane.tree.toWellFormed ran (not_lt.mp negative)
  have store : fs'.store = fs.store := by
    rw [installed.done]
    exact sane.tables.holding_store
  refine ⟨fun other node opened => ?_,fun _ => ⟨_,installed.path_self,?_,?_⟩⟩
  · obtain ⟨differ,entry⟩ := installed.path_other ((path_congr sane.tables.holding_paths other).trans opened.opened)
    exact ⟨⟨entry,store.symm ▸ opened.directory,opened.good⟩,differ⟩
  · rw [store]
    exact directory.imp_right And.left
  · exact ⟨lastName_some path,installed.short,lastName_noNul noNul⟩

theorem Serving.pathClose (serving : Serving fs fhs) (handle : Int) :
    Yields (pathClose handle) fs fun res fs' => res = 0 → Serving fs' fhs := by
  cases opened : fs.path handle with
  | none =>
    have entry : onPath handle fs = .ok (none,fs) := by rw [onPath,opened]
    have ran : CandyFs.pathClose handle fs = .ok (-1,fs) := by
      rw [CandyFs.pathClose,act_bind entry]
      rfl
    exact Yields.done ran fun zero => absurd zero (by decide)
  | some node =>
    rcases serving.closes opened with ⟨_,ran⟩ | ⟨_,fs',ran,after,_⟩
    · exact .fails ran
    · exact .done ran fun _ => after

theorem Serving.opens (serving : Serving fs fhs) (member : inode ∈ fhs) : fs.opens inode ≠ 0 := by
  have count := serving.held inode (serving.named inode member)
  have own := Multiset.one_le_count_iff_mem.mpr member
  omega

theorem Serving.nonneg (serving : Serving fs fhs) (member : inode ∈ fhs) : 0 ≤ inode :=
  serving.sane.nonneg (object_some.mp (serving.sane.valid.opened inode (serving.opens member)))

theorem Serving.release (serving : Serving fs (inode ::ₘ fhs)) :
    ∃ fs', closeHeld inode fs = .ok ((),fs') ∧ Serving fs' fhs := by
  obtain ⟨fs',ran,serves,same⟩ := serving.sane.closes (serving.opens (Multiset.mem_cons_self inode fhs))
  refine ⟨fs',ran,serving.kept serves same (fun n member => serving.named n (Multiset.mem_cons_of_mem member))
    fun n named => ?_⟩
  have count := serving.held n named
  rw [Multiset.count_cons] at count
  rw [one]
  split at count
  · rw [if_pos ‹_›]
    omega
  · rw [if_neg ‹_›]
    omega

theorem Serving.closeHeld (serving : Serving fs (inode ::ₘ fhs)) :
    Yields (closeHeld inode) fs fun _ fs' => Serving fs' fhs := by
  obtain ⟨fs',ran,after⟩ := serving.release
  exact .done ran after

theorem Serving.gains (serving : Serving fs fhs) (serves : Serves fs (one inode) fs')
    (same : fs'.openPathTable = fs.openPathTable) (nonneg : 0 ≤ inode) : Serving fs' (inode ::ₘ fhs) := by
  refine serving.kept serves same (fun n member => ?_) fun n other => ?_
  · rcases Multiset.mem_cons.mp member with rfl | member
    · exact fun same => absurd nonneg (by rw [same]; decide)
    · exact serving.named n member
  · have count := serving.held n other
    rw [Multiset.count_cons,one]
    split <;> omega

theorem Serving.hold (serving : Serving fs fhs) (live : Live fs.store inode) :
    Serving (fs.holding {inode}) (inode ::ₘ fhs) := by
  have serves : Serves fs (one inode) (fs.holding {inode}) := (serving.sane.hold live.some).serves fun n => by
    rw [Naming.net_cons,Naming.net_nil,add_zero]
    exact le_rfl
  exact serving.gains serves serving.sane.tables.holding_paths live.nonneg

/-- An inode with a reference to it, or an error. -/
structure Gets (fs : Fs) (fhs : Multiset Int) (inode : Int) : Prop where
  failed : inode < 0 → Serving fs fhs
  held : ¬inode < 0 → Serving fs (inode ::ₘ fhs)

theorem Serving.fails (serving : Serving fs fhs) (negative : inode < 0) : Gets fs fhs inode :=
  ⟨fun _ => serving,fun nonneg => absurd negative nonneg⟩

theorem Serving.gets (serving : Serving fs (inode ::ₘ fhs)) (nonneg : 0 ≤ inode) : Gets fs fhs inode :=
  ⟨fun negative => absurd nonneg (not_le.mpr negative),fun _ => serving⟩

theorem Serving.pathResolve (serving : Serving fs fhs) (path : Name) (deref : Bool) :
    Yields (pathResolve path deref user group) fs fun inode fs' => Gets fs' fhs inode := by
  have tree := serving.sane.tree
  have walked : namei path none eof deref user group (fs.holding 0) =
      (walkPath fs.store user group path 0 deref).alone fs 0 :=
    namei_none tree.toWellFormed fun _ none => absurd none (Multiset.notMem_zero _)
  have good := walkPath_good tree.toWellFormed user group path deref tree.root
  rw [holding_zero] at walked
  rw [CandyFs.pathResolve]
  generalize walkPath fs.store user group path 0 deref = outcome at walked good
  cases outcome with
  | found last current =>
    have named : current ≠ eof := fun same => absurd good.2.nonneg (by rw [same]; decide)
    rw [Outcome.alone,Multiset.cons_zero] at walked
    refine .follow walked ?_
    dsimp only
    rw [if_neg named]
    exact .pure ((serving.hold good.2).gets good.2.nonneg)
  | absent dir why answer =>
    rw [Outcome.alone,holding_zero] at walked
    refine .follow walked ?_
    dsimp only
    exact .ite (fun _ => .pure (serving.fails (by decide))) fun _ => .pure (serving.fails good.2)
  | lost why answer leak => exact .fails (act_stop walked)
  | crash why => exact .fails (act_stop walked)

end

end CandyFs
