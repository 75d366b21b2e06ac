import CandyFs.PathEvents

/-! What writing, truncating and making inodes and changing who may use them do to the space of a file
system.
-/
namespace CandyFs
open Bytes

section
variable [Geometry] {fs : Fs} {s s' : Store} {inode target parent pos size res : Int} {info info' : Node}
  {data : Option Block} {len endpos : Int} {space : Nat} {rest : List Int} {mode user owner group : Nat}
  {path : Name} {names : Naming.Names Int Name}

theorem blockcount_le_one (negative : size < 0) : blockcount size ≤ 1 := by
  have large := blocksize_large
  have below : 0 ≤ (-size).tdiv blocksize := Int.tdiv_nonneg (by omega) (by omega)
  rw [Int.neg_tdiv] at below
  rw [blockcount,offset2blockidx]
  split <;> omega

theorem extent_le : extent len endpos space ≤ maxFilesize := by
  have one : (blocksize : Int) ≤ maxFilesize := by
    exact_mod_cast Nat.le_mul_of_pos_left blocksize firstUnreachableBlock_pos
  have least : attainable (blockcount len) (blockcount (min endpos maxFilesize)) space ≤
      (blockcount (min endpos maxFilesize)).toNat := Nat.findGreatest_le _
  rw [extent]
  generalize attainable (blockcount len) (blockcount (min endpos maxFilesize)) space = k at least ⊢
  split
  · exact min_le_right _ _
  · rename_i short
    rcases lt_or_ge (min endpos maxFilesize) (0 : Int) with negative | nonneg
    · have few := blockcount_le_one negative
      obtain rfl : k = 0 := by omega
      omega
    · have most := blockcount_nonneg nonneg
      have below : ¬blockcount (min endpos maxFilesize) ≤ (k : Int) := by omega
      rw [blockcount_le_iff nonneg] at below
      omega

/-- A store with other contents for one inode. -/
def Store.rewrite (s : Store) (inode : Int) (info : Node) (size : Int) (bytes : Nat → UInt8) (space : Nat) :
    Store :=
  { s.set inode (info.refill size bytes) with freeBlocks := space }

omit [Geometry] in
theorem rewrite_same (named : s.inode inode = some info) :
    s = s.rewrite inode info info.size info.byte s.freeBlocks := by
  have same : info.refill info.size info.byte = info := Node.resize_same ..
  rw [Store.rewrite,same,s.set_same _ _ named]

/-- The contents are others, or everything is as before. -/
structure Rewritten (s s' : Store) (inode : Int) (info : Node) (length : Int) : Prop where
  made : ∃ bytes space, s' = s.rewrite inode info length bytes space
  top : length ≤ maxFilesize

theorem Rewritten.same (named : s.inode inode = some info) (top : info.size ≤ maxFilesize) :
    Rewritten s s inode info info.size := ⟨⟨_,_,rewrite_same named⟩,top⟩

theorem inodeSetsize_rewrites (size : Int) (named : s.inode inode = some info) (top : info.size ≤ maxFilesize) :
    ∃ length, Rewritten s (s.inodeSetsize inode size).2 inode info length ∧
      ((s.inodeSetsize inode size).1 < 0 ∨ (s.inodeSetsize inode size).1 = length) := by
  rw [Store.inodeSetsize,named]
  dsimp only
  split
  · exact ⟨_,.same named top,.inl neg_one_lt_zero⟩
  · exact ⟨_,⟨⟨_,_,rfl⟩,extent_le⟩,.inr rfl⟩

theorem writeRange_rewrites {zero length : Int} {s'' : Store} (rewritten : Rewritten s s' inode info length)
    (ran : s'.writeRange inode (info.resize length) pos zero endpos data = .ok (res,s'')) :
    Rewritten s s'' inode info length ∧ (endpos ≤ pos ∧ res = 0 ∨ res = endpos - zero) := by
  rw [Store.writeRange] at ran
  split at ran
  · cases ran
    exact ⟨rewritten,.inl ⟨‹_›,rfl⟩⟩
  · obtain ⟨_,_,ran⟩ := bind_ok.mp ran
    cases ran
    refine ⟨⟨?_,rewritten.top⟩,.inr rfl⟩
    obtain ⟨bytes,space,rfl⟩ := rewritten.made
    exact ⟨_,space,Store.set_with s inode _ _ space⟩

/-- What a write leaves. It has stored all that it says, but of a new file only when it is all. -/
theorem inodeWrite_rewrites (named : s.inode inode = some info) (top : info.size ≤ maxFilesize)
    (ran : s.inodeWrite inode pos data size = .ok (res,s')) : ∃ length, Rewritten s s' inode info length ∧
      (pos = 0 → info.size = 0 → 0 < size → size ≤ res → length = size) := by
  rw [Store.inodeWrite,named] at ran
  dsimp only at ran
  generalize started : (if pos = -1 then info.size else pos) = start at ran
  have begins (zero : pos = 0) : start = 0 := by
    rw [← started,zero]
    rfl
  split at ran
  · obtain ⟨length,rewritten,count⟩ := inodeSetsize_rewrites (start + size) named top
    generalize s.inodeSetsize inode (start + size) = grown at ran rewritten count
    obtain ⟨newsize,s1⟩ := grown
    dsimp only at ran rewritten count
    split at ran
    · cases ran
      exact ⟨length,rewritten,fun _ _ some all => absurd some (by omega)⟩
    · obtain rfl := count.resolve_left ‹_›
      obtain ⟨_,checked,ran⟩ := bind_ok.mp ran
      split at ran
      · obtain ⟨rewritten,count⟩ := writeRange_rewrites rewritten ran
        refine ⟨newsize,rewritten,fun zero empty some all => ?_⟩
        have := begins zero
        split at count <;> omega
      · obtain ⟨rewritten,_⟩ := writeRange_rewrites rewritten ran
        refine ⟨newsize,rewritten,fun zero _ _ _ => ?_⟩
        have := begins zero
        have := check_ok.mp checked
        omega
  · have same : info.resize info.size = info := Node.resize_same ..
    rw [← same] at ran
    obtain ⟨rewritten,_⟩ := writeRange_rewrites (.same named top) ran
    refine ⟨_,rewritten,fun zero empty some _ => ?_⟩
    have := begins zero
    omega

theorem Rebound.alter (space : Nat) (tidy : s.Tidy) (named : s.inode inode = some info)
    (changed : s' = { s.set inode info' with freeBlocks := space })
    (kind : info'.mode &&& sIFMT = info.mode &&& sIFMT) (links : info'.nlinks = info.nlinks)
    (top : info'.size ≤ maxFilesize)
    (bytes : sISREG info.mode ∨ info'.size = info.size ∧ ∀ a, info'.byte a = info.byte a) :
    Rebound s s' s.names := by
  subst changed
  have isDir : sISDIR info'.mode ↔ sISDIR info.mode := by rw [sISDIR,sISDIR,kind]
  have isLink : sISLNK info'.mode ↔ sISLNK info.mode := by rw [sISLNK,sISLNK,kind]
  constructor
  · rcases bytes with regular | same
    · funext other
      by_cases here : other = inode
      · subst here
        have file : ¬sISDIR info.mode := fun dir => by
          rw [sISREG,show info.mode &&& sIFMT = sIFDIR from dir] at regular
          exact absurd regular (by decide)
        rw [names_plain,names_plain]
        · exact fun live => by
            obtain ⟨node,found,dir⟩ := live.info
            exact file (Option.some.inj (named.symm.trans found) ▸ dir)
        · exact fun live => by
            obtain ⟨node,found,dir⟩ := live.info
            obtain rfl := Option.some.inj ((Store.set_inode_self ..).symm.trans found)
            exact file (isDir.mp dir)
      · exact names_same (Store.set_inode_ne _ _ _ here)
    · have set : (s.set inode info').names = s.names := names_set named ⟨kind,same⟩
      have whole : ({ s.set inode info' with freeBlocks := space } : Store).names =
          (s.set inode info').names := names_inode rfl
      exact whole.trans set
  · intro _
    refine tidy.update rfl rfl rfl (by rw [named]; exact Option.some_ne_none _) top fun link => ?_
    rcases bytes with regular | ⟨size,_⟩
    · have link := isLink.mp link
      rw [sISREG,show info.mode &&& sIFMT = sIFLNK from link] at regular
      exact absurd regular (by decide)
    · rw [size]
      exact tidy.symlinks inode info named (isLink.mp link)
  · intro n
    by_cases here : n = inode
    · subst here
      rw [named]
      change Option.map Node.object ((s.set n info').inode n) = _
      rw [Store.set_inode_self,Option.map_some,Option.map_some,Node.object,Node.object,links]
      simp only [isDir]
    · exact congrArg (Option.map Node.object) (Store.set_inode_ne s _ info' here)

theorem Rewritten.rebound {length : Int} (rewritten : Rewritten s s' inode info length) (tidy : s.Tidy)
    (named : s.inode inode = some info) (regular : sISREG info.mode) : Rebound s s' s.names := by
  obtain ⟨bytes,space,changed⟩ := rewritten.made
  exact .alter _ tidy named changed rfl rfl rewritten.top (.inl regular)

theorem Rebound.refl : Rebound s s s.names := ⟨rfl,id,fun _ => rfl⟩

theorem fileWrite_rebound (tidy : s.Tidy) (nonneg : 0 ≤ inode)
    (ran : fileWrite s inode pos data size = .ok (res,s')) : Rebound s s' s.names := by
  rw [fileWrite] at ran
  split at ran
  · cases ran
    exact .refl
  · rename_i info named
    split at ran
    · cases ran
      exact .refl
    · obtain ⟨length,rewritten,_⟩ := inodeWrite_rewrites named (tidy.used inode info nonneg named).2 ran
      exact rewritten.rebound tidy named (not_not.mp ‹_›)

theorem fileTruncate_rebound (tidy : s.Tidy) (nonneg : 0 ≤ inode) :
    Rebound s (fileTruncate s inode size).2 s.names := by
  rw [fileTruncate]
  split
  · exact .refl
  · rename_i info named
    split
    · exact .refl
    · obtain ⟨length,rewritten,_⟩ :=
        inodeSetsize_rewrites size named (tidy.used inode info nonneg named).2
      exact rewritten.rebound tidy named (not_not.mp ‹_›)

omit [Geometry] in
theorem kind_permissions {mode old : Nat} (permissions : mode &&& 0o7777 = mode) :
    (mode ||| (old &&& (2 ^ 32 - 1 - 0o7777))) &&& sIFMT = old &&& sIFMT := by
  have none : mode &&& sIFMT = 0 := by
    rw [← permissions,Nat.and_assoc,show 0o7777 &&& sIFMT = 0 from by decide,Nat.and_zero]
  have all : (2 ^ 32 - 1 - 0o7777) &&& sIFMT = sIFMT := by decide
  rw [Nat.and_or_distrib_right,none,Nat.zero_or,Nat.and_assoc,all]

theorem permChmod_rebound (tidy : s.Tidy) (nonneg : 0 ≤ inode) :
    Rebound s (permChmod s inode mode user).2 s.names := by
  rw [permChmod]
  split
  · exact .refl
  · rename_i info named
    split
    · exact .refl
    · rename_i permissions
      split
      · exact .refl
      · rw [Store.inodeChmod,Store.modify,named]
        exact .alter s.freeBlocks tidy named rfl (kind_permissions (not_not.mp permissions)) rfl
          (tidy.used inode info nonneg named).2 (.inr ⟨rfl,fun _ => rfl⟩)

theorem permChown_rebound (tidy : s.Tidy) (nonneg : 0 ≤ inode) :
    Rebound s (permChown s inode user owner group).2 s.names := by
  rw [permChown]
  split
  · exact .refl
  · rw [Store.inodeChown,Store.modify]
    split
    · exact .refl
    · rename_i info named
      exact .alter s.freeBlocks tidy named rfl rfl rfl
        (tidy.used inode info nonneg named).2 (.inr ⟨rfl,fun _ => rfl⟩)

omit [Geometry] in
theorem inodeUtime_same : s.inodeUtime inode = (if s.inode inode = none then -1 else 0,s) := by
  rw [Store.inodeUtime,Store.modify]
  split
  · rename_i none
    rw [if_pos none]
  · rename_i info named
    rw [if_neg (by rw [named]; exact Option.some_ne_none _),id_eq,Store.set_same _ _ _ named]

theorem Rebound.evolves (rebound : Rebound fs.store s' fs.store.names) (sane : Sane fs) :
    Evolves fs [] (fs.over s') := by
  have space : (fs.over s').space = fs.space := by
    rw [over_space,rebound.names]
    exact Naming.Space.ext rfl (funext rebound.object) rfl
  refine ⟨⟨rebound.tidy sane.tidy,sane.tables.over _,?_⟩,trivial,space⟩
  rw [space]
  exact sane.valid

theorem Sane.onDisk {α : Type} (call : Store → Try (α × Store)) {answer : α} (sane : Sane fs)
    (ran : call fs.store = .ok (answer,s')) (rebound : Rebound fs.store s' fs.store.names) :
    CandyFs.onDisk call fs = .ok (answer,fs.over s') ∧ Evolves fs [] (fs.over s') := by
  have ran : CandyFs.onDisk call (fs.holding 0) = .ok (answer,(fs.over s').holding 0) :=
    sane.tables.onDisk_holding ran rebound.links
  rw [holding_zero,holding_zero] at ran
  exact ⟨ran,rebound.evolves sane⟩

/-- A new inode that is no directory and has no links, or none. -/
inductive Fresh (s : Store) : Int → Store → Prop where
  | failed (res : Int) (negative : res < 0) (s' : Store) (same : Rebound s s' s.names) : Fresh s res s'
  | made (inode : Int) (info : Node) (s' : Store) (adopted : Adopted s s' inode info)
      (plain : ¬sISDIR info.mode) (unlinked : info.nlinks = 0) (top : info.size ≤ maxFilesize)
      (link : sISLNK info.mode → 0 < info.size ∧ info.size < pathMax) : Fresh s inode s'

theorem Rebound.of_inode (inode : s'.inode = s.inode) (limit : s'.limit = s.limit)
    (free : s'.freeInodes = s.freeInodes) : Rebound s s' s.names := by
  refine ⟨names_inode inode,fun tidy => ⟨⟨?_,?_,?_,?_⟩,?_,?_⟩,fun n => by rw [inode]⟩
  · rw [inode,limit]
    exact tidy.used
  · rw [inode,limit,free]
    exact tidy.free
  · rw [free]
    exact tidy.nodup
  · rw [limit]
    exact tidy.fits
  · rw [inode]
    exact tidy.outside
  · rw [inode]
    exact tidy.symlinks

theorem adopted_adopt (first : s.freeInodes = inode :: rest) :
    Adopted s (s.adopt inode rest info) inode info := ⟨first,rfl,rfl⟩

theorem fileCreate_fresh (tidy : s.Tidy) (ran : fileCreate s = .ok (res,s')) : Fresh s res s' := by
  rw [fileCreate] at ran
  by_cases none : s.freeInodes = [] ∨ s.freeBlocks = 0
  · rw [Store.inodeAllocate_none none] at ran
    cases ran
    exact .failed _ (by decide) _ .refl
  · obtain ⟨inode,rest,first⟩ := List.exists_cons_of_ne_nil (not_or.mp none).1
    obtain ⟨low,_⟩ := tidy.free inode (by simp [first])
    rw [Store.inodeAllocate_some first (not_or.mp none).2] at ran
    dsimp only at ran
    rw [if_neg (not_lt.mpr low),Store.inodeChmod_adopt] at ran
    cases ran
    exact .made _ _ _ (adopted_adopt first) (by decide) rfl (Int.natCast_nonneg _) fun link =>
      absurd link (by decide)

theorem symlinkCreate_fresh (tidy : s.Tidy) (ran : symlinkCreate s path = .ok (res,s')) : Fresh s res s' := by
  rw [symlinkCreate] at ran
  split at ran
  · cases ran
    exact .failed _ (by decide) _ .refl
  rename_i proper
  by_cases none : s.freeInodes = [] ∨ s.freeBlocks = 0
  · rw [Store.inodeAllocate_none none] at ran
    cases ran
    exact .failed _ (by decide) _ .refl
  obtain ⟨inode,rest,first⟩ := List.exists_cons_of_ne_nil (not_or.mp none).1
  obtain ⟨low,_,unused⟩ := tidy.free inode (by simp [first])
  rw [Store.inodeAllocate_some first (not_or.mp none).2] at ran
  dsimp only at ran
  rw [if_neg (not_lt.mpr low),Store.inodeChmod_adopt] at ran
  generalize made : { Store.freshNode with mode := sIFLNK ||| 0o777 } = node at ran
  have empty : node.size = 0 := by rw [← made]; rfl
  have unlinked : node.nlinks = 0 := by rw [← made]; rfl
  have kind : node.mode = sIFLNK ||| 0o777 := by rw [← made]
  obtain ⟨_,_,ran⟩ := bind_ok.mp ran
  obtain ⟨⟨count,s1⟩,wrote,ran⟩ := bind_ok.mp ran
  have adopted : Adopted s (s.adopt inode rest node) inode node := adopted_adopt first
  obtain ⟨length,rewritten,whole⟩ := inodeWrite_rewrites adopted.self (by rw [empty]; positivity) wrote
  obtain ⟨bytes,space,rfl⟩ := rewritten.made
  have node1 : ((s.adopt inode rest node).rewrite inode node length bytes space).inode =
      Function.update s.inode inode (some (node.refill length bytes)) :=
    Function.update_idem ..
  dsimp only at ran
  split at ran
  · have found : ((s.adopt inode rest node).rewrite inode node length bytes space).inode inode =
        some (node.refill length bytes) := by rw [node1,Function.update_self]
    obtain ⟨_,_,ran⟩ := bind_ok.mp ran
    cases ran
    obtain ⟨limit,free⟩ := inodeFree_lists found unlinked
    refine .failed _ (by decide) _ (.of_inode ?_ limit (free.trans first.symm))
    rw [inodeFree_inode found unlinked,node1,Function.update_idem,← unused,Function.update_eq_self]
  · rename_i all
    cases ran
    have length' : length = path.length := whole rfl empty (by omega) (not_lt.mp all)
    refine .made _ (node.refill length bytes) _ ⟨first,node1,rfl⟩ ?_ unlinked rewritten.top fun _ => ?_
    · rw [Node.refill_mode,kind]
      decide
    · rw [Node.refill_size,length']
      omega

omit [Geometry] in
theorem Adopted.links (adopted : Adopted s s' inode info) (unused : s.inode inode = none)
    (unlinked : info.nlinks = 0) (n : Int) : s'.nlinksOf n = s.nlinksOf n := by
  by_cases same : n = inode
  · rw [same,Store.nlinksOf,Store.nlinksOf,adopted.self,unused]
    exact unlinked
  · rw [Store.nlinksOf,Store.nlinksOf,adopted.others same]

omit [Geometry] in
theorem Adopted.open (adopted : Adopted s s' inode info) (tables : Tables fs) (fits : Fits inode) :
    refsOpen inode (fs.over s') = .ok (0,(fs.over s').holding {inode}) := by
  have ran : refsOpen inode ((fs.over s').holding 0) = .ok (0,(fs.over s').holding (inode ::ₘ 0)) :=
    (tables.over s').open_holding fits (by
      rw [over_store,adopted.self]
      exact Option.some_ne_none _)
  rwa [holding_zero] at ran

section
variable (sane : Sane fs) (adopted : Adopted fs.store s' inode info) (unlinked : info.nlinks = 0)
include sane adopted unlinked

theorem Sane.adopted_links (n : Int) : s'.nlinksOf n = fs.store.nlinksOf n :=
  adopted.links (sane.tidy.free inode (by simp [adopted.first])).2.2 unlinked n

omit unlinked in
theorem Sane.adopted_closed : fs.opens inode = 0 := by
  obtain ⟨_,_,unused⟩ := sane.tidy.free inode (by simp [adopted.first])
  by_contra open'
  exact object_some.mp (sane.valid.opened inode open') unused

omit unlinked in
theorem Sane.adopted_fits : Fits inode := by
  obtain ⟨low,inside,_⟩ := sane.tidy.free inode (by simp [adopted.first])
  have := sane.tidy.fits
  exact ⟨by omega,by omega⟩

omit unlinked in
theorem Sane.adopted_open : refsOpen inode (fs.over s') = .ok (0,(fs.over s').holding {inode}) :=
  adopted.open sane.tables (sane.adopted_fits adopted)

theorem Sane.discard : ∃ s'', closeHeld inode ((fs.over s').holding {inode}) = .ok ((),fs.over s'') ∧
    Rebound fs.store s'' fs.store.names ∧
    (s'.freeBlocks + Store.cost info.size + 1 = fs.store.freeBlocks → fs.store.Same s'') := by
  obtain ⟨_,_,unused⟩ := sane.tidy.free inode (by simp [adopted.first])
  have ran : closeHeld inode ((fs.over s').holding (inode ::ₘ 0)) = _ :=
    (sane.tables.over s').close_held (sane.adopted_fits adopted) (by
      rw [over_store,adopted.self]
      exact Option.some_ne_none _)
  have last : (fs.over s').opens inode = 0 ∧ inode ∉ (0 : Multiset Int) ∧
      (fs.over s').store.nlinksOf inode = 0 := by
    refine ⟨?_,Multiset.notMem_zero _,?_⟩
    · rw [over_opens,sane.adopted_closed adopted]
    · rw [over_store,Store.nlinksOf,adopted.self]
      exact unlinked
  rw [Fs.dropRef,if_pos last,over_store,over_over,holding_zero,Multiset.cons_zero] at ran
  obtain ⟨limit,free⟩ := inodeFree_lists adopted.self unlinked
  have same : (s'.inodeFree inode).2.inode = fs.store.inode := by
    rw [inodeFree_inode adopted.self unlinked,adopted.inode,Function.update_idem,← unused,
      Function.update_eq_self]
  have blocks : (s'.inodeFree inode).2.freeBlocks = s'.freeBlocks + Store.cost info.size + 1 := by
    rw [Store.inodeFree]
    simp only [adopted.self]
    rw [if_neg (not_not.mpr unlinked)]
  exact ⟨_,ran,.of_inode same (limit.trans adopted.limit) (free.trans adopted.first.symm),fun all =>
    ⟨same,limit.trans adopted.limit,free.trans adopted.first.symm,blocks.trans all⟩⟩

end

theorem Sane.create (sane : Sane fs) (adopted : Adopted fs.store s' inode info)
    (plain : ¬sISDIR info.mode) (unlinked : info.nlinks = 0) (top : info.size ≤ maxFilesize)
    (link : sISLNK info.mode → 0 < info.size ∧ info.size < pathMax) :
    Evolves fs [.create inode] ((fs.over s').holding {inode}) := by
  obtain ⟨low,_,unused⟩ := sane.tidy.free inode (by simp [adopted.first])
  have store : ((fs.over s').holding {inode}).store = s' := (sane.tables.over s').holding_store
  refine sane.evolves (by rw [store]; exact adopted.tidy sane.tidy top link)
    (sane.tables.over _).holding ?_ ?_
  · change (fs.store.inode inode).map Node.object = none
    rw [unused]
    rfl
  · rw [holding_over_space sane.tables]
    refine Naming.Space.ext ?_ ?_ ?_
    · funext other
      change s'.names other = fs.store.names other
      by_cases same : other = inode
      · rw [same,names_plain,names_plain]
        · exact fun live => by
            obtain ⟨node,found,_⟩ := live.info
            rw [unused] at found
            cases found
        · exact fun live => by
            obtain ⟨node,found,dir⟩ := live.info
            rw [adopted.self] at found
            cases found
            exact plain dir
      · exact names_same (adopted.others same)
    · funext n
      change (s'.inode n).map Node.object =
        Function.update (fun n => (fs.store.inode n).map Node.object) inode (some ⟨false,0⟩) n
      rw [adopted.inode,Function.update_apply,Function.update_apply]
      split
      · rw [Option.map_some,Node.object,unlinked,decide_eq_false plain]
      · rfl
    · funext n
      change (fs.holding {inode}).opens n = Function.update fs.opens inode 1 n
      rw [sane.tables.opens_holding,Function.update_apply,Multiset.count_singleton]
      by_cases same : n = inode
      · rw [same,if_pos (sane.adopted_fits adopted),if_pos rfl,if_pos rfl,sane.adopted_closed adopted]
      · rw [if_neg same,if_neg same,ite_self,Nat.add_zero]

end

end CandyFs
