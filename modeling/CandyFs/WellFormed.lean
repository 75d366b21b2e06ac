import CandyFs.DirRuns
import CandyFs.Held
import CandyFs.Path

/-! Well-formed file systems, and opening, closing and looking up in one. -/
namespace CandyFs
open Bytes

section
variable [Geometry]

/-- A directory in use. -/
structure LiveDir (s : Store) (directory : Int) : Prop where
  nonneg : 0 ≤ directory
  holds : ∃ parent m, HoldsMap s directory parent m

/-- An inode in use, where a directory is one in use. -/
structure Live (s : Store) (inode : Int) : Prop where
  nonneg : 0 ≤ inode
  named : ∃ info, s.inode inode = some info ∧ (sISDIR info.mode → LiveDir s inode)

/-- Every entry of a directory names an inode in use, a symbolic link has between 1 and 4095 bytes,
and an inode that is not open has links. -/
structure WellFormed (fs : Fs) : Prop where
  sound : fs.store.Sound
  tables : Tables fs
  opened : ∀ inode, fs.opens inode ≠ 0 → 0 ≤ inode ∧ fs.store.inode inode ≠ none
  linked : ∀ inode info, 0 ≤ inode → fs.store.inode inode = some info → fs.opens inode = 0 → info.nlinks ≠ 0
  root : LiveDir fs.store 0
  entries : ∀ directory parent m, 0 ≤ directory → HoldsMap fs.store directory parent m →
    ∀ name target, m name = some target → Live fs.store target
  symlinks : ∀ inode info, 0 ≤ inode → fs.store.inode inode = some info → sISLNK info.mode →
    0 < info.size ∧ info.size < pathMax

end

section
variable {fs : Fs} {held more : Multiset Int} {inode : Int}

theorem Tables.holding_add (ok : Tables fs) :
    (fs.holding held).holding more = fs.holding (held + more) := by
  refine ok.eq_holding (ok.holding.holding) ?_ ?_ fun other fits => ?_
  · rw [ok.holding.holding_store,ok.holding_store]
  · rw [ok.holding.holding_paths,ok.holding_paths]
  · rw [ok.holding.opens_holding,ok.opens_holding,if_pos fits,if_pos fits,Multiset.count_add,
      Nat.add_assoc]

theorem Tables.getinfo_holding (ok : Tables fs) :
    getinfo inode (fs.holding held) = .ok (fs.store.inode inode,fs.holding held) := by
  rw [getinfo,ok.holding_store]

end

variable [Geometry] {fs : Fs} {s : Store} {held : Multiset Int} {inode directory : Int} {name : Name}

theorem LiveDir.info (live : LiveDir s directory) :
    ∃ info, s.inode directory = some info ∧ sISDIR info.mode := by
  obtain ⟨parent,m,holds⟩ := live.holds
  obtain ⟨node,blocks,ok,_⟩ := holds.ok
  exact ⟨node,ok.named,ok.isDir⟩

theorem LiveDir.live (live : LiveDir s directory) : Live s directory := by
  obtain ⟨info,named,_⟩ := live.info
  exact ⟨live.nonneg,info,named,fun _ => live⟩

theorem Live.some (live : Live s inode) : s.inode inode ≠ none := by
  obtain ⟨info,named,_⟩ := live.named
  rw [named]
  nofun

theorem HoldsMap.lookup {parent : Int} {m : Bindings} (holds : HoldsMap s directory parent m)
    (short : name.length ≤ nameMax) : dirLookup s directory name = .ok ((m name).getD (-eNOENT)) := by
  obtain ⟨node,blocks,ok,same⟩ := holds.ok
  rw [dirLookup_spec ok.toDirectory short,same]

theorem HoldsMap.tooLong {parent : Int} {m : Bindings} (holds : HoldsMap s directory parent m)
    (long : nameMax < name.length) : dirLookup s directory name = .ok (-eNAMETOOLONG) := by
  obtain ⟨node,blocks,ok,_⟩ := holds.ok
  rw [dirLookup,ok.named]
  dsimp only
  rw [if_neg (not_not.mpr ok.isDir),if_pos long]

theorem Store.Sound.number (sound : s.Sound) (nonneg : 0 ≤ inode) (named : s.inode inode ≠ none) :
    Fits inode := by
  obtain ⟨info,found⟩ := Option.ne_none_iff_exists'.mp named
  have := (sound.used inode info nonneg found).1
  have := sound.fits
  exact ⟨by omega,by omega⟩

section
variable (wf : WellFormed fs)
include wf

theorem WellFormed.fits (nonneg : 0 ≤ inode) (named : fs.store.inode inode ≠ none) : Fits inode :=
  wf.sound.number nonneg named

theorem WellFormed.open (live : Live fs.store inode) :
    refsOpen inode (fs.holding held) = .ok (0,fs.holding (inode ::ₘ held)) :=
  wf.tables.open_holding (wf.fits live.nonneg live.some) live.some

theorem WellFormed.close (live : Live fs.store inode) :
    refsClose inode (fs.holding (inode ::ₘ held)) = .ok (0,fs.holding held) := by
  obtain ⟨info,named,_⟩ := live.named
  refine wf.tables.close_holding (wf.fits live.nonneg live.some) ?_
  by_cases closed : fs.opens inode = 0
  · have links := wf.linked inode info live.nonneg named closed
    refine .inr (.inr ?_)
    rw [Store.nlinksOf,named]
    exact links
  · exact .inl closed

theorem WellFormed.close_eof (nonneg : ∀ inode ∈ held, 0 ≤ inode) :
    refsClose eof (fs.holding held) = .ok (-1,fs.holding held) := by
  refine wf.tables.close_none eof_fits ?_ fun member => ?_
  · by_contra open'
    exact absurd (wf.opened eof open').1 (by decide)
  · exact absurd (nonneg eof member) (by decide)

theorem WellFormed.lookup (live : LiveDir fs.store directory) (name : Name) :
    (∃ target, dirLookup fs.store directory name = .ok target ∧ Live fs.store target) ∨
    dirLookup fs.store directory name = .ok (-eNOENT) ∨
    dirLookup fs.store directory name = .ok (-eNAMETOOLONG) := by
  obtain ⟨parent,m,holds⟩ := live.holds
  by_cases long : nameMax < name.length
  · exact .inr (.inr (holds.tooLong long))
  · rw [holds.lookup (not_lt.mp long)]
    cases found : m name with
    | none => exact .inr (.inl rfl)
    | some target => exact .inl ⟨target,rfl,wf.entries _ _ _ live.nonneg holds name target found⟩

theorem WellFormed.dirLookupOpen {target : Int} (found : dirLookup fs.store directory name = .ok target)
    (live : Live fs.store target) : refsDirLookupOpen directory name (fs.holding held) =
      .ok (target,fs.holding (target ::ₘ held)) := by
  rw [refsDirLookupOpen,act_bind (wf.tables.reading_holding found),if_neg (not_lt.mpr live.nonneg),
    act_bind (wf.open live)]
  rfl

theorem WellFormed.dirLookupOpen_fails {res : Int} (found : dirLookup fs.store directory name = .ok res)
    (failed : res < 0) : refsDirLookupOpen directory name (fs.holding held) =
      .ok (res,fs.holding held) := by
  rw [refsDirLookupOpen,act_bind (wf.tables.reading_holding found),if_pos failed]
  rfl

end

/-- The root with these blocks. -/
def rootNode (mode : Nat) (blocks : List (List Binding)) : Node :=
  { Store.freshNode with mode := mode, nlinks := 1 }.showing blocks

/-- The entries of the root are as they are to be, and the inodes. -/
structure Flat (s : Store) (mode : Nat) (first : List Binding) (rest : List (List Binding)) : Prop where
  sound : s.Sound
  isDir : sISDIR mode
  named : s.inode 0 = some (rootNode mode ((dots 0 0 ++ first) :: rest))
  fits : ∀ es ∈ (dots 0 0 ++ first) :: rest, BlockFits es
  top : (((dots 0 0 ++ first) :: rest).length * blocksize : Int) ≤ maxFilesize
  distinct : ((((dots 0 0 ++ first) :: rest).flatten).map (·.1)).Nodup
  targets : ∀ e ∈ ((dots 0 0 ++ first) :: rest).flatten, 0 ≤ e.2 ∧ s.inode e.2 ≠ none
  others : ∀ inode info, 0 < inode → s.inode inode = some info → ¬sISDIR info.mode ∧ info.nlinks ≠ 0 ∧
    (sISLNK info.mode → 0 < info.size ∧ info.size < pathMax)

/-- No inode and no path is open. -/
def Fs.closed (s : Store) : Fs := ⟨s,fun _ => [],fun _ => ⟨0,0,[]⟩⟩

omit [Geometry] in
theorem Fs.closed_tables (s : Store) : Tables (Fs.closed s) := by
  constructor
  · exact fun _ => List.Pairwise.nil
  all_goals exact fun _ _ none => absurd none List.not_mem_nil

section
variable {mode : Nat} {first : List Binding} {rest : List (List Binding)} (flat : Flat s mode first rest)
include flat

theorem Flat.holds : HoldsMap s 0 0 fun name => ((dots 0 0 ++ first) :: rest).flatten.lookup name :=
  ⟨⟨_,_,⟨⟨flat.named,flat.isDir,showsDir_showing,flat.fits,flat.top⟩,⟨first,rest,rfl⟩,flat.distinct⟩,
    fun _ => rfl⟩⟩

theorem Flat.live (nonneg : 0 ≤ inode) (named : s.inode inode ≠ none) : Live s inode := by
  obtain ⟨info,found⟩ := Option.ne_none_iff_exists'.mp named
  refine ⟨nonneg,info,found,fun isDir => ?_⟩
  rcases nonneg.eq_or_lt with zero | positive
  · rw [← zero]
    exact ⟨le_rfl,0,_,flat.holds⟩
  · exact absurd isDir (flat.others inode info positive found).1

theorem Flat.wellFormed : WellFormed (Fs.closed s) where
  sound := flat.sound
  tables := Fs.closed_tables s
  opened _ held := absurd rfl held
  linked inode info nonneg found _ := by
    rcases nonneg.eq_or_lt with zero | positive
    · rw [← zero,show (Fs.closed s).store = s from rfl,flat.named] at found
      cases found
      exact Nat.one_ne_zero
    · exact (flat.others inode info positive found).2.1
  root := ⟨le_rfl,0,_,flat.holds⟩
  entries directory parent m nonneg holds name target bound := by
    obtain ⟨node,blocks,ok,_⟩ := holds.ok
    rcases nonneg.eq_or_lt with rfl | positive
    · obtain ⟨_,rfl⟩ := holds.unique flat.holds
      have member := (lookup_iff flat.distinct).mp bound
      obtain ⟨low,named⟩ := flat.targets _ member
      exact flat.live low named
    · exact absurd ok.isDir (flat.others directory node positive ok.named).1
  symlinks inode info nonneg found link := by
    rcases nonneg.eq_or_lt with zero | positive
    · rw [← zero,show (Fs.closed s).store = s from rfl,flat.named] at found
      cases found
      have isDir : mode &&& sIFMT = sIFDIR := flat.isDir
      have isLink : mode &&& sIFMT = sIFLNK := link
      rw [isDir] at isLink
      exact absurd isLink (by decide)
    · exact (flat.others inode info positive found).2.2 link

end

/-- A store with the root and the inodes that follow it. -/
def flatStore (root : Node) (others : List Node) : Store where
  inode n := if n < 0 then none else (root :: others)[n.toNat]?
  limit := 44
  freeInodes := []
  freeBlocks := 0
  stack _ := 0
  frees := []

theorem flatStore_flat {mode : Nat} {first : List Binding} {rest : List (List Binding)}
    {others : List Node} (isDir : sISDIR mode)
    (fits : ∀ es ∈ (dots 0 0 ++ first) :: rest, BlockFits es)
    (top : (((dots 0 0 ++ first) :: rest).length * blocksize : Int) ≤ maxFilesize)
    (distinct : ((((dots 0 0 ++ first) :: rest).flatten).map (·.1)).Nodup)
    (targets : ∀ e ∈ ((dots 0 0 ++ first) :: rest).flatten, 0 ≤ e.2 ∧ e.2.toNat ≤ others.length)
    (few : others.length < 44)
    (plain : ∀ info ∈ others, ¬sISDIR info.mode ∧ info.nlinks ≠ 0 ∧
      (sISLNK info.mode → 0 < info.size ∧ info.size < pathMax) ∧ info.size ≤ maxFilesize) :
    Flat (flatStore (rootNode mode ((dots 0 0 ++ first) :: rest)) others) mode first rest where
  sound := by
    refine ⟨fun n node nonneg named => ?_,nofun,List.nodup_nil,by simp [flatStore]⟩
    rw [flatStore] at named
    dsimp only at named
    rw [if_neg (not_lt.mpr nonneg)] at named
    obtain ⟨inside,same⟩ := List.getElem?_eq_some_iff.mp named
    rw [List.length_cons] at inside
    refine ⟨by dsimp only [flatStore]; omega,?_⟩
    rcases List.mem_cons.mp (List.mem_of_getElem? named) with rfl | member
    · exact top
    · exact (plain node member).2.2.2
  isDir := isDir
  named := rfl
  fits := fits
  top := top
  distinct := distinct
  targets e member := by
    obtain ⟨nonneg,inside⟩ := targets e member
    refine ⟨nonneg,?_⟩
    dsimp only [flatStore]
    rw [if_neg (not_lt.mpr nonneg),List.getElem?_eq_getElem (by simpa using by omega)]
    nofun
  others inode info positive named := by
    dsimp only [flatStore] at named
    obtain ⟨k,rfl⟩ : ∃ k : Nat, inode = k + 1 := ⟨inode.toNat - 1,by omega⟩
    rw [if_neg (by omega),show ((k : Int) + 1).toNat = k + 1 by omega,List.getElem?_cons_succ] at named
    obtain ⟨dir,links,link,_⟩ := plain info (List.mem_of_getElem? named)
    exact ⟨dir,links,link⟩

end CandyFs
