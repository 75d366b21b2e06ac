import CandyFs.Space
import CandyFs.Removal

/-! The names, the link counts and the references of a file system as a space of named objects.
-/
namespace CandyFs
open Bytes

theorem dot_ne_dotdot : dot ≠ dotdot := by decide

def dirDots : Naming.Dots Name := ⟨dot,dotdot,dot_ne_dotdot⟩

def Node.object (node : Node) : Naming.Object := ⟨decide (sISDIR node.mode),node.nlinks⟩

section
variable [Geometry]

open Classical in
/-- What each directory binds. -/
noncomputable def Store.names (s : Store) : Naming.Names Int Name := fun directory name =>
  if h : ∃ target, Entry s directory name target then some h.choose else none

/-- What becomes of a file system when nobody looks at the contents of its files. -/
noncomputable def Fs.space (fs : Fs) : Naming.Space Int Name where
  names := fs.store.names
  object inode := (fs.store.inode inode).map Node.object
  opens := fs.opens

/-- No inode has a negative number (the code asks for one only by way of a handle without a directory,
and then goes by what a buffer holds), and a symbolic link has between 1 and 4095 bytes. -/
structure Store.Tidy (s : Store) : Prop extends Store.Sound s where
  outside : ∀ n < 0, s.inode n = none
  symlinks : ∀ inode info, s.inode inode = some info → sISLNK info.mode →
    0 < info.size ∧ info.size < pathMax

/-- A file system with a valid space. Directories may be below themselves, out of reach of the root. -/
structure Sane (fs : Fs) : Prop where
  tidy : fs.store.Tidy
  tables : Tables fs
  valid : fs.space.Valid dirDots 0

end

section
variable [Geometry] {fs : Fs} {s s' : Store} {directory inode target parent : Int} {name : Name}
  {m : Bindings} {info : Node}

theorem names_iff : s.names directory name = some target ↔ Entry s directory name target := by
  rw [Store.names]
  split
  · rename_i found
    have chosen := found.choose_spec
    rw [Option.some.injEq]
    exact ⟨fun same => same ▸ chosen,fun entry => chosen.unique entry⟩
  · rename_i none
    exact iff_of_false (Option.some_ne_none _).symm fun entry => none ⟨target,entry⟩

theorem HoldsMap.names (holds : HoldsMap s directory parent m) (nonneg : 0 ≤ directory) :
    s.names directory = m := by
  funext name
  ext target
  rw [names_iff]
  exact ⟨fun entry => entry.bound holds,fun bound => ⟨nonneg,parent,m,holds,bound⟩⟩

theorem isDir_iff : Naming.IsDir dirDots s.names directory ↔ LiveDir s directory := by
  rw [Naming.IsDir,Option.ne_none_iff_exists']
  constructor
  · rintro ⟨parent,names⟩
    exact (names_iff.mp names).live
  · intro live
    obtain ⟨parent,entry⟩ := live.entry
    exact ⟨parent,names_iff.mpr entry⟩

theorem child_iff : Naming.Child dirDots s.names directory name target ↔ Child s directory name target := by
  constructor
  · rintro ⟨names,here,up⟩
    exact ⟨names_iff.mp names,here,up⟩
  · rintro ⟨entry,here,up⟩
    exact ⟨names_iff.mpr entry,here,up⟩

theorem names_plain (plain : ¬LiveDir s directory) : s.names directory = fun _ => none := by
  funext name
  cases names : s.names directory name with
  | none => rfl
  | some target => exact absurd (names_iff.mp names).live plain

theorem names_congr (same : ∀ parent m, HoldsMap s' directory parent m ↔ HoldsMap s directory parent m) :
    s'.names directory = s.names directory := by
  funext name
  ext target
  rw [names_iff,names_iff,Entry,Entry]
  simp only [same]

theorem names_same (same : s'.inode directory = s.inode directory) :
    s'.names directory = s.names directory :=
  names_congr fun _ _ => ⟨fun holds => holds.elsewhere same.symm,fun holds => holds.elsewhere same⟩

theorem names_inode (same : s'.inode = s.inode) : s'.names = s.names :=
  funext fun directory => names_same (congrFun same directory)

/-- The kind and the bytes are as before. -/
def SameBytes (node node' : Node) : Prop :=
  node'.mode &&& sIFMT = node.mode &&& sIFMT ∧ node'.size = node.size ∧ ∀ a, node'.byte a = node.byte a

omit [Geometry] in
theorem sameBytes_nlinks (node : Node) (nlinks : Nat) : SameBytes node { node with nlinks := nlinks } :=
  ⟨rfl,rfl,fun _ => rfl⟩

theorem names_set {node' : Node} (named : s.inode inode = some info) (bytes : SameBytes info node') :
    (s.set inode node').names = s.names := by
  funext directory
  by_cases same : directory = inode
  · subst same
    refine names_congr fun parent m => ⟨fun holds => ?_,fun holds => ?_⟩
    · refine holds.carry fun node found => ⟨info,named,?_⟩
      rw [Store.set_inode_self,Option.some.injEq] at found
      subst found
      exact ⟨bytes.1.symm,bytes.2.1.symm,fun a => (bytes.2.2 a).symm⟩
    · refine holds.carry fun node found => ⟨node',Store.set_inode_self ..,?_⟩
      rw [named,Option.some.injEq] at found
      subst found
      exact bytes
  · exact names_same (Store.set_inode_ne _ _ _ same)

theorem Edited.names (edited : Edited s s' directory parent m) (nonneg : 0 ≤ directory) :
    s'.names = Function.update s.names directory m := by
  funext other
  by_cases same : other = directory
  · subst same
    rw [Function.update_self]
    exact edited.holds.names nonneg
  · rw [Function.update_of_ne same]
    exact names_same (edited.others other same)

theorem Edited.bind {old : Int} (edited : Edited s s' directory parent (Function.update m name (some target)))
    (holds : HoldsMap s directory old m) (nonneg : 0 ≤ directory) :
    s'.names = Naming.bind s.names directory name target := by
  rw [edited.names nonneg,Naming.bind,holds.names nonneg]

theorem Edited.unbind (edited : Edited s s' directory parent (Function.update m name none))
    (holds : HoldsMap s directory parent m) (nonneg : 0 ≤ directory) :
    s'.names = Naming.unbind s.names directory name := by
  rw [edited.names nonneg,Naming.unbind,holds.names nonneg]

variable (sane : Sane fs)
include sane

theorem Sane.nonneg (named : fs.store.inode inode ≠ none) : 0 ≤ inode := by
  by_contra negative
  exact named (sane.tidy.outside inode (not_le.mp negative))

theorem Sane.live (entry : Entry fs.store directory name target) : Live fs.store target := by
  obtain ⟨o,object,dir⟩ := sane.valid.named directory name target (names_iff.mpr entry)
  obtain ⟨info,named,rfl⟩ := Option.map_eq_some_iff.mp object
  refine ⟨sane.nonneg (by rw [named]; exact Option.some_ne_none _),info,named,fun isDir => ?_⟩
  exact isDir_iff.mp (dir (decide_eq_true isDir))

theorem Sane.rooted : Rooted fs.store where
  outside := sane.tidy.outside
  up directory parent entry := isDir_iff.mp (sane.valid.rooted.above directory parent (names_iff.mpr entry))
  top parent entry := by
    have names := names_iff.mpr entry
    have root : fs.store.names 0 dotdot = some 0 := sane.valid.rooted.root
    rw [root] at names
    exact (Option.some.inj names).symm
  below directory name target child live := by
    obtain ⟨differ,above⟩ :=
      sane.valid.rooted.below directory name target (child_iff.mpr child) (isDir_iff.mpr live)
    exact ⟨differ,names_iff.mp above⟩
  once directory name name' target child child' live :=
    sane.valid.rooted.once directory name name' target (child_iff.mpr child) (child_iff.mpr child')
      (isDir_iff.mpr live)
  listed directory parent entry differ := by
    obtain ⟨name,child⟩ := sane.valid.rooted.listed directory parent (names_iff.mpr entry) differ
    exact ⟨name,child_iff.mp child⟩

theorem Sane.tree : Tree fs where
  sound := sane.tidy.toSound
  tables := sane.tables
  opened inode held := by
    have object := sane.valid.opened inode held
    have named : fs.store.inode inode ≠ none := fun none => object (by
      rw [Fs.space]
      dsimp only
      rw [none]
      rfl)
    exact ⟨sane.nonneg named,named⟩
  linked inode info _ named closed := by
    refine sane.valid.linked inode info.object ?_ closed
    rw [Fs.space]
    dsimp only
    rw [named]
    rfl
  root := isDir_iff.mp sane.valid.rooted.root_dir
  entries directory parent m nonneg holds name target bound :=
    sane.live ⟨nonneg,parent,m,holds,bound⟩
  symlinks inode info _ := sane.tidy.symlinks inode info
  rooted := sane.rooted

end

section
variable [Geometry] {s s' : Store} {directory inode parent : Int} {m : Bindings} {info info' : Node}

theorem Store.Tidy.update (tidy : s.Tidy) (limit : s'.limit = s.limit)
    (free : s'.freeInodes = s.freeInodes)
    (changed : s'.inode = Function.update s.inode inode (some info')) (named : s.inode inode ≠ none)
    (top : info'.size ≤ maxFilesize) (link : sISLNK info'.mode → 0 < info'.size ∧ info'.size < pathMax) :
    s'.Tidy := by
  constructor
  case outside =>
    intro n negative
    rw [changed,Function.update_of_ne,tidy.outside n negative]
    rintro rfl
    exact named (tidy.outside n negative)
  case symlinks =>
    intro n node found isLink
    rw [changed,Function.update_apply] at found
    split at found
    · cases found
      exact link isLink
    · exact tidy.symlinks n node found isLink
  case toSound =>
    constructor
    · intro n node nonneg found
      rw [limit]
      rw [changed,Function.update_apply] at found
      split at found
      · rename_i same
        cases found
        obtain ⟨old,found⟩ := Option.ne_none_iff_exists'.mp named
        exact ⟨(tidy.used n old nonneg (same ▸ found)).1,top⟩
      · exact tidy.used n node nonneg found
    · intro n member
      rw [free] at member
      obtain ⟨nonneg,inside,unused⟩ := tidy.free n member
      refine ⟨nonneg,limit ▸ inside,?_⟩
      rw [changed,Function.update_of_ne,unused]
      rintro rfl
      exact named unused
    · exact free ▸ tidy.nodup
    · exact limit ▸ tidy.fits

theorem Store.Tidy.set (tidy : s.Tidy) (named : s.inode inode ≠ none) (top : info'.size ≤ maxFilesize)
    (link : sISLNK info'.mode → 0 < info'.size ∧ info'.size < pathMax) : (s.set inode info').Tidy :=
  tidy.update rfl rfl rfl named top link

omit [Geometry] in
theorem isDir_not_link {mode : Nat} (isDir : sISDIR mode) : ¬sISLNK mode := by
  intro isLink
  rw [sISLNK,show mode &&& sIFMT = sIFDIR from isDir] at isLink
  exact absurd isLink (by decide)

theorem Edited.tidy (edited : Edited s s' directory parent m) (tidy : s.Tidy) : s'.Tidy := by
  obtain ⟨node,blocks,named,rfl⟩ := edited.made
  obtain ⟨node',blocks',ok,_⟩ := edited.holds.ok
  have found : some (node.showing blocks) = some node' := (Store.set_inode_self ..).symm.trans ok.named
  obtain rfl := Option.some.inj found
  exact tidy.update rfl rfl rfl (by rw [named]; exact Option.some_ne_none _) ok.top fun link =>
    absurd link (isDir_not_link ok.isDir)

theorem Destroyed.tidy (destroyed : Destroyed s s' directory) (isDir : s.isDir directory) (tidy : s.Tidy) :
    s'.Tidy := by
  obtain ⟨node,named,_,rfl⟩ := destroyed.made
  obtain ⟨node',named',isDir⟩ := isDir
  obtain rfl := Option.some.inj (named.symm.trans named')
  have top : ((blocksize : Int) - 1) ≤ maxFilesize := by
    have : (blocksize : Int) ≤ maxFilesize := by
      exact_mod_cast Nat.le_mul_of_pos_left blocksize firstUnreachableBlock_pos
    omega
  exact tidy.update rfl rfl rfl (by rw [named]; exact Option.some_ne_none _) top fun link => absurd link (isDir_not_link isDir)

theorem Store.Tidy.inodeFree (tidy : s.Tidy) (nonneg : 0 ≤ inode) : (s.inodeFree inode).2.Tidy := by
  rw [Store.inodeFree]
  dsimp only
  have frees : ({ s with frees := inode :: s.frees } : Store).Tidy :=
    ⟨⟨tidy.used,tidy.free,tidy.nodup,tidy.fits⟩,tidy.outside,tidy.symlinks⟩
  split
  · exact frees
  · rename_i node named
    split
    · exact frees
    have gone {n : Int} {found : Node} (some : Function.update s.inode inode none n = Option.some found) :
        s.inode n = Option.some found := by
      rw [Function.update_apply] at some
      split at some
      · cases some
      · exact some
    constructor
    case outside =>
      intro n negative
      dsimp only
      rw [Function.update_apply]
      split
      · rfl
      · exact tidy.outside n negative
    case symlinks => exact fun n node found => tidy.symlinks n node (gone found)
    case toSound =>
      constructor
      · exact fun n node low found => tidy.used n node low (gone found)
      · intro n member
        dsimp only
        rw [Function.update_apply]
        rcases List.mem_cons.mp member with rfl | member
        · exact ⟨nonneg,(tidy.used n node nonneg named).1,if_pos rfl⟩
        · obtain ⟨low,inside,unused⟩ := tidy.free n member
          refine ⟨low,inside,?_⟩
          split
          · rfl
          · exact unused
      · refine List.nodup_cons.mpr ⟨fun member => ?_,tidy.nodup⟩
        obtain ⟨_,_,unused⟩ := tidy.free inode member
        rw [named] at unused
        cases unused
      · exact tidy.fits

/-- The first free inode is in use. -/
structure Adopted (s s' : Store) (inode : Int) (info : Node) : Prop where
  first : s.freeInodes = inode :: s'.freeInodes
  inode : s'.inode = Function.update s.inode inode (some info)
  limit : s'.limit = s.limit

omit [Geometry] in
theorem Adopted.self (adopted : Adopted s s' inode info) : s'.inode inode = some info := by
  rw [adopted.inode,Function.update_self]

omit [Geometry] in
theorem Adopted.others (adopted : Adopted s s' inode info) {n : Int} (differ : n ≠ inode) :
    s'.inode n = s.inode n := by
  rw [adopted.inode,Function.update_of_ne differ]

theorem Adopted.tidy (adopted : Adopted s s' inode info) (tidy : s.Tidy) (top : info.size ≤ maxFilesize)
    (link : sISLNK info.mode → 0 < info.size ∧ info.size < pathMax) : s'.Tidy := by
  obtain ⟨low,inside,_⟩ := tidy.free inode (by simp [adopted.first])
  have nodup := tidy.nodup
  rw [adopted.first,List.nodup_cons] at nodup
  constructor
  case outside =>
    intro n negative
    rw [adopted.others (by omega)]
    exact tidy.outside n negative
  case symlinks =>
    intro n node found isLink
    by_cases same : n = inode
    · rw [same,adopted.self] at found
      cases found
      exact link isLink
    · rw [adopted.others same] at found
      exact tidy.symlinks n node found isLink
  case toSound =>
    constructor
    · intro n node nonneg found
      rw [adopted.limit]
      by_cases same : n = inode
      · rw [same,adopted.self] at found
        cases found
        exact ⟨same ▸ inside,top⟩
      · rw [adopted.others same] at found
        exact tidy.used n node nonneg found
    · intro n member
      have differ : n ≠ inode := fun same => nodup.1 (same ▸ member)
      rw [adopted.others differ,adopted.limit]
      exact tidy.free n (by rw [adopted.first]; exact List.mem_cons_of_mem _ member)
    · exact nodup.2
    · exact adopted.limit ▸ tidy.fits

omit [Geometry] in
theorem newBindings_apply (name : Name) : newBindings parent directory name =
    if name = dot then some directory else if name = dotdot then some parent else none := by
  rw [newBindings,dots,List.lookup_cons]
  by_cases up : name = dotdot
  · rw [up,if_neg dot_ne_dotdot.symm,if_pos rfl,beq_self_eq_true]
  · rw [beq_eq_false_iff_ne.mpr up,List.lookup_cons,if_neg up]
    by_cases here : name = dot
    · rw [here,if_pos rfl,beq_self_eq_true]
    · rw [beq_eq_false_iff_ne.mpr here,if_neg here]
      rfl

theorem start_sane (tidy : s.Tidy) (holds : HoldsMap s 0 0 (newBindings 0 0)) (named : s.inode 0 = some info)
    (links : info.nlinks = 1) (others : ∀ n ≠ 0, s.inode n = none) :
    Sane (Fs.closed s) ∧ (Fs.closed s).space = Naming.Space.start dirDots 0 := by
  have isDir : sISDIR info.mode := by
    obtain ⟨node,found,isDir⟩ := holds.isDir
    exact Option.some.inj (named.symm.trans found) ▸ isDir
  have space : (Fs.closed s).space = Naming.Space.start dirDots 0 := by
    refine Naming.Space.ext ?_ ?_ rfl
    · funext directory
      change s.names directory = Function.update (fun _ _ => Option.none) 0 _ directory
      rw [Function.update_apply]
      split
      · rename_i same
        rw [same,holds.names le_rfl]
        exact funext newBindings_apply
      · rename_i differ
        refine names_plain fun live => live.live.some (others directory differ)
    · funext n
      change Option.map Node.object (s.inode n) =
        Function.update (fun _ => Option.none) 0 (some (⟨true,1⟩ : Naming.Object)) n
      rw [Function.update_apply]
      split
      · rename_i same
        rw [same,named,Option.map_some,Node.object,links,decide_eq_true isDir]
      · rename_i differ
        rw [others n differ]
        rfl
  exact ⟨⟨tidy,Fs.closed_tables s,by rw [space]; exact .start⟩,space⟩

end

end CandyFs

/-! A small disk with a root, and room for two more inodes. -/
namespace CandyFs
attribute [local instance] Geometry.small

def tinyRoot : Store where
  inode n := if n = 0 then some (rootNode (sIFDIR ||| 0o777) [dots 0 0]) else none
  limit := 44
  freeInodes := [1,2]
  freeBlocks := 12
  stack _ := 0
  frees := []

theorem tinyRoot_named : tinyRoot.inode 0 = some (rootNode (sIFDIR ||| 0o777) [dots 0 0]) := rfl

theorem tinyRoot_others (n : Int) (differ : n ≠ 0) : tinyRoot.inode n = none := if_neg differ

theorem tinyRoot_holds : HoldsMap tinyRoot 0 0 (newBindings 0 0) := by
  have zero : GoodTarget 0 := ⟨⟨by decide,by decide⟩,by decide⟩
  have top : (([dots 0 0].length : Int) * blocksize) ≤ maxFilesize := by decide
  refine ⟨_,_,⟨⟨tinyRoot_named,(by decide : sISDIR (sIFDIR ||| 0o777)),showsDir_showing,?_,top⟩,
    ⟨[],[],rfl⟩,by simp [dots,dot,dotdot]⟩,fun name => ?_⟩
  · intro es member
    obtain rfl := List.mem_singleton.mp member
    exact blockFits_dots zero zero
  · rw [newBindings,List.flatten_singleton]

theorem tinyRoot_tidy : tinyRoot.Tidy where
  used n node nonneg found := by
    by_cases zero : n = 0
    · subst zero
      obtain ⟨node',_,ok,_⟩ := tinyRoot_holds.ok
      obtain rfl := Option.some.inj (found.symm.trans ok.named)
      exact ⟨by decide,ok.top⟩
    · rw [tinyRoot_others n zero] at found
      cases found
  free := by decide
  nodup := by decide
  fits := by decide
  outside n negative := tinyRoot_others n (by omega)
  symlinks n info found link := by
    by_cases zero : n = 0
    · subst zero
      obtain ⟨node',found',isDir⟩ := tinyRoot_holds.isDir
      obtain rfl := Option.some.inj (found.symm.trans found')
      exact absurd link (isDir_not_link isDir)
    · rw [tinyRoot_others n zero] at found
      cases found

theorem tinyRoot_sane : Sane (Fs.closed tinyRoot) :=
  (start_sane tinyRoot_tidy tinyRoot_holds tinyRoot_named rfl tinyRoot_others).1

end CandyFs
