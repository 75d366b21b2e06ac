import CandyFs.Refs
import CandyFs.Geometry

/-! Runs of `refs_open`, `refs_close`, `refs_link` and `refs_unlink`, between which the disk may
change in any way that leaves the link counts of the open inodes alone.
-/
namespace CandyFs
open Bytes

variable [Geometry]

inductive RefCall where
  | open (inode : Int)
  | close (inode : Int)
  | link (inode : Int)
  | unlink (inode : Int)

namespace RefCall

def inode : RefCall → Int
  | .open inode | .close inode | .link inode | .unlink inode => inode

def run : RefCall → Act Int
  | .open inode => refsOpen inode
  | .close inode => refsClose inode
  | .link inode => refsLink inode
  | .unlink inode => refsUnlink inode

/-- The opens less the closes since there is a node, after a call that returned `res`. -/
def count (res : Int) (opens : Int → Nat) : RefCall → Int → Nat
  | .open inode => if res = 0 then Function.update opens inode (opens inode + 1) else opens
  | .close inode => if res = -1 then opens else Function.update opens inode (opens inode - 1)
  | _ => opens

/-- The close of the last reference to an inode without links. -/
def Last (s : Store) (opens : Int → Nat) : RefCall → Prop
  | .close inode => opens inode = 1 ∧ s.nlinksOf inode = 0
  | _ => False

instance (s : Store) (opens : Int → Nat) : DecidablePred (Last s opens)
  | .close _ => inferInstanceAs (Decidable (_ ∧ _))
  | .open _ | .link _ | .unlink _ => inferInstanceAs (Decidable False)

end RefCall

/-- A run that starts with no inode open. -/
inductive RefRun (start : Fs) : Fs → (Int → Nat) → Prop where
  | start (empty : ∀ k, start.openFileTable k = []) : RefRun start start fun _ => 0
  | call {fs fs' : Fs} {opens : Int → Nat} {call : RefCall} {res : Int} (run : RefRun start fs opens)
      (fits : Fits call.inode) (ran : call.run fs = .ok (res,fs')) :
      RefRun start fs' (call.count res opens)
  | other {fs : Fs} {opens : Int → Nat} {s : Store} (run : RefRun start fs opens)
      (kept : ∀ inode, 0 < opens inode →
        (s.inode inode).map (·.nlinks) = (fs.store.inode inode).map (·.nlinks)) :
      RefRun start { fs with store := s } opens

/-- The table for these counts: sorted lists of the inodes of a hash, and of an inode no node or
one, with its count and the link count of the disk. -/
structure RefsExact (fs : Fs) (opens : Int → Nat) : Prop where
  sorted : ∀ k, (fs.openFileTable k).Pairwise fun a b => ulong a.inode < ulong b.inode
  residue : ∀ k, ∀ node ∈ fs.openFileTable k, ulong node.inode % hashmapSize = k
  nodes : ∀ inode, Fits inode →
    (fs.openFileTable (hash inode)).filter (·.inode = inode) =
      if opens inode = 0 then [] else [⟨inode,opens inode,fs.store.nlinksOf inode⟩]

/-- What is kept along a run. -/
structure Counted (fs : Fs) (opens : Int → Nat) : Prop where
  tables : Tables fs
  count : ∀ inode, Fits inode → fs.opens inode = opens inode
  named : ∀ inode, Fits inode → 0 < opens inode → fs.store.inode inode ≠ none

section
variable {start fs fs' : Fs} {opens : Int → Nat} {inode other : Int}

omit [Geometry] in
theorem Counted.exact (h : Counted fs opens) : RefsExact fs opens where
  sorted := h.tables.sorted
  residue := h.tables.hashed
  nodes inode fits := by
    obtain ⟨before,mid,after,parted⟩ := h.tables.parted fits
    have value := h.tables.node_eq inode
    have found : fs.node inode = mid := parted.find
    rw [found,h.count inode fits] at value
    have first : before.filter (·.inode = inode) = [] :=
      List.filter_eq_nil_iff.mpr fun node member same => by
        have := parted.low node member
        rw [of_decide_eq_true same] at this
        exact lt_irrefl _ this
    have last : after.filter (·.inode = inode) = [] :=
      List.filter_eq_nil_iff.mpr fun node member same => by
        have := parted.high node member
        rw [of_decide_eq_true same] at this
        exact lt_irrefl _ this
    rw [parted.split,List.filter_append,List.filter_append,first,last,value]
    split <;> simp

/-- What a call does, by the counts. -/
structure RefStep (fs : Fs) (opens : Int → Nat) (call : RefCall) (res : Int) (fs' : Fs) : Prop where
  frees : fs'.store.frees =
    if call.Last fs.store opens then call.inode :: fs.store.frees else fs.store.frees
  others : ∀ other, other ≠ call.inode →
    fs'.node other = fs.node other ∧ fs'.store.inode other = fs.store.inode other
  counted : Counted fs' (call.count res opens)

omit [Geometry] in
theorem Counted.setOpens (h : Counted fs opens) (fits : Fits inode) (n : Nat)
    (named : fs.store.inode inode ≠ none) :
    Counted (fs.setOpens inode n) (Function.update opens inode n) where
  tables := h.tables.setOpens fits
  count other fits' := by
    rw [h.tables.opens_setOpens fits,Function.update_apply,h.count other fits']
  named other fits' open' := by
    rw [Function.update_apply] at open'
    split at open'
    · rename_i same
      rw [same]
      exact named
    · exact h.named other fits' open'

omit [Geometry] in
theorem Tables.node_of (ok : Tables fs) (ok' : Tables fs') (opens : fs'.opens other = fs.opens other)
    (inode : fs'.store.inode other = fs.store.inode other) : fs'.node other = fs.node other := by
  rw [ok.node_eq,ok'.node_eq,opens,Store.nlinksOf,Store.nlinksOf,inode]

omit [Geometry] in
theorem Counted.open (h : Counted fs opens) (fits : Fits inode) :
    ∃ res fs', refsOpen inode fs = .ok (res,fs') ∧ RefStep fs opens (.open inode) res fs' := by
  rw [h.tables.open_eq fits,h.count inode fits]
  by_cases failed : opens inode = 0 ∧ fs.store.inode inode = none
  · rw [if_pos failed]
    exact ⟨_,_,rfl,rfl,fun _ _ => ⟨rfl,rfl⟩,h⟩
  · have named : fs.store.inode inode ≠ none := by
      intro none
      by_cases zero : opens inode = 0
      · exact failed ⟨zero,none⟩
      · exact h.named inode fits (Nat.pos_of_ne_zero zero) none
    have next := h.setOpens fits (opens inode + 1) named
    rw [if_neg failed]
    refine ⟨_,_,rfl,rfl,fun other (differ : other ≠ inode) => ⟨?_,rfl⟩,by simpa [RefCall.count] using next⟩
    refine h.tables.node_of next.tables ?_ rfl
    rw [h.tables.opens_setOpens fits,if_neg differ]

theorem Counted.close (h : Counted fs opens) (fits : Fits inode) :
    ∃ res fs', refsClose inode fs = .ok (res,fs') ∧ RefStep fs opens (.close inode) res fs' := by
  rw [h.tables.close_eq fits,h.count inode fits]
  by_cases zero : opens inode = 0
  · rw [if_pos zero]
    have early : ¬RefCall.Last fs.store opens (.close inode) := fun last => absurd (last.1.symm.trans zero) nofun
    exact ⟨_,_,rfl,(if_neg early).symm,fun _ _ => ⟨rfl,rfl⟩,h⟩
  have named := h.named inode fits (Nat.pos_of_ne_zero zero)
  rw [if_neg zero]
  by_cases last : opens inode = 1 ∧ fs.store.nlinksOf inode = 0
  · obtain ⟨info,found⟩ := Option.ne_none_iff_exists'.mp named
    have unlinked : info.nlinks = 0 := by simpa [Store.nlinksOf,found] using last.2
    have freed : fs.store.inodeFree inode = (0,{ fs.store with
        inode := Function.update fs.store.inode inode none
        freeInodes := inode :: fs.store.freeInodes
        freeBlocks := fs.store.freeBlocks + Store.cost info.size + 1
        frees := inode :: fs.store.frees }) := by
      rw [Store.inodeFree]
      simp only [found]
      rw [if_neg (not_not.mpr unlinked)]
    have next := h.setOpens fits 0 named
    rw [if_pos last,freed]
    dsimp only
    rw [if_neg (lt_irrefl _)]
    have others : ∀ other, other ≠ inode → Function.update fs.store.inode inode none other =
        fs.store.inode other := fun other differ => Function.update_of_ne differ ..
    have tables : Tables { fs.setOpens inode 0 with store := { fs.store with
        inode := Function.update fs.store.inode inode none
        freeInodes := inode :: fs.store.freeInodes
        freeBlocks := fs.store.freeBlocks + Store.cost info.size + 1
        frees := inode :: fs.store.frees } } := by
      refine next.tables.setStore fun other held => ?_
      rw [h.tables.opens_setOpens fits] at held
      have differ : other ≠ inode := fun same => held (if_pos same)
      rw [Store.nlinksOf,Store.nlinksOf,setOpens_store]
      dsimp only
      rw [others other differ]
    refine ⟨_,_,rfl,(if_pos last).symm,fun other (differ : other ≠ inode) => ⟨?_,others other differ⟩,tables,
      fun other fits' => ?_,fun other fits' held => ?_⟩
    · refine h.tables.node_of tables ?_ (others other differ)
      rw [opens_setStore,h.tables.opens_setOpens fits,if_neg differ]
    · rw [opens_setStore,next.count other fits',RefCall.count,if_neg (by decide)]
      rw [last.1]
    · rw [RefCall.count,if_neg (by decide),Function.update_apply] at held
      split at held
      · omega
      · rename_i differ
        dsimp only
        rw [others other differ]
        exact h.named other fits' held
  · have next := h.setOpens fits (opens inode - 1) named
    rw [if_neg last]
    refine ⟨_,_,rfl,(if_neg last).symm,fun other (differ : other ≠ inode) => ⟨?_,rfl⟩,by simpa [RefCall.count] using next⟩
    refine h.tables.node_of next.tables ?_ rfl
    rw [h.tables.opens_setOpens fits,if_neg differ]

omit [Geometry] in
theorem Counted.relink (h : Counted fs opens) (change : Node → Node)
    {s : Store} (set : ∀ info, fs.store.inode inode = some info → s = fs.store.set inode (change info)) {info : Node}
    (found : fs.store.inode inode = some info) :
    (fs.over s).store.frees = fs.store.frees ∧ (∀ other, other ≠ inode →
      (fs.over s).node other = fs.node other ∧ (fs.over s).store.inode other = fs.store.inode other) ∧
    Counted (fs.over s) opens := by
  obtain rfl := set info found
  have others : ∀ other, other ≠ inode → (fs.store.set inode (change info)).inode other = fs.store.inode other :=
    fun other differ => Store.set_inode_ne _ _ _ differ
  have tables := h.tables.over (fs.store.set inode (change info))
  refine ⟨rfl,fun other differ => ⟨?_,others other differ⟩,tables,fun other fits => ?_,fun other fits held => ?_⟩
  · exact h.tables.node_of tables over_opens (others other differ)
  · rw [over_opens,h.count other fits]
  · rw [over_store]
    by_cases same : other = inode
    · rw [same,Store.set_inode_self]
      nofun
    · rw [others other same]
      exact h.named other fits held

omit [Geometry] in
theorem findNode_none (ok : Tables fs) (fits : Fits inode) (closed : fs.opens inode = 0) :
    nodeAt inode (findNodeLoc fs inode).2 = none := by
  obtain ⟨before,mid,after,parted⟩ := ok.parted fits
  have value := ok.node_eq inode
  have found : fs.node inode = mid := parted.find
  rw [found,if_pos closed] at value
  rw [findNodeLoc,parted.span]
  dsimp only
  rw [parted.nodeAt,value]
  rfl

omit [Geometry] in
theorem Counted.link (h : Counted fs opens) (fits : Fits inode) :
    ∃ res fs', refsLink inode fs = .ok (res,fs') ∧ RefStep fs opens (.link inode) res fs' := by
  by_cases zero : opens inode = 0
  · have none := findNode_none h.tables fits ((h.count inode fits).trans zero)
    refine ⟨-1,fs,?_,rfl,fun _ _ => ⟨rfl,rfl⟩,h⟩
    rw [refsLink]
    dsimp only
    rw [none]
  · obtain ⟨info,found⟩ := Option.ne_none_iff_exists'.mp (h.named inode fits (Nat.pos_of_ne_zero zero))
    rw [h.tables.link_eq fits found,h.count inode fits,if_neg zero]
    obtain ⟨frees,others,counted⟩ := h.relink (s := (fs.store.inodeLink inode).2)
      (fun info => { info with nlinks := info.nlinks + 1 })
      (fun info found => by rw [Store.inodeLink,found]) found
    exact ⟨_,_,rfl,frees,others,counted⟩

omit [Geometry] in
theorem Counted.unlink (h : Counted fs opens) (fits : Fits inode) :
    ∃ res fs', refsUnlink inode fs = .ok (res,fs') ∧ RefStep fs opens (.unlink inode) res fs' := by
  by_cases zero : opens inode = 0
  · have none := findNode_none h.tables fits ((h.count inode fits).trans zero)
    refine ⟨-1,fs,?_,rfl,fun _ _ => ⟨rfl,rfl⟩,h⟩
    rw [refsUnlink]
    dsimp only
    rw [none]
  · obtain ⟨info,found⟩ := Option.ne_none_iff_exists'.mp (h.named inode fits (Nat.pos_of_ne_zero zero))
    rw [h.tables.unlink_eq fits found,h.count inode fits,if_neg zero]
    obtain ⟨frees,others,counted⟩ := h.relink (s := (fs.store.inodeUnlink inode).2)
      (fun info => { info with nlinks := Store.pred info.nlinks })
      (fun info found => by rw [Store.inodeUnlink,found]) found
    exact ⟨_,_,rfl,frees,others,counted⟩

theorem Counted.step (h : Counted fs opens) (call : RefCall) (fits : Fits call.inode) :
    ∃ res fs', call.run fs = .ok (res,fs') ∧ RefStep fs opens call res fs' := by
  cases call with
  | «open» inode => exact h.open fits
  | close inode => exact h.close fits
  | link inode => exact h.link fits
  | unlink inode => exact h.unlink fits

theorem RefRun.counted (run : RefRun start fs opens) : Counted fs opens := by
  induction run with
  | start empty =>
    have none (inode : Int) : start.opens inode = 0 := by
      rw [Fs.opens,Fs.node,empty]
      rfl
    refine ⟨⟨fun k => ?_,fun k => ?_,fun k => ?_,fun k => ?_,fun k => ?_⟩,fun inode _ => none inode,
      fun _ _ held => absurd held (lt_irrefl 0)⟩
    all_goals rw [empty]
    · exact List.Pairwise.nil
    all_goals exact fun _ none => absurd none List.not_mem_nil
  | call _ fits ran ih =>
    obtain ⟨res,fs',ran',step⟩ := ih.step _ fits
    rw [ran,Except.ok.injEq,Prod.mk.injEq] at ran'
    obtain ⟨rfl,rfl⟩ := ran'
    exact step.counted
  | other _ kept ih =>
    refine ⟨ih.tables.setStore fun inode held => ?_,ih.count,fun inode fits held none => ?_⟩
    · rw [ih.count inode (ih.tables.opens_fits held)] at held
      exact congrArg (Option.getD · 0) (kept inode (Nat.pos_of_ne_zero held))
    · have same := kept inode held
      rw [none,Option.map_none,eq_comm,Option.map_eq_none_iff] at same
      exact ih.named inode fits held same

end

end CandyFs
