import CandyFs.Dir

/-! The table of the open inodes, as `refs.c` keeps it: lists of nodes by a hash of the number, each
sorted, and each node with a copy of the inode's link count.
-/
namespace CandyFs
open Bytes

/-- `refcount` is an `unsigned int`, counted without a bound here. `CandyFs.RefCount` has the
counter that wraps and the runs in which it does not. -/
structure OpenFileNode where
  inode : Int
  refcount : Nat
  nlinks : Nat
  deriving DecidableEq

/-- `name` is the first `namelen` bytes of the array. -/
structure OpenPathNode where
  refs : Nat
  parentDir : Int
  name : Name
  deriving DecidableEq

/-- The disk and the two tables of the process. -/
structure Fs where
  store : Store
  openFileTable : Nat → List OpenFileNode
  openPathTable : Nat → OpenPathNode

abbrev Act := StateT Fs Try

def assert (condition : Prop) [Decidable condition] : Act Unit := fun fs => do
  check () condition
  .ok ((),fs)

/-- A call that only reads the disk. -/
def reading {α : Type} (call : Store → Try α) : Act α := fun fs => do
  let result ← call fs.store
  .ok (result,fs)

/-- A call that works on the disk. -/
def onDisk {α : Type} (call : Store → Try (α × Store)) : Act α := fun fs => do
  let (result,store) ← call fs.store
  .ok (result,{ fs with store := store })

def hashmapSize : Nat := 53

def hash (inode : Int) : Nat := ulong inode % hashmapSize

/-- The list of the inode's hash, parted before the node of the inode or, where there is none,
before the place for one. -/
def findNodeLoc (fs : Fs) (inode : Int) : List OpenFileNode × List OpenFileNode :=
  (fs.openFileTable (hash inode)).span fun node => ulong node.inode < ulong inode

/-- `*target && (*target)->inode == inode`: the node, and those behind it. -/
def nodeAt (inode : Int) : List OpenFileNode → Option (OpenFileNode × List OpenFileNode)
  | [] => none
  | node :: after => if node.inode = inode then some (node,after) else none

def findNode (fs : Fs) (inode : Int) : Option OpenFileNode :=
  (nodeAt inode (findNodeLoc fs inode).2).map (·.1)

def Fs.setChain (fs : Fs) (inode : Int) (chain : List OpenFileNode) : Fs :=
  { fs with openFileTable := Function.update fs.openFileTable (hash inode) chain }

/-- The conversion to `nlink_t`. -/
def nlinkT (count : Int) : Nat := if count < 0 then ulong count else count.toNat

def refsOpen (inode : Int) : Act Int := fun fs =>
  let (before,target) := findNodeLoc fs inode
  match nodeAt inode target with
  | some (node,after) =>
    .ok (0,fs.setChain inode (before ++ { node with refcount := node.refcount + 1 } :: after))
  | none =>
    match fs.store.inode inode with
    | none => .ok (-1,fs)
    | some info => .ok (0,fs.setChain inode (before ++ ⟨inode,1,info.nlinks⟩ :: target))

def refsLink (inode : Int) : Act Int := fun fs =>
  let (before,target) := findNodeLoc fs inode
  match nodeAt inode target with
  | none => .ok (-1,fs)
  | some (node,after) =>
    let (count,s) := fs.store.inodeLink inode
    .ok (0,{ fs with store := s }.setChain inode (before ++ { node with nlinks := nlinkT count } :: after))

def refsUnlink (inode : Int) : Act Int := fun fs =>
  let (before,target) := findNodeLoc fs inode
  match nodeAt inode target with
  | none => .ok (-1,fs)
  | some (node,after) =>
    let (count,s) := fs.store.inodeUnlink inode
    .ok (0,{ fs with store := s }.setChain inode (before ++ { node with nlinks := nlinkT count } :: after))

variable [Geometry]

def refsClose (inode : Int) : Act Int := fun fs =>
  let (before,target) := findNodeLoc fs inode
  match nodeAt inode target with
  | none => .ok (-1,fs)
  | some (node,after) =>
    if node.refcount - 1 ≤ 0 then
      let fs := fs.setChain inode (before ++ after)
      if node.nlinks = 0 then
        let (res,s) := fs.store.inodeFree inode
        .ok (if res < 0 then - eIO else 0,{ fs with store := s })
      else .ok (0,fs)
    else
      .ok (0,fs.setChain inode (before ++ { node with refcount := node.refcount - 1 } :: after))

def refsDirLookupOpen (directory : Int) (name : Name) : Act Int := do
  let out ← reading (dirLookup · directory name)
  if out < 0 then pure out
  else do
    let ores ← refsOpen out
    if ores < 0 then pure ores
    else pure out

end CandyFs

/-! What the table says of an inode: its node. -/
namespace CandyFs
open Bytes

/-- The link count on the disk. -/
def Store.nlinksOf (s : Store) (inode : Int) : Nat := ((s.inode inode).map (·.nlinks)).getD 0

/-- The node of an inode. -/
def Fs.node (fs : Fs) (inode : Int) : Option OpenFileNode :=
  (fs.openFileTable (hash inode)).find? (·.inode = inode)

/-- The references held to an inode. -/
def Fs.opens (fs : Fs) (inode : Int) : Nat := (fs.node inode).elim 0 (·.refcount)

/-- Each list is sorted and holds inodes of its hash, and each node is in use and has the link
count of the disk. -/
structure Tables (fs : Fs) : Prop where
  sorted : ∀ k, (fs.openFileTable k).Pairwise fun a b => ulong a.inode < ulong b.inode
  hashed : ∀ k, ∀ node ∈ fs.openFileTable k, hash node.inode = k
  fits : ∀ k, ∀ node ∈ fs.openFileTable k, Fits node.inode
  held : ∀ k, ∀ node ∈ fs.openFileTable k, 0 < node.refcount
  cached : ∀ k, ∀ node ∈ fs.openFileTable k, node.nlinks = fs.store.nlinksOf node.inode

/-- The tables over another store. -/
def Fs.over (fs : Fs) (s : Store) : Fs where
  store := s
  openFileTable k := (fs.openFileTable k).map fun node => { node with nlinks := s.nlinksOf node.inode }
  openPathTable := fs.openPathTable

/-- The table with another node for the inode, or none. -/
def Fs.put (fs : Fs) (inode : Int) (node : Option OpenFileNode) : Fs :=
  let chain := fs.openFileTable (hash inode)
  fs.setChain inode (chain.filter (fun other => ulong other.inode < ulong inode) ++ node.toList ++
    chain.filter fun other => ulong inode < ulong other.inode)

/-- The table with `n` references to the inode. -/
def Fs.setOpens (fs : Fs) (inode : Int) (n : Nat) : Fs :=
  fs.put inode (if n = 0 then none else some ⟨inode,n,fs.store.nlinksOf inode⟩)

section
variable {fs fs' : Fs} {s : Store} {n : Nat} {inode other : Int} {node : OpenFileNode} {mid : Option OpenFileNode}

theorem ulong_inj {x y : Int} (fits : Fits x) (fits' : Fits y) : ulong x = ulong y ↔ x = y := by
  unfold Fits at fits fits'
  unfold ulong
  omega

/-- Where a list is parted for an inode. -/
structure Parted (chain : List OpenFileNode) (inode : Int) (before : List OpenFileNode)
    (mid : Option OpenFileNode) (after : List OpenFileNode) : Prop where
  split : chain = before ++ mid.toList ++ after
  low : ∀ node ∈ before, ulong node.inode < ulong inode
  here : ∀ node ∈ mid, node.inode = inode
  high : ∀ node ∈ after, ulong inode < ulong node.inode

theorem exists_parted {chain : List OpenFileNode} (fits : Fits inode)
    (sorted : chain.Pairwise fun a b => ulong a.inode < ulong b.inode)
    (all : ∀ node ∈ chain, Fits node.inode) : ∃ before mid after, Parted chain inode before mid after := by
  induction chain with
  | nil => exact ⟨[],none,[],rfl,nofun,nofun,nofun⟩
  | cons node rest ih =>
    rw [List.pairwise_cons] at sorted
    have this := all node List.mem_cons_self
    rcases lt_trichotomy (ulong node.inode) (ulong inode) with less | same | more
    · obtain ⟨before,mid,after,parted⟩ := ih sorted.2 fun node member =>
        all node (List.mem_cons_of_mem _ member)
      refine ⟨node :: before,mid,after,by simp [parted.split],fun n member => ?_,parted.here,parted.high⟩
      rcases List.mem_cons.mp member with rfl | member
      · exact less
      · exact parted.low n member
    · refine ⟨[],some node,rest,rfl,nofun,fun n member => ?_,fun n member => same ▸ sorted.1 n member⟩
      obtain rfl := Option.mem_some.mp member
      exact (ulong_inj this fits).mp same
    · refine ⟨[],none,node :: rest,rfl,nofun,nofun,fun n member => ?_⟩
      rcases List.mem_cons.mp member with rfl | member
      · exact more
      · exact more.trans (sorted.1 n member)

theorem Tables.parted (ok : Tables fs) (fits : Fits inode) :
    ∃ before mid after, Parted (fs.openFileTable (hash inode)) inode before mid after :=
  exists_parted fits (ok.sorted _) (ok.fits _)

section
variable {chain before after : List OpenFileNode} (parted : Parted chain inode before mid after)
include parted

theorem Parted.span : chain.span (fun node => ulong node.inode < ulong inode) =
    (before,mid.toList ++ after) := by
  have low : ∀ node ∈ before, decide (ulong node.inode < ulong inode) = true := fun node member =>
    decide_eq_true (parted.low node member)
  have stop : ∀ node ∈ (mid.toList ++ after).head?, decide (ulong node.inode < ulong inode) ≠ true := by
    cases mid with
    | some node =>
      intro other same
      obtain rfl := Option.mem_some.mp same
      simp [parted.here node rfl]
    | none =>
      intro other same
      simpa using (parted.high other (List.mem_of_mem_head? same)).le
  rw [List.span_eq_takeWhile_dropWhile,parted.split,List.append_assoc,
    List.takeWhile_append_of_pos low,List.dropWhile_append_of_pos low]
  cases rest : mid.toList ++ after with
  | nil => simp
  | cons node tail =>
    have := stop node (by simp [rest])
    simp [this]

theorem Parted.nodeAt : nodeAt inode (mid.toList ++ after) = mid.map (·,after) := by
  cases mid with
  | some node => simp [CandyFs.nodeAt,parted.here node rfl]
  | none =>
    cases after with
    | nil => rfl
    | cons node rest =>
      have := parted.high node List.mem_cons_self
      refine if_neg fun same => ?_
      rw [same] at this
      exact lt_irrefl _ this

theorem Parted.find : chain.find? (·.inode = inode) = mid := by
  have low : before.find? (·.inode = inode) = none := List.find?_eq_none.mpr fun node member same => by
    have := parted.low node member
    rw [of_decide_eq_true same] at this
    exact lt_irrefl _ this
  rw [parted.split,List.append_assoc,List.find?_append,low,Option.none_or,List.find?_append]
  cases mid with
  | some node => simp [parted.here node rfl]
  | none =>
    refine List.find?_eq_none.mpr fun node member same => ?_
    have := parted.high node member
    rw [of_decide_eq_true same] at this
    exact lt_irrefl _ this

theorem Parted.put (next : Option OpenFileNode) :
    chain.filter (fun other => ulong other.inode < ulong inode) ++ next.toList ++
      chain.filter (fun other => ulong inode < ulong other.inode) = before ++ next.toList ++ after := by
  have first : chain.filter (fun other => ulong other.inode < ulong inode) = before := by
    have low : before.filter (fun other => ulong other.inode < ulong inode) = before :=
      List.filter_eq_self.mpr fun node member => decide_eq_true (parted.low node member)
    have rest : (mid.toList ++ after).filter (fun other => ulong other.inode < ulong inode) = [] := by
      refine List.filter_eq_nil_iff.mpr fun node member => ?_
      rcases List.mem_append.mp member with member | member
      · simp [parted.here node (Option.mem_toList.mp member)]
      · simpa using (parted.high node member).le
    rw [parted.split,List.append_assoc,List.filter_append,low,rest,List.append_nil]
  have last : chain.filter (fun other => ulong inode < ulong other.inode) = after := by
    have high : after.filter (fun other => ulong inode < ulong other.inode) = after :=
      List.filter_eq_self.mpr fun node member => decide_eq_true (parted.high node member)
    have rest : (before ++ mid.toList).filter (fun other => ulong inode < ulong other.inode) = [] := by
      refine List.filter_eq_nil_iff.mpr fun node member => ?_
      rcases List.mem_append.mp member with member | member
      · simpa using (parted.low node member).le
      · simp [parted.here node (Option.mem_toList.mp member)]
    rw [parted.split,List.filter_append,high,rest,List.nil_append]
  rw [first,last]

end

@[simp] theorem put_store : (fs.put inode mid).store = fs.store := rfl
@[simp] theorem put_paths : (fs.put inode mid).openPathTable = fs.openPathTable := rfl
@[simp] theorem setOpens_store : (fs.setOpens inode n).store = fs.store := rfl
@[simp] theorem setOpens_paths : (fs.setOpens inode n).openPathTable = fs.openPathTable := rfl
@[simp] theorem over_store : (fs.over s).store = s := rfl
@[simp] theorem over_paths : (fs.over s).openPathTable = fs.openPathTable := rfl

theorem put_chain (k : Nat) : (fs.put inode mid).openFileTable k = if k = hash inode then
      (fs.openFileTable k).filter (fun other => ulong other.inode < ulong inode) ++ mid.toList ++
        (fs.openFileTable k).filter fun other => ulong inode < ulong other.inode
    else fs.openFileTable k := by
  rw [Fs.put,Fs.setChain]
  dsimp only
  rw [Function.update_apply]
  split
  · rename_i same
    rw [same]
  · rfl

theorem mem_put {k : Nat} (ok : Tables fs) (fits : Fits inode) :
    node ∈ (fs.put inode mid).openFileTable k ↔
      node ∈ fs.openFileTable k ∧ node.inode ≠ inode ∨ k = hash inode ∧ mid = some node := by
  rw [put_chain]
  have apart : node ∈ fs.openFileTable k → (node.inode ≠ inode ↔
      ulong node.inode < ulong inode ∨ ulong inode < ulong node.inode) := fun member => by
    rw [Ne,← ulong_inj (ok.fits k node member) fits]
    omega
  split
  · simp only [List.mem_append,List.mem_filter,decide_eq_true_eq,Option.mem_toList]
    constructor
    · rintro ((⟨member,low⟩ | new) | ⟨member,high⟩)
      · exact .inl ⟨member,(apart member).mpr (.inl low)⟩
      · exact .inr ⟨‹_›,new⟩
      · exact .inl ⟨member,(apart member).mpr (.inr high)⟩
    · rintro (⟨member,differ⟩ | ⟨_,new⟩)
      · rcases (apart member).mp differ with low | high
        · exact .inl (.inl ⟨member,low⟩)
        · exact .inr ⟨member,high⟩
      · exact .inl (.inr new)
  · rename_i elsewhere
    constructor
    · intro member
      refine .inl ⟨member,fun same => elsewhere ?_⟩
      rw [← same,ok.hashed k node member]
    · rintro (⟨member,_⟩ | ⟨same,_⟩)
      · exact member
      · exact absurd same elsewhere

theorem Tables.put (ok : Tables fs) (fits : Fits inode) (here : ∀ node ∈ mid, node.inode = inode)
    (held : ∀ node ∈ mid, 0 < node.refcount)
    (cached : ∀ node ∈ mid, node.nlinks = fs.store.nlinksOf inode) : Tables (fs.put inode mid) where
  sorted k := by
    rw [put_chain]
    split
    · have sorted := ok.sorted k
      have one : ∀ node ∈ mid.toList, node.inode = inode := fun node member =>
        here node (Option.mem_toList.mp member)
      refine List.pairwise_append.mpr ⟨List.pairwise_append.mpr ⟨sorted.filter _,?_,?_⟩,sorted.filter _,?_⟩
      · cases mid <;> simp
      · intro a first b second
        rw [one b second]
        exact of_decide_eq_true (List.mem_filter.mp first).2
      · intro a first b second
        have high := of_decide_eq_true (List.mem_filter.mp second).2
        rcases List.mem_append.mp first with first | first
        · exact (of_decide_eq_true (List.mem_filter.mp first).2 : _ < _).trans high
        · rwa [one a first]
    · exact ok.sorted k
  hashed k node member := by
    rcases (mem_put ok fits).mp member with ⟨old,_⟩ | ⟨same,new⟩
    · exact ok.hashed k node old
    · rw [here node new,same]
  fits k node member := by
    rcases (mem_put ok fits).mp member with ⟨old,_⟩ | ⟨_,new⟩
    · exact ok.fits k node old
    · rwa [here node new]
  held k node member := by
    rcases (mem_put ok fits).mp member with ⟨old,_⟩ | ⟨_,new⟩
    · exact ok.held k node old
    · exact held node new
  cached k node member := by
    rcases (mem_put ok fits).mp member with ⟨old,_⟩ | ⟨_,new⟩
    · exact ok.cached k node old
    · rw [cached node new,here node new]
      rfl

theorem Tables.node_iff (ok : Tables fs) :
    fs.node inode = some node ↔ node.inode = inode ∧ node ∈ fs.openFileTable (hash inode) := by
  constructor
  · intro found
    exact ⟨of_decide_eq_true (List.find?_some found :),List.mem_of_find?_eq_some found⟩
  · rintro ⟨rfl,member⟩
    obtain ⟨before,mid,after,parted⟩ := ok.parted (ok.fits _ node member)
    have found : fs.node node.inode = mid := parted.find
    rw [found]
    rw [parted.split] at member
    rcases List.mem_append.mp member with member | member
    · rcases List.mem_append.mp member with member | member
      · exact absurd (parted.low node member) (lt_irrefl _)
      · exact Option.mem_toList.mp member
    · exact absurd (parted.high node member) (lt_irrefl _)

theorem Tables.node_put (ok : Tables fs) (fits : Fits inode) (here : ∀ node ∈ mid, node.inode = inode)
    (held : ∀ node ∈ mid, 0 < node.refcount)
    (cached : ∀ node ∈ mid, node.nlinks = fs.store.nlinksOf inode) :
    (fs.put inode mid).node other = if other = inode then mid else fs.node other := by
  have ok' := ok.put fits here held cached
  apply Option.ext
  intro node
  rw [ok'.node_iff,mem_put ok fits]
  split
  · rename_i same
    subst same
    constructor
    · rintro ⟨same,⟨_,differ⟩ | ⟨_,new⟩⟩
      · exact absurd same differ
      · exact new
    · intro new
      exact ⟨here node new,.inr ⟨rfl,new⟩⟩
  · rename_i differ
    rw [ok.node_iff]
    constructor
    · rintro ⟨same,⟨old,_⟩ | ⟨_,new⟩⟩
      · exact ⟨same,old⟩
      · rw [← same,here node new] at differ
        exact absurd rfl differ
    · rintro ⟨same,old⟩
      exact ⟨same,.inl ⟨old,by rw [same]; exact differ⟩⟩

theorem Tables.node_eq (ok : Tables fs) (inode : Int) : fs.node inode =
    if fs.opens inode = 0 then none else some ⟨inode,fs.opens inode,fs.store.nlinksOf inode⟩ := by
  cases found : fs.node inode with
  | none =>
    have zero : fs.opens inode = 0 := by rw [Fs.opens,found]; rfl
    rw [if_pos zero]
  | some node =>
    obtain ⟨same,member⟩ := ok.node_iff.mp found
    have count : fs.opens inode = node.refcount := by rw [Fs.opens,found]; rfl
    have held := ok.held _ node member
    rw [if_neg (by omega),count,← same,← ok.cached _ node member]

theorem Tables.ext (ok : Tables fs) (ok' : Tables fs') (store : fs.store = fs'.store)
    (paths : fs.openPathTable = fs'.openPathTable) (opens : ∀ inode, fs.opens inode = fs'.opens inode) :
    fs = fs' := by
  have nodes : ∀ inode, fs.node inode = fs'.node inode := fun inode => by
    rw [ok.node_eq,ok'.node_eq,opens,store]
  have nodup {fs : Fs} (ok : Tables fs) (k : Nat) : (fs.openFileTable k).Nodup :=
    (ok.sorted k).imp fun less same => by
      rw [same] at less
      exact lt_irrefl _ less
  have members {fs fs' : Fs} (ok : Tables fs) (ok' : Tables fs') (nodes : ∀ inode, fs.node inode = fs'.node inode)
      {k : Nat} {node : OpenFileNode} (member : node ∈ fs.openFileTable k) :
      node ∈ fs'.openFileTable k := by
    have same := ok.hashed k node member
    subst same
    have found := ok.node_iff.mpr ⟨rfl,member⟩
    rw [nodes] at found
    exact (ok'.node_iff.mp found).2
  have chains : fs.openFileTable = fs'.openFileTable := by
    funext k
    have perm : (fs.openFileTable k).Perm (fs'.openFileTable k) :=
      (List.perm_ext_iff_of_nodup (nodup ok k) (nodup ok' k)).mpr fun node =>
        ⟨members ok ok' nodes,members ok' ok fun inode => (nodes inode).symm⟩
    exact perm.eq_of_pairwise (fun a b _ _ less more => absurd (less.trans more) (lt_irrefl _))
      (ok.sorted k) (ok'.sorted k)
  obtain ⟨_,_,_⟩ := fs
  obtain ⟨_,_,_⟩ := fs'
  dsimp only at store paths chains
  subst store paths chains
  rfl

theorem Tables.over (ok : Tables fs) (s : Store) : Tables (fs.over s) where
  sorted k := List.pairwise_map.mpr (ok.sorted k)
  hashed k node member := by
    obtain ⟨old,inside,rfl⟩ := List.mem_map.mp member
    exact ok.hashed k old inside
  fits k node member := by
    obtain ⟨old,inside,rfl⟩ := List.mem_map.mp member
    exact ok.fits k old inside
  held k node member := by
    obtain ⟨old,inside,rfl⟩ := List.mem_map.mp member
    exact ok.held k old inside
  cached k node member := by
    obtain ⟨old,inside,rfl⟩ := List.mem_map.mp member
    rfl

@[simp] theorem over_opens : (fs.over s).opens inode = fs.opens inode := by
  rw [Fs.opens,Fs.opens,Fs.node,Fs.node,Fs.over]
  dsimp only
  rw [List.find?_map]
  cases found : (fs.openFileTable (hash inode)).find? (·.inode = inode) with
  | none =>
    simp only [Function.comp_def,found]
    rfl
  | some node =>
    simp only [Function.comp_def,found]
    rfl

theorem Tables.setOpens (ok : Tables fs) (fits : Fits inode) : Tables (fs.setOpens inode n) := by
  refine ok.put fits ?_ ?_ ?_
  all_goals
    intro node
    split
    · exact nofun
    · rintro ⟨⟩
      first | rfl | exact Nat.pos_of_ne_zero ‹_›

theorem Tables.opens_setOpens (ok : Tables fs) (fits : Fits inode) :
    (fs.setOpens inode n).opens other = if other = inode then n else fs.opens other := by
  rw [Fs.opens,Fs.setOpens,ok.node_put fits]
  · split
    · split
      · exact (‹n = 0› :).symm
      · rfl
    · rfl
  all_goals
    intro node
    split
    · exact nofun
    · rintro ⟨⟩
      first | rfl | exact Nat.pos_of_ne_zero ‹_›

theorem Tables.open_eq (ok : Tables fs) (fits : Fits inode) :
    refsOpen inode fs = .ok (if fs.opens inode = 0 ∧ fs.store.inode inode = none then (-1,fs) else
      (0,fs.setOpens inode (fs.opens inode + 1))) := by
  obtain ⟨before,mid,after,parted⟩ := ok.parted fits
  have found : fs.node inode = mid := parted.find
  have value := ok.node_eq inode
  rw [found] at value
  rw [refsOpen,findNodeLoc,parted.span]
  dsimp only
  rw [parted.nodeAt,Fs.setOpens,Fs.put,parted.put,if_neg (Nat.succ_ne_zero _)]
  by_cases zero : fs.opens inode = 0
  · rw [if_pos zero] at value
    subst value
    dsimp only [Option.map_none]
    cases named : fs.store.inode inode with
    | none => rw [if_pos ⟨zero,rfl⟩]
    | some info =>
      rw [if_neg (by simp),zero]
      simp [Store.nlinksOf,named]
  · rw [if_neg zero] at value
    subst value
    rw [if_neg (by simp [zero])]
    simp

theorem Tables.opens_fits (ok : Tables fs) (held : fs.opens inode ≠ 0) : Fits inode := by
  have value := ok.node_eq inode
  rw [if_neg held] at value
  exact ok.fits _ _ (ok.node_iff.mp value).2

theorem opens_setStore : { fs with store := s : Fs }.opens inode = fs.opens inode := rfl

theorem Tables.setStore (ok : Tables fs)
    (same : ∀ inode, fs.opens inode ≠ 0 → s.nlinksOf inode = fs.store.nlinksOf inode) :
    Tables { fs with store := s } where
  sorted := ok.sorted
  hashed := ok.hashed
  fits := ok.fits
  held := ok.held
  cached k node member := by
    have number := ok.hashed k node member
    subst number
    have found := ok.node_iff.mpr ⟨rfl,member⟩
    have held := ok.held _ node member
    rw [same,ok.cached _ node member]
    rw [Fs.opens,found]
    exact held.ne'

theorem Tables.close_eq [Geometry] (ok : Tables fs) (fits : Fits inode) : refsClose inode fs = .ok (
    if fs.opens inode = 0 then (-1,fs)
    else if fs.opens inode = 1 ∧ fs.store.nlinksOf inode = 0 then
      (if (fs.store.inodeFree inode).1 < 0 then - eIO else 0,
        { fs.setOpens inode 0 with store := (fs.store.inodeFree inode).2 })
    else (0,fs.setOpens inode (fs.opens inode - 1))) := by
  obtain ⟨before,mid,after,parted⟩ := ok.parted fits
  have found : fs.node inode = mid := parted.find
  have value := ok.node_eq inode
  rw [found] at value
  rw [refsClose,findNodeLoc,parted.span]
  dsimp only
  rw [parted.nodeAt,Fs.setOpens,Fs.setOpens,Fs.put,Fs.put,parted.put,parted.put]
  by_cases zero : fs.opens inode = 0
  · rw [if_pos zero] at value
    rw [value,if_pos zero]
    rfl
  · rw [if_neg zero] at value
    rw [value,if_neg zero,Option.map_some]
    dsimp only
    by_cases last : fs.opens inode = 1
    · rw [if_pos (by omega)]
      by_cases unlinked : fs.store.nlinksOf inode = 0
      · have both : fs.opens inode = 1 ∧ fs.store.nlinksOf inode = 0 := ⟨last,unlinked⟩
        rw [if_pos unlinked,if_pos both]
        simp [Fs.setChain]
        rfl
      · rw [if_neg unlinked,if_neg fun both => unlinked both.2,last]
        simp
    · rw [if_neg (by omega),if_neg fun both => last both.1,if_neg (by omega)]
      simp

theorem Tables.relink (ok : Tables fs) {before after : List OpenFileNode}
    (parted : Parted (fs.openFileTable (hash inode)) inode before (some node) after)
    (others : ∀ other, other ≠ inode → s.nlinksOf other = fs.store.nlinksOf other) :
    { fs with store := s }.setChain inode (before ++ { node with nlinks := s.nlinksOf inode } :: after) =
      fs.over s := by
  have here := parted.here node rfl
  have kept : ∀ k, ∀ other ∈ fs.openFileTable k, other.inode ≠ inode →
      { other with nlinks := s.nlinksOf other.inode } = other := fun k other member differ => by
    rw [others _ differ,← ok.cached k other member]
  have split : before ++ node :: after = fs.openFileTable (hash inode) := by simp [parted.split]
  rw [Fs.setChain,Fs.over]
  congr 1
  funext k
  rw [Function.update_apply]
  split
  · rename_i same
    subst same
    rw [← split,List.map_append,List.map_cons,here]
    have first : before.map (fun other => { other with nlinks := s.nlinksOf other.inode }) = before := by
      conv_rhs => rw [← List.map_id before]
      refine List.map_congr_left fun other member => kept (hash inode) other ?_ fun same => ?_
      · rw [← split]
        exact List.mem_append_left _ member
      · have := parted.low other member
        rw [same] at this
        exact lt_irrefl _ this
    have last : after.map (fun other => { other with nlinks := s.nlinksOf other.inode }) = after := by
      conv_rhs => rw [← List.map_id after]
      refine List.map_congr_left fun other member => kept (hash inode) other ?_ fun same => ?_
      · rw [← split]
        exact List.mem_append_right _ (List.mem_cons_of_mem _ member)
      · have := parted.high other member
        rw [same] at this
        exact lt_irrefl _ this
    rw [first,last]
  · rename_i elsewhere
    dsimp only
    conv_lhs => rw [← List.map_id (fs.openFileTable k)]
    refine List.map_congr_left fun other member => (kept k other member fun same => elsewhere ?_).symm
    rw [← same,ok.hashed k other member]

theorem Tables.link_eq (ok : Tables fs) (fits : Fits inode) {info : Node}
    (named : fs.store.inode inode = some info) : refsLink inode fs = .ok (
      if fs.opens inode = 0 then (-1,fs) else (0,fs.over (fs.store.inodeLink inode).2)) := by
  obtain ⟨before,mid,after,parted⟩ := ok.parted fits
  have found : fs.node inode = mid := parted.find
  have value := ok.node_eq inode
  rw [found] at value
  rw [refsLink,findNodeLoc,parted.span]
  dsimp only
  rw [parted.nodeAt]
  by_cases zero : fs.opens inode = 0
  · rw [if_pos zero] at value
    rw [value,if_pos zero]
    rfl
  · rw [if_neg zero] at value
    rw [value] at parted ⊢
    rw [if_neg zero,Option.map_some]
    dsimp only
    have linked : (fs.store.inodeLink inode) =
        ((info.nlinks : Int) + 1,fs.store.set inode { info with nlinks := info.nlinks + 1 }) := by
      rw [Store.inodeLink,named]
    have count : nlinkT (info.nlinks + 1) =
        (fs.store.set inode { info with nlinks := info.nlinks + 1 }).nlinksOf inode := by
      rw [nlinkT,if_neg (by omega),Store.nlinksOf,Store.set_inode_self]
      simp
    rw [linked]
    dsimp only
    rw [count]
    have same := ok.relink parted (s := fs.store.set inode { info with nlinks := info.nlinks + 1 })
      fun other differ => by rw [Store.nlinksOf,Store.set_inode_ne _ _ _ differ]; rfl
    rw [← same]

theorem Tables.unlink_eq (ok : Tables fs) (fits : Fits inode) {info : Node}
    (named : fs.store.inode inode = some info) : refsUnlink inode fs = .ok (
      if fs.opens inode = 0 then (-1,fs) else (0,fs.over (fs.store.inodeUnlink inode).2)) := by
  obtain ⟨before,mid,after,parted⟩ := ok.parted fits
  have found : fs.node inode = mid := parted.find
  have value := ok.node_eq inode
  rw [found] at value
  rw [refsUnlink,findNodeLoc,parted.span]
  dsimp only
  rw [parted.nodeAt]
  by_cases zero : fs.opens inode = 0
  · rw [if_pos zero] at value
    rw [value,if_pos zero]
    rfl
  · rw [if_neg zero] at value
    rw [value] at parted ⊢
    rw [if_neg zero,Option.map_some]
    dsimp only
    have linked : (fs.store.inodeUnlink inode) =
        ((Store.pred info.nlinks : Int),fs.store.set inode { info with nlinks := Store.pred info.nlinks }) := by
      rw [Store.inodeUnlink,named]
    have count : nlinkT (Store.pred info.nlinks) =
        (fs.store.set inode { info with nlinks := Store.pred info.nlinks }).nlinksOf inode := by
      rw [nlinkT,if_neg (by omega),Store.nlinksOf,Store.set_inode_self]
      simp
    rw [linked]
    dsimp only
    rw [count]
    have same := ok.relink parted (s := fs.store.set inode { info with nlinks := Store.pred info.nlinks })
      fun other differ => by rw [Store.nlinksOf,Store.set_inode_ne _ _ _ differ]; rfl
    rw [← same]

end

end CandyFs
