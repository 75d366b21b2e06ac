import CandyFs.RefRuns

/-! `refcount` is an `unsigned int`, which wraps. Here `refs_open` and `refs_close` count as C does,
and as long as no inode is opened when its count is at the top, they do what `refsOpen` and
`refsClose` do.
-/
namespace CandyFs.RefCount
open Bytes

def increment (refcount : Nat) : Nat := (refcount + 1) % 2 ^ 32
def decrement (refcount : Nat) : Nat := (refcount + (2 ^ 32 - 1)) % 2 ^ 32

theorem increment_eq {n : Nat} (room : n + 1 < 2 ^ 32) : increment n = n + 1 := Nat.mod_eq_of_lt room

theorem decrement_eq {n : Nat} (some : 0 < n) (small : n < 2 ^ 32) : decrement n = n - 1 := by
  rw [decrement,show n + (2 ^ 32 - 1) = n - 1 + 2 ^ 32 by omega,Nat.add_mod_right,
    Nat.mod_eq_of_lt (by omega)]

def refsOpen (inode : Int) : Act Int := fun fs =>
  let (before,target) := findNodeLoc fs inode
  match nodeAt inode target with
  | some (node,after) =>
    .ok (0,fs.setChain inode (before ++ { node with refcount := increment node.refcount } :: after))
  | none =>
    match fs.store.inode inode with
    | none => .ok (-1,fs)
    | some info => .ok (0,fs.setChain inode (before ++ ⟨inode,1,info.nlinks⟩ :: target))

variable [Geometry]

def refsClose (inode : Int) : Act Int := fun fs =>
  let (before,target) := findNodeLoc fs inode
  match nodeAt inode target with
  | none => .ok (-1,fs)
  | some (node,after) =>
    if decrement node.refcount ≤ 0 then
      let fs := fs.setChain inode (before ++ after)
      if node.nlinks = 0 then
        let (res,s) := fs.store.inodeFree inode
        .ok (if res < 0 then - eIO else 0,{ fs with store := s })
      else .ok (0,fs)
    else
      .ok (0,fs.setChain inode (before ++ { node with refcount := decrement node.refcount } :: after))

def run : RefCall → Act Int
  | .open inode => refsOpen inode
  | .close inode => refsClose inode
  | .link inode => refsLink inode
  | .unlink inode => refsUnlink inode

/-- A run that starts with no inode open, of the calls that are allowed at the counts before them. -/
inductive Run (allowed : (Int → Nat) → RefCall → Prop) (start : Fs) : Fs → (Int → Nat) → Prop where
  | start (empty : ∀ k, start.openFileTable k = []) : Run allowed start start fun _ => 0
  | call {fs fs' : Fs} {opens : Int → Nat} {call : RefCall} {res : Int}
      (before : Run allowed start fs opens) (fits : Fits call.inode) (here : allowed opens call)
      (ran : run call fs = .ok (res,fs')) : Run allowed start fs' (call.count res opens)
  | other {fs : Fs} {opens : Int → Nat} {s : Store} (before : Run allowed start fs opens)
      (kept : ∀ inode, 0 < opens inode →
        (s.inode inode).map (·.nlinks) = (fs.store.inode inode).map (·.nlinks)) :
      Run allowed start { fs with store := s } opens

/-- An inode that is opened once more has not been opened `UINT_MAX` times. -/
def BelowTop (opens : Int → Nat) : RefCall → Prop
  | .open inode => opens inode + 1 < 2 ^ 32
  | _ => True

/-- The table is the one for the counts, and of the next calls just the close of the last reference
to an inode without links frees an inode, that one; the others keep their nodes. -/
def Exact (fs : Fs) (opens : Int → Nat) : Prop :=
  RefsExact fs opens ∧ ∀ call : RefCall, Fits call.inode → ∃ res fs', run call fs = .ok (res,fs') ∧
    fs'.store.frees =
      (if call.Last fs.store opens then call.inode :: fs.store.frees else fs.store.frees) ∧
    ∀ other, other ≠ call.inode →
      fs'.node other = fs.node other ∧ fs'.store.inode other = fs.store.inode other

section
variable {start fs fs' : Fs} {opens : Int → Nat} {inode : Int} {call : RefCall}

omit [Geometry] in
theorem nodeAt_refcount (ok : Tables fs) (fits : Fits inode) {node : OpenFileNode} {after : List OpenFileNode}
    (found : nodeAt inode (findNodeLoc fs inode).2 = some (node,after)) :
    node.refcount = fs.opens inode ∧ 0 < node.refcount := by
  obtain ⟨before,mid,rest,parted⟩ := ok.parted fits
  rw [findNodeLoc,parted.span] at found
  dsimp only at found
  rw [parted.nodeAt] at found
  obtain ⟨other,here,same⟩ := Option.map_eq_some_iff.mp found
  obtain ⟨rfl,rfl⟩ := Prod.mk.injEq .. ▸ same
  have value : fs.node inode = some other := here ▸ parted.find
  exact ⟨by rw [Fs.opens,value]; rfl,ok.held _ _ (ok.node_iff.mp value).2⟩

omit [Geometry] in
theorem refsOpen_eq (ok : Tables fs) (fits : Fits inode) (room : fs.opens inode + 1 < 2 ^ 32) :
    refsOpen inode fs = CandyFs.refsOpen inode fs := by
  rw [refsOpen,CandyFs.refsOpen]
  dsimp only
  cases found : nodeAt inode (findNodeLoc fs inode).2 with
  | none => rfl
  | some pair =>
    obtain ⟨node,after⟩ := pair
    dsimp only
    rw [increment_eq (by rw [(nodeAt_refcount ok fits found).1]; exact room)]

omit [Geometry] in
/-- An open of an open inode, whatever its count, changes the node of this inode only. -/
theorem refsOpen_again (ok : Tables fs) (fits : Fits inode) (held : fs.opens inode ≠ 0) :
    ∃ fs', refsOpen inode fs = .ok (0,fs') ∧ fs'.store = fs.store ∧
      ∀ other, other ≠ inode → fs'.node other = fs.node other := by
  obtain ⟨before,mid,after,parted⟩ := ok.parted fits
  have found : fs.node inode = mid := parted.find
  rw [ok.node_eq,if_neg held] at found
  subst found
  have split := parted.split
  refine ⟨fs.setChain inode (before ++ ⟨inode,increment (fs.opens inode),fs.store.nlinksOf inode⟩ :: after),
    ?_,rfl,fun other differ => ?_⟩
  · rw [refsOpen,findNodeLoc,parted.span]
    dsimp only
    rw [parted.nodeAt]
    rfl
  · rw [Fs.node,Fs.node,Fs.setChain]
    dsimp only
    rw [Function.update_apply]
    split
    · rename_i same
      rw [same,split]
      simp [List.find?_append,differ.symm]
    · rfl

theorem refsClose_eq (ok : Tables fs) (fits : Fits inode) (small : fs.opens inode < 2 ^ 32) :
    refsClose inode fs = CandyFs.refsClose inode fs := by
  rw [refsClose,CandyFs.refsClose]
  dsimp only
  cases found : nodeAt inode (findNodeLoc fs inode).2 with
  | none => rfl
  | some pair =>
    obtain ⟨node,after⟩ := pair
    obtain ⟨count,held⟩ := nodeAt_refcount ok fits found
    dsimp only
    rw [decrement_eq held (by omega)]

theorem run_eq (counted : Counted fs opens) (small : ∀ inode, opens inode < 2 ^ 32)
    (fits : Fits call.inode) (room : BelowTop opens call) : run call fs = call.run fs := by
  cases call with
  | «open» inode =>
    refine refsOpen_eq counted.tables fits ?_
    rw [counted.count inode fits]
    exact room
  | close inode =>
    refine refsClose_eq counted.tables fits ?_
    rw [counted.count inode fits]
    exact small inode
  | link inode => rfl
  | unlink inode => rfl

omit [Geometry] in
theorem BelowTop.count (room : BelowTop opens call) (small : ∀ inode, opens inode < 2 ^ 32) (res inode : Int) :
    call.count res opens inode < 2 ^ 32 := by
  have := small inode
  cases call with
  | «open» other =>
    have room : opens other + 1 < 2 ^ 32 := room
    rw [RefCall.count]
    split
    · rw [Function.update_apply]
      split <;> omega
    · exact this
  | close other =>
    have := small other
    rw [RefCall.count]
    split
    · exact ‹opens inode < 2 ^ 32›
    · rw [Function.update_apply]
      split <;> omega
  | link other => exact this
  | unlink other => exact this

theorem Run.unbounded (before : Run BelowTop start fs opens) :
    RefRun start fs opens ∧ ∀ inode, opens inode < 2 ^ 32 := by
  induction before with
  | start empty => exact ⟨.start empty,fun _ => Nat.two_pow_pos 32⟩
  | call _ fits here ran ih =>
    obtain ⟨run,small⟩ := ih
    rw [run_eq run.counted small fits here] at ran
    exact ⟨run.call fits ran,here.count small _⟩
  | other _ kept ih => exact ⟨ih.1.other kept,ih.2⟩

end

end CandyFs.RefCount

/-! An inode is neither lost nor freed too early while the counts have room. -/
namespace CandyFs
open RefCount (Exact BelowTop increment run_eq refsOpen_again)

theorem refs_exact [Geometry] {start fs : Fs} {opens : Int → Nat} (before : RefCount.Run BelowTop start fs opens) :
    Exact fs opens := by
  obtain ⟨unbounded,small⟩ := before.unbounded
  have counted := unbounded.counted
  refine ⟨counted.exact,fun call fits => ?_⟩
  by_cases room : BelowTop opens call
  · obtain ⟨res,fs',ran,step⟩ := counted.step call fits
    rw [run_eq counted small fits room]
    exact ⟨res,fs',ran,step.frees,step.others⟩
  · -- only an open runs out of room, and it frees nothing
    cases call with
    | «open» inode =>
      have top : ¬opens inode + 1 < 2 ^ 32 := room
      have held : fs.opens inode ≠ 0 := by
        rw [counted.count inode fits]
        omega
      obtain ⟨fs',ran,store,others⟩ := refsOpen_again counted.tables fits held
      refine ⟨0,fs',ran,?_,fun other differ => ⟨others other differ,by rw [store]⟩⟩
      rw [store]
      exact (if_neg not_false).symm
    | _ => exact absurd trivial room

section
attribute [local instance] Geometry.small

/-- An inode without links. -/
def tinyFs : Fs where
  store := ⟨fun n => if n = 7 then some Store.freshNode else none,44,[],0,fun _ => 0,[]⟩
  openFileTable _ := []
  openPathTable _ := ⟨0,0,[]⟩

/-- Inode 7 with a node of this count. -/
def tinyFsOpen (refcount : Nat) : Fs := tinyFs.setChain 7 [⟨7,refcount,0⟩]

theorem refs_exact_tiny : Exact (tinyFsOpen 1) (Function.update (fun _ => 0) 7 1) ∧
    ∃ res fs', RefCount.run (.close 7) (tinyFsOpen 1) = .ok (res,fs') ∧ fs'.store.frees = [7] := by
  have fits : Bytes.Fits (RefCall.open 7).inode := by decide
  have opened : RefCount.run (.open 7) tinyFs = .ok (0,tinyFsOpen 1) := rfl
  have exact := refs_exact ((RefCount.Run.start fun _ => rfl).call fits (by decide : 0 + 1 < 2 ^ 32) opened)
  obtain ⟨res,fs',ran,frees,_⟩ := exact.2 (.close 7) fits
  exact ⟨exact,res,fs',ran,frees⟩

theorem tinyFsOpen_run (n : Nat) : RefCount.Run (fun _ _ => True) tinyFs (tinyFsOpen ((n + 1) % 2 ^ 32))
    (Function.update (fun _ => 0) 7 (n + 1)) := by
  have fits : Bytes.Fits (RefCall.open 7).inode := by decide
  induction n with
  | zero =>
    have opened : RefCount.run (.open 7) tinyFs = .ok (0,tinyFsOpen 1) := rfl
    exact (RefCount.Run.start fun _ => rfl).call fits trivial opened
  | succ n ih =>
    have opened (c : Nat) : RefCount.run (.open 7) (tinyFsOpen c) = .ok (0,tinyFsOpen (increment c)) := by
      have chain : RefCount.run (.open 7) (tinyFsOpen c) =
          .ok (0,(tinyFsOpen c).setChain 7 [⟨7,increment c,0⟩]) := rfl
      rw [chain,tinyFsOpen,tinyFsOpen,Fs.setChain,Fs.setChain,Fs.setChain]
      dsimp only
      rw [Function.update_idem]
    have next := ih.call fits trivial (opened _)
    rw [RefCall.count,if_pos rfl,Function.update_self,Function.update_idem,increment,
      Nat.mod_add_mod] at next
    exact next

/-- After 2^32 + 1 opens of an inode without links, one close frees it. -/
theorem refs_freed_open : ∃ fs, RefCount.Run (fun _ _ => True) tinyFs fs (Function.update (fun _ => 0) 7 (2 ^ 32 + 1)) ∧
    (∃ res fs', RefCount.run (.close 7) fs = .ok (res,fs') ∧ fs'.store.frees = [7]) ∧
    ¬Exact fs (Function.update (fun _ => 0) 7 (2 ^ 32 + 1)) := by
  have fits : Bytes.Fits (RefCall.close 7).inode := by decide
  have count : (2 ^ 32 + 1) % 2 ^ 32 = 1 := by decide
  have before := tinyFsOpen_run (2 ^ 32)
  rw [count] at before
  obtain ⟨fs',closed,freed⟩ : ∃ fs', RefCount.run (.close 7) (tinyFsOpen 1) = .ok (0,fs') ∧
      fs'.store.frees = [7] := ⟨_,rfl,rfl⟩
  refine ⟨_,before,⟨0,fs',closed,freed⟩,fun exact => ?_⟩
  obtain ⟨_,_,again,kept,_⟩ := exact.2 (.close 7) fits
  rw [closed] at again
  obtain ⟨rfl,rfl⟩ := Prod.mk.injEq .. ▸ Except.ok.injEq .. ▸ again
  rw [freed,if_neg fun last => absurd last.1 (by rw [Function.update_self]; decide)] at kept
  cases kept

end

end CandyFs
