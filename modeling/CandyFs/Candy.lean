import CandyFs.Handles

/-! The requests of the file system in user space, and sessions of them.
-/
namespace CandyFs
open Bytes
open Naming (net)
open Triple

/-- `O_ACCMODE` -/
abbrev oACCMODE : Nat := 3
abbrev oAPPEND : Nat := 0o2000
abbrev fOK : Nat := 0
abbrev rOK : Nat := 4
abbrev wOK : Nat := 2
abbrev xOK : Nat := 1

section
variable [Geometry]

/-- `assert(P(x))` -/
def closePath (path : Int) : Act Unit := do
  let res ← pathClose path
  assert (res = 0)

/-- `F(ores, close); S(close)` -/
def finish (ores : Int) (close : Act Unit) : Act Int :=
  if ores < 0 then do
    close
    pure ores
  else do
    close
    pure 0

/-- What the requests on a name have in common. -/
def onOpenPath (path : Name) (user group : Nat) (call : Int → Act Int) : Act Int := do
  let handle ← pathOpen path false user group (-1)
  if handle < 0 then pure handle
  else do
    let ores ← call handle
    finish ores (closePath handle)

/-- What the requests on an inode have in common. -/
def onResolved (path : Name) (deref : Bool) (user group : Nat) (call : Int → Act Int) : Act Int := do
  let inode ← pathResolve path deref user group
  if inode < 0 then pure inode
  else do
    let ores ← call inode
    finish ores (closeHeld inode)

variable (user group : Nat)

def candyMkdir (path : Name) (mode : Nat) : Act Int :=
  onOpenPath path user group fun handle => pathMkdir handle mode user group

def candyUnlink (path : Name) : Act Int :=
  onOpenPath path user group fun handle => pathUnlink handle user group

def candyRmdir (path : Name) : Act Int :=
  onOpenPath path user group fun handle => pathRmdir handle user group

/-- A new inode that is open. -/
def createOpen (create : Store → Try (Int × Store)) : Act Int := do
  let inode ← onDisk create
  if inode < 0 then pure inode
  else do
    let res ← refsOpen inode
    assert (res = 0)
    pure inode

def candySymlink (linkname path : Name) : Act Int := do
  let inode ← createOpen (symlinkCreate · linkname)
  if inode < 0 then pure inode
  else do
    let res ← onDisk (.ok <| permChown · inode 0 user group)
    assert (res = 0)
    let handle ← pathOpen path false user group (-1)
    if handle < 0 then do
      closeHeld inode
      pure handle
    else do
      let ores ← pathLink handle inode user group
      finish ores do
        closeHeld inode
        closePath handle

def candyRename (oldpath newpath : Name) : Act Int := do
  let dstpath ← pathOpen newpath false user group (-1)
  if dstpath < 0 then pure dstpath
  else do
    let srcpath ← pathOpen oldpath false user group dstpath
    if srcpath = -eWOULDBLOCK then do
      closePath dstpath
      pure 0
    else if srcpath < 0 then do
      closePath dstpath
      pure srcpath
    else do
      let ores ← pathRename dstpath srcpath user group
      finish ores do
        closePath dstpath
        closePath srcpath

def candyLink (oldpath newpath : Name) : Act Int := do
  let inode ← pathResolve oldpath false user group
  if inode < 0 then pure inode
  else do
    let dstpath ← pathOpen newpath false user group (-1)
    if dstpath < 0 then do
      closeHeld inode
      pure dstpath
    else do
      let ores ← pathLink dstpath inode user group
      finish ores do
        closePath dstpath
        closeHeld inode

def candyChmod (path : Name) (mode : Nat) : Act Int :=
  onResolved path true user group fun inode => onDisk (.ok <| permChmod · inode (mode &&& 0o7777) user)

def candyChown (path : Name) (newuser newgroup : Nat) : Act Int :=
  onResolved path true user group fun inode => onDisk (.ok <| permChown · inode user newuser newgroup)

/-- `file_truncate` and what is made of its answer. -/
def truncateTo (inode size : Int) : Act Int := do
  let ores ← onDisk (.ok <| fileTruncate · inode size)
  if ores < 0 then pure ores
  else if ores ≠ size then pure (-eNOSPC)
  else pure 0

def candyTruncate (path : Name) (size : Int) : Act Int :=
  onResolved path true user group fun inode => truncateTo inode size

/-- The permissions to ask for. -/
def accessMode (flags : Nat) : Option Nat :=
  if flags &&& oACCMODE = 0 then some permRead
  else if flags &&& oACCMODE = 1 then some permWrite
  else if flags &&& oACCMODE = 2 then some (permRead ||| permWrite)
  else none

/-- What `candy_open` and `candy_opendir` have in common. `refuse` tells why a node is not opened.
Returns the answer and `fi->fh`. -/
def openNode (refuse : Node → Option Int) (path : Name) (flags : Nat) : Act (Int × Option Int) := do
  let inode ← pathResolve path true user group
  if inode < 0 then pure (inode,none)
  else do
    match ← getinfo inode with
    | none => failed
    | some info =>
      match refuse info with
      | some ores => do
        closeHeld inode
        pure (ores,none)
      | none =>
        match accessMode flags with
        | none => do
          closeHeld inode
          pure (-eINVAL,none)
        | some perms => do
          let ores ← reading (.ok <| permCheck · inode perms user group)
          if ores < 0 then do
            closeHeld inode
            pure (ores,none)
          else pure (0,some inode)

def candyOpen (path : Name) (flags : Nat) : Act (Int × Option Int) :=
  openNode user group (fun info => if sISDIR info.mode then some (-eISDIR)
    else if ¬sISREG info.mode then some (-eINVAL) else none) path flags

def candyOpendir (path : Name) (flags : Nat) : Act (Int × Option Int) :=
  openNode user group (fun info => if ¬sISDIR info.mode then some (-eNOTDIR) else none) path flags

def candyWrite (fh offset : Int) (buf : Option Block) (size : Int) (flags : Nat) : Act Int :=
  onDisk (fileWrite · fh (if flags &&& oAPPEND = oAPPEND then -1 else offset) buf size)

def candyRelease (fh : Int) : Act Int := do
  closeHeld fh
  pure 0

def candyReleasedir (fh : Int) : Act Int := do
  closeHeld fh
  pure 0

def candyCreate (path : Name) (mode : Nat) : Act (Int × Option Int) := do
  if ¬sISREG mode then pure (-eINVAL,none)
  else do
    let inode ← createOpen fileCreate
    if inode < 0 then pure (inode,none)
    else do
      let res ← onDisk (.ok <| permChown · inode 0 user group)
      assert (res = 0)
      let res ← onDisk (.ok <| permChmod · inode (mode &&& 0o7777) user)
      assert (res = 0)
      let handle ← pathOpen path false user group (-1)
      if handle < 0 then do
        closeHeld inode
        pure (handle,none)
      else do
        let ores ← pathLink handle inode user group
        if ores < 0 then do
          closeHeld inode
          closePath handle
          pure (ores,none)
        else do
          closePath handle
          pure (0,some inode)

/-- The permissions that `access` asks for. -/
def accessPerms (flags : Nat) : Nat :=
  (if flags &&& rOK ≠ 0 then permRead else 0) ||| (if flags &&& wOK ≠ 0 then permWrite else 0) |||
    (if flags &&& xOK ≠ 0 then permExec else 0)

def candyAccess (path : Name) (flags : Nat) : Act Int :=
  onResolved path true user group fun inode =>
    if flags = fOK then pure 0
    else reading (.ok <| permCheck · inode (accessPerms flags) user group)

def candyFtruncate (fh size : Int) : Act Int := truncateTo fh size

def candyUtimens (path : Name) : Act Int :=
  onResolved path false user group fun inode => do
    let ores ← reading (.ok <| permCheck · inode permUtime user group)
    if ores < 0 then pure ores
    else onDisk (.ok <| ·.inodeUtime inode)

end

end CandyFs

/-! What each request leaves. -/
namespace CandyFs
open Naming (net)
open Triple

section
variable [Geometry] {fs fs' : Fs} {fhs : Multiset Int} {inode fh handle path : Int} {name : Name}
  {node dst src : OpenPathNode} {user group mode : Nat} {outcome : Int → List FsEvent → Prop} {call : Act Int}

omit [Geometry] in
theorem assert_yields {condition : Prop} [Decidable condition] :
    Yields (assert condition) fs fun _ fs' => condition ∧ fs' = fs := by
  by_cases holds : condition
  · exact .done (assert_true holds) ⟨holds,rfl⟩
  · exact .fails (assert_false holds)

omit [Geometry] in
theorem net_visit (inode n : Int) (e : FsEvent) (apart : e.net n = 0) :
    net [.hold inode,e,.release inode] n = 0 := by
  simp only [Naming.net_cons,Naming.net_nil,apart]
  simp only [Naming.Event.net]
  split <;> rfl

theorem Unlinking.net {fs : Fs} {res : Int} {es : List FsEvent} (out : Unlinking fs node user group res es) (n : Int) :
    0 ≤ Naming.net es n := by
  cases out with
  | absent | denied => exact le_rfl
  | isDir inode =>
    simp only [Naming.net_cons,Naming.net_nil,Naming.Event.net]
    split <;> decide
  | removed inode => exact (net_visit inode n _ rfl).ge

theorem Removing.net {res : Int} {es : List FsEvent} (out : Removing fs node user group res es) (n : Int) :
    0 ≤ Naming.net es n := by
  cases out with
  | absent | denied | notDir | notEmpty => exact le_rfl
  | removed inode => exact (net_visit inode n _ rfl).ge

theorem Linking.net {res : Int} {es : List FsEvent} (out : Linking fs node inode user group res es) (n : Int) :
    0 ≤ Naming.net es n := by
  cases out <;> exact le_rfl

theorem Making.net {res : Int} {es : List FsEvent} (out : Making fs node mode user group res es) (n : Int) :
    0 ≤ Naming.net es n := by
  cases out <;> exact le_rfl

theorem TargetEvents.net {s : Store} {es : List FsEvent} (out : TargetEvents s dst inode es) (n : Int) :
    Naming.net es n = 0 := by
  cases out with
  | absent => rfl
  | replaced current => exact net_visit current n _ rfl

theorem Renaming.net {res : Int} {es : List FsEvent} (out : Renaming fs dst src user group res es) (n : Int) :
    0 ≤ Naming.net es n := by
  cases out with
  | absent | denied | refused => exact le_rfl
  | full inode entry es target =>
    simp only [Naming.net_append,Naming.net_cons,Naming.net_nil,target.net,Naming.Event.net]
    split <;> decide
  | moved inode child es target proceeds e moves =>
    have still : e.net n = 0 := by cases moves <;> rfl
    simp only [Naming.net_append,Naming.net_cons,Naming.net_nil,target.net,still]
    simp only [Naming.Event.net]
    split <;> decide

theorem Serving.happens (serving : Serving fs fhs) (happens : Happens (call fs) fs outcome)
    (least : ∀ res es, outcome res es → ∀ n, 0 ≤ net es n) : Yields call fs fun _ fs' => Serving fs' fhs := by
  obtain ⟨res,fs',es,ran,evolves,same,out,_⟩ := happens.some
  exact .done ran (serving.gained (evolves.serves (least res es out)) same fun _ => le_rfl)

theorem Serving.onDisk {α : Type} {change : Store → Try (α × Store)} (serving : Serving fs fhs)
    (rebinds : ∀ answer s', change fs.store = .ok (answer,s') → Rebound fs.store s' fs.store.names) :
    Yields (onDisk change) fs fun _ fs' => Serving fs' fhs := by
  intro value fs' ran
  obtain ⟨⟨answer,s'⟩,changed,_⟩ := bind_ok.mp ran
  obtain ⟨ran',evolves⟩ := serving.sane.onDisk change changed (rebinds answer s' changed)
  have gained := serving.gained (evolves.serves fun _ => le_rfl) rfl fun _ => le_rfl
  have done : Yields (CandyFs.onDisk change) fs fun _ fs' => Serving fs' fhs := .done ran' gained
  exact done value fs' ran

theorem Serving.changes {α : Type} {change : Store → α × Store} (serving : Serving fs fhs)
    (rebound : Rebound fs.store (change fs.store).2 fs.store.names) :
    Yields (CandyFs.onDisk (.ok <| change ·)) fs fun _ fs' => Serving fs' fhs := by
  refine serving.onDisk fun answer s' changed => ?_
  have same : change fs.store = (answer,s') := Except.ok.inj changed
  rwa [same] at rebound

theorem Serving.chmod (serving : Serving fs fhs) (member : inode ∈ fhs) (mode user : Nat) :
    Yields (CandyFs.onDisk (.ok <| permChmod · inode mode user)) fs fun _ fs' => Serving fs' fhs :=
  serving.changes (permChmod_rebound serving.sane.tidy (serving.nonneg member))

theorem Serving.chown (serving : Serving fs fhs) (member : inode ∈ fhs) (user newuser newgroup : Nat) :
    Yields (CandyFs.onDisk (.ok <| permChown · inode user newuser newgroup)) fs fun _ fs' => Serving fs' fhs :=
  serving.changes (permChown_rebound serving.sane.tidy (serving.nonneg member))

theorem Serving.truncateTo (serving : Serving fs fhs) (member : inode ∈ fhs) (size : Int) :
    Yields (truncateTo inode size) fs fun _ fs' => Serving fs' fhs := by
  have rebound : Rebound fs.store (fileTruncate fs.store inode size).2 fs.store.names :=
    fileTruncate_rebound serving.sane.tidy (serving.nonneg member)
  refine (serving.changes rebound).bind fun ores fs1 after => ?_
  exact .ite (fun _ => .pure after) fun _ => .ite (fun _ => .pure after) fun _ => .pure after

theorem Serving.closePath (serving : Serving fs fhs) (handle : Int) :
    Yields (closePath handle) fs fun _ fs' => Serving fs' fhs := by
  refine (serving.pathClose handle).bind fun res fs1 after => ?_
  refine assert_yields.mono ?_
  rintro _ _ ⟨zero,rfl⟩
  exact after zero

theorem Serving.finish {ores : Int} {close : Act Unit}
    (closes : Yields close fs fun _ fs' => Serving fs' fhs) :
    Yields (finish ores close) fs fun _ fs' => Serving fs' fhs :=
  .ite (fun _ => closes.bind fun _ _ after => .pure after) fun _ => closes.bind fun _ _ after => .pure after

theorem Serving.onOpenPath (serving : Serving fs fhs) (noNul : 0 ∉ name) {call : Int → Act Int}
    (calls : ∀ fs1 handle node, Serving fs1 fhs → OpenPath fs1 handle node →
      Yields (call handle) fs1 fun _ fs' => Serving fs' fhs) :
    Yields (onOpenPath name user group call) fs fun _ fs' => Serving fs' fhs := by
  refine (serving.pathOpen noNul false (-1)).bind fun handle fs1 opened => ?_
  refine .ite (fun _ => .pure opened.1) fun nonneg => ?_
  obtain ⟨node,open'⟩ := opened.2.self nonneg
  exact (calls fs1 handle node opened.1 open').bind fun ores fs2 after => .finish (after.closePath handle)

theorem Serving.onResolved (serving : Serving fs fhs) {deref : Bool} {call : Int → Act Int}
    (calls : ∀ fs1 inode, Serving fs1 (inode ::ₘ fhs) →
      Yields (call inode) fs1 fun _ fs' => Serving fs' (inode ::ₘ fhs)) :
    Yields (onResolved name deref user group call) fs fun _ fs' => Serving fs' fhs := by
  refine (serving.pathResolve name deref).bind fun inode fs1 resolved => ?_
  refine .ite (fun negative => .pure (resolved.failed negative)) fun nonneg => ?_
  have held := resolved.held nonneg
  exact (calls fs1 inode held).bind fun ores fs2 after => .finish after.closeHeld

theorem Serving.candyMkdir (serving : Serving fs fhs) (noNul : 0 ∉ name) :
    Yields (candyMkdir user group name mode) fs fun _ fs' => Serving fs' fhs :=
  serving.onOpenPath noNul fun _ _ _ serving opened =>
    serving.happens (pathMkdir_happens serving.sane opened mode user group) fun _ _ => Making.net

theorem Serving.candyUnlink (serving : Serving fs fhs) (noNul : 0 ∉ name) :
    Yields (candyUnlink user group name) fs fun _ fs' => Serving fs' fhs :=
  serving.onOpenPath noNul fun _ _ _ serving opened =>
    serving.happens (pathUnlink_happens serving.sane opened user group) fun _ _ => Unlinking.net

theorem Serving.candyRmdir (serving : Serving fs fhs) (noNul : 0 ∉ name) :
    Yields (candyRmdir user group name) fs fun _ fs' => Serving fs' fhs := by
  refine serving.onOpenPath noNul fun fs1 handle node serving opened => ?_
  rcases pathRmdir_happens serving.sane opened user group with ⟨_,broke⟩ | ⟨_,happens⟩
  · exact .fails broke
  · exact serving.happens happens fun _ _ => Removing.net

theorem Serving.pathLink (serving : Serving fs fhs) (opened : OpenPath fs handle node) (member : inode ∈ fhs) :
    Yields (pathLink handle inode user group) fs fun _ fs' => Serving fs' fhs :=
  serving.happens (pathLink_happens serving.sane opened (serving.opens member) user group) fun _ _ => Linking.net

theorem Serving.candyLink (serving : Serving fs fhs) {oldpath newpath : Name} (noNul : 0 ∉ newpath) :
    Yields (candyLink user group oldpath newpath) fs fun _ fs' => Serving fs' fhs := by
  refine (serving.pathResolve oldpath false).bind fun inode fs1 resolved => ?_
  refine .ite (fun negative => .pure (resolved.failed negative)) fun nonneg => ?_
  have held := resolved.held nonneg
  refine (held.pathOpen noNul false (-1)).bind fun handle fs2 opened => ?_
  refine .ite (fun _ => opened.1.closeHeld.bind fun _ _ after => .pure after) fun nonneg => ?_
  obtain ⟨node,open'⟩ := opened.2.self nonneg
  refine (opened.1.pathLink open' (Multiset.mem_cons_self inode fhs)).bind fun ores fs3 after => .finish ?_
  exact (after.closePath handle).bind fun _ _ after => after.closeHeld

theorem Serving.candyRename (serving : Serving fs fhs) {oldpath newpath : Name} (noNul : 0 ∉ oldpath)
    (noNul' : 0 ∉ newpath) : Yields (candyRename user group oldpath newpath) fs fun _ fs' => Serving fs' fhs := by
  refine (serving.pathOpen noNul' false (-1)).bind fun dstpath fs1 opened => ?_
  refine .ite (fun _ => .pure opened.1) fun nonneg => ?_
  obtain ⟨dst,dstOpen⟩ := opened.2.self nonneg
  refine (opened.1.pathOpen noNul false dstpath).bind fun srcpath fs2 opened' => ?_
  refine .ite (fun _ => (opened'.1.closePath dstpath).bind fun _ _ after => .pure after) fun _ => ?_
  refine .ite (fun _ => (opened'.1.closePath dstpath).bind fun _ _ after => .pure after) fun nonneg' => ?_
  obtain ⟨src,srcOpen⟩ := opened'.2.self nonneg'
  obtain ⟨dstOpen,differ⟩ := opened'.2.others dstpath dst dstOpen
  have distinct := opened'.1.distinct srcpath dstpath src dst differ.symm srcOpen.opened dstOpen.opened
  have renamed : Yields (pathRename dstpath srcpath user group) fs2 fun _ fs' => Serving fs' fhs := by
    rcases pathRename_happens opened'.1.sane dstOpen srcOpen distinct user group with ⟨_,broke⟩ | ⟨_,happens⟩
    · exact .fails broke
    · exact opened'.1.happens happens fun _ _ => Renaming.net
  refine renamed.bind fun ores fs3 after => .finish ?_
  exact (after.closePath dstpath).bind fun _ _ after => after.closePath srcpath

theorem Serving.candyChmod (serving : Serving fs fhs) :
    Yields (candyChmod user group name mode) fs fun _ fs' => Serving fs' fhs :=
  serving.onResolved fun _ inode held => held.chmod (Multiset.mem_cons_self inode fhs) _ user

theorem Serving.candyChown (serving : Serving fs fhs) {newuser newgroup : Nat} :
    Yields (candyChown user group name newuser newgroup) fs fun _ fs' => Serving fs' fhs :=
  serving.onResolved fun _ inode held => held.chown (Multiset.mem_cons_self inode fhs) user _ _

theorem Serving.candyTruncate (serving : Serving fs fhs) {size : Int} :
    Yields (candyTruncate user group name size) fs fun _ fs' => Serving fs' fhs :=
  serving.onResolved fun _ inode held => held.truncateTo (Multiset.mem_cons_self inode fhs) size

omit [Geometry] in
theorem reading_yields {α : Type} {read : Store → Try α} : Yields (reading read) fs fun _ fs' => fs' = fs := by
  intro value fs' ran
  obtain ⟨answer,_,ran⟩ := bind_ok.mp ran
  cases ran
  rfl

theorem Serving.candyUtimens (serving : Serving fs fhs) :
    Yields (candyUtimens user group name) fs fun _ fs' => Serving fs' fhs := by
  refine serving.onResolved fun fs1 inode held => reading_yields.bind ?_
  rintro ores _ rfl
  refine .ite (fun _ => .pure held) fun _ => held.changes ?_
  rw [inodeUtime_same]
  exact .refl

theorem Serving.openNode (serving : Serving fs fhs) (refuse : Node → Option Int) (flags : Nat) :
    Yields (openNode user group refuse name flags) fs fun answer fs' =>
      Serving fs' (answer.2.elim fhs (· ::ₘ fhs)) := by
  refine (serving.pathResolve name true).bind fun inode fs1 resolved => ?_
  refine .ite (fun negative => .pure (resolved.failed negative)) fun nonneg => ?_
  have held := resolved.held nonneg
  have asked : getinfo inode fs1 = .ok (fs1.store.inode inode,fs1) := rfl
  refine .follow asked ?_
  cases fs1.store.inode inode with
  | none => exact .fails rfl
  | some info =>
    dsimp only
    cases refuse info with
    | some ores => exact held.closeHeld.bind fun _ _ after => .pure after
    | none =>
      dsimp only
      cases accessMode flags with
      | none => exact held.closeHeld.bind fun _ _ after => .pure after
      | some perms =>
        refine reading_yields.bind ?_
        rintro ores _ rfl
        exact .ite (fun _ => held.closeHeld.bind fun _ _ after => .pure after) fun _ => .pure held

theorem Serving.candyWrite (serving : Serving fs fhs) (member : fh ∈ fhs) {offset size : Int}
    {buf : Option Bytes.Block} {flags : Nat} :
    Yields (candyWrite fh offset buf size flags) fs fun _ fs' => Serving fs' fhs :=
  serving.onDisk fun _ _ wrote => fileWrite_rebound serving.sane.tidy (serving.nonneg member) wrote

theorem Serving.candyRelease (serving : Serving fs (fh ::ₘ fhs)) :
    ∃ fs', candyRelease fh fs = .ok (0,fs') ∧ Serving fs' fhs := by
  obtain ⟨fs',ran,after⟩ := serving.release
  exact ⟨fs',act_bind ran,after⟩

theorem Serving.createOpen (serving : Serving fs fhs) {create : Store → Try (Int × Store)}
    (fresh : ∀ inode s', create fs.store = .ok (inode,s') → Fresh fs.store inode s') :
    Yields (createOpen create) fs fun inode fs' => Gets fs' fhs inode := by
  have sane := serving.sane
  rw [CandyFs.createOpen]
  cases created : create fs.store with
  | error fault =>
    have stopped : CandyFs.onDisk create fs = .error fault := by
      change (create fs.store >>= fun _ => _) = _
      rw [created]
      rfl
    exact .fails (act_stop stopped)
  | ok result =>
    obtain ⟨inode,s'⟩ := result
    cases fresh inode s' created with
    | failed negative _ same =>
      obtain ⟨ran,evolves⟩ := sane.onDisk create created same
      refine .follow ran ?_
      rw [if_pos negative]
      exact .pure ((serving.gained (evolves.serves fun _ => le_rfl) rfl fun _ => le_rfl).fails negative)
    | made _ info adopted plain unlinked top link =>
      obtain ⟨low,_⟩ := sane.tidy.free inode (by simp [adopted.first])
      have ran : CandyFs.onDisk create (fs.holding 0) = .ok (inode,(fs.over s').holding 0) :=
        sane.tables.onDisk_holding created (sane.adopted_links adopted unlinked)
      rw [holding_zero,holding_zero] at ran
      refine .follow ran ?_
      rw [if_neg (not_lt.mpr low)]
      have serves : Serves fs (one inode) ((fs.over s').holding {inode}) :=
        (sane.create adopted plain unlinked top link).serves fun n => by
          rw [Naming.net_cons,Naming.net_nil,add_zero]
          exact le_rfl
      have gains := serving.gains serves ((sane.tables.over s').holding_paths.trans rfl) low
      exact .follow (sane.adopted_open adopted) (.follow (assert_true rfl) (.pure (gains.gets low)))

theorem Serving.candySymlink (serving : Serving fs fhs) {linkname : Name} (noNul : 0 ∉ name) :
    Yields (candySymlink user group linkname name) fs fun _ fs' => Serving fs' fhs := by
  have fresh : Yields (CandyFs.createOpen (symlinkCreate · linkname)) fs _ :=
    serving.createOpen fun inode s' => symlinkCreate_fresh serving.sane.tidy
  refine fresh.bind fun inode fs1 made => ?_
  refine .ite (fun negative => .pure (made.failed negative)) fun nonneg => ?_
  have held := made.held nonneg
  have own := Multiset.mem_cons_self inode fhs
  refine (held.chown own 0 user group).bind fun _ fs2 held => assert_yields.bind ?_
  rintro _ _ ⟨_,rfl⟩
  refine (held.pathOpen noNul false (-1)).bind fun handle fs3 opened => ?_
  refine .ite (fun _ => opened.1.closeHeld.bind fun _ _ after => .pure after) fun nonneg => ?_
  obtain ⟨node,open'⟩ := opened.2.self nonneg
  refine (opened.1.pathLink open' own).bind fun ores fs4 after => .finish ?_
  exact after.closeHeld.bind fun _ _ after => after.closePath handle

theorem Serving.candyCreate (serving : Serving fs fhs) (noNul : 0 ∉ name) :
    Yields (candyCreate user group name mode) fs fun answer fs' =>
      Serving fs' (answer.2.elim fhs (· ::ₘ fhs)) := by
  refine .ite (fun _ => .pure serving) fun _ => ?_
  have fresh := serving.createOpen fun inode s' => fileCreate_fresh serving.sane.tidy
  refine fresh.bind fun inode fs1 made => ?_
  refine .ite (fun negative => .pure (made.failed negative)) fun nonneg => ?_
  have held := made.held nonneg
  have own := Multiset.mem_cons_self inode fhs
  refine (held.chown own 0 user group).bind fun _ fs2 held => assert_yields.bind ?_
  rintro _ _ ⟨_,rfl⟩
  refine (held.chmod own _ user).bind fun _ fs3 held => assert_yields.bind ?_
  rintro _ _ ⟨_,rfl⟩
  refine (held.pathOpen noNul false (-1)).bind fun handle fs4 opened => ?_
  refine .ite (fun _ => opened.1.closeHeld.bind fun _ _ after => .pure after) fun nonneg => ?_
  obtain ⟨node,open'⟩ := opened.2.self nonneg
  refine (opened.1.pathLink open' own).bind fun ores fs5 after => .ite (fun _ => ?_) fun _ => ?_
  · exact after.closeHeld.bind fun _ _ after => (after.closePath handle).bind fun _ _ after => .pure after
  · exact (after.closePath handle).bind fun _ _ after => .pure after

theorem Serving.candyAccess (serving : Serving fs fhs) {flags : Nat} :
    Yields (candyAccess user group name flags) fs fun _ fs' => Serving fs' fhs := by
  refine serving.onResolved fun fs1 inode held => .ite (fun _ => .pure held) fun _ => ?_
  refine reading_yields.mono ?_
  rintro _ _ rfl
  exact held

end

end CandyFs
