import CandyFs.WellFormed

/-! The walk of a path on a disk at rest, without the table of open inodes, and what `namei_rec`
makes of the table for each way the walk ends.
-/
namespace CandyFs
open Bytes

/-- How a walk ends. In the answers that are not inode numbers `why` is what went wrong, and
`answer` what is returned for it. -/
inductive Outcome where
  /-- The inode `current`, looked up in `last`. -/
  | found (last current : Int)
  /-- `*curdir` is `dir` and held. -/
  | absent (dir why answer : Int)
  /-- `*curdir` is `INO_EOF`; references to `leak` stay behind. -/
  | lost (why answer : Int) (leak : Multiset Int)
  /-- An assertion fails. -/
  | crash (why : Int)

variable [Geometry]

section
variable (s : Store) (user group : Nat)

def Store.lookup (directory : Int) (name : Name) : Int :=
  match dirLookup s directory name with
  | .ok target => target
  | .error _ => -eNOENT

/-- The contents of a symbolic link. -/
def Store.linkpath (inode : Int) : Name :=
  match bufferString (symlinkRead s inode (fun _ => 0) pathMax).2 with
  | .ok path => path
  | .error _ => []

/-- What becomes of an answer that is no inode number when its inode is asked for. -/
def Store.garble (answer : Int) : Int := if s.inode answer = none then -eNOENT else answer

def Store.isDir (inode : Int) : Prop := ∃ info, s.inode inode = some info ∧ sISDIR info.mode

def Store.isLink (inode : Int) : Prop := ∃ info, s.inode inode = some info ∧ sISLNK info.mode

instance : DecidablePred s.isDir := fun inode =>
  decidable_of_iff ((s.inode inode).any (sISDIR ·.mode)) (by
    rw [Option.any_eq_true]
    simp [Store.isDir,eq_comm])

instance : DecidablePred s.isLink := fun inode =>
  decidable_of_iff ((s.inode inode).any (sISLNK ·.mode)) (by
    rw [Option.any_eq_true]
    simp [Store.isLink,eq_comm])

/-- What a symbolic link makes of the outcome for its contents. -/
def Outcome.expanded : Outcome → Outcome
  | .absent dir why answer => .absent dir why (s.garble answer)
  | .lost why answer leak => .lost why (s.garble answer) leak
  | outcome => outcome

def walkSingle (walk : Name → Int → Nat → Outcome) (token : Name) (dir : Int) (deref : Bool)
    (level : Nat) : Outcome × Nat :=
  let res := permCheck s dir permExec user group
  if res < 0 then (.absent dir res res,level)
  else
    let current := s.lookup dir token
    if current < 0 then (.absent dir current current,level)
    else if deref = true ∧ s.isLink current then
      ((walk (s.linkpath current) dir (level + 1)).expanded s,level + 1)
    else (.found dir current,level)

/-- The last part of a path. -/
def Outcome.final : Outcome → Outcome
  | .absent dir why _ => .absent dir why eof
  | .lost why _ leak => .lost why eof leak
  | outcome => outcome

def walkLoop (walk : Name → Int → Nat → Outcome) (deref : Bool) :
    List Name → Int → Int → Nat → Outcome
  | [],current,dir,_ => .found dir current
  | [token],current,dir,level =>
    if token = [] then .found dir current
    else (walkSingle s user group walk token current deref level).1.final
  | token :: rest,current,dir,level =>
    if token = [] then walkLoop walk deref rest current dir level
    else
      let step := walkSingle s user group walk token current true level
      match step.1 with
      | .found last current =>
        if s.isDir current then walkLoop walk deref rest current last step.2
        else .lost (-eNOTDIR) (-eNOTDIR) {current}
      | .absent _ why answer => .lost why answer 0
      | .lost why _ _ => .crash why
      | .crash why => .crash why

def walkRec (rootdir : Int) : Nat → Name → Int → Bool → Nat → Outcome
  | 0,_,dir,_,_ => .absent dir (-eLOOP) (-eLOOP)
  | fuel + 1,path,dir,deref,level =>
    if level > levelMax then .absent dir (-eLOOP) (-eLOOP)
    else
      let walk := fun path dir level => walkRec rootdir fuel path dir true level
      if path.head? = some slash then
        walkLoop s user group walk deref (pieces path.tail) rootdir rootdir level
      else walkLoop s user group walk deref (pieces path) dir dir level

end

/-- What is returned, and what is held besides. -/
noncomputable def Outcome.settle (fs : Fs) (held : Multiset Int) : Outcome → Try ((Int × Int) × Fs)
  | .found last current => .ok ((current,last),fs.holding (current ::ₘ last ::ₘ held))
  | .absent dir _ answer => .ok ((answer,dir),fs.holding (dir ::ₘ held))
  | .lost _ answer leak => .ok ((answer,eof),fs.holding (leak + held))
  | .crash _ => .error (.abort ())

/-- An outcome of a well-formed file system. -/
def Outcome.Good (s : Store) : Outcome → Prop
  | .found last current => LiveDir s last ∧ Live s current
  | .absent dir _ answer => LiveDir s dir ∧ answer < 0
  | .lost _ answer leak => answer < 0 ∧ ∀ inode ∈ leak, Live s inode
  | .crash _ => True

section
variable {fs : Fs} {s : Store} {held : Multiset Int} {dir rootdir : Int} {token path : Name}
  {user group level fuel : Nat} {deref : Bool} {outcome : Outcome}
  {call : Name → Int → Nat → Act (Int × Int)} {walk : Name → Int → Nat → Outcome}

theorem Outcome.Good.expanded (good : outcome.Good s) : (outcome.expanded s).Good s := by
  have garbled {answer : Int} (negative : answer < 0) : s.garble answer < 0 := by
    rw [Store.garble]
    split
    · decide
    · exact negative
  cases outcome with
  | found last current => exact good
  | absent dir why answer => exact ⟨good.1,garbled good.2⟩
  | lost why answer leak => exact ⟨garbled good.1,good.2⟩
  | crash why => trivial

theorem Outcome.Good.final (good : outcome.Good s) : outcome.final.Good s := by
  cases outcome with
  | found last current => exact good
  | absent dir why answer => exact ⟨good.1,by decide⟩
  | lost why answer leak => exact ⟨by decide,good.2⟩
  | crash why => trivial

/-- The recursive calls do what the walk says. -/
def Follows (fs : Fs) (call : Name → Int → Nat → Act (Int × Int)) (walk : Name → Int → Nat → Outcome)
    (least : Nat) : Prop :=
  ∀ path dir level held, least ≤ level → LiveDir fs.store dir → (∀ inode ∈ held, 0 ≤ inode) →
    call path dir level (fs.holding (dir ::ₘ held)) = (walk path dir level).settle fs held ∧
      (walk path dir level).Good fs.store

omit [Geometry] in
theorem bufferString_ok {buffer : Block} {k : Nat} (inside : k < pathMax) (stop : buffer k = 0) :
    ∃ path, bufferString buffer = .ok path := by
  unfold bufferString
  split
  · exact ⟨_,rfl⟩
  · rename_i none
    exact absurd (decide_eq_true stop) (List.find?_eq_none.mp none k (List.mem_range.mpr inside))

theorem WellFormed.linkpath (wf : WellFormed fs) {current : Int} {info : Node} (nonneg : 0 ≤ current)
    (named : fs.store.inode current = some info) (link : sISLNK info.mode) :
    0 ≤ (symlinkRead fs.store current (fun _ => 0) pathMax).1 ∧
    bufferString (symlinkRead fs.store current (fun _ => 0) pathMax).2 =
      .ok (fs.store.linkpath current) := by
  obtain ⟨some,short⟩ := wf.symlinks current info nonneg named link
  have read : symlinkRead fs.store current (fun _ => 0) pathMax =
      (info.size,copyBytes (fun _ => 0) 0 info.byte 0 info.size.toNat) := by
    have small : min ((0 : Int) + pathMax) info.size = info.size := by omega
    rw [symlinkRead,named]
    dsimp only
    rw [if_neg (not_not.mpr link),Store.inodeRead,named]
    dsimp only
    rw [small,if_neg (by omega),sub_zero]
    rfl
  -- the byte behind the contents is still zero
  have stop : copyBytes (fun _ => 0) 0 info.byte 0 info.size.toNat info.size.toNat = 0 :=
    copyBytes_outside _ _ _ _ _ _ (by omega)
  obtain ⟨path,string⟩ := bufferString_ok (by omega) stop
  have same : fs.store.linkpath current = path := by
    unfold Store.linkpath
    simp only [read,string]
  rw [same,read]
  exact ⟨some.le,string⟩

theorem single_spec (wf : WellFormed fs) (token : Name) (user group : Nat) (deref : Bool)
    (live : LiveDir fs.store dir) (nonneg : ∀ inode ∈ held, 0 ≤ inode) (follows : Follows fs call walk (level + 1)) :
    ∃ mode, nameiInternalSingle call token dir user group deref level (fs.holding (dir ::ₘ held)) =
        ((walkSingle fs.store user group walk token dir deref level).1.settle fs held).map
          (fun r => ((r.1.1,r.1.2,mode,(walkSingle fs.store user group walk token dir deref level).2),r.2)) ∧
      (walkSingle fs.store user group walk token dir deref level).1.Good fs.store ∧
      ∀ last current, (walkSingle fs.store user group walk token dir deref level).1 = .found last current →
        ∃ info, fs.store.inode current = some info ∧ mode = info.mode := by
  have checked : reading (.ok <| permCheck · dir permExec user group) (fs.holding (dir ::ₘ held)) =
      .ok (permCheck fs.store dir permExec user group,fs.holding (dir ::ₘ held)) :=
    wf.tables.reading_holding rfl
  rw [nameiInternalSingle,act_bind checked,walkSingle]
  by_cases denied : permCheck fs.store dir permExec user group < 0
  · simp only [if_pos denied]
    exact ⟨0,rfl,⟨live,denied⟩,nofun⟩
  simp only [if_neg denied]
  rcases wf.lookup live token with ⟨current,found,live'⟩ | failed
  · obtain ⟨info,named,_⟩ := live'.named
    have target : fs.store.lookup dir token = current := by rw [Store.lookup,found]
    have isLink : fs.store.isLink current ↔ sISLNK info.mode := by
      simp [Store.isLink,named]
    simp only [target,if_neg (not_lt.mpr live'.nonneg),isLink]
    rw [act_bind (wf.dirLookupOpen found live'),if_neg (not_lt.mpr live'.nonneg),act_bind wf.tables.getinfo_holding,named]
    dsimp only
    by_cases follow : deref = true ∧ sISLNK info.mode
    · simp only [if_pos follow]
      obtain ⟨count,string⟩ := wf.linkpath live'.nonneg named follow.2
      obtain ⟨ran,good⟩ := follows (fs.store.linkpath current) dir (level + 1) held le_rfl live nonneg
      obtain ⟨⟨n,buffer⟩,read⟩ : ∃ r, symlinkRead fs.store current (fun _ => 0) pathMax = r := ⟨_,rfl⟩
      have readBack : reading (.ok <| symlinkRead · current (fun _ => 0) pathMax)
          (fs.holding (current ::ₘ dir ::ₘ held)) =
          .ok ((n,buffer),fs.holding (current ::ₘ dir ::ₘ held)) :=
        wf.tables.reading_holding (congrArg Except.ok read)
      rw [read] at count string
      have readPath : reading (fun _ => bufferString buffer) (fs.holding (dir ::ₘ held)) =
          .ok (fs.store.linkpath current,fs.holding (dir ::ₘ held)) := reading_ok string
      rw [act_bind readBack]
      dsimp only
      rw [act_bind (assert_true count),act_bind (wf.close live'),act_bind (assert_true rfl),
        act_bind readPath]
      generalize walk (fs.store.linkpath current) dir (level + 1) = outcome at ran good
      cases outcome with
      | found last current =>
        obtain ⟨info,named,_⟩ := good.2.named
        rw [act_bind ran]
        dsimp only
        rw [act_bind wf.tables.getinfo_holding,named]
        refine ⟨info.mode,rfl,good,fun last other same => ?_⟩
        cases same
        exact ⟨info,named,rfl⟩
      | absent d why answer =>
        have next := good.expanded
        rw [Outcome.expanded,Store.garble] at next
        rw [act_bind ran]
        dsimp only
        rw [act_bind wf.tables.getinfo_holding,Outcome.expanded,Store.garble]
        cases asked : fs.store.inode answer with
        | none =>
          rw [asked] at next
          exact ⟨0,rfl,next,nofun⟩
        | some info =>
          rw [asked] at next
          exact ⟨info.mode,rfl,next,nofun⟩
      | lost why answer leak =>
        have next := good.expanded
        rw [Outcome.expanded,Store.garble] at next
        rw [act_bind ran]
        dsimp only
        rw [act_bind wf.tables.getinfo_holding,Outcome.expanded,Store.garble]
        cases asked : fs.store.inode answer with
        | none =>
          rw [asked] at next
          exact ⟨0,rfl,next,nofun⟩
        | some info =>
          rw [asked] at next
          exact ⟨info.mode,rfl,next,nofun⟩
      | crash why =>
        rw [act_stop ran]
        exact ⟨0,rfl,trivial,nofun⟩
    · simp only [if_neg follow]
      refine ⟨info.mode,rfl,⟨live,live'⟩,fun last other same => ?_⟩
      cases same
      exact ⟨info,named,rfl⟩
  · obtain ⟨res,found,negative⟩ : ∃ res, dirLookup fs.store dir token = .ok res ∧ res < 0 := by
      rcases failed with found | found
      · exact ⟨_,found,by decide⟩
      · exact ⟨_,found,by decide⟩
    have target : fs.store.lookup dir token = res := by rw [Store.lookup,found]
    simp only [target,if_pos negative]
    rw [act_bind (wf.dirLookupOpen_fails found negative),if_pos negative]
    exact ⟨0,rfl,⟨live,negative⟩,nofun⟩

theorem walkSingle_level : level ≤ (walkSingle s user group walk token dir deref level).2 := by
  rw [walkSingle]
  dsimp only
  split
  · exact le_rfl
  split
  · exact le_rfl
  split
  · exact Nat.le_succ level
  · exact le_rfl

theorem Follows.later {least later : Nat} (follows : Follows fs call walk least) (le : least ≤ later) :
    Follows fs call walk later :=
  fun path dir level held low => follows path dir level held (le.trans low)

theorem Live.isDir {inode : Int} (live : Live s inode) (dir : s.isDir inode) : LiveDir s inode := by
  obtain ⟨info,named,used⟩ := live.named
  obtain ⟨info',named',isDir⟩ := dir
  rw [named,Option.some.injEq] at named'
  rw [← named'] at isDir
  exact used isDir

/-- What the outcomes say of a traversal of parts, from `current`, looked up in `dir`. -/
theorem loop_spec (wf : WellFormed fs) (tokens : List Name) :
    ∀ {current dir : Int} {level : Nat} {held : Multiset Int}, LiveDir fs.store current →
      LiveDir fs.store dir → (∀ inode ∈ held, 0 ≤ inode) → Follows fs call walk (level + 1) →
      nameiLoop call deref user group tokens current dir level
          (fs.holding (current ::ₘ dir ::ₘ held)) =
        (walkLoop fs.store user group walk deref tokens current dir level).settle fs held ∧
      (walkLoop fs.store user group walk deref tokens current dir level).Good fs.store := by
  induction tokens with
  | nil => exact fun live live' _ _ => ⟨rfl,live',live.live⟩
  | cons token rest ih =>
    intro current dir level held live live' nonneg follows
    cases rest with
    | nil =>
      rw [nameiLoop,walkLoop]
      by_cases empty : token = []
      · rw [if_pos empty,if_pos empty]
        exact ⟨rfl,live',live.live⟩
      · obtain ⟨mode,ran,good,_⟩ := single_spec wf token user group deref live nonneg follows
        rw [if_neg empty,if_neg empty,Multiset.cons_swap,act_bind (wf.close live'.live),
          act_bind (assert_true rfl)]
        generalize walkSingle fs.store user group walk token current deref level = step at ran good ⊢
        obtain ⟨outcome,level'⟩ := step
        dsimp only at ran good ⊢
        cases outcome with
        | found last found =>
          rw [act_bind ran]
          dsimp only
          rw [if_neg (not_lt.mpr good.2.nonneg)]
          exact ⟨rfl,good⟩
        | absent d why answer =>
          rw [act_bind ran]
          dsimp only
          rw [if_pos good.2]
          exact ⟨rfl,good.final⟩
        | lost why answer leak =>
          rw [act_bind ran]
          dsimp only
          rw [if_pos good.1]
          exact ⟨rfl,good.final⟩
        | crash why =>
          rw [act_stop ran]
          exact ⟨rfl,trivial⟩
    | cons next rest =>
      rw [nameiLoop,walkLoop]
      · by_cases empty : token = []
        · rw [if_pos empty,if_pos empty]
          exact ih live live' nonneg follows
        · obtain ⟨mode,ran,good,told⟩ := single_spec wf token user group true live nonneg follows
          have later : level ≤ (walkSingle fs.store user group walk token current true level).2 :=
            walkSingle_level
          rw [if_neg empty,if_neg empty,Multiset.cons_swap,act_bind (wf.close live'.live),
            act_bind (assert_true rfl)]
          generalize walkSingle fs.store user group walk token current true level = step at ran good told later ⊢
          obtain ⟨outcome,level'⟩ := step
          dsimp only at ran good told later ⊢
          cases outcome with
          | found last found =>
            obtain ⟨info,named,rfl⟩ := told last found rfl
            have isDir : fs.store.isDir found ↔ sISDIR info.mode := by simp [Store.isDir,named]
            rw [act_bind ran]
            dsimp only
            rw [if_neg (not_lt.mpr good.2.nonneg)]
            by_cases dir : fs.store.isDir found
            · rw [if_neg (not_not.mpr (isDir.mp dir)),if_pos dir]
              exact ih (good.2.isDir dir) good.1 nonneg (follows.later (Nat.succ_le_succ later))
            · rw [if_pos (mt isDir.mpr dir),if_neg dir,Multiset.cons_swap,
                act_bind (wf.close good.1.live),act_bind (assert_true rfl)]
              refine ⟨?_,by decide,fun inode member => ?_⟩
              · rw [Outcome.settle,Multiset.singleton_add]
                rfl
              · rw [Multiset.mem_singleton.mp member]
                exact good.2
          | absent d why answer =>
            rw [act_bind ran]
            dsimp only
            rw [if_pos good.2,act_bind (wf.close good.1.live),act_bind (assert_true rfl)]
            refine ⟨?_,good.2,fun inode member => absurd member (Multiset.notMem_zero _)⟩
            rw [Outcome.settle,zero_add]
            rfl
          | lost why answer leak =>
            have all : ∀ inode ∈ leak + held, 0 ≤ inode := fun inode member =>
              (Multiset.mem_add.mp member).elim (fun leaked => (good.2 inode leaked).nonneg)
                (nonneg inode)
            rw [act_bind ran]
            dsimp only
            rw [if_pos good.1,act_bind (wf.close_eof all),act_stop (assert_false (by decide))]
            exact ⟨rfl,trivial⟩
          | crash why =>
            rw [act_stop ran]
            exact ⟨rfl,trivial⟩
      · exact nofun
      · exact nofun

theorem nameiRec_spec (wf : WellFormed fs) (root : LiveDir fs.store rootdir) (fuel : Nat) :
    ∀ {path : Name} {dir : Int} {deref : Bool} {level : Nat} {held : Multiset Int}, 0 < fuel →
      levelMax + 2 ≤ level + fuel → LiveDir fs.store dir → (∀ inode ∈ held, 0 ≤ inode) →
      nameiRec rootdir user group fuel path dir deref level (fs.holding (dir ::ₘ held)) =
        (walkRec fs.store user group rootdir fuel path dir deref level).settle fs held ∧
      (walkRec fs.store user group rootdir fuel path dir deref level).Good fs.store := by
  induction fuel with
  | zero => exact fun some => absurd some (lt_irrefl 0)
  | succ fuel ih =>
    intro path dir deref level held _ enough live nonneg
    rw [nameiRec,walkRec]
    by_cases deep : level > levelMax
    · rw [if_pos deep,if_pos deep]
      exact ⟨rfl,live,by decide⟩
    have follows : Follows fs (fun path dir level => nameiRec rootdir user group fuel path dir true level)
        (fun path dir level => walkRec fs.store user group rootdir fuel path dir true level) (level + 1) :=
      fun path dir level' held low live nonneg => ih (by omega) (by omega) live nonneg
    rw [if_neg deep,if_neg deep]
    dsimp only
    rw [act_bind (wf.open live.live),if_neg (not_not.mpr rfl)]
    by_cases absolute : path.head? = some slash
    · rw [if_pos absolute,if_pos absolute,act_bind (wf.close live.live),act_bind (assert_true rfl),
        act_bind (wf.close live.live),act_bind (assert_true rfl),act_bind (wf.open root.live),
        act_bind (assert_true rfl),act_bind (wf.open root.live),act_bind (assert_true rfl)]
      exact loop_spec wf _ root root nonneg follows
    · rw [if_neg absolute,if_neg absolute]
      exact loop_spec wf _ live live nonneg follows

/-- The walk of a path from a directory. -/
def walkPath (s : Store) (user group : Nat) (path : Name) (start : Int) (deref : Bool) : Outcome :=
  walkRec s user group 0 nameiFuel path start deref 0

theorem walkPath_spec (wf : WellFormed fs) (user group : Nat) (path : Name) (deref : Bool)
    (live : LiveDir fs.store dir) (nonneg : ∀ inode ∈ held, 0 ≤ inode) :
    nameiRec 0 user group nameiFuel path dir deref 0 (fs.holding (dir ::ₘ held)) =
      (walkPath fs.store user group path dir deref).settle fs held ∧
    (walkPath fs.store user group path dir deref).Good fs.store :=
  nameiRec_spec wf wf.root nameiFuel (Nat.succ_pos _) (Nat.le_add_left _ _) live nonneg

theorem walkPath_good (wf : WellFormed fs) (user group : Nat) (path : Name) (deref : Bool)
    (live : LiveDir fs.store dir) : (walkPath fs.store user group path dir deref).Good fs.store :=
  (walkPath_spec wf user group path deref live fun _ none => absurd none (Multiset.notMem_zero _)).2

theorem settle_root {α : Type} (wf : WellFormed fs) (good : outcome.Good fs.store)
    {call : Act (Int × Int)} {fs' : Fs} (ran : call fs' = outcome.settle fs (0 ::ₘ held))
    (next : Int × Int → Act α) :
    (call >>= fun found => refsClose 0 >>= fun res => assert (res = 0) >>= fun _ => next found) fs' =
      (outcome.settle fs held >>= fun result => next result.1 result.2) := by
  have close (held : Multiset Int) : refsClose 0 (fs.holding (0 ::ₘ held)) = .ok (0,fs.holding held) :=
    wf.close wf.root.live
  cases outcome with
  | found last current =>
    have order : current ::ₘ last ::ₘ 0 ::ₘ held = 0 ::ₘ current ::ₘ last ::ₘ held := by
      rw [Multiset.cons_swap last,Multiset.cons_swap current]
    rw [Outcome.settle,order] at ran
    rw [act_bind ran,act_bind (close _),act_bind (assert_true rfl)]
    rfl
  | absent dir why answer =>
    rw [Outcome.settle,Multiset.cons_swap] at ran
    rw [act_bind ran,act_bind (close _),act_bind (assert_true rfl)]
    rfl
  | lost why answer leak =>
    rw [Outcome.settle,Multiset.add_cons] at ran
    rw [act_bind ran,act_bind (close _),act_bind (assert_true rfl)]
    rfl
  | crash why =>
    rw [act_stop ran]
    rfl

omit [Geometry] in
theorem root_nonneg (nonneg : ∀ inode ∈ held, 0 ≤ inode) : ∀ inode ∈ 0 ::ₘ held, 0 ≤ inode := by
  intro inode member
  rcases Multiset.mem_cons.mp member with rfl | member
  · exact le_rfl
  · exact nonneg inode member

section
variable (wf : WellFormed fs) (nonneg : ∀ inode ∈ held, 0 ≤ inode)
include wf nonneg

theorem namei_some (live : LiveDir fs.store dir) :
    namei path (some dir) eof deref user group (fs.holding (dir ::ₘ held)) =
      (walkPath fs.store user group path dir deref).settle fs held := by
  obtain ⟨ran,good⟩ := walkPath_spec wf user group path deref live (root_nonneg nonneg)
  have named : ¬dir = eof := fun same => absurd live.nonneg (by rw [same]; decide)
  rw [namei]
  simp only [if_true,Option.getD_some,if_neg named]
  rw [act_bind (wf.open wf.root.live),act_bind (assert_true rfl),Multiset.cons_swap,
    settle_root wf good ran]
  simp only [reduceCtorEq,if_false]
  cases walkPath fs.store user group path dir deref <;> rfl

theorem namei_eof : namei path (some eof) eof deref user group (fs.holding held) =
    (walkPath fs.store user group path 0 deref).settle fs held := by
  obtain ⟨ran,good⟩ := walkPath_spec wf user group path deref wf.root (root_nonneg nonneg)
  rw [namei]
  simp only [if_true,Option.getD_some]
  rw [act_bind (wf.open wf.root.live),act_bind (assert_true rfl),act_bind (wf.open wf.root.live),
    act_bind (assert_true rfl),settle_root wf good ran]
  simp only [reduceCtorEq,if_false]
  cases walkPath fs.store user group path 0 deref <;> rfl

/-- What is returned and held where `namei` has no pointer to leave the directory in. -/
noncomputable def Outcome.alone (fs : Fs) (held : Multiset Int) : Outcome → Try ((Int × Int) × Fs)
  | .found last current => .ok ((current,last),fs.holding (current ::ₘ held))
  | .absent dir _ answer => .ok ((answer,dir),fs.holding held)
  | .lost _ _ _ | .crash _ => .error (.abort ())

theorem namei_none : namei path none eof deref user group (fs.holding held) =
    (walkPath fs.store user group path 0 deref).alone fs held := by
  obtain ⟨ran,good⟩ := walkPath_spec wf user group path deref wf.root (root_nonneg nonneg)
  rw [namei]
  simp only [if_true,Option.getD_none]
  rw [act_bind (wf.open wf.root.live),act_bind (assert_true rfl),act_bind (wf.open wf.root.live),
    act_bind (assert_true rfl),settle_root wf good ran]
  generalize walkPath fs.store user group path 0 deref = outcome at good ⊢
  cases outcome with
  | found last current =>
    rw [Outcome.settle,ok_bind,Multiset.cons_swap,act_bind (wf.close good.1.live),
      act_bind (assert_true rfl)]
    rfl
  | absent dir why answer =>
    rw [Outcome.settle,ok_bind,act_bind (wf.close good.1.live),act_bind (assert_true rfl)]
    rfl
  | lost why answer leak =>
    have all : ∀ inode ∈ leak + held, 0 ≤ inode := fun inode member =>
      (Multiset.mem_add.mp member).elim (fun leaked => (good.2 inode leaked).nonneg) (nonneg inode)
    rw [Outcome.settle,ok_bind,act_bind (wf.close_eof all),act_stop (assert_false (by decide))]
    rfl
  | crash why => rfl

end

end

end CandyFs
