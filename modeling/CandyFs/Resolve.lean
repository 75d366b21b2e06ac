import CandyFs.Walk

/-! The resolution of a path that `namei` is to find, and that it finds no other and every one that
follows no more than eight links.
-/
namespace CandyFs
open Bytes

variable [Geometry]

section
variable (s : Store) (user group : Nat)

/-- The user may search the directory. -/
def Search (directory : Int) : Prop := 0 ≤ permCheck s directory permExec user group

/-- The directory has an entry for the inode. -/
def HasEntry (directory : Int) (token : Name) (inode : Int) : Prop :=
  dirLookup s directory token = .ok inode ∧ 0 ≤ inode

instance (directory : Int) : Decidable (Search s user group directory) :=
  inferInstanceAs (Decidable (_ ≤ _))

instance (directory : Int) (token : Name) (inode : Int) : Decidable (HasEntry s directory token inode) :=
  inferInstanceAs (Decidable (_ ∧ _))

/-- Where the walk of a path starts. -/
def startDir (path : Name) (directory : Int) : Int :=
  if path.head? = some slash then 0 else directory

/-- The parts of a path lead from one pair of a last directory and a current inode to another, and
so many links are followed. -/
inductive Resolves : Bool → List Name → Int × Int → Int × Int → Nat → Prop where
  | stop {deref : Bool} {last current : Int} : Resolves deref [[]] (last,current) (last,current) 0
  | skip {deref : Bool} {rest : List Name} {pair result : Int × Int} {links : Nat} (more : rest ≠ [])
      (resolved : Resolves deref rest pair result links) : Resolves deref ([] :: rest) pair result links
  | enter {deref : Bool} {token : Name} {rest : List Name} {last current next : Int}
      {result : Int × Int} {links : Nat} (named : token ≠ []) (more : rest ≠ [])
      (search : Search s user group current) (names : HasEntry s current token next)
      (plain : ¬s.isLink next) (isDir : s.isDir next)
      (resolved : Resolves deref rest (current,next) result links) :
      Resolves deref (token :: rest) (last,current) result links
  | follow {deref : Bool} {token : Name} {rest : List Name} {last current link last' next : Int}
      {result : Int × Int} {links links' : Nat} (named : token ≠ []) (more : rest ≠ [])
      (search : Search s user group current) (names : HasEntry s current token link)
      (isLink : s.isLink link)
      (expanded : Resolves true (pieces (s.linkpath link))
        (startDir (s.linkpath link) current,startDir (s.linkpath link) current) (last',next) links)
      (isDir : s.isDir next) (resolved : Resolves deref rest (last',next) result links') :
      Resolves deref (token :: rest) (last,current) result (links + 1 + links')
  | last {deref : Bool} {token : Name} {last current next : Int} (named : token ≠ [])
      (search : Search s user group current) (names : HasEntry s current token next)
      (plain : ¬(deref = true ∧ s.isLink next)) :
      Resolves deref [token] (last,current) (current,next) 0
  | expand {token : Name} {last current link : Int} {result : Int × Int} {links : Nat}
      (named : token ≠ []) (search : Search s user group current) (names : HasEntry s current token link)
      (isLink : s.isLink link)
      (expanded : Resolves true (pieces (s.linkpath link))
        (startDir (s.linkpath link) current,startDir (s.linkpath link) current) result links) :
      Resolves true [token] (last,current) result (links + 1)

/-- The resolution of a path from a directory. -/
def ResolvesPath (path : Name) (directory : Int) (deref : Bool) (result : Int × Int) (links : Nat) :
    Prop :=
  Resolves s user group deref (pieces path) (startDir path directory,startDir path directory) result links

end

section
variable {s : Store} {user group level fuel links : Nat} {deref : Bool} {path token : Name}
  {dir current last next rootdir : Int} {tokens : List Name} {pair : Int × Int}
  {walk : Name → Int → Nat → Outcome}

omit [Geometry] in
theorem pieces_ne_nil : pieces path ≠ [] := List.splitOn_ne_nil _ _

omit [Geometry] in
theorem pieces_absolute (absolute : path.head? = some slash) : pieces path = [] :: pieces path.tail := by
  cases path with
  | nil => cases absolute
  | cons c rest =>
    obtain rfl : c = slash := Option.some.inj absolute
    rw [pieces,List.splitOn_cons_eq_if_modifyHead,if_pos (beq_self_eq_true slash)]
    rfl

theorem hasEntry_lookup (nonneg : 0 ≤ next) (found : s.lookup dir token = next) : HasEntry s dir token next := by
  rw [Store.lookup] at found
  split at found
  · rename_i target looked
    rw [found] at looked
    exact ⟨looked,nonneg⟩
  · rw [← found] at nonneg
    exact absurd nonneg (by decide)

theorem HasEntry.lookup (names : HasEntry s dir token next) : s.lookup dir token = next := by
  rw [Store.lookup,names.1]

theorem walkLoop_cons {rest : List Name} (more : rest ≠ []) :
    walkLoop s user group walk deref (token :: rest) current dir level =
      if token = [] then walkLoop s user group walk deref rest current dir level
      else match (walkSingle s user group walk token current true level).1 with
        | .found last next =>
          if s.isDir next then walkLoop s user group walk deref rest next last
            (walkSingle s user group walk token current true level).2
          else .lost (-eNOTDIR) (-eNOTDIR) {next}
        | .absent _ why answer => .lost why answer 0
        | .lost why _ _ => .crash why
        | .crash why => .crash why := by
  cases rest with
  | nil => exact absurd rfl more
  | cons next rest => rfl

theorem walkStart (path : Name) (dir : Int) (level : Nat) :
    (if path.head? = some slash then walkLoop s user group walk deref (pieces path.tail) 0 0 level
      else walkLoop s user group walk deref (pieces path) dir dir level) =
    walkLoop s user group walk deref (pieces path) (startDir path dir) (startDir path dir) level := by
  rw [startDir]
  split
  · rename_i absolute
    rw [pieces_absolute absolute]
    rw [walkLoop_cons pieces_ne_nil,if_pos rfl]
  · rfl

/-- What a single part leads to. -/
inductive Leads (s : Store) (user group : Nat) (walk : Name → Int → Nat → Outcome) (token : Name)
    (dir : Int) (deref : Bool) (level : Nat) (last next : Int) : Prop where
  | plain (same : last = dir) (plain : ¬(deref = true ∧ s.isLink next))
      (names : HasEntry s dir token next)
  | link (link : Int) (follow : deref = true) (isLink : s.isLink link)
      (names : HasEntry s dir token link)
      (found : walk (s.linkpath link) dir (level + 1) = .found last next)

theorem walkSingle_found (found : (walkSingle s user group walk token dir deref level).1 = .found last next) :
    Search s user group dir ∧ Leads s user group walk token dir deref level last next := by
  rw [walkSingle] at found
  dsimp only at found
  split at found
  · cases found
  rename_i search
  split at found
  · cases found
  rename_i bound
  have names := hasEntry_lookup (not_lt.mp bound) rfl
  refine ⟨not_lt.mp search,?_⟩
  split at found
  · rename_i follow
    refine .link _ follow.1 follow.2 names ?_
    dsimp only at found
    generalize walk (s.linkpath (s.lookup dir token)) dir (level + 1) = outcome at found ⊢
    cases outcome with
    | found last' next' => exact found
    | absent dir why answer => cases found
    | lost why answer leak => cases found
    | crash why => cases found
  · rename_i plain
    cases found
    exact .plain rfl plain names

theorem walkLoop_sound
    (sub : ∀ path dir level last next, walk path dir level = .found last next →
      ∃ links, ResolvesPath s user group path dir true (last,next) links) (tokens : List Name) :
    ∀ {current dir : Int} {level : Nat}, tokens ≠ [] →
      walkLoop s user group walk deref tokens current dir level = .found last next →
      ∃ links, Resolves s user group deref tokens (dir,current) (last,next) links := by
  induction tokens with
  | nil => exact fun some => absurd rfl some
  | cons token rest ih =>
    intro current dir level _ found
    cases rest with
    | nil =>
      rw [walkLoop] at found
      by_cases empty : token = []
      · rw [if_pos empty] at found
        cases found
        subst empty
        exact ⟨0,.stop⟩
      · rw [if_neg empty] at found
        have single : (walkSingle s user group walk token current deref level).1 = .found last next := by
          generalize (walkSingle s user group walk token current deref level).1 = outcome at found ⊢
          cases outcome with
          | found last' next' => exact found
          | absent dir why answer => cases found
          | lost why answer leak => cases found
          | crash why => cases found
        obtain ⟨search,leads⟩ := walkSingle_found single
        cases leads with
        | plain same plain names =>
          subst same
          exact ⟨0,.last empty search names plain⟩
        | link link follow isLink names inner =>
          subst follow
          obtain ⟨links,resolved⟩ := sub _ _ _ _ _ inner
          exact ⟨links + 1,.expand empty search names isLink resolved⟩
    | cons next' rest =>
      rw [walkLoop_cons (List.cons_ne_nil next' rest)] at found
      by_cases empty : token = []
      · rw [if_pos empty] at found
        obtain ⟨links,resolved⟩ := ih (List.cons_ne_nil _ _) found
        subst empty
        exact ⟨links,.skip (List.cons_ne_nil _ _) resolved⟩
      rw [if_neg empty] at found
      cases single : (walkSingle s user group walk token current true level).1 with
      | found last1 next1 =>
        rw [single] at found
        dsimp only at found
        split at found
        · rename_i isDir
          obtain ⟨search,leads⟩ := walkSingle_found single
          obtain ⟨links',resolved⟩ := ih (List.cons_ne_nil _ _) found
          cases leads with
          | plain same plain names =>
            subst same
            exact ⟨links',.enter empty (List.cons_ne_nil _ _) search names (fun link => plain ⟨rfl,link⟩) isDir resolved⟩
          | link link follow isLink names inner =>
            obtain ⟨links,expanded⟩ := sub _ _ _ _ _ inner
            exact ⟨_,.follow empty (List.cons_ne_nil _ _) search names isLink expanded isDir resolved⟩
        · cases found
      | absent dir why answer =>
        rw [single] at found
        cases found
      | lost why answer leak =>
        rw [single] at found
        cases found
      | crash why =>
        rw [single] at found
        cases found

theorem walkRec_sound (fuel : Nat) : ∀ {path : Name} {dir : Int} {deref : Bool} {level : Nat} {last next : Int},
    walkRec s user group 0 fuel path dir deref level = .found last next →
      ∃ links, ResolvesPath s user group path dir deref (last,next) links := by
  induction fuel with
  | zero => exact nofun
  | succ fuel ih =>
    intro path dir deref level last next found
    rw [walkRec] at found
    split at found
    · cases found
    · dsimp only at found
      rw [walkStart] at found
      exact walkLoop_sound (fun path dir level last next inner => ih inner) _ pieces_ne_nil found

theorem walkSingle_plain (search : Search s user group dir) (names : HasEntry s dir token next)
    (plain : ¬(deref = true ∧ s.isLink next)) :
    walkSingle s user group walk token dir deref level = (.found dir next,level) := by
  rw [walkSingle]
  dsimp only
  rw [if_neg (not_lt.mpr search),names.lookup,if_neg (not_lt.mpr names.2),if_neg plain]

theorem walkSingle_link (search : Search s user group dir) (names : HasEntry s dir token next)
    (isLink : s.isLink next) :
    walkSingle s user group walk token dir true level =
      ((walk (s.linkpath next) dir (level + 1)).expanded s,level + 1) := by
  rw [walkSingle]
  dsimp only
  rw [if_neg (not_lt.mpr search),names.lookup,if_neg (not_lt.mpr names.2),if_pos ⟨rfl,isLink⟩]

attribute [local irreducible] Store.linkpath

/-- A walk with fewer links than there are levels left finds what the resolution says. -/
theorem Resolves.walked {result : Int × Int} (resolved : Resolves s user group deref tokens pair result links) :
    ∀ {level fuel : Nat}, level + links ≤ levelMax → levelMax ≤ level + fuel →
      walkLoop s user group (fun path dir level => walkRec s user group 0 fuel path dir true level) deref
        tokens pair.2 pair.1 level = .found result.1 result.2 := by
  have expand {path : Name} {dir : Int} {result : Int × Int} {links : Nat}
      (ih : ∀ {level fuel : Nat}, level + links ≤ levelMax → levelMax ≤ level + fuel →
        walkLoop s user group (fun path dir level => walkRec s user group 0 fuel path dir true level) true
          (pieces path) (startDir path dir) (startDir path dir) level = .found result.1 result.2)
      {level fuel : Nat} (few : level + (links + 1) ≤ levelMax) (enough : levelMax ≤ level + fuel) :
      walkRec s user group 0 fuel path dir true (level + 1) = .found result.1 result.2 := by
    obtain ⟨fuel,rfl⟩ : ∃ m, fuel = m + 1 := ⟨fuel - 1,by omega⟩
    rw [walkRec,if_neg (by omega)]
    dsimp only
    rw [walkStart]
    exact ih (by omega) (by omega)
  induction resolved with
  | stop => exact fun _ _ => rfl
  | skip more _ ih =>
    intro level fuel few enough
    rw [walkLoop_cons more,if_pos rfl]
    exact ih few enough
  | enter named more search names plain isDir _ ih =>
    intro level fuel few enough
    rw [walkLoop_cons more,if_neg named,walkSingle_plain search names fun link => plain link.2]
    dsimp only
    rw [if_pos isDir]
    exact ih few enough
  | follow named more search names isLink _ isDir _ inner ih =>
    intro level fuel few enough
    rw [walkLoop_cons more,if_neg named,walkSingle_link search names isLink]
    dsimp only
    rw [expand inner (by omega) enough]
    dsimp only [Outcome.expanded]
    rw [if_pos isDir]
    exact ih (by omega) (by omega)
  | last named search names plain =>
    intro level fuel few enough
    rw [walkLoop,if_neg named,walkSingle_plain search names plain]
    rfl
  | expand named search names isLink _ inner =>
    intro level fuel few enough
    rw [walkLoop,if_neg named,walkSingle_link search names isLink]
    dsimp only
    rw [expand inner few enough]
    rfl

theorem walkPath_sound (found : walkPath s user group path dir deref = .found last next) :
    ∃ links, ResolvesPath s user group path dir deref (last,next) links := walkRec_sound _ found

theorem walkPath_complete {result : Int × Int}
    (resolved : ResolvesPath s user group path dir deref result links) (few : links ≤ levelMax) :
    walkPath s user group path dir deref = .found result.1 result.2 := by
  rw [walkPath,walkRec,if_neg (Nat.not_lt_zero _)]
  dsimp only
  rw [walkStart]
  exact resolved.walked (by omega) (by omega)

/-- An inode number that is returned, with the last directory, is what a path resolves to, and what
it resolves to through no more than eight links is returned. -/
structure Agrees (ran : Try ((Int × Int) × Fs)) (resolves : Int × Int → Nat → Prop) : Prop where
  sound : ∀ next last fs', ran = .ok ((next,last),fs') → 0 ≤ next → ∃ links, resolves (last,next) links
  complete : ∀ next last links, resolves (last,next) links → links ≤ 8 → ∃ fs', ran = .ok ((next,last),fs')

variable {fs : Fs}

theorem settle_agrees {held : Multiset Int} (good : (walkPath fs.store user group path dir deref).Good fs.store) :
    Agrees ((walkPath fs.store user group path dir deref).settle fs held)
      (ResolvesPath fs.store user group path dir deref) where
  sound next last fs' ran nonneg := by
    cases outcome : walkPath fs.store user group path dir deref with
    | found last' next' =>
      rw [outcome] at ran
      cases ran
      exact walkPath_sound outcome
    | absent dir why answer =>
      rw [outcome] at ran good
      cases ran
      exact absurd nonneg (not_le.mpr good.2)
    | lost why answer leak =>
      rw [outcome] at ran good
      cases ran
      exact absurd nonneg (not_le.mpr good.1)
    | crash why =>
      rw [outcome] at ran
      cases ran
  complete next last links resolved few := by
    rw [walkPath_complete resolved few]
    exact ⟨_,rfl⟩

theorem alone_agrees {held : Multiset Int} (good : (walkPath fs.store user group path dir deref).Good fs.store) :
    Agrees ((walkPath fs.store user group path dir deref).alone fs held)
      (ResolvesPath fs.store user group path dir deref) where
  sound next last fs' ran nonneg := by
    cases outcome : walkPath fs.store user group path dir deref with
    | found last' next' =>
      rw [outcome] at ran
      cases ran
      exact walkPath_sound outcome
    | absent dir why answer =>
      rw [outcome] at ran good
      cases ran
      exact absurd nonneg (not_le.mpr good.2)
    | lost why answer leak =>
      rw [outcome] at ran
      cases ran
    | crash why =>
      rw [outcome] at ran
      cases ran
  complete next last links resolved few := by
    rw [walkPath_complete resolved few]
    exact ⟨_,rfl⟩

/-- `namei` agrees with the resolution, from a directory of the caller's and from the root, with a
pointer for the last directory or without. -/
theorem namei_resolves (wf : WellFormed fs) (path : Name) (deref : Bool) (user group : Nat) :
    (∀ dir, LiveDir fs.store dir →
      Agrees (namei path (some dir) eof deref user group (fs.holding {dir}))
        (ResolvesPath fs.store user group path dir deref)) ∧
    Agrees (namei path (some eof) eof deref user group fs)
      (ResolvesPath fs.store user group path 0 deref) ∧
    Agrees (namei path none eof deref user group fs)
      (ResolvesPath fs.store user group path 0 deref) := by
  have nonneg : ∀ inode ∈ (0 : Multiset Int), 0 ≤ inode := fun _ none =>
    absurd none (Multiset.notMem_zero _)
  have good := walkPath_good wf user group path deref wf.root
  refine ⟨fun dir live => ?_,?_,?_⟩
  · rw [← Multiset.cons_zero,namei_some wf nonneg live]
    exact settle_agrees (walkPath_good wf user group path deref live)
  · have ran : namei path (some eof) eof deref user group (fs.holding 0) = _ := namei_eof wf nonneg
    rw [holding_zero] at ran
    rw [ran]
    exact settle_agrees good
  · have ran : namei path none eof deref user group (fs.holding 0) = _ := namei_none wf nonneg
    rw [holding_zero] at ran
    rw [ran]
    exact alone_agrees good

end

end CandyFs

/-! A link to the root in the root. -/
namespace CandyFs
attribute [local instance] Geometry.small

/-- The file `l` is a link to this path. -/
def linkNode (path : Name) : Node :=
  { Store.freshNode with mode := sIFLNK ||| 0o777, nlinks := 1 }.refill path.length (stringBytes path)

def tinyLink : Store := flatStore (rootNode (sIFDIR ||| 0o755) [dots 0 0 ++ [([108],1)]]) [linkNode dot]

theorem tinyLink_flat : Flat tinyLink (sIFDIR ||| 0o755) [([108],1)] [] :=
  flatStore_flat (by decide) (by decide +kernel) (by decide +kernel) (by decide +kernel)
    (by decide +kernel) (by decide) (by decide +kernel)

attribute [local irreducible] Store.linkpath in
theorem namei_resolves_tiny : ∃ fs', namei [47,108] none eof true 5 5 (Fs.closed tinyLink) =
    .ok ((0,0),fs') := by
  have parts : pieces [47,108] = [[],[108]] := by decide
  have target : tinyLink.linkpath 1 = dot := by decide +kernel
  have search : Search tinyLink 5 5 0 := by decide +kernel
  have names : HasEntry tinyLink 0 [108] 1 := by decide +kernel
  have isLink : tinyLink.isLink 1 := by decide +kernel
  have inner : Resolves tinyLink 5 5 true (pieces (tinyLink.linkpath 1))
      (startDir (tinyLink.linkpath 1) 0,startDir (tinyLink.linkpath 1) 0) (0,0) 0 := by
    rw [target]
    exact .last nofun search (by decide +kernel) (by decide +kernel)
  have resolved : ResolvesPath tinyLink 5 5 [47,108] 0 true (0,0) 1 := by
    rw [ResolvesPath,parts]
    exact .skip nofun (.expand nofun search names isLink inner)
  exact (namei_resolves tinyLink_flat.wellFormed [47,108] true 5 5).2.2.complete 0 0 1 resolved
    (by decide)

end CandyFs
