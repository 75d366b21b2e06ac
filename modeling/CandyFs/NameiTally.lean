import CandyFs.Path
import CandyFs.Tally

/-! How often `namei` reads a symbolic link. `namei_rec` gets its level by value, so the links that
are followed inside an expansion are forgotten behind it; a path may follow twice as many of them as
each of its expansions may.
-/
namespace CandyFs
open Bytes Tally

abbrev Tallied := Tally Fs (Fault Unit)

variable [Geometry]

def countedSingle (nameiRec : Name → Int → Nat → Tallied (Int × Int)) (token : Name) (curdir : Int)
    (user group : Nat) (deref : Bool) (level : Nat) : Tallied (Int × Int × Nat × Nat) := do
  let res ← lift (reading (.ok <| permCheck · curdir permExec user group))
  if res < 0 then pure (res,curdir,0,level)
  else do
    let current ← lift (refsDirLookupOpen curdir token)
    if current < 0 then pure (current,curdir,0,level)
    else match ← lift (getinfo current) with
      | none => pure (-eNOENT,curdir,0,level)
      | some info =>
        if deref = true ∧ sISLNK info.mode then do
          let (count,buffer) ← call (reading (.ok <| symlinkRead · current (fun _ => 0) pathMax))
          lift (assert (count ≥ 0))
          let res ← lift (refsClose current)
          lift (assert (res = 0))
          let linkpath ← lift (reading fun _ => bufferString buffer)
          let (current,curdir) ← nameiRec linkpath curdir (level + 1)
          match ← lift (getinfo current) with
            | none => pure (-eNOENT,curdir,0,level + 1)
            | some info => pure (current,curdir,info.mode,level + 1)
        else pure (current,curdir,info.mode,level)

def countedLoop (nameiRec : Name → Int → Nat → Tallied (Int × Int)) (deref : Bool) (user group : Nat) :
    List Name → Int → Int → Nat → Tallied (Int × Int)
  | [],current,curdir,_ => pure (current,curdir)
  | [token],current,curdir,level =>
    if token = [] then pure (current,curdir)
    else do
      let res ← lift (refsClose curdir)
      lift (assert (res = 0))
      let curdir := current
      let (current,curdir,_,_) ← countedSingle nameiRec token curdir user group deref level
      if current < 0 then pure (eof,curdir)
      else pure (current,curdir)
  | token :: rest,current,curdir,level =>
    if token = [] then countedLoop nameiRec deref user group rest current curdir level
    else do
      let res ← lift (refsClose curdir)
      lift (assert (res = 0))
      let curdir := current
      let (current,curdir,mode,level) ← countedSingle nameiRec token curdir user group true level
      if current < 0 then do
        let res ← lift (refsClose curdir)
        lift (assert (res = 0))
        pure (current,eof)
      else if ¬sISDIR mode then do
        let res ← lift (refsClose curdir)
        lift (assert (res = 0))
        pure (-eNOTDIR,eof)
      else countedLoop nameiRec deref user group rest current curdir level

def countedRec (rootdir : Int) (user group : Nat) :
    Nat → Name → Int → Bool → Nat → Tallied (Int × Int)
  | 0,_,_,_,_ => lift fun _ => .error .stuck
  | fuel + 1,path,curdir,deref,level =>
    if level > levelMax then pure (-eLOOP,curdir)
    else do
      let current := curdir
      let res ← lift (refsOpen current)
      if res ≠ 0 then pure (-eNOENT,curdir)
      else if path.head? = some slash then do
        let res ← lift (refsClose current)
        lift (assert (res = 0))
        let res ← lift (refsClose curdir)
        lift (assert (res = 0))
        let current := rootdir
        let curdir := rootdir
        let res ← lift (refsOpen current)
        lift (assert (res = 0))
        let res ← lift (refsOpen curdir)
        lift (assert (res = 0))
        countedLoop (fun path curdir level => countedRec rootdir user group fuel path curdir true level)
          deref user group (pieces path.tail) current curdir level
      else
        countedLoop (fun path curdir level => countedRec rootdir user group fuel path curdir true level)
          deref user group (pieces path) current curdir level

def countedNamei (path : Name) (curdir : Option Int) (rootdir : Int) (deref : Bool)
    (user group : Nat) : Tallied (Int × Int) := do
  let usemyroot := rootdir = eof
  let rootdir := if usemyroot then 0 else rootdir
  if usemyroot then do
    let res ← lift (refsOpen rootdir)
    lift (assert (res = 0))
  let usemycurdir := curdir = none
  let curdir := curdir.getD eof
  let start := if curdir = eof then rootdir else curdir
  if curdir = eof then do
    let res ← lift (refsOpen start)
    lift (assert (res = 0))
  let (result,curdir) ← countedRec rootdir user group nameiFuel path start deref 0
  if usemyroot then do
    let res ← lift (refsClose rootdir)
    lift (assert (res = 0))
  if usemycurdir then do
    let res ← lift (refsClose curdir)
    lift (assert (res = 0))
  pure (result,curdir)

section
variable {counted : Name → Int → Nat → Tallied (Int × Int)} {uncounted : Name → Int → Nat → Act (Int × Int)}
  {token : Name} {current curdir rootdir : Int} {user group level : Nat} {deref : Bool}

theorem countedSingle_tells (same : ∀ path curdir level,
      Tells (counted path curdir level) (uncounted path curdir level)) :
    Tells (countedSingle counted token curdir user group deref level)
      (nameiInternalSingle uncounted token curdir user group deref level) := by
  refine (tells_lift _).bind fun res => ?_
  split
  · exact tells_pure _
  · refine (tells_lift _).bind fun current => ?_
    split
    · exact tells_pure _
    · refine (tells_lift _).bind fun info => ?_
      cases info with
      | none => exact tells_pure _
      | some info =>
        dsimp only
        split
        · refine (tells_call _).bind fun read => (tells_lift _).bind fun _ =>
            (tells_lift _).bind fun res => (tells_lift _).bind fun _ => (tells_lift _).bind fun linkpath =>
            (same _ _ _).bind fun found => (tells_lift _).bind fun info => ?_
          cases info with
          | none => exact tells_pure _
          | some info => exact tells_pure _
        · exact tells_pure _

theorem countedLoop_tells (same : ∀ path curdir level,
      Tells (counted path curdir level) (uncounted path curdir level))
    (tokens : List Name) : ∀ current curdir level,
    Tells (countedLoop counted deref user group tokens current curdir level)
      (nameiLoop uncounted deref user group tokens current curdir level) := by
  induction tokens with
  | nil => exact fun current curdir level => tells_pure _
  | cons token rest ih =>
    intro current curdir level
    cases rest with
    | nil =>
      rw [countedLoop,nameiLoop]
      split
      · exact tells_pure _
      · refine (tells_lift _).bind fun res => (tells_lift _).bind fun _ =>
          (countedSingle_tells same).bind fun found => ?_
        dsimp only
        split
        · exact tells_pure _
        · exact tells_pure _
    | cons next rest =>
      rw [countedLoop,nameiLoop]
      · split
        · exact ih _ _ _
        · refine (tells_lift _).bind fun res => (tells_lift _).bind fun _ =>
            (countedSingle_tells same).bind fun found => ?_
          dsimp only
          split
          · exact (tells_lift _).bind fun res => (tells_lift _).bind fun _ => tells_pure _
          · split
            · exact (tells_lift _).bind fun res => (tells_lift _).bind fun _ => tells_pure _
            · exact ih _ _ _
      · exact List.cons_ne_nil _ _
      · exact List.cons_ne_nil _ _

theorem countedRec_tells (fuel : Nat) : ∀ path curdir deref level,
    Tells (countedRec rootdir user group fuel path curdir deref level)
      (nameiRec rootdir user group fuel path curdir deref level) := by
  induction fuel with
  | zero => exact fun _ _ _ _ => tells_lift _
  | succ fuel ih =>
    intro path curdir deref level
    have loop (tokens : List Name) (current curdir : Int) : Tells
        (countedLoop (fun path curdir level => countedRec rootdir user group fuel path curdir true level)
          deref user group tokens current curdir level)
        (nameiLoop (fun path curdir level => nameiRec rootdir user group fuel path curdir true level)
          deref user group tokens current curdir level) :=
      countedLoop_tells (fun path curdir level => ih path curdir true level) tokens current curdir level
    rw [countedRec,nameiRec]
    split
    · exact tells_pure _
    · refine (tells_lift _).bind fun res => ?_
      split
      · exact tells_pure _
      · split
        · exact (tells_lift _).bind fun _ => (tells_lift _).bind fun _ => (tells_lift _).bind fun _ =>
            (tells_lift _).bind fun _ => (tells_lift _).bind fun _ => (tells_lift _).bind fun _ =>
            (tells_lift _).bind fun _ => (tells_lift _).bind fun _ => loop _ _ _
        · exact loop _ _ _

theorem countedNamei_tells (path : Name) (curdir : Option Int) (rootdir : Int) (deref : Bool)
    (user group : Nat) :
    Tells (countedNamei path curdir rootdir deref user group)
      (namei path curdir rootdir deref user group) := by
  unfold countedNamei namei
  dsimp only
  split_ifs <;> repeat first
    | exact tells_pure _
    | refine (tells_lift _).bind fun _ => ?_
    | refine (countedRec_tells _ _ _ _ _).bind fun _ => ?_

end

section
variable {α β : Type} {s : Store} {directory : Int} {name : Name} {block : Block} {node : Node}

/-- It returns or fails an assertion. -/
def Ends (run : Act α) : Prop := ∀ fs fault, run fs = .error fault → fault ≠ .stuck

omit [Geometry] in
theorem Ends.bind {first : Act α} {next : α → Act β} (one : Ends first) (two : ∀ value, Ends (next value)) :
    Ends (first >>= next) := by
  intro fs fault ran
  change (first fs >>= fun result => next result.1 result.2) = _ at ran
  cases out : first fs with
  | error fault' =>
    rw [out] at ran
    exact Except.error.inj ran ▸ one fs fault' out
  | ok result =>
    rw [out] at ran
    exact two _ _ _ ran

omit [Geometry] in
theorem ok_ends {value : α} : (.ok value : Try α) ≠ .error .stuck := fun same => nomatch same

omit [Geometry] in
theorem ends_pure (value : α) : Ends (pure value) := fun _ _ ran => nomatch ran

omit [Geometry] in
theorem ends_assert (condition : Prop) [Decidable condition] : Ends (assert condition) := by
  intro fs fault ran
  unfold assert check at ran
  split at ran
  · cases ran
  · cases ran
    exact fun same => nomatch same

omit [Geometry] in
theorem ends_reading {call : Store → Try α} (ends : ∀ s, call s ≠ .error .stuck) : Ends (reading call) := by
  intro fs fault ran
  unfold reading at ran
  cases out : call fs.store with
  | error fault' =>
    rw [out] at ran
    cases ran
    rintro rfl
    exact ends fs.store out
  | ok result =>
    rw [out] at ran
    cases ran

omit [Geometry] in
theorem ends_refsOpen (inode : Int) : Ends (refsOpen inode) := by
  intro fs fault ran
  unfold refsOpen at ran
  dsimp only at ran
  split at ran
  · cases ran
  · split at ran <;> cases ran

theorem ends_refsClose (inode : Int) : Ends (refsClose inode) := by
  intro fs fault ran
  unfold refsClose at ran
  dsimp only at ran
  split at ran
  · cases ran
  · split at ran
    · split at ran <;> cases ran
    · cases ran

theorem strlen_ends (block : Block) (nameoff : Nat) : DirMapBlock.strlen block nameoff ≠ .error .stuck := by
  unfold DirMapBlock.strlen
  split
  · exact ok_ends
  · exact fun same => nomatch same

theorem scanBlock_ends (n : Nat) : ∀ i nameoff, scanBlock block name n i nameoff ≠ .error .stuck := by
  induction n with
  | zero => exact fun _ _ => ok_ends
  | succ n ih =>
    intro i nameoff
    rw [scanBlock]
    split
    · exact ok_ends
    · cases measured : DirMapBlock.strlen block nameoff with
      | error fault =>
        rintro ⟨⟩
        exact strlen_ends block nameoff measured
      | ok curlen =>
        rw [ok_bind]
        split
        · exact ok_ends
        · exact ih _ _

theorem dirLookupLoop_ends (named : s.inode directory = some node) (fuel : Nat) : ∀ (pos : Int) block,
    node.size ≤ pos + fuel * blocksize →
    dirLookupLoop s directory name (fuel + 1) pos block ≠ .error .stuck := by
  have large := blocksize_large
  induction fuel with
  | zero =>
    intro pos block enough
    have behind : s.inodeRead directory pos block blocksize = (0,block) := by
      simp only [Store.inodeRead,named]
      rw [if_pos (by omega)]
    rw [dirLookupLoop,behind]
    exact ok_ends
  | succ fuel ih =>
    intro pos block enough
    rw [dirLookupLoop]
    dsimp only
    split
    · cases scanned : scanBlock (s.inodeRead directory pos block blocksize).2 name
          entriesPerDirBlock 0 0 with
      | error fault =>
        rintro ⟨⟩
        exact scanBlock_ends _ _ _ scanned
      | ok scan =>
        rw [ok_bind]
        cases scan with
        | hit i nameoff => exact ok_ends
        | done i nameoff =>
          refine ih _ _ ?_
          push_cast at enough
          linarith
    · exact ok_ends

theorem dirLookup_ends (s : Store) (directory : Int) (name : Name) :
    dirLookup s directory name ≠ .error .stuck := by
  unfold dirLookup
  split
  · exact ok_ends
  · rename_i info named
    split
    · exact ok_ends
    · split
      · exact ok_ends
      · refine dirLookupLoop_ends named _ _ _ ?_
        have large := blocksize_large
        have parts : info.size.toNat < info.size.toNat / blocksize * blocksize + blocksize :=
          Nat.lt_div_mul_add (by omega)
        have low := Int.self_le_toNat info.size
        push_cast
        have : ((info.size.toNat : Nat) : Int) < (info.size.toNat / blocksize * blocksize + blocksize : Nat) := by
          exact_mod_cast parts
        push_cast at this
        linarith

theorem ends_refsDirLookupOpen (directory : Int) (name : Name) : Ends (refsDirLookupOpen directory name) := by
  refine (ends_reading fun s => dirLookup_ends s directory name).bind fun out => ?_
  split
  · exact ends_pure _
  · refine (ends_refsOpen out).bind fun ores => ?_
    split
    · exact ends_pure _
    · exact ends_pure _

omit [Geometry] in
theorem bufferString_ends (buffer : Block) : bufferString buffer ≠ .error .stuck := by
  unfold bufferString
  split
  · exact ok_ends
  · exact fun same => nomatch same

end

/-- How often links may be read at a level: a link leads to the next level, and behind it the level
is the next one as well. -/
def linkBudget (level : Nat) : Nat := 2 ^ (levelMax + 1 - level) - 1

omit [Geometry] in
theorem linkBudget_next {level : Nat} (low : level ≤ levelMax) :
    linkBudget level = linkBudget (level + 1) + linkBudget (level + 1) + 1 := by
  have parts : levelMax + 1 - level = levelMax + 1 - (level + 1) + 1 := by omega
  have pos : 0 < 2 ^ (levelMax + 1 - (level + 1)) := Nat.two_pow_pos _
  rw [linkBudget,linkBudget,parts,Nat.pow_succ]
  omega

abbrev Halts (fault : Fault Unit) : Prop := fault ≠ .stuck

/-- A resolution at a level above `floor` pays with the budget of its level, and beyond the last
level it finds nothing. -/
def RecPays (floor : Nat) (counted : Name → Int → Nat → Tallied (Int × Int)) : Prop :=
  ∀ path curdir level, floor < level → level ≤ levelMax + 1 →
    Pays Halts (linkBudget level) (counted path curdir level)
      (fun found => levelMax < level → found.1 < 0) (fun _ => 0)

section
variable {counted : Name → Int → Nat → Tallied (Int × Int)} {token : Name}
  {current curdir rootdir : Int} {user group floor level budget : Nat} {deref : Bool} {α β : Type}
  {next : α → Tallied β} {fact : β → Prop} {left : β → Nat}

omit [Geometry] in
theorem Ends.pays {run : Act α} (ends : Ends run) (rest : ∀ value, Pays Halts budget (next value) fact left) :
    Pays Halts budget (lift run >>= next) fact left :=
  Pays.bind (pays_lift (fun _ _ _ _ => trivial) ends) fun value (_ : True) => rest value

theorem countedSingle_pays (rec : RecPays floor counted) (above : floor ≤ level) (low : level ≤ levelMax) :
    Pays Halts (linkBudget level) (countedSingle counted token curdir user group deref level)
      (fun found => 0 ≤ found.1 → floor ≤ found.2.2.2 ∧ found.2.2.2 ≤ levelMax)
      (fun found => if found.1 < 0 then 0 else linkBudget found.2.2.2) := by
  have refused : (-eNOENT : Int) < 0 := by decide
  refine (ends_reading fun s => ok_ends).pays fun res => ?_
  split
  · rename_i negative
    exact pays_pure (fun nonneg => absurd negative (by exact not_lt.mpr nonneg)) (by simp [negative])
  · refine (ends_refsDirLookupOpen _ _).pays fun current => ?_
    split
    · rename_i negative
      exact pays_pure (fun nonneg => absurd negative (not_lt.mpr nonneg)) (by simp [negative])
    · refine Ends.pays (fun _ _ same => nomatch same) fun info => ?_
      cases info with
      | none => exact pays_pure (fun nonneg => absurd refused (not_lt.mpr nonneg)) (by simp)
      | some info =>
        dsimp only
        split
        · rw [linkBudget_next low]
          refine Pays.bind (pays_call (ends_reading fun s => ok_ends)) fun read _ => ?_
          refine (ends_assert _).pays fun _ => (ends_refsClose _).pays fun res =>
            (ends_assert _).pays fun _ => ?_
          refine (ends_reading fun _ => bufferString_ends _).pays fun linkpath => ?_
          -- the expansion takes one half of the budget, and what comes after it the other
          refine Pays.bind ((rec linkpath curdir (level + 1) (by omega) (by omega)).frame _) fun found deep => ?_
          refine Ends.pays (fun _ _ same => nomatch same) fun info => ?_
          cases info with
          | none => exact pays_pure (fun nonneg => absurd refused (not_lt.mpr nonneg)) (by simp)
          | some info =>
            refine pays_pure (fun nonneg => ⟨by dsimp only; omega,?_⟩) (by dsimp only; split <;> omega)
            by_contra high
            exact absurd (deep (by dsimp only at high; omega)) (not_lt.mpr nonneg)
        · exact pays_pure (fun _ => ⟨above,low⟩) (by dsimp only; split <;> omega)

theorem closed_pays (inode : Int) (value : Int × Int) :
    Pays Halts budget (do
      let res ← lift (refsClose inode)
      lift (assert (res = 0))
      pure value : Tallied (Int × Int)) (fun found => found = value) (fun _ => 0) :=
  (ends_refsClose inode).pays fun _ => (ends_assert _).pays fun _ => pays_pure rfl (Nat.zero_le _)

theorem countedLoop_pays (rec : RecPays floor counted) (tokens : List Name) : ∀ current curdir level,
    floor ≤ level → level ≤ levelMax → Pays Halts (linkBudget level)
      (countedLoop counted deref user group tokens current curdir level) (fun _ => True) (fun _ => 0) := by
  induction tokens with
  | nil => exact fun _ _ _ _ _ => pays_pure trivial (Nat.zero_le _)
  | cons token rest ih =>
    intro current curdir level above low
    cases rest with
    | nil =>
      rw [countedLoop]
      split
      · exact pays_pure trivial (Nat.zero_le _)
      · refine (ends_refsClose _).pays fun res => (ends_assert _).pays fun _ => ?_
        refine Pays.bind (countedSingle_pays rec above low) fun found _ => ?_
        dsimp only
        split
        · exact pays_pure trivial (Nat.zero_le _)
        · exact pays_pure trivial (Nat.zero_le _)
    | cons next rest =>
      rw [countedLoop]
      · split
        · exact ih _ _ _ above low
        · refine (ends_refsClose _).pays fun res => (ends_assert _).pays fun _ => ?_
          refine Pays.bind (countedSingle_pays rec above low) fun found level' => ?_
          dsimp only
          split
          · exact (closed_pays _ _).weaken le_rfl (fun _ _ => trivial) fun _ _ => le_rfl
          · rename_i nonneg
            split
            · exact (closed_pays _ _).weaken le_rfl (fun _ _ => trivial) fun _ _ => le_rfl
            · obtain ⟨above',low'⟩ := level' (not_lt.mp nonneg)
              exact ih _ _ _ above' low'
      · exact List.cons_ne_nil _ _

theorem countedRec_pays (fuel : Nat) : ∀ path curdir deref level,
    level ≤ levelMax + 1 → levelMax + 2 ≤ level + fuel →
    Pays Halts (linkBudget level) (countedRec rootdir user group fuel path curdir deref level)
      (fun found => levelMax < level → found.1 < 0) (fun _ => 0) := by
  induction fuel with
  | zero =>
    intro path curdir deref level high enough
    omega
  | succ fuel ih =>
    intro path curdir deref level high enough
    rw [countedRec]
    split
    · exact pays_pure (fun _ => (by decide : -eLOOP < 0)) (Nat.zero_le _)
    · rename_i low
      have low : level ≤ levelMax := not_lt.mp low
      have nested : RecPays level fun path curdir level =>
          countedRec rootdir user group fuel path curdir true level :=
        fun path curdir level' above high' => ih path curdir true level' high' (by omega)
      have loop (tokens : List Name) (current curdir : Int) : Pays Halts (linkBudget level)
          (countedLoop (fun path curdir level => countedRec rootdir user group fuel path curdir true level)
            deref user group tokens current curdir level)
          (fun found => levelMax < level → found.1 < 0) (fun _ => 0) :=
        (countedLoop_pays nested tokens current curdir level le_rfl low).weaken le_rfl
          (fun _ _ high => absurd high (not_lt.mpr low)) fun _ _ => le_rfl
      refine (ends_refsOpen _).pays fun res => ?_
      split
      · exact pays_pure (fun high => absurd high (not_lt.mpr low)) (Nat.zero_le _)
      · split
        · refine (ends_refsClose _).pays fun _ => (ends_assert _).pays fun _ => ?_
          refine (ends_refsClose _).pays fun _ => (ends_assert _).pays fun _ => ?_
          refine (ends_refsOpen _).pays fun _ => (ends_assert _).pays fun _ => ?_
          refine (ends_refsOpen _).pays fun _ => (ends_assert _).pays fun _ => ?_
          exact loop _ _ _
        · exact loop _ _ _

theorem countedNamei_pays (path : Name) (curdir : Option Int) (rootdir : Int) (deref : Bool)
    (user group : Nat) : Pays Halts (linkBudget 0)
    (countedNamei path curdir rootdir deref user group) (fun _ => True) (fun _ => 0) := by
  unfold countedNamei
  dsimp only
  have run (rootdir start : Int) : Pays Halts (linkBudget 0)
      (countedRec rootdir user group nameiFuel path start deref 0) (fun _ => True) (fun _ => 0) :=
    (countedRec_pays nameiFuel path start deref 0 (Nat.zero_le _) le_rfl).weaken le_rfl
      (fun _ _ => trivial) fun _ _ => le_rfl
  split_ifs <;> repeat first
    | exact pays_pure trivial (Nat.zero_le _)
    | refine (ends_refsOpen _).pays fun _ => ?_
    | refine (ends_refsClose _).pays fun _ => ?_
    | refine (ends_assert _).pays fun _ => ?_
    | refine Pays.bind (run _ _) fun _ _ => ?_

end

/-- `namei` ends, however its links are bent, and reads at most `2 ^ 9 - 1` of them. -/
theorem namei_ends (path : Name) (curdir : Option Int) (rootdir : Int) (deref : Bool)
    (user group : Nat) (fs : Fs) : ∃ run count, countedNamei path curdir rootdir deref user group fs 0 =
        (run,count) ∧ namei path curdir rootdir deref user group fs = run ∧ run ≠ .error .stuck ∧
      count ≤ 511 := by
  have most : linkBudget 0 = 511 := by decide
  have pays := countedNamei_pays path curdir rootdir deref user group
  have same := countedNamei_tells path curdir rootdir deref user group fs 0
  have error := pays.error fs 0
  have ok := pays.ok fs 0
  generalize countedNamei path curdir rootdir deref user group fs 0 = out at same error ok ⊢
  obtain ⟨run,count⟩ := out
  refine ⟨run,count,rfl,same.symm,fun stuck => (error _ stuck).1 rfl,?_⟩
  cases run with
  | error fault =>
    have paid := (error _ rfl).2
    rwa [most,Nat.zero_add] at paid
  | ok found =>
    have paid := (ok _ _ rfl).2
    rwa [most,Nat.zero_add,Nat.add_zero] at paid

end CandyFs
