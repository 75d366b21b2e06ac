import CandyFs.DirMap

/-! Runs of calls on a directory: it stays the finite map that the calls make of it, and listing it,
in one go or in several, yields each binding once.
-/
namespace CandyFs

variable [Geometry]

/-- The filler of `candy_readdir`, by the entries it has taken already; it returns 0 to take one. -/
abbrev Filler := List (Name × Int) → Name → Int → Int

/-- Returns an error or 0, and what the filler has taken: names and offsets. -/
def candyReaddirLoop (s : Store) (fh : Int) (filler : Filler) :
    Nat → Int → List (Name × Int) → Try (Int × List (Name × Int))
  | 0,_,_ => .error .stuck
  | fuel + 1,off,taken => do
    let (off,_,name) ← dirEnumerate s fh off (nameMax + 1)
    if off < 0 then .ok (off,taken)
    else if off ≠ 0 ∧ filler taken name off = 0 then
      candyReaddirLoop s fh filler fuel off (taken ++ [(name,off)])
    else .ok (0,taken)

def candyReaddir (s : Store) (fh : Int) (filler : Filler) (fuel : Nat) (off : Int) :
    Try (Int × List (Name × Int)) := candyReaddirLoop s fh filler fuel off []

/-- Calls of `candy_readdir`, each from the offset of the last entry taken so far. -/
def listing (s : Store) (fh : Int) (fuel : Nat) : List Filler → Int → Try (List (Name × Int))
  | [],_ => .ok []
  | filler :: rest,off => do
    let (_,taken) ← candyReaddir s fh filler fuel off
    let more ← listing s fh fuel rest ((taken.getLast?.map (·.2)).getD off)
    .ok (taken ++ more)

/-- `dir_enumerate` from one offset to the next until it returns 0. -/
def enumerateAll (s : Store) (directory : Int) : Nat → Int → Try (List Binding)
  | 0,_ => .error .stuck
  | fuel + 1,offset => do
    let (offset,number,name) ← dirEnumerate s directory offset (nameMax + 1)
    if offset = 0 then .ok []
    else do
      let rest ← enumerateAll s directory fuel offset
      .ok ((name,number) :: rest)

section
variable {s : Store} {directory : Int} {node : Node} {blocks : List (List Binding)} {name : Name}
  {target : Int} {fuel : Nat}

theorem rowsFrom_sorted {k : Nat} (fits : ∀ es ∈ blocks, BlockFits es) :
    (rowsFrom k blocks).Pairwise (·.1 < ·.1) := by
  induction blocks generalizing k with
  | nil => exact List.Pairwise.nil
  | cons es rest ih =>
    rw [rowsFrom,List.pairwise_append]
    refine ⟨?_,ih fun es member => fits es (List.mem_cons_of_mem _ member),?_⟩
    · rw [List.pairwise_map,List.pairwise_iff_getElem]
      intro i j low high less
      simp only [List.getElem_zipIdx]
      omega
    · intro row member row' member'
      obtain ⟨e,inside,rfl⟩ := List.mem_map.mp member
      have place := List.snd_lt_of_mem_zipIdx inside
      have count := (fits es List.mem_cons_self).count
      have low := rowsFrom_low member'
      rw [Nat.succ_mul] at low
      dsimp only
      omega

/-- The rows are cut by an offset: all before it, then all from it on. -/
structure Cut (rows done rest : List (Nat × Binding)) (offset : Nat) : Prop where
  split : rows = done ++ rest
  before : ∀ row ∈ done, row.1 < offset
  behind : ∀ row ∈ rest, offset ≤ row.1

omit [Geometry] in
theorem Cut.next_none {rows done : List (Nat × Binding)} {offset : Nat} (cut : Cut rows done [] offset) :
    nextRow rows offset = (0,0,[]) := by
  have none : rows.find? (fun row => offset ≤ row.1) = none := by
    rw [cut.split,List.append_nil]
    exact List.find?_eq_none.mpr fun row member => by simpa using cut.before row member
  rw [nextRow,none]

omit [Geometry] in
theorem Cut.next_row {rows done rest : List (Nat × Binding)} {place offset : Nat} {e : Binding}
    (cut : Cut rows done ((place,e) :: rest) offset) :
    nextRow rows offset = (((place + 1 : Nat) : Int),e.2,e.1) := by
  have none : done.find? (fun row => offset ≤ row.1) = none :=
    List.find?_eq_none.mpr fun row member => by simpa using cut.before row member
  rw [nextRow,cut.split,List.find?_append,none,Option.none_or,List.find?_cons_of_pos
    (by simpa using cut.behind _ List.mem_cons_self)]

omit [Geometry] in
theorem Cut.step {rows done rest : List (Nat × Binding)} {place offset : Nat} {e : Binding}
    (sorted : rows.Pairwise (·.1 < ·.1)) (cut : Cut rows done ((place,e) :: rest) offset) :
    Cut rows (done ++ [(place,e)]) rest (place + 1) where
  split := by rw [cut.split,List.append_assoc,List.singleton_append]
  before := by
    intro row member
    rcases List.mem_append.mp member with member | member
    · have := cut.before row member
      have := cut.behind _ List.mem_cons_self
      dsimp only at this
      omega
    · obtain rfl := List.mem_singleton.mp member
      exact Nat.lt_succ_self _
  behind := by
    intro row member
    rw [cut.split] at sorted
    exact (List.pairwise_cons.mp (List.pairwise_append.mp sorted).2.1).1 row member

theorem cut_start (blocks : List (List Binding)) : Cut (rowsFrom 0 blocks) [] (rowsFrom 0 blocks) 0 :=
  ⟨rfl,nofun,fun _ _ => Nat.zero_le _⟩

theorem Directory.offset_small (dir : Directory s directory node blocks) {offset : Nat}
    (le : offset ≤ blocks.length * entriesPerDirBlock) :
    offset / entriesPerDirBlock * blocksize < 2 ^ 63 := by
  have top := dir.top
  have large := entriesPerDirBlock_large
  have limit := maxFilesize_lt
  rw [dir.shown.size] at top
  have row : offset / entriesPerDirBlock ≤ blocks.length :=
    Nat.div_le_of_le_mul (by rw [Nat.mul_comm]; exact le)
  have := Nat.mul_le_mul_right blocksize row
  have : blocks.length * blocksize ≤ maxFilesize := by exact_mod_cast top
  omega

theorem Cut.offset_le {done rest : List (Nat × Binding)} {place offset : Nat} {e : Binding}
    (fits : ∀ es ∈ blocks, BlockFits es) (cut : Cut (rowsFrom 0 blocks) done ((place,e) :: rest) offset) :
    place + 1 ≤ blocks.length * entriesPerDirBlock := by
  have member : (place,e) ∈ rowsFrom 0 blocks := by
    rw [cut.split]
    simp
  have := rowsFrom_high fits member
  rwa [Nat.zero_add] at this

theorem enumerateAll_spec (dir : Directory s directory node blocks) (rest : List (Nat × Binding)) :
    ∀ (done : List (Nat × Binding)) (offset fuel : Nat), Cut (rowsFrom 0 blocks) done rest offset →
      offset ≤ blocks.length * entriesPerDirBlock → rest.length < fuel →
      enumerateAll s directory fuel offset = .ok (rest.map (·.2)) := by
  induction rest with
  | nil =>
    intro done offset fuel cut le enough
    obtain ⟨fuel,rfl⟩ : ∃ m, fuel = m + 1 := ⟨fuel - 1,by omega⟩
    rw [enumerateAll,dirEnumerate_spec dir (dir.offset_small le),cut.next_none]
    rfl
  | cons row rest ih =>
    obtain ⟨place,e⟩ := row
    intro done offset fuel cut le enough
    rw [List.length_cons] at enough
    obtain ⟨fuel,rfl⟩ : ∃ m, fuel = m + 1 := ⟨fuel - 1,by omega⟩
    rw [enumerateAll,dirEnumerate_spec dir (dir.offset_small le),cut.next_row,ok_bind]
    dsimp only
    rw [if_neg (by omega),ih _ _ _ (cut.step (rowsFrom_sorted dir.fits)) (cut.offset_le dir.fits)
      (by omega)]
    rfl

theorem candyReaddirLoop_spec (dir : Directory s directory node blocks) (filler : Filler)
    (rest : List (Nat × Binding)) : ∀ (done : List (Nat × Binding)) (offset fuel : Nat)
      (taken : List (Name × Int)), Cut (rowsFrom 0 blocks) done rest offset →
      offset ≤ blocks.length * entriesPerDirBlock → rest.length < fuel →
      ∃ more later, rest = more ++ later ∧
        candyReaddirLoop s directory filler fuel offset taken =
          .ok (0,taken ++ more.map fun row => (row.2.1,((row.1 + 1 : Nat) : Int))) ∧
        ((∀ taken name off, filler taken name off = 0) → later = []) := by
  induction rest with
  | nil =>
    intro done offset fuel taken cut le enough
    obtain ⟨fuel,rfl⟩ : ∃ m, fuel = m + 1 := ⟨fuel - 1,by omega⟩
    refine ⟨[],[],rfl,?_,fun _ => rfl⟩
    rw [candyReaddirLoop,dirEnumerate_spec dir (dir.offset_small le),cut.next_none]
    simp
  | cons row rest ih =>
    obtain ⟨place,e⟩ := row
    intro done offset fuel taken cut le enough
    rw [List.length_cons] at enough
    obtain ⟨fuel,rfl⟩ : ∃ m, fuel = m + 1 := ⟨fuel - 1,by omega⟩
    rw [candyReaddirLoop,dirEnumerate_spec dir (dir.offset_small le),cut.next_row,ok_bind]
    dsimp only
    rw [if_neg (by omega)]
    by_cases takes : filler taken e.1 (place + 1 : Nat) = 0
    · rw [if_pos ⟨by omega,takes⟩]
      obtain ⟨more,later,split,ran,all⟩ := ih _ _ fuel (taken ++ [(e.1,((place + 1 : Nat) : Int))])
        (cut.step (rowsFrom_sorted dir.fits)) (cut.offset_le dir.fits) (by omega)
      exact ⟨(place,e) :: more,later,by rw [split,List.cons_append],by rw [ran]; simp,all⟩
    · rw [if_neg fun both => takes both.2]
      exact ⟨[],(place,e) :: rest,rfl,by simp,fun all => absurd (all _ _ _) takes⟩

/-- The offset behind the last of some rows. -/
def offsetBehind (rows : List (Nat × Binding)) (offset : Nat) : Nat :=
  (rows.getLast?.map (·.1 + 1)).getD offset

omit [Geometry] in
theorem Cut.advance {rows more later : List (Nat × Binding)} (sorted : rows.Pairwise (·.1 < ·.1)) :
    ∀ {done : List (Nat × Binding)} {offset : Nat}, Cut rows done (more ++ later) offset →
      Cut rows (done ++ more) later (offsetBehind more offset) := by
  induction more with
  | nil =>
    intro done offset cut
    rw [List.append_nil]
    exact cut
  | cons row more ih =>
    intro done offset cut
    have next := ih (cut.step sorted)
    rw [List.append_assoc,List.singleton_append] at next
    have same : offsetBehind (row :: more) offset = offsetBehind more (row.1 + 1) := by
      cases last : more.getLast? <;> simp [offsetBehind,List.getLast?_cons,last]
    rw [same]
    exact next

theorem Cut.behind_le {done more later : List (Nat × Binding)} {offset : Nat}
    (fits : ∀ es ∈ blocks, BlockFits es) (cut : Cut (rowsFrom 0 blocks) done (more ++ later) offset)
    (le : offset ≤ blocks.length * entriesPerDirBlock) :
    offsetBehind more offset ≤ blocks.length * entriesPerDirBlock := by
  rw [offsetBehind]
  cases last : more.getLast? with
  | none => exact le
  | some row =>
    have member : row ∈ rowsFrom 0 blocks := by
      rw [cut.split]
      simp [List.mem_of_getLast? last]
    have := rowsFrom_high fits member
    rw [Nat.zero_add] at this
    exact this

/-- Calls of `candy_readdir` that follow on each other, the last one with a filler that takes
everything, list the rows that are left. -/
theorem listing_spec (dir : Directory s directory node blocks) (fillers : List Filler) :
    ∀ (done rest : List (Nat × Binding)) (offset fuel : Nat), Cut (rowsFrom 0 blocks) done rest offset →
      offset ≤ blocks.length * entriesPerDirBlock → rest.length < fuel →
      listing s directory fuel (fillers ++ [fun _ _ _ => 0]) offset =
        .ok (rest.map fun row => (row.2.1,((row.1 + 1 : Nat) : Int))) := by
  induction fillers with
  | nil =>
    intro done rest offset fuel cut le enough
    obtain ⟨more,later,rfl,ran,all⟩ :=
      candyReaddirLoop_spec dir (fun _ _ _ => 0) rest done offset fuel [] cut le enough
    obtain rfl := all fun _ _ _ => rfl
    rw [List.nil_append,listing,candyReaddir,ran,ok_bind]
    simp [listing]
  | cons filler fillers ih =>
    intro done rest offset fuel cut le enough
    obtain ⟨more,later,rfl,ran,_⟩ :=
      candyReaddirLoop_spec dir filler rest done offset fuel [] cut le enough
    have next : ((((more.map fun row => (row.2.1,((row.1 + 1 : Nat) : Int))).getLast?).map
        (·.2)).getD (offset : Int)) = (offsetBehind more offset : Nat) := by
      rw [List.getLast?_map,offsetBehind]
      cases more.getLast? <;> rfl
    rw [List.length_append] at enough
    rw [List.cons_append,listing,candyReaddir,ran,ok_bind]
    dsimp only
    rw [List.nil_append,next,ih _ _ _ fuel (cut.advance (rowsFrom_sorted dir.fits))
      (cut.behind_le dir.fits le) (by omega),ok_bind,← List.map_append]

inductive DirCall where
  | insert (name : Name) (target : Int)
  | remove (name : Name)

def DirCall.run (s : Store) (directory : Int) : DirCall → Try (Int × Store)
  | .insert name target => dirInsert s directory name target
  | .remove name => dirRemove s directory name

def DirCall.Proper : DirCall → Prop
  | .insert name target => GoodName name ∧ GoodTarget target
  | .remove name => GoodName name

abbrev Bindings := Name → Option Int

/-- What a call may return, and what it leaves of the store and the map. -/
inductive DirStep (directory : Int) (s : Store) (m : Bindings) :
    DirCall → Int → Store → Bindings → Prop where
  | exist {name : Name} {target : Int} (bound : m name ≠ none) :
      DirStep directory s m (.insert name target) (-eEXIST) s m
  | nospace {name : Name} {target : Int} (free : m name = none) :
      DirStep directory s m (.insert name target) (-eNOSPC) s m
  | inserted {name : Name} {target : Int} {s' : Store} (free : m name = none)
      (others : ∀ n, n ≠ directory → s'.inode n = s.inode n) :
      DirStep directory s m (.insert name target) 0 s' (Function.update m name (some target))
  | self : DirStep directory s m (.remove dot) (-eINVAL) s m
  | up : DirStep directory s m (.remove dotdot) (-eNOTEMPTY) s m
  | absent {name : Name} (free : m name = none) :
      DirStep directory s m (.remove name) (-eNOENT) s m
  | removed {name : Name} {target : Int} {s' : Store} (named : name ≠ dot ∧ name ≠ dotdot)
      (bound : m name = some target) (others : ∀ n, n ≠ directory → s'.inode n = s.inode n) :
      DirStep directory s m (.remove name) target s' (Function.update m name none)

/-- A run of calls on a directory and what the map goes through. -/
inductive DirRun (directory : Int) : Store → Bindings → List DirCall → Store → Bindings → Prop where
  | nil {s : Store} {m : Bindings} : DirRun directory s m [] s m
  | cons {s s1 s' : Store} {m m1 m' : Bindings} {call : DirCall} {calls : List DirCall} {res : Int}
      (ran : call.run s directory = .ok (res,s1)) (step : DirStep directory s m call res s1 m1)
      (rest : DirRun directory s1 m1 calls s' m') : DirRun directory s m (call :: calls) s' m'

/-- What looking up and listing say about a directory is the map. -/
structure ReadsMap (s : Store) (directory : Int) (m : Bindings) : Prop where
  lookup : ∀ name, GoodName name → dirLookup s directory name = .ok ((m name).getD (-eNOENT))
  list : ∃ entries : List Binding, (entries.map (·.1)).Nodup ∧
    (∀ name target, (name,target) ∈ entries ↔ m name = some target) ∧
    ∀ fuel, entries.length < fuel → enumerateAll s directory fuel 0 = .ok entries ∧
      ∀ fillers : List Filler, ∃ taken, listing s directory fuel (fillers ++ [fun _ _ _ => 0]) 0 = .ok taken ∧
        taken.map (·.1) = entries.map (·.1)

/-- A directory that holds the map. -/
structure HoldsMap (s : Store) (directory parent : Int) (m : Bindings) : Prop where
  ok : ∃ node blocks, DirOk s directory node blocks parent ∧ ∀ name, m name = blocks.flatten.lookup name

theorem HoldsMap.unique {parent parent' : Int} {m m' : Bindings} (h : HoldsMap s directory parent m)
    (h' : HoldsMap s directory parent' m') : parent = parent' ∧ m = m' := by
  obtain ⟨node,blocks,ok,same⟩ := h.ok
  obtain ⟨node',blocks',ok',same'⟩ := h'.ok
  obtain ⟨rfl,rfl⟩ := ok.toDirectory.unique ok'.toDirectory
  obtain ⟨rest,tail,start⟩ := ok.start
  obtain ⟨rest',tail',start'⟩ := ok'.start
  rw [start,List.cons_eq_cons] at start'
  have head := congrArg (List.lookup dotdot) start'.1
  refine ⟨by simpa [dots,List.lookup_cons] using head,?_⟩
  funext name
  rw [same,same']

theorem HoldsMap.carry {s' : Store} {parent : Int} {m : Bindings} (h : HoldsMap s directory parent m)
    (carried : ∀ node, s.inode directory = some node → ∃ node', s'.inode directory = some node' ∧
      node'.mode &&& sIFMT = node.mode &&& sIFMT ∧ node'.size = node.size ∧
      ∀ a, node'.byte a = node.byte a) : HoldsMap s' directory parent m := by
  obtain ⟨node,blocks,ok,same⟩ := h.ok
  obtain ⟨node',named,mode,size,bytes⟩ := carried node ok.named
  refine ⟨node',blocks,⟨⟨named,?_,⟨size.trans ok.shown.size,?_⟩,ok.fits,?_⟩,ok.start,ok.distinct⟩,same⟩
  · exact mode.trans ok.isDir
  · exact fun a inside => (bytes a).trans (ok.shown.bytes a inside)
  · exact size ▸ ok.top

theorem HoldsMap.reads {parent : Int} {m : Bindings} (h : HoldsMap s directory parent m) :
    ReadsMap s directory m := by
  obtain ⟨node,blocks,ok,same⟩ := h.ok
  have values : (rowsFrom 0 blocks).map (·.2) = blocks.flatten := map_snd_rowsFrom
  have length : (rowsFrom 0 blocks).length = blocks.flatten.length := by
    rw [← values,List.length_map]
  refine ⟨fun name good => ?_,blocks.flatten,ok.distinct,fun name target => ?_,fun fuel enough => ⟨?_,?_⟩⟩
  · rw [dirLookup_spec ok.toDirectory good.short,same]
  · rw [same,lookup_iff ok.distinct]
  · rw [← values]
    exact enumerateAll_spec ok.toDirectory _ [] 0 fuel (cut_start blocks) (Nat.zero_le _) (by omega)
  · intro fillers
    refine ⟨_,listing_spec ok.toDirectory fillers [] _ 0 fuel (cut_start blocks) (Nat.zero_le _)
      (by omega),?_⟩
    rw [← values,List.map_map,List.map_map]
    rfl

theorem refile_other {node' : Node} (n : Int) (differ : n ≠ directory) :
    (s.refile directory node node').inode n = s.inode n := Store.set_inode_ne _ _ _ differ

omit [Geometry] in
theorem lookup_inserted {m : Bindings} {blocks' : List (List Binding)}
    (distinct : (blocks.flatten.map (·.1)).Nodup) (distinct' : (blocks'.flatten.map (·.1)).Nodup)
    (same : ∀ name, m name = blocks.flatten.lookup name) (free : m name = none)
    (perm : blocks'.flatten.Perm ((name,target) :: blocks.flatten)) (other : Name) :
    Function.update m name (some target) other = blocks'.flatten.lookup other := by
  apply Option.ext
  intro number
  rw [lookup_iff distinct',perm.mem_iff,List.mem_cons,Prod.mk.injEq,← lookup_iff distinct,← same]
  by_cases this : other = name
  · subst this
    rw [Function.update_self,free]
    simp [eq_comm]
  · rw [Function.update_of_ne this]
    simp [this]

omit [Geometry] in
theorem lookup_removed {m : Bindings} {blocks' : List (List Binding)}
    (distinct : (blocks.flatten.map (·.1)).Nodup) (distinct' : (blocks'.flatten.map (·.1)).Nodup)
    (same : ∀ name, m name = blocks.flatten.lookup name)
    (perm : blocks.flatten.Perm ((name,target) :: blocks'.flatten)) (other : Name) :
    Function.update m name none other = blocks'.flatten.lookup other := by
  have gone : name ∉ blocks'.flatten.map (·.1) := by
    rw [(perm.map (·.1)).nodup_iff,List.map_cons,List.nodup_cons] at distinct
    exact distinct.1
  apply Option.ext
  intro number
  by_cases this : other = name
  · subst this
    rw [Function.update_self,lookup_none_iff.mpr gone]
  · rw [Function.update_of_ne this,same,lookup_iff distinct,lookup_iff distinct',perm.mem_iff,
      List.mem_cons,Prod.mk.injEq]
    simp [this]

theorem HoldsMap.step {parent : Int} {m : Bindings} (h : HoldsMap s directory parent m) (call : DirCall)
    (proper : call.Proper) : ∃ res s' m', call.run s directory = .ok (res,s') ∧
      DirStep directory s m call res s' m' ∧ HoldsMap s' directory parent m' := by
  have h' := h
  obtain ⟨node,blocks,ok,same⟩ := h
  cases call with
  | insert name target =>
    obtain ⟨good,target'⟩ := proper
    obtain ⟨res,s',ran,inserted⟩ := dirInsert_spec ok.toDirectory ok.some good target
    rcases inserted.keeps ok good target' with ⟨rfl,⟨rfl,bound⟩ | ⟨rfl,free⟩⟩ |
        ⟨rfl,free,blocks',rfl,ok',perm,_⟩
    · exact ⟨_,_,m,ran,.exist (by rwa [same]),h'⟩
    · exact ⟨_,_,m,ran,.nospace (by rwa [same]),h'⟩
    · have free : m name = none := by rw [same]; exact free
      exact ⟨_,_,_,ran,.inserted free refile_other,
        ⟨_,blocks',ok',lookup_inserted ok.distinct ok'.distinct same free perm⟩⟩
  | remove name =>
    by_cases self : name = dot
    · subst self
      exact ⟨_,_,m,dirRemove_dot ok.toDirectory ok.some,.self,h'⟩
    by_cases up : name = dotdot
    · subst up
      exact ⟨_,_,m,dirRemove_dotdot ok.toDirectory ok.some,.up,h'⟩
    obtain ⟨res,s',ran,removed⟩ := dirRemove_spec ok.toDirectory ok.some proper ⟨self,up⟩
    rcases removed.keeps ok ⟨self,up⟩ with ⟨rfl,rfl,free⟩ | ⟨bound,blocks',rfl,ok',perm,_⟩
    · exact ⟨_,_,m,ran,.absent (by rw [same]; exact free),h'⟩
    · exact ⟨_,_,_,ran,.removed ⟨self,up⟩ (by rw [same]; exact bound) refile_other,
        ⟨_,blocks',ok',lookup_removed ok.distinct ok'.distinct same perm⟩⟩

/-- The map of a new directory. -/
def newBindings (parent directory : Int) : Bindings := fun name =>
  (dots parent directory).lookup name

theorem Created.holds {parent : Int} {s0 : Store} (h : Created s parent directory s0)
    (sound : s.Sound) (up : GoodTarget parent) (made : 0 ≤ directory) :
    HoldsMap s0 directory parent (newBindings parent directory) := by
  have top : (([dots parent directory].length : Int) * blocksize) ≤ maxFilesize := by
    rw [List.length_singleton,Nat.cast_one,one_mul]
    exact_mod_cast Nat.le_mul_of_pos_left blocksize firstUnreachableBlock_pos
  cases h with
  | none _ => exact absurd made (by decide)
  | undone _ _ _ _ => exact absurd made (by decide)
  | made _ rest first room =>
    refine ⟨_,_,⟨⟨Store.adopt_inode_self,?_,showsDir_showing,?_,top⟩,⟨[],[],by simp⟩,?_⟩,?_⟩
    · exact (by decide : sISDIR (sIFDIR ||| 0o777))
    · intro es member
      obtain rfl := List.mem_singleton.mp member
      exact blockFits_dots up (sound_target sound first).2
    · simp [dots,dot,dotdot]
    · simp [newBindings]

theorem HoldsMap.run {parent : Int} (calls : List DirCall) :
    ∀ {s : Store} {m : Bindings}, HoldsMap s directory parent m → (∀ call ∈ calls, call.Proper) →
      ∃ s' m', DirRun directory s m calls s' m' ∧ HoldsMap s' directory parent m' := by
  induction calls with
  | nil => exact fun h _ => ⟨_,_,.nil,h⟩
  | cons call calls ih =>
    intro s m h proper
    obtain ⟨res,s1,m1,ran,step,h1⟩ := h.step call (proper call List.mem_cons_self)
    obtain ⟨s',m',rest,h'⟩ := ih h1 fun other member => proper other (List.mem_cons_of_mem _ member)
    exact ⟨s',m',.cons ran step rest,h'⟩

/-- A directory is the finite map that the calls on it make of the two bindings it starts with. -/
theorem directory_is_map {parent : Int} {s0 : Store} (sound : s.Sound) (up : GoodTarget parent)
    (ran : dirCreate s parent = .ok (directory,s0)) (made : 0 ≤ directory) (calls : List DirCall)
    (proper : ∀ call ∈ calls, call.Proper) : ∃ s' m',
      DirRun directory s0 (newBindings parent directory) calls s' m' ∧ ReadsMap s' directory m' := by
  obtain ⟨res,s1,ran',created⟩ := dirCreate_spec sound parent
  rw [ran,Except.ok.injEq,Prod.mk.injEq] at ran'
  obtain ⟨rfl,rfl⟩ := ran'
  obtain ⟨s',m',run,h⟩ := (created.holds sound up made).run calls proper
  exact ⟨s',m',run,h.reads⟩

end

end CandyFs

/-! A directory in a store of a few blocks. -/
namespace CandyFs
attribute [local instance] Geometry.small

def tinyStore : Store := ⟨fun _ => none,44,[0,1,2],12,fun _ => 0,[]⟩

theorem tinyStore_sound : tinyStore.Sound where
  used := nofun
  free := by decide
  nodup := by decide
  fits := by decide

def tinyDirCalls : List DirCall :=
  [.insert [97] 5,.insert [97] 6,.insert [98] 7,.remove [97],.remove [97],.remove dot]

theorem tinyDirCalls_proper : ∀ call ∈ tinyDirCalls, call.Proper := by
  have target (n : Int) (low : 0 ≤ n) (high : n < 8) : GoodTarget n :=
    ⟨⟨by omega,by omega⟩,ne_eof low⟩
  have one (c : UInt8) (some : c ≠ 0) : GoodName [c] :=
    ⟨nofun,by simp,fun member => some (List.mem_singleton.mp member).symm⟩
  simp only [tinyDirCalls,List.forall_mem_cons,DirCall.Proper,dot]
  exact ⟨⟨one _ (by decide),target _ (by omega) (by omega)⟩,
    ⟨one _ (by decide),target _ (by omega) (by omega)⟩,
    ⟨one _ (by decide),target _ (by omega) (by omega)⟩,
    one _ (by decide),one _ (by decide),one _ (by decide),
    fun _ none => absurd none List.not_mem_nil⟩

theorem directory_is_map_tiny : ∃ directory s0 s' m', dirCreate tinyStore 0 = .ok (directory,s0) ∧
    DirRun directory s0 (newBindings 0 directory) tinyDirCalls s' m' ∧ ReadsMap s' directory m' := by
  have made : (match dirCreate tinyStore 0 with
      | .ok (directory,_) => decide (0 ≤ directory)
      | .error _ => false) = true := by decide +kernel
  split at made
  · rename_i directory s0 ran
    obtain ⟨s',m',run,reads⟩ := directory_is_map tinyStore_sound ⟨⟨by decide,by decide⟩,by decide⟩ ran
      (of_decide_eq_true made) tinyDirCalls tinyDirCalls_proper
    exact ⟨directory,s0,s',m',ran,run,reads⟩
  · cases made

end CandyFs
