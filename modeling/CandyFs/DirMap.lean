import CandyFs.DirOps

/-! A directory as a finite map from names to inode numbers: what the calls of `dir.c` do to the map,
and that listing a directory yields each of its bindings once.
-/
namespace CandyFs
open Store (Affords cost)

variable [Geometry]

/-- A directory with its first two entries and no name bound twice. -/
structure DirOk (s : Store) (directory : Int) (node : Node) (blocks : List (List Binding))
    (parent : Int) : Prop extends Directory s directory node blocks where
  start : ∃ rest tail, blocks = (dots parent directory ++ rest) :: tail
  distinct : (blocks.flatten.map (·.1)).Nodup

/-- The last block is not an emptied one. -/
def LastUsed (blocks : List (List Binding)) : Prop := blocks.getLast? ≠ some []

section
variable {s s' : Store} {directory parent res : Int} {node : Node}
  {blocks blocks' front : List (List Binding)} {es : List Binding} {name : Name} {target : Int}

omit [Geometry] in
theorem lookup_iff {bindings : List Binding} (distinct : (bindings.map (·.1)).Nodup) :
    bindings.lookup name = some target ↔ (name,target) ∈ bindings := by
  induction bindings with
  | nil => simp
  | cons e rest ih =>
    obtain ⟨other,number⟩ := e
    rw [List.map_cons,List.nodup_cons] at distinct
    rw [List.lookup_cons,List.mem_cons]
    by_cases same : name = other
    · subst same
      have fresh : (name,target) ∉ rest := fun member =>
        distinct.1 (List.mem_map_of_mem (f := (·.1)) member)
      simp [fresh,eq_comm]
    · rw [beq_eq_false_iff_ne.mpr same]
      simp [same,ih distinct.2]

omit [Geometry] in
theorem lookup_none_iff {bindings : List Binding} :
    bindings.lookup name = none ↔ name ∉ bindings.map (·.1) := by
  rw [List.lookup_eq_none_iff,List.mem_map]
  constructor
  · rintro absent ⟨e,member,rfl⟩
    simpa using absent e member
  · intro absent e member
    simpa using fun same : name = e.1 => absent ⟨e,member,same.symm⟩

omit [Geometry] in
theorem flatten_rdropWhile (front : List (List Binding)) :
    (front.rdropWhile List.isEmpty).flatten = front.flatten := by
  induction front using List.reverseRecOn with
  | nil => rfl
  | append_singleton front es ih =>
    cases es with
    | nil => rw [List.rdropWhile_concat_pos _ _ _ rfl,ih,List.flatten_concat,List.append_nil]
    | cons e es => rw [List.rdropWhile_concat_neg _ _ _ (by simp)]

omit [Geometry] in
theorem rdropWhile_first {first : List Binding} (used : first ≠ []) (front : List (List Binding)) :
    ∃ tail, (first :: front).rdropWhile List.isEmpty = first :: tail := by
  obtain ⟨rest,split⟩ := List.rdropWhile_prefix List.isEmpty (first :: front)
  have same := flatten_rdropWhile (first :: front)
  cases kept : (first :: front).rdropWhile List.isEmpty with
  | nil =>
    rw [kept,List.flatten_nil,List.flatten_cons] at same
    exact absurd (List.append_eq_nil_iff.mp same.symm).1 used
  | cons head tail =>
    rw [kept,List.cons_append,List.cons_eq_cons] at split
    exact ⟨tail,by rw [split.1]⟩

omit [Geometry] in
theorem lastUsed_append (es : List Binding) (back : List (List Binding)) :
    LastUsed (front ++ es :: back) ↔ if back = [] then es ≠ [] else LastUsed back := by
  cases back with
  | nil => simp [LastUsed]
  | cons next back => simp [LastUsed,List.getLast?_append,List.getLast?_cons_cons]

omit [Geometry] in
theorem lastUsed_rdropWhile (front : List (List Binding)) : LastUsed (front.rdropWhile List.isEmpty) := by
  intro last
  have used := List.rdropWhile_last_not List.isEmpty front
  rw [List.getLast?_eq_some_iff] at last
  obtain ⟨rest,split⟩ := last
  simp [split] at used

omit [Geometry] in
theorem past_dots {before after rest : List Binding} {number : Int}
    (entries : before ++ (name,number) :: after = dots parent directory ++ rest)
    (named : name ≠ dot ∧ name ≠ dotdot) : ∃ before', before = dots parent directory ++ before' := by
  rcases before with _ | ⟨first,_ | ⟨second,before⟩⟩
  · simp only [dots,List.nil_append,List.cons_append,List.cons_eq_cons,Prod.mk.injEq] at entries
    exact absurd entries.1.1 named.2
  · simp only [dots,List.nil_append,List.cons_append,List.cons_eq_cons,Prod.mk.injEq] at entries
    exact absurd entries.2.1.1 named.1
  · simp only [dots,List.nil_append,List.cons_append,List.cons_eq_cons] at entries
    exact ⟨before,by rw [entries.1,entries.2.1]; rfl⟩

theorem Directory.unique {node' : Node} (dir : Directory s directory node blocks)
    (dir' : Directory s directory node' blocks') : node = node' ∧ blocks = blocks' := by
  have same : node = node' := Option.some.inj (dir.named.symm.trans dir'.named)
  subst same
  have pos := blocksize_pos
  have length : blocks.length = blocks'.length := by
    have size := dir.shown.size
    rw [dir'.shown.size] at size
    have : blocks'.length * blocksize = blocks.length * blocksize := by exact_mod_cast size
    exact (Nat.eq_of_mul_eq_mul_right pos this).symm
  refine ⟨rfl,List.ext_getElem length fun k low high => ?_⟩
  have block {blocks : List (List Binding)} (shown : ShowsDir node blocks) (low : k < blocks.length) :
      Shows (fun j => node.byte (k * blocksize + j)) blocks[k] := fun j inside => by
    have last : k * blocksize + j < blocks.length * blocksize :=
      (Nat.add_lt_add_left inside _).trans_le
        ((Nat.succ_mul k blocksize).symm.le.trans (Nat.mul_le_mul_right _ low))
    have row : (k * blocksize + j) / blocksize = k := by
      rw [Nat.mul_comm,Nat.mul_add_div pos,Nat.div_eq_of_lt inside,Nat.add_zero]
    have column : (k * blocksize + j) % blocksize = j := by
      rw [Nat.mul_comm,Nat.mul_add_mod,Nat.mod_eq_of_lt inside]
    dsimp only
    rw [shown.bytes _ last,dirByte,row,column,List.getD_eq_getElem _ _ low]
  exact (block dir.shown low).unique (block dir'.shown high) (dir.fits _ (List.getElem_mem low))
    (dir'.fits _ (List.getElem_mem high))

theorem DirOk.some (ok : DirOk s directory node blocks parent) : blocks ≠ [] := by
  obtain ⟨_,_,split⟩ := ok.start
  rw [split]
  exact List.cons_ne_nil _ _

theorem Directory.refile (dir : Directory s directory node blocks)
    (fits : ∀ es ∈ blocks', BlockFits es) (top : (blocks'.length * blocksize : Int) ≤ maxFilesize) :
    Directory (s.refile directory node (node.showing blocks')) directory (node.showing blocks')
      blocks' where
  named := Store.set_inode_self ..
  isDir := dir.isDir
  shown := showsDir_showing
  fits := fits
  top := top

theorem DirOk.refile (ok : DirOk s directory node blocks parent)
    (fits : ∀ es ∈ blocks', BlockFits es) (top : (blocks'.length * blocksize : Int) ≤ maxFilesize)
    (start : ∃ rest tail, blocks' = (dots parent directory ++ rest) :: tail)
    (distinct : (blocks'.flatten.map (·.1)).Nodup) :
    DirOk (s.refile directory node (node.showing blocks')) directory (node.showing blocks') blocks'
      parent :=
  ⟨ok.toDirectory.refile fits top,start,distinct⟩

theorem Directory.top_le (dir : Directory s directory node blocks)
    (le : blocks'.length ≤ blocks.length) : (blocks'.length * blocksize : Int) ≤ maxFilesize := by
  have top := dir.top
  rw [dir.shown.size] at top
  have := Nat.mul_le_mul_right blocksize le
  have : (blocks'.length * blocksize : Int) ≤ blocks.length * blocksize := by exact_mod_cast this
  omega

/-- A successful `dir_insert` adds one binding; any other leaves everything as it is. -/
theorem Inserted.keeps (h : Inserted s directory node blocks name target res s')
    (ok : DirOk s directory node blocks parent) (good : GoodName name) (target' : GoodTarget target) :
    (s' = s ∧ (res = -eEXIST ∧ blocks.flatten.lookup name ≠ none ∨
      res = -eNOSPC ∧ blocks.flatten.lookup name = none)) ∨
    (res = 0 ∧ blocks.flatten.lookup name = none ∧ ∃ blocks',
      s' = s.refile directory node (node.showing blocks') ∧
      DirOk s' directory (node.showing blocks') blocks' parent ∧
      blocks'.flatten.Perm ((name,target) :: blocks.flatten) ∧
      (LastUsed blocks → LastUsed blocks')) := by
  have distinct (free : blocks.flatten.lookup name = none) {blocks' : List (List Binding)}
      (perm : blocks'.flatten.Perm ((name,target) :: blocks.flatten)) :
      (blocks'.flatten.map (·.1)).Nodup := by
    rw [(perm.map (·.1)).nodup_iff,List.map_cons,List.nodup_cons]
    exact ⟨lookup_none_iff.mp free,ok.distinct⟩
  cases h with
  | exist bound => exact .inl ⟨rfl,.inl ⟨rfl,bound⟩⟩
  | nospace free full short => exact .inl ⟨rfl,.inr ⟨rfl,free⟩⟩
  | slot front es back split free used room =>
    have perm : (front ++ (es ++ [(name,target)]) :: back).flatten.Perm
        ((name,target) :: blocks.flatten) := by
      rw [split]
      simp only [List.flatten_append,List.flatten_cons,List.append_assoc,List.singleton_append]
      rw [← List.append_assoc,← List.append_assoc front.flatten]
      exact List.perm_middle
    refine .inr ⟨rfl,free,_,rfl,ok.refile (fun es' member => ?_) (ok.top_le (by simp [split])) ?_
      (distinct free perm),perm,fun used => ?_⟩
    · rcases List.mem_append.mp member with member | member
      · exact ok.fits es' (by simp [split,member])
      · rcases List.mem_cons.mp member with rfl | member
        · exact (ok.fits es (by simp [split])).add room good target'
        · exact ok.fits es' (by simp [split,member])
    · obtain ⟨rest,tail,start⟩ := ok.start
      rw [split] at start
      cases front with
      | nil =>
        rw [List.nil_append,List.cons_eq_cons] at start
        exact ⟨rest ++ [(name,target)],back,by simp [start.1]⟩
      | cons first front =>
        rw [List.cons_append,List.cons_eq_cons] at start
        exact ⟨rest,front ++ (es ++ [(name,target)]) :: back,by simp [start.1]⟩
    · rw [split,lastUsed_append] at used
      rw [lastUsed_append]
      split
      · simp
      · rwa [if_neg ‹_›] at used
  | block free full afforded =>
    have perm : (blocks ++ [[(name,target)]]).flatten.Perm ((name,target) :: blocks.flatten) := by
      rw [List.flatten_concat]
      exact List.perm_append_singleton _ _
    have top := afforded.1
    rw [ok.shown.size] at top
    refine .inr ⟨rfl,free,_,rfl,ok.refile (fun es' member => ?_) ?_ ?_ (distinct free perm),perm,
      fun _ => (lastUsed_append _ []).mpr (by simp)⟩
    · rcases List.mem_append.mp member with member | member
      · exact ok.fits es' member
      · obtain rfl := List.mem_singleton.mp member
        exact BlockFits.add blockFits_nil (hasRoom_nil good) good target'
    · rw [List.length_append,List.length_singleton]
      push_cast
      linarith
    · obtain ⟨rest,tail,start⟩ := ok.start
      exact ⟨rest,tail ++ [[(name,target)]],by simp [start]⟩

/-- Removing the row at `place` moves those behind it in its block. -/
def Closes (place : Nat) (rows rows' : List (Nat × Binding)) : Prop :=
  ∀ row ∈ rows', ∃ old, (old,row.2) ∈ rows ∧ (row.1 = old ∨
    row.1 + 1 = old ∧ place < old ∧ place / entriesPerDirBlock = old / entriesPerDirBlock)

theorem mem_rowsFrom {k : Nat} {row : Nat × Binding} : row ∈ rowsFrom k (front ++ es :: back) ↔
    row ∈ rowsFrom k front ∨ (∃ j, es[j]? = some row.2 ∧
      row.1 = (k + front.length) * entriesPerDirBlock + j) ∨
    row ∈ rowsFrom (k + front.length + 1) back := by
  rw [rowsFrom_append,List.mem_append,rowsFrom,List.mem_append,List.mem_map]
  refine or_congr_right (or_congr_left ?_)
  constructor
  · rintro ⟨⟨e,j⟩,member,rfl⟩
    exact ⟨j,List.mem_zipIdx_iff_getElem?.mp member,rfl⟩
  · rintro ⟨j,found,place⟩
    exact ⟨(row.2,j),List.mem_zipIdx_iff_getElem?.mpr found,Prod.ext place.symm rfl⟩

theorem closes_entry {before after : List Binding} {e : Binding} (fits : BlockFits (before ++ e :: after)) :
    (front.length * entriesPerDirBlock + before.length,e) ∈
      rowsFrom 0 (front ++ (before ++ e :: after) :: back) ∧
    Closes (front.length * entriesPerDirBlock + before.length)
      (rowsFrom 0 (front ++ (before ++ e :: after) :: back))
      (rowsFrom 0 (front ++ (before ++ after) :: back)) := by
  have count := fits.count
  rw [List.length_append,List.length_cons] at count
  refine ⟨mem_rowsFrom.mpr (.inr (.inl ⟨before.length,by simp,by rw [Nat.zero_add]⟩)),fun row member => ?_⟩
  obtain member | ⟨j,found,place⟩ | member := mem_rowsFrom.mp member
  · exact ⟨row.1,mem_rowsFrom.mpr (.inl member),.inl rfl⟩
  · rw [Nat.zero_add] at place
    rcases lt_or_ge j before.length with early | late
    · rw [List.getElem?_append_left early] at found
      refine ⟨row.1,mem_rowsFrom.mpr (.inr (.inl ⟨j,?_,by rw [Nat.zero_add]; exact place⟩)),.inl rfl⟩
      rw [List.getElem?_append_left early]
      exact found
    · have inside := (List.getElem?_eq_some_iff.mp found).1
      rw [List.length_append] at inside
      rw [List.getElem?_append_right late] at found
      refine ⟨row.1 + 1,mem_rowsFrom.mpr (.inr (.inl ⟨j + 1,?_,?_⟩)),.inr ⟨rfl,by omega,?_⟩⟩
      · rw [List.getElem?_append_right (by omega),Nat.sub_add_comm late]
        exact found
      · rw [Nat.zero_add]
        dsimp only
        omega
      · have block : ∀ k < entriesPerDirBlock,
            (front.length * entriesPerDirBlock + k) / entriesPerDirBlock = front.length := fun k low => by
          rw [Nat.mul_comm,Nat.mul_add_div (by omega),Nat.div_eq_of_lt low,Nat.add_zero]
        rw [place,Nat.add_assoc,block _ (by omega),block _ (by omega)]
  · exact ⟨row.1,mem_rowsFrom.mpr (.inr (.inr member)),.inl rfl⟩

theorem closes_cut {e : Binding} : (front.length * entriesPerDirBlock,e) ∈ rowsFrom 0 (front ++ [[e]]) ∧
    Closes (front.length * entriesPerDirBlock) (rowsFrom 0 (front ++ [[e]]))
      (rowsFrom 0 (front.rdropWhile List.isEmpty)) := by
  refine ⟨mem_rowsFrom.mpr (.inr (.inl ⟨0,rfl,by rw [Nat.zero_add]; rfl⟩)),fun row member => ?_⟩
  obtain ⟨empties,split⟩ := List.rdropWhile_prefix List.isEmpty front
  refine ⟨row.1,mem_rowsFrom.mpr (.inl ?_),.inl rfl⟩
  rw [← split,rowsFrom_append]
  exact List.mem_append_left _ member

theorem Directory.fits_entry {before after : List Binding} {e : Binding} {back : List (List Binding)}
    (dir : Directory s directory node (front ++ (before ++ e :: after) :: back)) :
    ∀ es ∈ front ++ (before ++ after) :: back, BlockFits es := by
  intro es' member
  rcases List.mem_append.mp member with member | member
  · exact dir.fits es' (by simp [member])
  · rcases List.mem_cons.mp member with rfl | member
    · exact (dir.fits (before ++ e :: after) (by simp)).sub
        ((List.sublist_cons_self e after).append_left before)
    · exact dir.fits es' (by simp [member])

theorem Directory.fits_cut (dir : Directory s directory node (front ++ [es])) :
    ∀ es ∈ front.rdropWhile List.isEmpty, BlockFits es := by
  intro es' member
  have := (List.rdropWhile_prefix List.isEmpty front).subset member
  exact dir.fits es' (by simp [this])

/-- A `dir_remove` that finds the name removes its binding; any other changes nothing. -/
theorem Removed.keeps (h : Removed s directory node blocks name res s')
    (ok : DirOk s directory node blocks parent) (named : name ≠ dot ∧ name ≠ dotdot) :
    (s' = s ∧ res = -eNOENT ∧ blocks.flatten.lookup name = none) ∨
    (blocks.flatten.lookup name = some res ∧ ∃ blocks',
      s' = s.refile directory node (node.showing blocks') ∧
      DirOk s' directory (node.showing blocks') blocks' parent ∧
      blocks.flatten.Perm ((name,res) :: blocks'.flatten) ∧
      (LastUsed blocks → LastUsed blocks') ∧
      ∃ place, (place,(name,res)) ∈ rowsFrom 0 blocks ∧
        Closes place (rowsFrom 0 blocks) (rowsFrom 0 blocks')) := by
  have distinct {blocks' : List (List Binding)}
      (perm : blocks.flatten.Perm ((name,res) :: blocks'.flatten)) :
      (blocks'.flatten.map (·.1)).Nodup := by
    have := ok.distinct
    rw [(perm.map (·.1)).nodup_iff,List.map_cons,List.nodup_cons] at this
    exact this.2
  have found {blocks' : List (List Binding)}
      (perm : blocks.flatten.Perm ((name,res) :: blocks'.flatten)) :
      blocks.flatten.lookup name = some res :=
    (lookup_iff ok.distinct).mpr (perm.mem_iff.mpr List.mem_cons_self)
  obtain ⟨rest,tail,start⟩ := ok.start
  cases h with
  | absent free => exact .inl ⟨rfl,rfl,free⟩
  | entry front before target after back split first absent kept =>
    have perm : blocks.flatten.Perm
        ((name,res) :: (front ++ (before ++ after) :: back).flatten) := by
      rw [split]
      simp only [List.flatten_append,List.flatten_cons,List.append_assoc,List.cons_append]
      rw [← List.append_assoc,← List.append_assoc front.flatten]
      exact List.perm_middle
    refine .inr ⟨found perm,_,rfl,ok.refile (split ▸ ok.toDirectory).fits_entry
      (ok.top_le (by simp [split])) ?_ (distinct perm),perm,fun used => ?_,_,
      split ▸ closes_entry (ok.fits _ (by rw [split]; simp))⟩
    · rw [split] at start
      cases front with
      | cons first front =>
        rw [List.cons_append,List.cons_eq_cons] at start
        exact ⟨rest,front ++ (before ++ after) :: back,by simp [start.1]⟩
      | nil =>
        -- the entry is not one of the first two
        rw [List.nil_append,List.cons_eq_cons] at start
        obtain ⟨entries,_⟩ := start
        obtain ⟨before',rfl⟩ := past_dots entries named
        exact ⟨before' ++ after,back,by simp⟩
    · rw [split,lastUsed_append] at used
      rw [lastUsed_append]
      split
      · rename_i none
        exact fun both => kept ⟨(List.append_eq_nil_iff.mp both).1,(List.append_eq_nil_iff.mp both).2,none⟩
      · rwa [if_neg ‹_›] at used
  | cut front target split first =>
    have perm : blocks.flatten.Perm ((name,res) :: (front.rdropWhile List.isEmpty).flatten) := by
      rw [split,flatten_rdropWhile,List.flatten_concat]
      exact List.perm_append_singleton _ _
    have le : (front.rdropWhile List.isEmpty).length ≤ blocks.length := by
      have := (List.rdropWhile_prefix List.isEmpty front).length_le
      rw [split,List.length_append]
      omega
    refine .inr ⟨found perm,_,rfl,ok.refile (split ▸ ok.toDirectory).fits_cut (ok.top_le le) ?_
      (distinct perm),perm,fun _ => lastUsed_rdropWhile front,_,split ▸ closes_cut⟩
    · rw [split] at start
      cases front with
      | nil =>
        rw [List.nil_append,List.cons_eq_cons] at start
        exact absurd (congrArg List.length start.1) (by simp [dots])
      | cons first front =>
        rw [List.cons_append,List.cons_eq_cons] at start
        obtain ⟨rfl,_⟩ := start
        have some : dots parent directory ++ rest ≠ [] := by simp [dots]
        obtain ⟨tail',kept⟩ := rdropWhile_first some front
        exact ⟨rest,tail',kept⟩

end

end CandyFs
