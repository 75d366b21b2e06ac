import CandyFs.Dir

/-! A block of a directory as a list of bindings: what the block holds for them, what the search of
a block finds, and what storing and removing an entry make of it.
-/
namespace CandyFs
open Bytes DirMapBlock

/-- A name and the inode number it is bound to. -/
abbrev Binding := Name × Int

/-- The string table for a list of entries. -/
def namesOf (entries : List Binding) : List UInt8 := entries.flatMap fun e => e.1 ++ [0]

/-- What a name of an entry must be like. -/
structure GoodName (name : Name) : Prop where
  some : name ≠ []
  short : name.length ≤ nameMax
  noNul : 0 ∉ name

instance (name : Name) : Decidable (GoodName name) :=
  decidable_of_iff (name ≠ [] ∧ name.length ≤ nameMax ∧ 0 ∉ name)
    ⟨fun h => ⟨h.1,h.2.1,h.2.2⟩,fun h => ⟨h.1,h.2,h.3⟩⟩

/-- What the target of an entry must be like: not `INO_EOF`. -/
structure GoodTarget (target : Int) : Prop where
  fits : Fits target
  named : target ≠ eof

instance (target : Int) : Decidable (GoodTarget target) :=
  decidable_of_iff (Fits target ∧ target ≠ eof) ⟨fun h => ⟨h.1,h.2⟩,fun h => ⟨h.1,h.2⟩⟩

section
variable {e : Binding} {before after entries : List Binding}

@[simp] theorem namesOf_nil : namesOf [] = [] := rfl

@[simp] theorem namesOf_cons : namesOf (e :: entries) = e.1 ++ 0 :: namesOf entries := by
  simp [namesOf]

@[simp] theorem namesOf_append : namesOf (before ++ after) = namesOf before ++ namesOf after := by
  simp [namesOf]

end

variable [Geometry]

theorem names_add : names + namespacePerDirBlock ≤ blocksize := by
  unfold names entriesPerDirBlock namespacePerDirBlock
  omega

theorem names_eq : names = 8 * entriesPerDirBlock := rfl

theorem entriesPerDirBlock_large : 10 ≤ entriesPerDirBlock := by
  have large := blocksize_large
  unfold entriesPerDirBlock
  omega

theorem nameMax_lt : nameMax < namespacePerDirBlock := Geometry.namespaceFits

/-- The block that holds these entries. -/
def encode (entries : List Binding) : Block := fun k =>
  if k < names then ofWords (fun i => (entries[i]?).elim eof (·.2)) k
  else (namesOf entries).getD (k - names) 0

/-- The entries have room in a block. -/
structure BlockFits (entries : List Binding) : Prop where
  count : entries.length ≤ entriesPerDirBlock
  room : (namesOf entries).length ≤ namespacePerDirBlock
  names : ∀ e ∈ entries, GoodName e.1
  targets : ∀ e ∈ entries, GoodTarget e.2

instance (entries : List Binding) : Decidable (BlockFits entries) :=
  decidable_of_iff (entries.length ≤ entriesPerDirBlock ∧
      (namesOf entries).length ≤ namespacePerDirBlock ∧
      ∀ e ∈ entries, GoodName e.1 ∧ GoodTarget e.2)
    ⟨fun h => ⟨h.1,h.2.1,fun e member => (h.2.2 e member).1,fun e member => (h.2.2 e member).2⟩,
      fun h => ⟨h.1,h.2,fun e member => ⟨h.3 e member,h.4 e member⟩⟩⟩

/-- The block holds the entries. -/
def Shows (block : Block) (entries : List Binding) : Prop :=
  ∀ k < blocksize, block k = encode entries k

section
variable {block : Block} {e : Binding} {before after entries : List Binding} {name : Name}
  {target : Int} {i j n : Nat}

theorem Shows.letter (shown : Shows block entries) (inside : DirMapBlock.names + j < blocksize) :
    block (DirMapBlock.names + j) = (namesOf entries).getD j 0 := by
  rw [shown _ (by omega),encode,if_neg (by omega),Nat.add_sub_cancel_left]

theorem Shows.number (shown : Shows block entries) (fits : BlockFits entries)
    (inside : i < entriesPerDirBlock) : word block i = (entries[i]?).elim eof (·.2) := by
  have total := names_add
  have words := names_eq
  have value : Fits ((entries[i]?).elim eof (·.2)) := by
    cases found : entries[i]? with
    | none => exact eof_fits
    | some e => exact (fits.targets e (List.mem_of_getElem? found)).fits
  have same : word block i = word (ofWords fun i => (entries[i]?).elim eof (·.2)) i := by
    refine word_congr _ _ _ fun j low high => ?_
    rw [shown j (by omega),encode,if_pos (by omega)]
  rw [same,word_ofWords,wrap_of_fits value]

theorem Shows.number_entry (shown : Shows block (before ++ e :: after))
    (fits : BlockFits (before ++ e :: after)) : word block before.length = e.2 := by
  have count := fits.count
  rw [List.length_append,List.length_cons] at count
  rw [shown.number fits (by omega),List.getElem?_append_right le_rfl,Nat.sub_self]
  rfl

theorem Shows.number_end (shown : Shows block entries) (fits : BlockFits entries)
    (outside : entries.length ≤ i) (inside : i < entriesPerDirBlock) : word block i = eof := by
  rw [shown.number fits inside,List.getElem?_eq_none outside]
  rfl

theorem BlockFits.entry (fits : BlockFits (before ++ e :: after)) : GoodName e.1 ∧ GoodTarget e.2 :=
  ⟨fits.names e (by simp),fits.targets e (by simp)⟩

theorem Shows.nameByte (shown : Shows block (before ++ e :: after))
    (fits : BlockFits (before ++ e :: after)) (inside : j ≤ e.1.length) :
    block (DirMapBlock.names + (namesOf before).length + j) = e.1.getD j 0 := by
  have total := names_add
  have room := fits.room
  simp only [namesOf_append,namesOf_cons,List.length_append,List.length_cons] at room
  rw [Nat.add_assoc,shown.letter (by omega),namesOf_append,namesOf_cons,List.getD_append_right _ _ _ _
    (by omega),Nat.add_sub_cancel_left]
  rcases inside.eq_or_lt with rfl | inside
  · rw [List.getD_append_right _ _ _ _ le_rfl,Nat.sub_self,List.getD_eq_default _ _ le_rfl]
    rfl
  · rw [List.getD_append _ _ _ _ inside]

theorem strlen_spec (shown : Shows block (before ++ e :: after))
    (fits : BlockFits (before ++ e :: after)) :
    strlen block (namesOf before).length = .ok e.1.length := by
  have room := fits.room
  simp only [namesOf_append,namesOf_cons,List.length_append,List.length_cons] at room
  have found : (List.range (namespacePerDirBlock - (namesOf before).length)).find? (fun k =>
      block (DirMapBlock.names + (namesOf before).length + k) = 0) = some e.1.length := by
    rw [List.find?_range_eq_some]
    refine ⟨?_,by simp; omega,fun j low => ?_⟩
    · rw [shown.nameByte fits le_rfl,List.getD_eq_default _ _ le_rfl]
      rfl
    · rw [shown.nameByte fits (by omega),List.getD_eq_getElem _ _ low]
      have := fits.entry.1.noNul
      have : e.1[j] ≠ 0 := fun zero => this (zero ▸ List.getElem_mem low)
      simpa using this
  rw [strlen,found]

theorem nameAt_spec (shown : Shows block (before ++ e :: after))
    (fits : BlockFits (before ++ e :: after)) :
    nameAt block (namesOf before).length e.1.length = e.1 := by
  apply List.ext_getElem (by simp [nameAt])
  intro j low high
  simp only [nameAt,List.getElem_map,List.getElem_range]
  rw [shown.nameByte fits (by omega),List.getD_eq_getElem _ _ high]

theorem scanBlock_passed (shown : Shows block (before ++ after)) (fits : BlockFits (before ++ after))
    (absent : ∀ e ∈ after, e.1 ≠ name) (rounds : n + before.length = entriesPerDirBlock) :
    scanBlock block name n before.length (namesOf before).length =
      .ok (.done (before ++ after).length (namesOf (before ++ after)).length) := by
  induction after generalizing before n with
  | nil =>
    rw [List.append_nil] at shown fits ⊢
    cases n with
    | zero => rfl
    | succ n => rw [scanBlock,if_pos (shown.number_end fits le_rfl (by omega))]
  | cons e after ih =>
    have count := fits.count
    rw [List.length_append,List.length_cons] at count
    obtain ⟨n,rfl⟩ : ∃ m, n = m + 1 := ⟨n - 1,by omega⟩
    have other : ¬(e.1.length = name.length ∧
        nameAt block (namesOf before).length e.1.length = name) := by
      rw [nameAt_spec shown fits]
      exact fun same => absent e List.mem_cons_self same.2
    rw [scanBlock,shown.number_entry fits,if_neg fits.entry.2.named,strlen_spec shown fits,ok_bind,
      if_neg other]
    rw [List.append_cons] at shown fits
    have rest := ih (n := n) shown fits
      (fun e' member => absent e' (List.mem_cons_of_mem _ member)) (by simp; omega)
    simpa [Nat.add_assoc] using rest

theorem scanBlock_found {middle : List Binding}
    (shown : Shows block (before ++ (middle ++ (name,target) :: after)))
    (fits : BlockFits (before ++ (middle ++ (name,target) :: after)))
    (absent : ∀ e ∈ middle, e.1 ≠ name) (rounds : n + before.length = entriesPerDirBlock) :
    scanBlock block name n before.length (namesOf before).length =
      .ok (.hit (before ++ middle).length (namesOf (before ++ middle)).length) := by
  induction middle generalizing before n with
  | nil =>
    rw [List.nil_append] at shown fits
    rw [List.append_nil]
    have count := fits.count
    rw [List.length_append,List.length_cons] at count
    obtain ⟨n,rfl⟩ : ∃ m, n = m + 1 := ⟨n - 1,by omega⟩
    rw [scanBlock,shown.number_entry fits,if_neg fits.entry.2.named,strlen_spec shown fits,ok_bind,
      if_pos ⟨rfl,nameAt_spec shown fits⟩]
  | cons e middle ih =>
    rw [List.cons_append] at shown fits
    have count := fits.count
    rw [List.length_append,List.length_cons] at count
    obtain ⟨n,rfl⟩ : ∃ m, n = m + 1 := ⟨n - 1,by omega⟩
    have other : ¬(e.1.length = name.length ∧
        nameAt block (namesOf before).length e.1.length = name) := by
      rw [nameAt_spec shown fits]
      exact fun same => absent e List.mem_cons_self same.2
    rw [scanBlock,shown.number_entry fits,if_neg fits.entry.2.named,strlen_spec shown fits,ok_bind,
      if_neg other]
    rw [List.append_cons] at shown fits
    have rest := ih (n := n) shown fits
      (fun e' member => absent e' (List.mem_cons_of_mem _ member)) (by simp; omega)
    simpa [Nat.add_assoc] using rest

theorem scanBlock_done (shown : Shows block entries) (fits : BlockFits entries)
    (absent : ∀ e ∈ entries, e.1 ≠ name) : scanBlock block name entriesPerDirBlock 0 0 =
      .ok (.done entries.length (namesOf entries).length) := by
  rw [← List.nil_append entries] at shown fits
  exact scanBlock_passed shown fits absent rfl

theorem scanBlock_hit (shown : Shows block (before ++ (name,target) :: after))
    (fits : BlockFits (before ++ (name,target) :: after)) (absent : ∀ e ∈ before, e.1 ≠ name) :
    scanBlock block name entriesPerDirBlock 0 0 =
      .ok (.hit before.length (namesOf before).length) := by
  rw [← List.nil_append (before ++ _)] at shown fits
  exact scanBlock_found shown fits absent rfl

theorem skipNames_spec (shown : Shows block (before ++ (entries ++ after)))
    (fits : BlockFits (before ++ (entries ++ after))) :
    skipNames block entries.length (namesOf before).length =
      .ok (namesOf (before ++ entries)).length := by
  induction entries generalizing before with
  | nil => simp [skipNames]
  | cons e entries ih =>
    rw [List.cons_append] at shown fits
    rw [List.length_cons,skipNames,strlen_spec shown fits,ok_bind]
    rw [List.append_cons] at shown fits
    have rest := ih shown fits
    simpa [Nat.add_assoc] using rest

theorem Shows.tail_unique {after' : List Binding} (shown : Shows block (before ++ after))
    (shown' : Shows block (before ++ after')) (fits : BlockFits (before ++ after))
    (fits' : BlockFits (before ++ after')) : after = after' := by
  induction after generalizing before after' with
  | nil =>
    cases after' with
    | nil => rfl
    | cons e' after' =>
      have count := fits'.count
      rw [List.append_nil] at shown fits
      rw [List.length_append,List.length_cons] at count
      have stop := shown.number_end fits le_rfl (by omega)
      rw [shown'.number_entry fits'] at stop
      exact absurd stop fits'.entry.2.named
  | cons e after ih =>
    have count := fits.count
    rw [List.length_append,List.length_cons] at count
    have number := shown.number_entry fits
    cases after' with
    | nil =>
      rw [List.append_nil] at shown' fits'
      rw [shown'.number_end fits' le_rfl (by omega)] at number
      exact absurd number.symm fits.entry.2.named
    | cons e' after' =>
      rw [shown'.number_entry fits'] at number
      have length := strlen_spec shown fits
      rw [strlen_spec shown' fits',Except.ok.injEq] at length
      have name := nameAt_spec shown fits
      rw [← length,nameAt_spec shown' fits'] at name
      have same : e = e' := Prod.ext name.symm number.symm
      subst same
      rw [List.append_cons] at shown shown' fits fits'
      rw [ih shown shown' fits fits']

theorem Shows.unique {entries' : List Binding} (shown : Shows block entries)
    (shown' : Shows block entries') (fits : BlockFits entries) (fits' : BlockFits entries') :
    entries = entries' := by
  rw [← List.nil_append entries] at shown fits
  rw [← List.nil_append entries'] at shown' fits'
  exact shown.tail_unique shown' fits fits'

theorem shows_empty : Shows DirMapBlock.empty [] := by
  intro k _
  simp [DirMapBlock.empty,encode]

theorem blockFits_nil : BlockFits [] :=
  ⟨Nat.zero_le _,Nat.zero_le _,nofun,nofun⟩

theorem BlockFits.sub {entries' : List Binding} (fits : BlockFits entries)
    (sub : entries'.Sublist entries) : BlockFits entries' where
  count := sub.length_le.trans fits.count
  room := (sub.flatMap _).length_le.trans fits.room
  names := fun e member => fits.names e (sub.subset member)
  targets := fun e member => fits.targets e (sub.subset member)

/-- There is room for a further entry with the name. -/
def HasRoom (entries : List Binding) (name : Name) : Prop :=
  entries.length < entriesPerDirBlock ∧
    name.length < namespacePerDirBlock - (namesOf entries).length

instance : Decidable (HasRoom entries name) := inferInstanceAs (Decidable (_ ∧ _))

theorem hasRoom_nil (good : GoodName name) : HasRoom [] name := by
  have large := entriesPerDirBlock_large
  have short := good.short
  have room := nameMax_lt
  exact ⟨by rw [List.length_nil]; omega,by rw [namesOf_nil,List.length_nil]; omega⟩

theorem BlockFits.add (fits : BlockFits entries) (room : HasRoom entries name)
    (good : GoodName name) (target' : GoodTarget target) :
    BlockFits (entries ++ [(name,target)]) where
  count := by
    rw [List.length_append,List.length_singleton]
    exact room.1
  room := by
    have := room.2
    simp only [namesOf_append,namesOf_cons,namesOf_nil,List.length_append,List.length_cons,
      List.length_nil]
    omega
  names := by
    intro e member
    rcases List.mem_append.mp member with member | member
    · exact fits.names e member
    · obtain rfl := List.mem_singleton.mp member
      exact good
  targets := by
    intro e member
    rcases List.mem_append.mp member with member | member
    · exact fits.targets e member
    · obtain rfl := List.mem_singleton.mp member
      exact target'

omit [Geometry] in
theorem setWord_ofWords (f : Nat → Int) (i : Nat) (x : Int) :
    setWord (ofWords f) i x = ofWords (Function.update f i x) := by
  funext k
  by_cases inside : 8 * i ≤ k ∧ k < 8 * i + 8
  · rw [setWord,setField,if_pos inside,ofWords,show k / 8 = i by omega,Function.update_self,
      show k % 8 = k - 8 * i by omega]
  · rw [setWord_outside _ _ _ _ (by omega),ofWords,ofWords,Function.update_of_ne (by omega)]

theorem Shows.setWord {f : Nat → Int} {i : Nat} {x : Int} (inside : i < entriesPerDirBlock)
    (words : ∀ k < names, block k = ofWords f k)
    (letters : ∀ j, DirMapBlock.names + j < blocksize →
      block (DirMapBlock.names + j) = (namesOf entries).getD j 0)
    (same : ∀ j, Function.update f i x j = (entries[j]?).elim eof (·.2)) :
    Shows (Bytes.setWord block i x) entries := by
  have total := names_add
  have counts := names_eq
  intro k bound
  by_cases low : k < DirMapBlock.names
  · have stored : Bytes.setWord block i x k = Bytes.setWord (ofWords f) i x k := by
      rw [Bytes.setWord,setField,Bytes.setWord,setField,words k low]
    rw [stored,setWord_ofWords,encode,if_pos low]
    exact congrArg (fun g => ofWords g k) (funext same)
  · have := letters (k - DirMapBlock.names) (by omega)
    rw [setWord_outside _ _ _ _ (by omega),encode,if_neg low,← this]
    congr 1
    omega

omit [Geometry] in
theorem getElem?_add (j : Nat) : ((entries ++ [e])[j]?) =
    if j = entries.length then some e else entries[j]? := by
  rw [List.getElem?_append]
  split
  · rw [if_neg (by omega)]
  · by_cases same : j = entries.length
    · simp [same]
    · rw [if_neg same,List.getElem?_eq_none (by simp; omega),List.getElem?_eq_none (by omega)]

theorem Shows.add (shown : Shows block entries) (room : HasRoom entries name) :
    Shows (Bytes.setWord (setName block (namesOf entries).length name) entries.length target)
      (entries ++ [(name,target)]) := by
  have total := names_add
  obtain ⟨count,space⟩ := room
  refine Shows.setWord (f := fun i => (entries[i]?).elim eof (·.2)) count (fun k low => ?_)
    (fun j inside => ?_) fun j => ?_
  · rw [setName,if_neg (by omega),shown k (by omega),encode,if_pos low]
  · rw [setName,namesOf_append,namesOf_cons]
    dsimp only
    by_cases before : j < (namesOf entries).length
    · rw [if_neg (by omega),shown.letter inside,List.getD_append _ _ _ _ before]
    · rw [List.getD_append_right _ _ _ _ (by omega)]
      by_cases middle : j - (namesOf entries).length < name.length
      · rw [if_pos (by omega),List.getD_append _ _ _ _ middle]
        congr 1
        omega
      · rw [if_neg (by omega),shown.letter inside,List.getD_eq_default _ _ (by omega),
          List.getD_append_right _ _ _ _ (by omega)]
        -- only the terminator is left
        obtain rest | rest : j - (namesOf entries).length - name.length = 0 ∨
            0 < j - (namesOf entries).length - name.length := by omega
        · rw [rest]; rfl
        · rw [List.getD_eq_default _ _ (by rw [namesOf_nil,List.length_singleton]; omega)]
  · rw [Function.update_apply,getElem?_add]
    split <;> rfl

theorem Shows.drop (shown : Shows block (before ++ e :: after))
    (fits : BlockFits (before ++ e :: after)) :
    Shows (DirMapBlock.drop block before.length (namesOf before).length e.1.length)
      (before ++ after) := by
  have total := names_add
  have counts := names_eq
  have count := fits.count
  have room := fits.room
  simp only [namesOf_append,namesOf_cons,List.length_append,List.length_cons] at room count
  intro k bound
  rw [DirMapBlock.drop,encode,namesOf_append]
  by_cases low : k < DirMapBlock.names
  · rw [if_pos low,if_pos low,ofWords,ofWords]
    congr 3
    have inside : k / 8 < entriesPerDirBlock := by omega
    generalize k / 8 = i at inside
    by_cases early : i < before.length
    · rw [if_pos early,shown.number fits inside,List.getElem?_append_left early,
        List.getElem?_append_left early]
    · have rest : (before ++ after)[i]? = (before ++ e :: after)[i + 1]? := by
        rw [List.getElem?_append_right (by omega),List.getElem?_append_right (by omega),
          show i + 1 - before.length = i - before.length + 1 by omega,List.getElem?_cons_succ]
      rw [if_neg early,rest]
      split
      · rename_i bound
        exact shown.number fits bound
      · rw [List.getElem?_eq_none (by simp; omega)]
        rfl
  · rw [if_neg low,if_neg low]
    have letter (j : Nat) (inside : DirMapBlock.names + j < blocksize) := shown.letter inside
    simp only [namesOf_append,namesOf_cons] at letter
    by_cases early : k < DirMapBlock.names + (namesOf before).length
    · rw [if_pos early,List.getD_append _ _ _ _ (by omega)]
      have := letter (k - DirMapBlock.names) (by omega)
      rw [List.getD_append _ _ _ _ (by omega)] at this
      rw [← this]
      congr 1
      omega
    · rw [if_neg early,List.getD_append_right _ _ _ _ (by omega)]
      split
      · have := letter (k + (e.1.length + 1) - DirMapBlock.names) (by omega)
        rw [List.getD_append_right _ _ _ _ (by omega),List.getD_append_right _ _ _ _ (by omega)] at this
        rw [show k + (e.1.length + 1) - DirMapBlock.names - (namesOf before).length - e.1.length =
          k - DirMapBlock.names - (namesOf before).length + 1 by omega,List.getD_cons_succ] at this
        rw [← this]
        congr 1
        omega
      · rw [List.getD_eq_default _ _ (by omega)]
        split
        · rfl
        · have := letter (k - DirMapBlock.names) (by omega)
          rw [← namesOf_cons,← namesOf_append,List.getD_eq_default _ _
            (by simp only [namesOf_append,namesOf_cons,List.length_append,List.length_cons]; omega)] at this
          rw [← this]
          congr 1
          omega

theorem Shows.retarget (shown : Shows block ((name,target) :: after)) (newTarget : Int) :
    Shows (Bytes.setWord block 0 newTarget) ((name,newTarget) :: after) := by
  have large := entriesPerDirBlock_large
  have total := names_add
  refine Shows.setWord (f := fun i => (((name,target) :: after)[i]?).elim eof (·.2)) (by omega)
    (fun k low => ?_) (fun j inside => ?_) fun j => ?_
  · rw [shown k (by omega),encode,if_pos low]
  · rw [shown.letter inside,namesOf_cons,namesOf_cons]
  · cases j with
    | zero => rw [Function.update_self]; rfl
    | succ j => rw [Function.update_of_ne (by omega)]; rfl

theorem setName_setWord (inside : i < entriesPerDirBlock) (x : Int) (nameoff : Nat) :
    setName (Bytes.setWord block i x) nameoff name = Bytes.setWord (setName block nameoff name) i x := by
  have counts := names_eq
  funext k
  by_cases word : 8 * i ≤ k ∧ k < 8 * i + 8
  · rw [setName,if_neg (by omega),Bytes.setWord,setField,if_pos word,Bytes.setWord,setField,if_pos word]
  · rw [setWord_outside _ _ _ _ (by omega),setName,setName,setWord_outside _ _ _ _ (by omega)]

/-- The entries `dir_create` starts with. -/
def dots (parent directory : Int) : List Binding := [(dotdot,parent),(dot,directory)]

theorem blockFits_dots {parent directory : Int} (up : GoodTarget parent) (self : GoodTarget directory) :
    BlockFits (dots parent directory) := by
  have large := entriesPerDirBlock_large
  have room : 255 < namespacePerDirBlock := nameMax_lt
  have upName : GoodName dotdot := ⟨by decide,by decide,by decide⟩
  have selfName : GoodName dot := ⟨by decide,by decide,by decide⟩
  have first := blockFits_nil.add (hasRoom_nil upName) upName up
  refine first.add ⟨?_,?_⟩ selfName self
  · simp only [List.nil_append,List.length_singleton]
    omega
  · simp only [List.nil_append,namesOf_cons,namesOf_nil,List.length_append,dotdot,dot,List.length_cons,
      List.length_nil]
    omega

theorem shows_dots (parent directory : Int) :
    Shows (setName (setName (Bytes.setWord (Bytes.setWord DirMapBlock.empty 0 parent) 1 directory) 0
      dotdot) 3 dot) (dots parent directory) := by
  have large := entriesPerDirBlock_large
  have room : 255 < namespacePerDirBlock := nameMax_lt
  have upName : GoodName dotdot := ⟨by decide,by decide,by decide⟩
  have first : Shows _ ([] ++ [(dotdot,parent)]) := shows_empty.add (hasRoom_nil upName)
  rw [setName_setWord (by omega),setName_setWord (by omega),setName_setWord (by omega)]
  refine Shows.add first (?_ : HasRoom _ dot)
  constructor
  · simp only [List.nil_append,List.length_singleton]
    omega
  · simp only [List.nil_append,namesOf_cons,namesOf_nil,List.length_append,dotdot,dot,List.length_cons,
      List.length_nil]
    omega

end

end CandyFs
