import CandyFs.Removal

/-! Whether an entry can be stored again after it has been removed: a block that its removal has emptied
is passed over.
-/
namespace CandyFs
open Store (Affords cost)

section
variable {front front' back back' : List (List Binding)} {es es' before after : List Binding}
  {name : Name} {target : Int}

theorem bound_later (distinct : ((es :: back).flatten.map (·.1)).Nodup) (bound : name ∈ es.map (·.1))
    (later : es' ∈ back) : name ∉ es'.map (·.1) := by
  intro again
  rw [List.flatten_cons,List.map_append,List.nodup_append] at distinct
  obtain ⟨e,member,rfl⟩ := List.mem_map.mp again
  exact distinct.2.2 _ bound _ (List.mem_map_of_mem (List.mem_flatten_of_mem later member)) rfl

theorem place_unique (distinct : ((front ++ es :: back).flatten.map (·.1)).Nodup)
    (same : front ++ es :: back = front' ++ es' :: back') (bound : name ∈ es.map (·.1))
    (bound' : name ∈ es'.map (·.1)) : front = front' ∧ es = es' ∧ back = back' := by
  induction front generalizing front' with
  | nil =>
    cases front' with
    | nil =>
      rw [List.nil_append,List.nil_append,List.cons_eq_cons] at same
      exact ⟨rfl,same⟩
    | cons first front' =>
      rw [List.nil_append,List.cons_append,List.cons_eq_cons] at same
      exact absurd bound' (bound_later distinct bound (by rw [same.2]; simp))
  | cons first front ih =>
    cases front' with
    | nil =>
      rw [List.cons_append,List.nil_append,List.cons_eq_cons] at same
      rw [List.cons_append] at distinct
      exact absurd bound (bound_later distinct (same.1 ▸ bound') (by simp))
    | cons first' front' =>
      rw [List.cons_append,List.cons_append,List.cons_eq_cons] at same
      rw [List.cons_append,List.flatten_cons,List.map_append,List.nodup_append] at distinct
      obtain ⟨rfl,rest⟩ := same
      obtain ⟨rfl,rfl,rfl⟩ := ih distinct.2.1 rest
      exact ⟨rfl,rfl,rfl⟩

theorem other_blocks (distinct : ((front ++ es :: back).flatten.map (·.1)).Nodup)
    (bound : name ∈ es.map (·.1)) :
    es' ∈ front ++ es :: back ∧ name ∉ es'.map (·.1) ↔ es' ∈ front ∨ es' ∈ back := by
  constructor
  · rintro ⟨member,free⟩
    rcases List.mem_append.mp member with member | member
    · exact .inl member
    · refine .inr ((List.mem_cons.mp member).resolve_left ?_)
      rintro rfl
      exact free bound
  · intro other
    refine ⟨?_,fun again => ?_⟩
    · rcases other with member | member
      · simp [member]
      · simp [member]
    · rcases other with member | member
      · obtain ⟨front1,back1,rfl⟩ := List.append_of_mem member
        have same : (front1 ++ es' :: back1) ++ es :: back = front1 ++ es' :: (back1 ++ es :: back) := by simp
        have := congrArg List.length (place_unique distinct same bound again).1
        simp at this
      · rw [List.flatten_append,List.map_append,List.nodup_append] at distinct
        exact bound_later distinct.2.1 bound member again

end

section
variable [Geometry] {s s1 s2 : Store} {directory parent target : Int} {node : Node}
  {blocks : List (List Binding)} {name : Name} {before after : List Binding} {more : Nat}

/-- There is room for the entry once it has been removed and so many more blocks are free. Its own
place will not do if it leaves behind an empty block in the middle. -/
def Refills (s : Store) (directory : Int) (name : Name) (more : Nat) : Prop :=
  ∃ node blocks parent, DirOk s directory node blocks parent ∧
    ((∀ front target back, blocks = front ++ [(name,target)] :: back → back = []) ∨
      (∃ es ∈ blocks, name ∉ es.map (·.1) ∧ es ≠ [] ∧ HasRoom es name) ∨
      Affords (s.freeBlocks + more) node.size (node.size + blocksize))

theorem DirOk.refills (ok : DirOk s directory node blocks parent) : Refills s directory name more ↔
    (∀ front target back, blocks = front ++ [(name,target)] :: back → back = []) ∨
      (∃ es ∈ blocks, name ∉ es.map (·.1) ∧ es ≠ [] ∧ HasRoom es name) ∨
      Affords (s.freeBlocks + more) node.size (node.size + blocksize) := by
  constructor
  · rintro ⟨node',blocks',parent',ok',room⟩
    obtain ⟨rfl,rfl⟩ := ok.toDirectory.unique ok'.toDirectory
    exact room
  · exact fun room => ⟨node,blocks,parent,ok,room⟩

theorem BlockFits.hasRoom (fits : BlockFits (before ++ (name,target) :: after)) :
    HasRoom (before ++ after) name := by
  have count := fits.count
  have room := fits.room
  simp only [namesOf_append,namesOf_cons,List.length_append,List.length_cons] at count room
  refine ⟨by rw [List.length_append]; omega,?_⟩
  rw [namesOf_append,List.length_append]
  omega

theorem affords_cut {size size' : Int} (nonneg : 0 ≤ size') (longer : size' + blocksize ≤ size)
    (top : size ≤ maxFilesize) {free : Nat} (space : free + cost size - cost size' ≤ more) :
    Affords more size' (size' + blocksize) := by
  have pos := blocksize_pos
  refine ⟨longer.trans top,?_⟩
  have all := footprint_mono (blockcount_mono (show 0 ≤ size' + blocksize by omega) longer)
  rw [cost,cost] at *
  omega

theorem refills_iff (ok : DirOk s directory node blocks parent)
    (bound : blocks.flatten.lookup name = some target) (good : GoodName name)
    (named : name ≠ dot ∧ name ≠ dotdot) (ran : dirRemove s directory name = .ok (target,s1))
    (same : s2.inode directory = s1.inode directory) (space : s2.freeBlocks = s1.freeBlocks + more) :
    HasSpace s2 directory name ↔ Refills s directory name more := by
  obtain ⟨res,s',ran',removed⟩ := dirRemove_spec ok.toDirectory ok.some good named
  rw [ran,Except.ok.injEq,Prod.mk.injEq] at ran'
  obtain ⟨rfl,rfl⟩ := ran'
  have distinct := ok.distinct
  rw [ok.refills]
  have kept := removed.keeps ok named
  -- the directory as the removal leaves it
  have left {blocks' : List (List Binding)} (fits : ∀ es ∈ blocks', BlockFits es)
      (fewer : blocks'.length ≤ blocks.length)
      (whole : s1 = s.refile directory node (node.showing blocks')) :
      HasSpace s2 directory name ↔ (∃ es ∈ blocks', es ≠ [] ∧ HasRoom es name) ∨
        Affords (s.freeBlocks + cost node.size - cost (node.showing blocks').size + more)
          (node.showing blocks').size ((node.showing blocks').size + blocksize) := by
    obtain ⟨_,blocks1,whole',ok1,_⟩ := kept.resolve_left fun none => by
      rw [none.2.2] at bound
      cases bound
    have dir := ok.toDirectory.refile fits (ok.top_le fewer)
    rw [← whole] at dir
    obtain ⟨shown,rfl⟩ := dir.unique ok1.toDirectory
    rw [(ok1.elsewhere same).hasSpace,space,whole]
    rfl
  cases removed with
  | absent free =>
    rw [free] at bound
    cases bound
  | entry front before target after back split first absent some =>
    subst split
    have size : (node.showing (front ++ (before ++ after) :: back)).size = node.size := by
      rw [ok.shown.size,showing_size]
      simp
    rw [left ok.fits_entry (by simp) rfl,size,Nat.add_sub_cancel]
    have here : name ∈ (before ++ (name,target) :: after).map (·.1) := by simp
    by_cases alone : before ++ after = []
    · -- its block is empty now, and not the last
      obtain ⟨rfl,rfl⟩ := List.append_eq_nil_iff.mp alone
      have inner : ¬∀ front' target' back', front ++ ([] ++ (name,target) :: []) :: back =
          front' ++ [(name,target')] :: back' → back' = [] := fun last =>
        some ⟨rfl,rfl,last front target back rfl⟩
      rw [or_iff_right inner]
      refine or_congr_left (exists_congr fun es => ?_)
      rw [← and_assoc,← and_assoc,← and_assoc,other_blocks distinct here]
      refine and_congr_left fun _ => ?_
      constructor
      · rintro ⟨member,used⟩
        simp only [List.mem_append,List.mem_cons] at member
        exact ⟨member.imp_right fun member => member.resolve_left used,used⟩
      · rintro ⟨member,used⟩
        refine ⟨?_,used⟩
        rcases member with member | member
        · simp [member]
        · simp [member]
    · have fits := ok.fits (before ++ (name,target) :: after) (by simp)
      refine iff_of_true (.inl ⟨before ++ after,by simp,alone,fits.hasRoom⟩) (.inl ?_)
      intro front' target' back' split
      obtain ⟨_,block,_⟩ := place_unique distinct split here (by simp)
      have := congrArg List.length block
      simp only [List.length_append,List.length_cons,List.length_nil] at this
      exact absurd (List.length_eq_zero_iff.mp (by rw [List.length_append]; omega)) alone
  | cut front target split first =>
    subst split
    have prefix' := (List.rdropWhile_prefix List.isEmpty front).length_le
    rw [left ok.fits_cut (by rw [List.length_append]; omega) rfl]
    refine iff_of_true (.inr ?_) (.inl ?_)
    · refine affords_cut (by rw [showing_size]; positivity) ?_ ok.top (Nat.le_add_right _ _)
      have : ((front.rdropWhile List.isEmpty).length : Int) * blocksize ≤ front.length * blocksize := by
        exact_mod_cast Nat.mul_le_mul_right blocksize prefix'
      rw [ok.shown.size,showing_size,List.length_append,List.length_singleton]
      push_cast
      linarith
    · intro front' target' back' split
      have here (number : Int) : name ∈ [(name,number)].map (·.1) := by simp
      exact (place_unique distinct split (here _) (here _)).2.2.symm

section
variable {fs : Fs} {held : Multiset Int} {inode : Int} {info : Node} {s' : Store}

/-- The blocks that come free with a link and a reference. -/
def Fs.freedWith (fs : Fs) (held : Multiset Int) (inode : Int) : Nat :=
  match fs.store.inode inode with
  | none => 0
  | some info =>
    if fs.opens inode = 0 ∧ inode ∉ held ∧ info.nlinks = 1 then cost info.size + 1 else 0

omit [Geometry] in
theorem pred_eq_zero {n : Nat} : Store.pred n = 0 ↔ n = 1 := by
  rw [Store.pred]
  split
  · omega
  · omega

theorem dropRef_space (named : fs.store.inode inode = some info) :
    (fs.dropRef held inode).freeBlocks = fs.store.freeBlocks +
      if fs.opens inode = 0 ∧ inode ∉ held ∧ info.nlinks = 0 then cost info.size + 1 else 0 := by
  have links : fs.store.nlinksOf inode = info.nlinks := by rw [Store.nlinksOf,named]; rfl
  rw [Fs.dropRef]
  by_cases last : fs.opens inode = 0 ∧ inode ∉ held ∧ info.nlinks = 0
  · have frees : fs.opens inode = 0 ∧ inode ∉ held ∧ fs.store.nlinksOf inode = 0 := by rwa [links]
    rw [if_pos last,if_pos frees,Store.inodeFree,named]
    dsimp only
    rw [if_neg (not_not.mpr last.2.2),Nat.add_assoc]
  · have keeps : ¬(fs.opens inode = 0 ∧ inode ∉ held ∧ fs.store.nlinksOf inode = 0) := by rwa [links]
    rw [if_neg last,if_neg keeps,Nat.add_zero]

theorem dropLink_space (named : fs.store.inode inode = some info) :
    (fs.dropLink held inode).freeBlocks = fs.store.freeBlocks + fs.freedWith held inode := by
  have unlinked : (fs.store.inodeUnlink inode).2 =
      fs.store.set inode { info with nlinks := Store.pred info.nlinks } := by
    rw [Store.inodeUnlink,named]
  have named' : (fs.over (fs.store.inodeUnlink inode).2).store.inode inode =
      some { info with nlinks := Store.pred info.nlinks } := by
    change (fs.store.inodeUnlink inode).2.inode inode = _
    rw [unlinked,Store.set_inode_self]
  rw [Fs.dropLink,dropRef_space named',over_opens,Fs.freedWith,named]
  dsimp only
  rw [if_congr (and_congr_right fun _ => and_congr_right fun _ => pred_eq_zero) rfl rfl]
  change (fs.store.inodeUnlink inode).2.freeBlocks + _ = _
  rw [unlinked]
  rfl

/-- There is room for the entry again just when the state before it was removed says so. -/
theorem Cleared.refills (cleared : Cleared fs held directory name inode s') (good : GoodName name)
    (child : Child fs.store directory name inode) (named : fs.store.inode inode = some info) :
    HasSpace s' directory name ↔ Refills fs.store directory name (fs.freedWith held inode) := by
  obtain ⟨s0,s1,parent,m,holds,bound,ready,ran,edited,rfl⟩ := cleared.made
  have apart := child.apart (ready.imp (fun ready => ready.2) fun ready => ready.1)
  obtain ⟨node,blocks,ok,same⟩ := holds.ok
  rw [same] at bound
  -- the inode keeps its links and its blocks, also when it is a directory that has been destroyed
  obtain ⟨info0,named0,links,size⟩ : ∃ info0, s0.inode inode = some info0 ∧
      info0.nlinks = info.nlinks ∧ cost info0.size = cost info.size := by
    rcases ready with ⟨rfl,_⟩ | ⟨empty,destroyed⟩
    · exact ⟨info,named,rfl,rfl⟩
    · obtain ⟨info',named',marked⟩ := destroyed.self
      obtain rfl := Option.some.inj (named.symm.trans named')
      exact ⟨_,marked,rfl,info.destroyed_cost (empty.size named)⟩
  have here : s0.inode directory = fs.store.inode directory := by
    rcases ready with ⟨rfl,_⟩ | ⟨_,destroyed⟩
    · rfl
    · exact destroyed.others _ apart
  have free : s0.freeBlocks = fs.store.freeBlocks := by
    rcases ready with ⟨rfl,_⟩ | ⟨_,destroyed⟩
    · rfl
    · exact destroyed.space
  have ok0 : DirOk s0 directory node blocks parent := ok.elsewhere here
  have freed : (fs.over s1).freedWith held inode = fs.freedWith held inode := by
    have named1 : (fs.over s1).store.inode inode = some info0 :=
      (edited.others _ apart.symm).trans named0
    rw [Fs.freedWith,Fs.freedWith,named1,named]
    dsimp only
    rw [over_opens,links,size]
  rw [refills_iff ok0 bound good child.2 ran (dropLink_others apart)
    ((dropLink_space ((edited.others _ apart.symm).trans named0)).trans (by rw [freed]; rfl)),
    ok0.refills,ok.refills,free]

end

end

end CandyFs
