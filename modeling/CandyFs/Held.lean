import CandyFs.RefRuns

/-! Keeping account of references: the tables with some references held besides those of a state at
rest, and what opening, closing and working on the disk make of them.
-/
namespace CandyFs
open Bytes

section
variable {α β : Type} {x : Act α} {next : α → Act β} {value : α} {fs fs' : Fs}

theorem act_bind (ran : x fs = .ok (value,fs')) : (x >>= next) fs = next value fs' := by
  change (x fs >>= fun result => next result.1 result.2) = _
  rw [ran]
  rfl

theorem act_stop {fault : Fault Unit} (ran : x fs = .error fault) : (x >>= next) fs = .error fault := by
  change (x fs >>= fun result => next result.1 result.2) = _
  rw [ran]
  rfl

theorem act_pure : (pure value : Act α) fs = .ok (value,fs) := rfl

theorem act_get : (get : Act Fs) fs = .ok (fs,fs) := rfl

variable {condition : Prop} [Decidable condition]

theorem assert_true (holds : condition) : assert condition fs = .ok ((),fs) := by
  rw [assert,check_true holds]
  rfl

theorem assert_false (fails : ¬condition) : assert condition fs = .error (.abort ()) := by
  rw [assert,check,if_neg fails]
  rfl

theorem reading_ok {call : Store → Try α} (ran : call fs.store = .ok value) :
    reading call fs = .ok (value,fs) := by
  rw [reading,ran]
  rfl

end

/-- The tables with one more reference. -/
def Fs.hold (inode : Int) (fs : Fs) : Fs :=
  if Fits inode then fs.setOpens inode (fs.opens inode + 1) else fs

/-- The tables with the references `held` besides. -/
noncomputable def Fs.holding (fs : Fs) (held : Multiset Int) : Fs := held.toList.foldr Fs.hold fs

section
variable {fs fs' : Fs} {s : Store} {held : Multiset Int} {inode other : Int} {info : Node}

theorem Tables.hold (ok : Tables fs) : Tables (fs.hold inode) := by
  rw [Fs.hold]
  split
  · exact ok.setOpens ‹_›
  · exact ok

theorem Tables.opens_hold (ok : Tables fs) : (fs.hold inode).opens other =
    fs.opens other + if other = inode ∧ Fits inode then 1 else 0 := by
  rw [Fs.hold]
  split
  · rename_i fits
    rw [ok.opens_setOpens fits]
    split
    · rename_i same
      rw [if_pos ⟨same,fits⟩,same]
    · rename_i differ
      rw [if_neg fun both => differ both.1,Nat.add_zero]
  · rename_i unfit
    rw [if_neg fun both => unfit both.2,Nat.add_zero]

theorem Tables.foldr_hold (ok : Tables fs) (list : List Int) : Tables (list.foldr Fs.hold fs) ∧
    (list.foldr Fs.hold fs).store = fs.store ∧
    (list.foldr Fs.hold fs).openPathTable = fs.openPathTable ∧
    ∀ other, (list.foldr Fs.hold fs).opens other =
      fs.opens other + if Fits other then list.count other else 0 := by
  induction list with
  | nil => exact ⟨ok,rfl,rfl,fun other => by simp⟩
  | cons inode rest ih =>
    obtain ⟨tables,store,paths,opens⟩ := ih
    refine ⟨tables.hold,?_,?_,fun other => ?_⟩
    · rw [List.foldr_cons,Fs.hold]
      split <;> simpa using store
    · rw [List.foldr_cons,Fs.hold]
      split <;> simpa using paths
    · rw [List.foldr_cons,tables.opens_hold,opens,List.count_cons]
      by_cases same : other = inode
      · subst same
        simp only [true_and,beq_self_eq_true,if_true]
        split <;> omega
      · have differ : ¬(inode == other) = true := by simpa using fun h => same h.symm
        have unlike : ¬(other = inode ∧ Fits inode) := fun both => same both.1
        rw [if_neg differ,if_neg unlike]
        rfl

@[simp] theorem holding_zero : fs.holding 0 = fs := by
  rw [Fs.holding,Multiset.toList_zero]
  rfl

variable (ok : Tables fs)
include ok

theorem Tables.holding : Tables (fs.holding held) := (ok.foldr_hold _).1

theorem Tables.holding_store : (fs.holding held).store = fs.store := (ok.foldr_hold _).2.1

theorem Tables.holding_paths : (fs.holding held).openPathTable = fs.openPathTable :=
  (ok.foldr_hold _).2.2.1

theorem Tables.opens_holding : (fs.holding held).opens inode =
    fs.opens inode + if Fits inode then held.count inode else 0 := by
  rw [Fs.holding,(ok.foldr_hold _).2.2.2,← Multiset.coe_count,Multiset.coe_toList]

theorem Tables.eq_holding (ok' : Tables fs') (store : fs'.store = fs.store)
    (paths : fs'.openPathTable = fs.openPathTable)
    (opens : ∀ inode, Fits inode → fs'.opens inode = fs.opens inode + held.count inode) :
    fs' = fs.holding held := by
  refine ok'.ext ok.holding (store.trans ok.holding_store.symm) (paths.trans ok.holding_paths.symm)
    fun inode => ?_
  rw [ok.opens_holding]
  by_cases fits : Fits inode
  · rw [opens inode fits,if_pos fits]
  · have zero : fs'.opens inode = 0 := by
      by_contra held
      exact fits (ok'.opens_fits held)
    have zero' : fs.opens inode = 0 := by
      by_contra held
      exact fits (ok.opens_fits held)
    rw [zero,zero',if_neg fits]

theorem Tables.open_holding (fits : Fits inode) (named : fs.store.inode inode ≠ none) :
    refsOpen inode (fs.holding held) = .ok (0,fs.holding (inode ::ₘ held)) := by
  rw [ok.holding.open_eq fits,ok.holding_store,if_neg fun both => named both.2]
  congr 2
  refine ok.eq_holding (ok.holding.setOpens fits) ok.holding_store ok.holding_paths fun other fits' => ?_
  rw [ok.holding.opens_setOpens fits,Multiset.count_cons,ok.opens_holding,ok.opens_holding,
    if_pos fits,if_pos fits']
  split
  · rename_i same
    rw [same]
    rfl
  · rfl

section
variable [Geometry]

theorem Tables.close_none (fits : Fits inode) (closed : fs.opens inode = 0) (free : inode ∉ held) :
    refsClose inode (fs.holding held) = .ok (-1,fs.holding held) := by
  have zero : (fs.holding held).opens inode = 0 := by
    rw [ok.opens_holding,closed,Multiset.count_eq_zero.mpr free]
    simp
  rw [ok.holding.close_eq fits,if_pos zero]

omit [Geometry] in
theorem Tables.setOpens_holding (held : Multiset Int) (fits : Fits inode) :
    (fs.holding (inode ::ₘ held)).setOpens inode ((fs.holding (inode ::ₘ held)).opens inode - 1) =
      fs.holding held := by
  refine ok.eq_holding (ok.holding.setOpens fits) ok.holding_store ok.holding_paths fun other fits' => ?_
  rw [ok.holding.opens_setOpens fits,ok.opens_holding,ok.opens_holding,if_pos fits,if_pos fits',
    Multiset.count_cons_self]
  split
  · rename_i same
    rw [same]
    omega
  · rename_i differ
    rw [Multiset.count_cons_of_ne differ]

theorem Tables.close_holding (fits : Fits inode)
    (kept : fs.opens inode ≠ 0 ∨ inode ∈ held ∨ fs.store.nlinksOf inode ≠ 0) :
    refsClose inode (fs.holding (inode ::ₘ held)) = .ok (0,fs.holding held) := by
  have count : (fs.holding (inode ::ₘ held)).opens inode = fs.opens inode + held.count inode + 1 := by
    rw [ok.opens_holding,if_pos fits,Multiset.count_cons_self,Nat.add_assoc]
  have last : ¬((fs.holding (inode ::ₘ held)).opens inode = 1 ∧
      (fs.holding (inode ::ₘ held)).store.nlinksOf inode = 0) := by
    rintro ⟨one,unlinked⟩
    rw [ok.holding_store] at unlinked
    have none : held.count inode = 0 := by omega
    have free := Multiset.count_eq_zero.mp none
    rcases kept with held | held | linked
    · omega
    · exact free held
    · exact linked unlinked
  rw [ok.holding.close_eq fits,if_neg (by omega),if_neg last,ok.setOpens_holding held fits]

theorem Tables.close_last (fits : Fits inode) (closed : fs.opens inode = 0) (free : inode ∉ held)
    (named : fs.store.inode inode = some info) (unlinked : info.nlinks = 0) :
    refsClose inode (fs.holding (inode ::ₘ held)) =
      .ok (0,(fs.over (fs.store.inodeFree inode).2).holding held) := by
  have links : fs.store.nlinksOf inode = 0 := by rw [Store.nlinksOf,named]; exact unlinked
  have count : (fs.holding (inode ::ₘ held)).opens inode = 1 := by
    rw [ok.opens_holding,if_pos fits,Multiset.count_cons_self,closed,Multiset.count_eq_zero.mpr free]
  have last : (fs.holding (inode ::ₘ held)).opens inode = 1 ∧
      (fs.holding (inode ::ₘ held)).store.nlinksOf inode = 0 := ⟨count,by rw [ok.holding_store,links]⟩
  obtain ⟨s,freed,others⟩ : ∃ s, fs.store.inodeFree inode = (0,s) ∧
      ∀ other, s.nlinksOf other = fs.store.nlinksOf other := by
    rw [Store.inodeFree]
    simp only [named]
    rw [if_neg (not_not.mpr unlinked)]
    refine ⟨_,rfl,fun other => ?_⟩
    by_cases same : other = inode
    · rw [same,links]
      simp [Store.nlinksOf]
    · rw [Store.nlinksOf,Store.nlinksOf]
      dsimp only
      rw [Function.update_of_ne same]
  have emptied := ok.setOpens_holding held fits
  rw [count] at emptied
  rw [ok.holding.close_eq fits,if_neg (by omega),if_pos last,emptied,ok.holding_store,freed]
  dsimp only
  rw [if_neg (lt_irrefl _)]
  congr 2
  have ok' : Tables { fs.holding held with store := s } :=
    ok.holding.setStore fun other _ => by rw [ok.holding_store,others]
  refine (ok.over s).eq_holding ok' rfl ok.holding_paths fun other fits' => ?_
  rw [opens_setStore,over_opens,ok.opens_holding,if_pos fits']

end

theorem Tables.store_holding (links : ∀ inode, s.nlinksOf inode = fs.store.nlinksOf inode) :
    { fs.holding held with store := s } = (fs.over s).holding held := by
  have ok' : Tables { fs.holding held with store := s } :=
    ok.holding.setStore fun other _ => by rw [ok.holding_store,links]
  refine (ok.over s).eq_holding ok' rfl ok.holding_paths fun other fits' => ?_
  rw [opens_setStore,over_opens,ok.opens_holding,if_pos fits']

theorem Tables.over_holding : (fs.holding held).over s = (fs.over s).holding held := by
  refine (ok.over s).eq_holding (ok.holding.over s) rfl ok.holding_paths fun other fits' => ?_
  rw [over_opens,over_opens,ok.opens_holding,if_pos fits']

theorem Tables.onDisk_holding {α : Type} {call : Store → Try (α × Store)} {value : α}
    (ran : call fs.store = .ok (value,s)) (links : ∀ inode, s.nlinksOf inode = fs.store.nlinksOf inode) :
    onDisk call (fs.holding held) = .ok (value,(fs.over s).holding held) := by
  rw [onDisk,ok.holding_store,ran,← ok.store_holding links]
  rfl

theorem Tables.reading_holding {α : Type} {call : Store → Try α} {value : α}
    (ran : call fs.store = .ok value) : reading call (fs.holding held) = .ok (value,fs.holding held) :=
  reading_ok (by rw [ok.holding_store]; exact ran)

theorem Tables.link_holding (fits : Fits inode) (named : fs.store.inode inode = some info)
    (open' : inode ∈ held ∨ fs.opens inode ≠ 0) :
    refsLink inode (fs.holding held) = .ok (0,(fs.over (fs.store.inodeLink inode).2).holding held) := by
  have some : (fs.holding held).opens inode ≠ 0 := by
    rw [ok.opens_holding,if_pos fits]
    rcases open' with member | count
    · have := Multiset.count_pos.mpr member
      omega
    · omega
  rw [ok.holding.link_eq fits (by rw [ok.holding_store]; exact named),if_neg some,ok.holding_store,
    ok.over_holding]

theorem Tables.unlink_holding (fits : Fits inode) (named : fs.store.inode inode = some info)
    (open' : inode ∈ held ∨ fs.opens inode ≠ 0) :
    refsUnlink inode (fs.holding held) =
      .ok (0,(fs.over (fs.store.inodeUnlink inode).2).holding held) := by
  have some : (fs.holding held).opens inode ≠ 0 := by
    rw [ok.opens_holding,if_pos fits]
    rcases open' with member | count
    · have := Multiset.count_pos.mpr member
      omega
    · omega
  rw [ok.holding.unlink_eq fits (by rw [ok.holding_store]; exact named),if_neg some,ok.holding_store,
    ok.over_holding]

omit ok in
@[simp] theorem over_over {s' : Store} : (fs.over s).over s' = fs.over s' := by
  simp [Fs.over,Function.comp_def]

theorem Tables.over_self : fs.over fs.store = fs :=
  (ok.over _).ext ok rfl rfl fun _ => over_opens

end

end CandyFs
