import CandyFs.DirRuns

/-! Listing a directory while the names listed are removed, as a recursive deletion does. An offset
is a place in a block, so that removing a name from the block of the offset moves what is stored
at the offset behind it.
-/
namespace CandyFs
open Relation

variable [Geometry]

/-- A listing under way: `returned` is what `dir_enumerate` has returned. -/
structure ScanState where
  store : Store
  offset : Nat
  returned : List Binding

inductive ScanCall where
  | next
  | remove (name : Name)

inductive ScanStep (directory : Int) : ScanState → ScanCall → ScanState → Prop where
  | next {st : ScanState} {offset : Nat} {number : Int} {name : Name}
      (ran : dirEnumerate st.store directory st.offset (nameMax + 1) = .ok ((offset : Int),number,name))
      (more : offset ≠ 0) : ScanStep directory st .next ⟨st.store,offset,st.returned ++ [(name,number)]⟩
  | remove {st : ScanState} {name : Name} {res : Int} {s' : Store}
      (seen : name ∈ st.returned.map (·.1)) (ran : dirRemove st.store directory name = .ok (res,s')) :
      ScanStep directory st (.remove name) { st with store := s' }

/-- `dir_enumerate` finds an entry at the offset itself. -/
def EntryAt (s : Store) (directory : Int) (offset : Nat) (name : Name) : Prop :=
  ∃ number, dirEnumerate s directory offset (nameMax + 1) = .ok (((offset + 1 : Nat) : Int),number,name)

/-- The entry at the offset is in the block of `name` and behind it. -/
def Shifts (s : Store) (directory : Int) (offset : Nat) (name : Name) : Prop :=
  ∃ place < offset, place / entriesPerDirBlock = offset / entriesPerDirBlock ∧
    EntryAt s directory place name ∧ ∃ other, EntryAt s directory offset other

/-- `dir_remove` refuses `.` and `..`. -/
def ScanCall.Safe (directory : Int) (st : ScanState) : ScanCall → Prop
  | .next => True
  | .remove name => name ≠ dot → name ≠ dotdot → ¬Shifts st.store directory st.offset name

/-- What holds throughout a listing of a directory that held the map at its start: what is stored
before the offset has been returned, and nothing else that is there. -/
structure Scanned (directory parent : Int) (m : Bindings) (st : ScanState) (node : Node)
    (blocks : List (List Binding)) : Prop where
  ok : DirOk st.store directory node blocks parent
  there : ∀ e ∈ blocks.flatten, m e.1 = some e.2
  was : ∀ e ∈ st.returned, m e.1 = some e.2
  good : ∀ e ∈ st.returned, GoodName e.1
  before : ∀ row ∈ rowsFrom 0 blocks, row.1 < st.offset → row.2 ∈ st.returned
  behind : ∀ row ∈ rowsFrom 0 blocks, st.offset ≤ row.1 → row.2 ∉ st.returned
  once : st.returned.Nodup
  small : st.offset / entriesPerDirBlock * blocksize < 2 ^ 63

section
variable {directory parent : Int} {m : Bindings} {st st' : ScanState} {node : Node}
  {blocks : List (List Binding)} {name : Name}

theorem exists_cut (fits : ∀ es ∈ blocks, BlockFits es) (offset : Nat) :
    ∃ done rest, Cut (rowsFrom 0 blocks) done rest offset := by
  have sorted := rowsFrom_sorted (k := 0) fits
  generalize rowsFrom 0 blocks = rows at *
  induction rows with
  | nil => exact ⟨[],[],rfl,nofun,nofun⟩
  | cons row rows ih =>
    rw [List.pairwise_cons] at sorted
    by_cases before : row.1 < offset
    · obtain ⟨done,rest,cut⟩ := ih sorted.2
      refine ⟨row :: done,rest,by rw [cut.split,List.cons_append],fun other member => ?_,cut.behind⟩
      rcases List.mem_cons.mp member with rfl | member
      · exact before
      · exact cut.before other member
    · refine ⟨[],row :: rows,rfl,nofun,fun other member => ?_⟩
      rcases List.mem_cons.mp member with rfl | member
      · omega
      · have := sorted.1 other member
        omega

theorem Directory.entryAt {s : Store} {place : Nat} {e : Binding}
    (dir : Directory s directory node blocks) (row : (place,e) ∈ rowsFrom 0 blocks)
    (small : place / entriesPerDirBlock * blocksize < 2 ^ 63) : EntryAt s directory place e.1 := by
  have sorted := rowsFrom_sorted (k := 0) dir.fits
  obtain ⟨before,after,split⟩ := List.append_of_mem row
  rw [split,List.pairwise_append,List.pairwise_cons] at sorted
  have cut : Cut (rowsFrom 0 blocks) before ((place,e) :: after) place := by
    refine ⟨split,fun row member => sorted.2.2 row member _ List.mem_cons_self,fun row member => ?_⟩
    rcases List.mem_cons.mp member with rfl | member
    · exact le_rfl
    · exact (sorted.2.1.1 row member).le
  exact ⟨e.2,by rw [dirEnumerate_spec dir small,cut.next_row]⟩

theorem Scanned.next (h : Scanned directory parent m st node blocks)
    (step : ScanStep directory st .next st') : Scanned directory parent m st' node blocks := by
  have sorted := rowsFrom_sorted (k := 0) h.ok.fits
  cases step with
  | next ran more =>
    rename_i offset number name
    obtain ⟨done,rest,cut⟩ := exists_cut h.ok.fits st.offset
    rw [dirEnumerate_spec h.ok.toDirectory h.small,Except.ok.injEq] at ran
    cases rest with
    | nil =>
      rw [cut.next_none,Prod.mk.injEq] at ran
      omega
    | cons row rest =>
      obtain ⟨place,e⟩ := row
      rw [cut.next_row,Prod.mk.injEq,Prod.mk.injEq] at ran
      obtain ⟨behind,rfl,rfl⟩ := ran
      obtain rfl : place + 1 = offset := by omega
      have here : (place,e) ∈ rowsFrom 0 blocks := by
        rw [cut.split]
        exact List.mem_append_right _ List.mem_cons_self
      have bound : m e.1 = some e.2 := h.there e (by
        rw [← map_snd_rowsFrom (k := 0)]
        exact List.mem_map_of_mem (f := (·.2)) here)
      have fresh : e ∉ st.returned := h.behind _ here (cut.behind _ List.mem_cons_self)
      have cut' := cut.step sorted
      have good : GoodName e.1 := by
        obtain ⟨es,inside,entry⟩ := List.mem_flatten.mp (show e ∈ blocks.flatten by
          rw [← map_snd_rowsFrom (k := 0)]
          exact List.mem_map_of_mem (f := (·.2)) here)
        exact (h.ok.fits es inside).names e entry
      refine ⟨h.ok,h.there,fun e' member => ?_,fun e' member => ?_,fun row member early => ?_,fun row member late => ?_,?_,?_⟩
      · rcases List.mem_append.mp member with member | member
        · exact h.was e' member
        · obtain rfl := List.mem_singleton.mp member
          exact bound
      · rcases List.mem_append.mp member with member | member
        · exact h.good e' member
        · obtain rfl := List.mem_singleton.mp member
          exact good
      · rw [cut'.split] at member
        rcases List.mem_append.mp member with member' | member'
        · rcases List.mem_append.mp member' with member' | member'
          · refine List.mem_append_left _ (h.before row ?_ (cut.before row member'))
            rw [cut'.split]
            exact member
          · obtain rfl := List.mem_singleton.mp member'
            exact List.mem_append_right _ (List.mem_singleton.mpr rfl)
        · have := cut'.behind row member'
          dsimp only at early
          omega
      · dsimp only at late
        have old := h.behind row member ((cut.behind _ List.mem_cons_self).trans (by omega))
        intro seen
        rcases List.mem_append.mp seen with seen | seen
        · exact old seen
        · -- the same entry at two places
          have same := List.mem_singleton.mp seen
          have distinct : (rowsFrom 0 blocks).Pairwise fun a b => a.2.1 ≠ b.2.1 := by
            have names := h.ok.distinct
            rw [← map_snd_rowsFrom (k := 0),List.map_map,List.nodup_iff_pairwise_ne,List.pairwise_map]
              at names
            exact names
          rw [cut'.split,List.append_assoc,List.pairwise_append,List.singleton_append,
            List.pairwise_cons] at distinct
          rw [cut'.split] at member
          rcases List.mem_append.mp member with member | member
          · have := cut'.before row member
            omega
          · exact distinct.2.1.1 row member (by rw [same])
      · exact List.nodup_append.mpr ⟨h.once,List.nodup_singleton _,fun a one b two => by
          intro same
          rw [same,List.mem_singleton.mp two] at one
          exact fresh one⟩
      · exact h.ok.toDirectory.offset_small (cut.offset_le h.ok.fits)

theorem Scanned.remove (h : Scanned directory parent m st node blocks)
    (step : ScanStep directory st (.remove name) st')
    (safe : (ScanCall.remove name).Safe directory st) :
    ∃ node' blocks', Scanned directory parent m st' node' blocks' := by
  cases step with
  | remove seen ran =>
    rename_i res s'
    obtain ⟨⟨_,number⟩,returned,rfl⟩ := List.mem_map.mp seen
    dsimp only at ran safe ⊢
    have unchanged (same : s' = st.store) :
        ∃ node' blocks', Scanned directory parent m { st with store := s' } node' blocks' := by
      rw [same]
      exact ⟨node,blocks,h⟩
    rename_i name
    by_cases self : name = dot
    · rw [self,dirRemove_dot h.ok.toDirectory h.ok.some] at ran
      cases ran
      exact unchanged rfl
    by_cases up : name = dotdot
    · rw [up,dirRemove_dotdot h.ok.toDirectory h.ok.some] at ran
      cases ran
      exact unchanged rfl
    obtain ⟨res',s'',ran',removed⟩ := dirRemove_spec h.ok.toDirectory h.ok.some (h.good _ returned)
      ⟨self,up⟩
    rw [ran,Except.ok.injEq,Prod.mk.injEq] at ran'
    obtain ⟨rfl,rfl⟩ := ran'
    rcases removed.keeps h.ok ⟨self,up⟩ with ⟨same,_⟩ | ⟨_,blocks',_,ok',perm,_,place,here,closes⟩
    · exact unchanged same
    · have there : ∀ e ∈ blocks'.flatten, e ∈ blocks.flatten := fun e member =>
        perm.mem_iff.mpr (List.mem_cons_of_mem _ member)
      -- the name has been returned, so that its entry is before the offset
      have bound : (name,res) = (name,number) := by
        have := h.there (name,res) (perm.mem_iff.mpr List.mem_cons_self)
        rw [h.was _ returned,Option.some.injEq] at this
        exact Prod.ext rfl this.symm
      have early : place < st.offset := by
        rw [bound] at here
        by_contra late
        exact h.behind _ here (not_lt.mp late) returned
      refine ⟨_,blocks',ok',fun e member => h.there e (there e member),h.was,h.good,
        fun row member low => ?_,fun row member high => ?_,h.once,h.small⟩
      all_goals
        obtain ⟨place',e⟩ := row
        obtain ⟨old,was,same | ⟨next,behind,block⟩⟩ := closes _ member
        dsimp only at was
      · exact h.before (old,e) was (same ▸ low)
      · refine h.before (old,e) was ?_
        by_contra late
        obtain rfl : old = st.offset := by
          dsimp only at low next late
          omega
        have le : place / entriesPerDirBlock * blocksize ≤ st.offset / entriesPerDirBlock * blocksize :=
          Nat.mul_le_mul_right _ (Nat.div_le_div_right early.le)
        exact safe self up ⟨place,early,block,h.ok.entryAt here (le.trans_lt h.small),_,
          h.ok.entryAt was h.small⟩
      · exact h.behind (old,e) was (same ▸ high)
      · refine h.behind (old,e) was ?_
        dsimp only at high next ⊢
        omega

theorem Scanned.run (h : ∃ node blocks, Scanned directory parent m st node blocks)
    (run : ReflTransGen (fun st st' => ∃ call, ScanStep directory st call st' ∧ call.Safe directory st)
      st st') : ∃ node blocks, Scanned directory parent m st' node blocks := by
  induction run with
  | refl => exact h
  | tail _ step ih =>
    obtain ⟨node,blocks,kept⟩ := ih
    obtain ⟨call,step,safe⟩ := step
    cases call with
    | next => exact ⟨node,blocks,kept.next step⟩
    | remove name => exact kept.remove step safe

theorem HoldsMap.scanned {s : Store} (h : HoldsMap s directory parent m) :
    ∃ node blocks, Scanned directory parent m ⟨s,0,[]⟩ node blocks := by
  obtain ⟨node,blocks,ok,same⟩ := h.ok
  refine ⟨node,blocks,ok,fun e member => ?_,nofun,nofun,fun _ _ early => absurd early (Nat.not_lt_zero _),
    fun _ _ _ => List.not_mem_nil,List.nodup_nil,by simp⟩
  rw [same]
  exact (lookup_iff ok.distinct).mpr member

/-- Every removal of a listing being safe, what the directory holds from its start to its end is
returned once, and no call fails. -/
theorem scan_complete {s : Store} (h : HoldsMap s directory parent m)
    (run : ReflTransGen (fun st st' => ∃ call, ScanStep directory st call st' ∧ call.Safe directory st)
      ⟨s,0,[]⟩ st) : ∃ m', HoldsMap st.store directory parent m' ∧
      ∃ offset number name', dirEnumerate st.store directory st.offset (nameMax + 1) =
        .ok (offset,number,name') ∧ 0 ≤ offset ∧ (offset = 0 →
          ∀ name target, m name = some target → m' name = some target →
            st.returned.count (name,target) = 1) := by
  obtain ⟨node,blocks,kept⟩ := Scanned.run h.scanned run
  have holds : HoldsMap st.store directory parent fun name => blocks.flatten.lookup name :=
    ⟨node,blocks,kept.ok,fun _ => rfl⟩
  have found := dirEnumerate_spec kept.ok.toDirectory kept.small
  obtain ⟨done,rest,cut⟩ := exists_cut kept.ok.fits st.offset
  cases rest with
  | cons row rest =>
    rw [cut.next_row] at found
    refine ⟨_,holds,_,_,_,found,by omega,fun stop => ?_⟩
    omega
  | nil =>
    rw [cut.next_none] at found
    refine ⟨_,holds,_,_,_,found,le_rfl,fun _ name target _ bound => ?_⟩
    have member : (name,target) ∈ (rowsFrom 0 blocks).map (·.2) := by
      rw [map_snd_rowsFrom]
      exact (lookup_iff kept.ok.distinct).mp bound
    obtain ⟨row,inside,same⟩ := List.mem_map.mp member
    have early : row.1 < st.offset :=
      cut.before row (by rw [cut.split,List.append_nil] at inside; exact inside)
    rw [← same]
    exact List.count_eq_one_of_mem kept.once (kept.before row inside early)

end

end CandyFs

/-! A directory of four entries in a store of a few blocks. -/
namespace CandyFs
open Relation

section
variable [Geometry] {s s' : Store} {directory parent target res : Int} {m : Bindings} {name : Name}

theorem HoldsMap.bound (h : HoldsMap s directory parent m) (good : GoodName name)
    (found : dirLookup s directory name = .ok target) (bound : 0 ≤ target) : m name = some target := by
  have looked := h.reads.lookup name good
  rw [found,Except.ok.injEq] at looked
  cases held : m name with
  | none =>
    rw [looked,held] at bound
    exact absurd bound (by decide)
  | some other => rw [looked,held,Option.getD_some]

/-- The store a call leaves. -/
def storeAfter (ran : Try (Int × Store)) : Store :=
  match ran with
  | .ok (_,s) => s
  | .error _ => ⟨fun _ => none,0,[],0,fun _ => 0,[]⟩

theorem HoldsMap.after (h : HoldsMap s directory parent m) (call : DirCall) (proper : call.Proper) :
    (∃ res, call.run s directory = .ok (res,storeAfter (call.run s directory))) ∧
    ∃ m', HoldsMap (storeAfter (call.run s directory)) directory parent m' := by
  obtain ⟨res,s',m',ran,_,held⟩ := h.step call proper
  rw [ran]
  exact ⟨⟨res,rfl⟩,m',held⟩

end

attribute [local instance] Geometry.small

def tinyDir : Store := storeAfter (dirCreate tinyStore 0)
def tinyDirA : Store := storeAfter (DirCall.run tinyDir 0 (.insert [97] 5))
def tinyDirAB : Store := storeAfter (DirCall.run tinyDirA 0 (.insert [98] 7))
def tinyDirB : Store := storeAfter (DirCall.run tinyDirAB 0 (.remove [97]))

theorem tinyDir_holds : ∃ m, HoldsMap tinyDir 0 0 m := by
  have made : (match dirCreate tinyStore 0 with
      | .ok (directory,_) => decide (directory = 0)
      | .error _ => false) = true := by decide +kernel
  obtain ⟨res,s',ran,created⟩ := dirCreate_spec tinyStore_sound 0
  rw [ran] at made
  obtain rfl : res = 0 := of_decide_eq_true made
  rw [tinyDir,ran]
  exact ⟨_,created.holds tinyStore_sound ⟨⟨by decide,by decide⟩,by decide⟩ le_rfl⟩

theorem tinyDirAB_holds : ∃ m, HoldsMap tinyDirAB 0 0 m := by
  have good : GoodTarget 5 ∧ GoodTarget 7 :=
    ⟨⟨⟨by decide,by decide⟩,by decide⟩,⟨⟨by decide,by decide⟩,by decide⟩⟩
  obtain ⟨_,h⟩ := tinyDir_holds
  obtain ⟨_,_,hA⟩ := h.after (.insert [97] 5) ⟨by decide,good.1⟩
  exact (hA.after (.insert [98] 7) ⟨by decide,good.2⟩).2

def tinyDots : List Binding := [(dotdot,0),(dot,0)]

theorem tiny_listed : ReflTransGen (fun st st' => ∃ call, ScanStep 0 st call st' ∧ call.Safe 0 st)
    ⟨tinyDirAB,0,[]⟩ ⟨tinyDirAB,3,tinyDots ++ [([97],5)]⟩ := by
  have first : ScanStep 0 ⟨tinyDirAB,0,[]⟩ .next ⟨tinyDirAB,1,[(dotdot,0)]⟩ :=
    .next (by decide +kernel) (by decide)
  have second : ScanStep 0 ⟨tinyDirAB,1,[(dotdot,0)]⟩ .next ⟨tinyDirAB,2,tinyDots⟩ :=
    .next (by decide +kernel) (by decide)
  have third : ScanStep 0 ⟨tinyDirAB,2,tinyDots⟩ .next ⟨tinyDirAB,3,tinyDots ++ [([97],5)]⟩ :=
    .next (by decide +kernel) (by decide)
  exact ((ReflTransGen.single ⟨_,first,trivial⟩).tail ⟨_,second,trivial⟩).tail ⟨_,third,trivial⟩

/-- Once `a` is removed, the entry of `b` is before the offset, and it is never returned. -/
theorem scan_incomplete : ∃ (m m' : Bindings) (st : ScanState), HoldsMap tinyDirAB 0 0 m ∧
    ReflTransGen (fun st st' => ∃ call, ScanStep 0 st call st') ⟨tinyDirAB,0,[]⟩ st ∧
    HoldsMap st.store 0 0 m' ∧ dirEnumerate st.store 0 st.offset (nameMax + 1) = .ok (0,0,[]) ∧
    m [98] = some 7 ∧ m' [98] = some 7 ∧ st.returned.count ([98],7) = 0 := by
  obtain ⟨m,h⟩ := tinyDirAB_holds
  obtain ⟨⟨res,ran⟩,m',h'⟩ := h.after (.remove [97]) (by decide : GoodName [97])
  have removed : ScanStep 0 ⟨tinyDirAB,3,tinyDots ++ [([97],5)]⟩ (.remove [97])
      ⟨tinyDirB,3,tinyDots ++ [([97],5)]⟩ := .remove (by decide) ran
  have run : ReflTransGen (fun st st' => ∃ call, ScanStep 0 st call st') ⟨tinyDirAB,0,[]⟩
      ⟨tinyDirB,3,tinyDots ++ [([97],5)]⟩ := by
    refine ReflTransGen.tail (ReflTransGen.mono ?_ _ _ tiny_listed) ⟨_,removed⟩
    rintro st st' ⟨call,step,_⟩
    exact ⟨call,step⟩
  exact ⟨m,m',_,h,run,h',by decide +kernel,h.bound (by decide) (by decide +kernel) (by decide),
    h'.bound (by decide) (by decide +kernel) (by decide),by decide⟩

theorem scan_complete_tiny : ∃ m m', HoldsMap tinyDirAB 0 0 m ∧ HoldsMap tinyDirB 0 0 m' ∧
    ∃ offset number name, dirEnumerate tinyDirB 0 4 (nameMax + 1) = .ok (offset,number,name) ∧
      0 ≤ offset ∧ (offset = 0 → ∀ name target, m name = some target → m' name = some target →
        (tinyDots ++ [([97],5),([98],7)]).count (name,target) = 1) := by
  obtain ⟨m,h⟩ := tinyDirAB_holds
  obtain ⟨⟨res,ran⟩,_⟩ := h.after (.remove [97]) (by decide : GoodName [97])
  have fourth : ScanStep 0 ⟨tinyDirAB,3,tinyDots ++ [([97],5)]⟩ .next
      ⟨tinyDirAB,4,tinyDots ++ [([97],5),([98],7)]⟩ := .next (by decide +kernel) (by decide)
  have removed : ScanStep 0 ⟨tinyDirAB,4,tinyDots ++ [([97],5),([98],7)]⟩ (.remove [97])
      ⟨tinyDirB,4,tinyDots ++ [([97],5),([98],7)]⟩ := .remove (by decide) ran
  have safe : ¬Shifts tinyDirAB 0 4 [97] := by
    rintro ⟨_,_,_,_,_,number,ran⟩
    have none : dirEnumerate tinyDirAB 0 4 (nameMax + 1) = .ok (0,0,[]) := by decide +kernel
    have same := ran.symm.trans none
    rw [Except.ok.injEq,Prod.mk.injEq] at same
    omega
  obtain ⟨m',h',offset,number,name,found,rest⟩ := scan_complete h
    ((tiny_listed.tail ⟨_,fourth,trivial⟩).tail ⟨_,removed,fun _ _ => safe⟩)
  exact ⟨m,m',h,h',offset,number,name,found,rest⟩

end CandyFs
