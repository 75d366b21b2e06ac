import CandyFs.DirRuns

/-! When a directory takes a further block.
-/
namespace CandyFs
open Store (Affords cost)

section
variable [Geometry] {s : Store} {directory parent target : Int} {node : Node}
  {blocks : List (List Binding)} {name : Name}

/-- A `dir_insert` that succeeds makes the directory longer only if none of its blocks has room for
the entry; otherwise it stores the entry in one of those that have. -/
def GrowsWhenFull (s : Store) (directory : Int) (node : Node) (blocks : List (List Binding))
    (name : Name) (target : Int) : Prop :=
  ∀ s', dirInsert s directory name target = .ok (0,s') → ∃ node', s'.inode directory = some node' ∧
    (node.size < node'.size → ∀ es ∈ blocks, ¬HasRoom es name) ∧
    ((∃ es ∈ blocks, HasRoom es name) → ∃ front es back, blocks = front ++ es :: back ∧
      HasRoom es name ∧ ShowsDir node' (front ++ (es ++ [(name,target)]) :: back))

/-- Only emptied blocks have room for an entry with the name, and a further block can be had. -/
def OnlyEmptied (s : Store) (node : Node) (blocks : List (List Binding)) (name : Name) : Prop :=
  [] ∈ blocks ∧ (∀ es ∈ blocks, es ≠ [] → ¬HasRoom es name) ∧
    Affords s.freeBlocks node.size (node.size + blocksize)

theorem Directory.size_append (dir : Directory s directory node blocks) (es : List Binding) :
    node.size < (node.showing (blocks ++ [es])).size := by
  have pos := blocksize_pos
  rw [dir.shown.size,showing_size,List.length_append,List.length_singleton]
  push_cast
  linarith [(Int.natCast_pos (n := blocksize)).mpr pos]

/-- An emptied block is passed over: its names take no space, and only a block whose names take more
than those of the best one so far is better. -/
theorem OnlyEmptied.grows (emptied : OnlyEmptied s node blocks name)
    (dir : Directory s directory node blocks) (good : GoodName name)
    (free : blocks.flatten.lookup name = none) (target : Int) :
    dirInsert s directory name target =
      .ok (0,s.refile directory node (node.showing (blocks ++ [[(name,target)]]))) := by
  obtain ⟨empty,full,afforded⟩ := emptied
  obtain ⟨res,s',ran,inserted⟩ := dirInsert_spec dir (List.ne_nil_of_mem empty) good target
  cases inserted with
  | exist bound => exact absurd free bound
  | slot front es back split _ used room => exact absurd room (full es (by simp [split]) used)
  | block _ _ _ => exact ran
  | nospace _ _ short => exact absurd afforded short

theorem OnlyEmptied.breaks (emptied : OnlyEmptied s node blocks name)
    (dir : Directory s directory node blocks) (good : GoodName name)
    (free : blocks.flatten.lookup name = none) (target : Int) :
    ¬GrowsWhenFull s directory node blocks name target := by
  intro grows
  obtain ⟨node',named,full,_⟩ := grows _ (emptied.grows dir good free target)
  obtain rfl := Option.some.inj ((Store.set_inode_self ..).symm.trans named)
  exact full (dir.size_append _) [] emptied.1 (hasRoom_nil good)

/-- A directory grows only when it has to, unless an emptied block is all that has room. -/
theorem insert_grows_when_full (ok : DirOk s directory node blocks parent) (good : GoodName name)
    (free : blocks.flatten.lookup name = none) :
    GrowsWhenFull s directory node blocks name target ↔ ¬OnlyEmptied s node blocks name := by
  constructor
  · intro grows emptied
    exact emptied.breaks ok.toDirectory good free target grows
  · intro some s' ran
    obtain ⟨res,s1,ran',inserted⟩ := dirInsert_spec ok.toDirectory ok.some good target
    rw [ran,Except.ok.injEq,Prod.mk.injEq] at ran'
    obtain ⟨rfl,rfl⟩ := ran'
    generalize succeeded : (0 : Int) = res at inserted
    cases inserted with
    | exist bound => exact absurd free bound
    | nospace _ _ _ => exact absurd succeeded (by decide)
    | slot front es back split _ used room =>
      refine ⟨_,Store.set_inode_self ..,fun longer => ?_,fun _ =>
        ⟨front,es,back,split,room,showsDir_showing⟩⟩
      rw [ok.shown.size,showing_size,split] at longer
      simp at longer
    | block _ full afforded =>
      -- a block with room could only be an emptied one
      have none : ∀ es ∈ blocks, ¬HasRoom es name := fun es member => by
        cases es with
        | nil => exact absurd ⟨member,full,afforded⟩ some
        | cons e es => exact full _ member (List.cons_ne_nil _ _)
      exact ⟨_,Store.set_inode_self ..,fun _ => none,fun ⟨es,member,room⟩ =>
        absurd room (none es member)⟩

end

end CandyFs

/-! A directory of three full blocks that has lost the only entry of the second. -/
namespace CandyFs
attribute [local instance] Geometry.small

def longName (c : UInt8) : Name := List.replicate 255 c

def emptiedBlocks : List (List Binding) := [dots 0 0 ++ [(longName 97,5)],[],[(longName 99,7)]]

def emptiedNode : Node :=
  Node.showing { Store.freshNode with mode := sIFDIR ||| 0o777 } emptiedBlocks

def emptiedStore : Store := { tinyStore.set 0 emptiedNode with freeInodes := [1,2], freeBlocks := 8 }

theorem longName_good (c : UInt8) (some : c ≠ 0) : GoodName (longName c) where
  some := List.cons_ne_nil _ _
  short := (List.length_replicate ..).le
  noNul := fun member => some (List.eq_of_mem_replicate member).symm

theorem emptiedDir_ok : DirOk emptiedStore 0 emptiedNode emptiedBlocks 0 where
  named := rfl
  isDir := by decide
  shown := showsDir_showing
  fits := by
    have target (n : Int) (low : 0 ≤ n) (high : n < 8) : GoodTarget n :=
      ⟨⟨by omega,by omega⟩,ne_eof low⟩
    intro es member
    simp only [emptiedBlocks,List.mem_cons,List.not_mem_nil,or_false] at member
    rcases member with rfl | rfl | rfl
    · refine ⟨by decide +kernel,by decide +kernel,?_,?_⟩
      · simp only [dots,List.cons_append,List.nil_append,List.forall_mem_cons]
        exact ⟨by decide,by decide,longName_good _ (by decide),fun _ none => absurd none List.not_mem_nil⟩
      · simp only [dots,List.cons_append,List.nil_append,List.forall_mem_cons]
        exact ⟨target _ (by omega) (by omega),target _ (by omega) (by omega),
          target _ (by omega) (by omega),fun _ none => absurd none List.not_mem_nil⟩
    · exact blockFits_nil
    · refine ⟨by decide +kernel,by decide +kernel,?_,?_⟩
      · simp only [List.forall_mem_cons]
        exact ⟨longName_good _ (by decide),fun _ none => absurd none List.not_mem_nil⟩
      · simp only [List.forall_mem_cons]
        exact ⟨target _ (by omega) (by omega),fun _ none => absurd none List.not_mem_nil⟩
  top := by decide
  start := ⟨[(longName 97,5)],[[],[(longName 99,7)]],rfl⟩
  distinct := by decide +kernel

theorem emptiedDir_onlyEmptied (c : UInt8) : OnlyEmptied emptiedStore emptiedNode emptiedBlocks (longName c) := by
  refine ⟨by decide +kernel,?_,by decide +kernel⟩
  intro es member
  simp only [emptiedBlocks,List.mem_cons,List.not_mem_nil,or_false] at member
  have long : (longName c).length = 255 := List.length_replicate ..
  rcases member with rfl | rfl | rfl
  · intro _ room
    have := room.2
    rw [long] at this
    exact absurd this (by decide +kernel)
  · exact fun used => absurd rfl used
  · intro _ room
    have := room.2
    rw [long] at this
    exact absurd this (by decide +kernel)

/-- The fourth long name gets a fourth block although the second one is empty. -/
theorem emptied_block_passed_over : DirOk emptiedStore 0 emptiedNode emptiedBlocks 0 ∧
    GoodName (longName 100) ∧ emptiedBlocks.flatten.lookup (longName 100) = none ∧
    ¬GrowsWhenFull emptiedStore 0 emptiedNode emptiedBlocks (longName 100) 8 := by
  have good := longName_good 100 (by decide)
  have free : emptiedBlocks.flatten.lookup (longName 100) = none := by decide +kernel
  exact ⟨emptiedDir_ok,good,free,
    (emptiedDir_onlyEmptied 100).breaks emptiedDir_ok.toDirectory good free 8⟩

theorem insert_grows_when_full_emptied :
    GrowsWhenFull emptiedStore 0 emptiedNode emptiedBlocks [100] 8 ↔
      ¬OnlyEmptied emptiedStore emptiedNode emptiedBlocks [100] :=
  insert_grows_when_full emptiedDir_ok (by decide) (by decide +kernel)

end CandyFs
