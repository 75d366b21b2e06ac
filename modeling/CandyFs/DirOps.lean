import CandyFs.DirBlock

/-! A directory as a list of blocks of bindings: what reading and writing a block is for it, and
what each function of `dir.c` returns and leaves.
-/
namespace CandyFs
open Bytes DirMapBlock
open Store (Affords cost set_same)

variable [Geometry]

/-- The byte at `a` of a directory with these blocks. -/
def dirByte (blocks : List (List Binding)) (a : Nat) : UInt8 :=
  encode (blocks.getD (a / blocksize) []) (a % blocksize)

/-- The bytes of the node are those of the blocks. -/
structure ShowsDir (node : Node) (blocks : List (List Binding)) : Prop where
  size : node.size = blocks.length * blocksize
  bytes : ∀ a < blocks.length * blocksize, node.byte a = dirByte blocks a

/-- The node with the bytes of the blocks. -/
def Node.showing (node : Node) (blocks : List (List Binding)) : Node :=
  node.refill (blocks.length * blocksize) (dirByte blocks)

/-- The store with another node of another size for `inumber`. -/
def Store.refile (s : Store) (inumber : Int) (node node' : Node) : Store :=
  { s.set inumber node' with freeBlocks := s.freeBlocks + cost node.size - cost node'.size }

/-- A directory with well-formed blocks. -/
structure Directory (s : Store) (directory : Int) (node : Node) (blocks : List (List Binding)) :
    Prop where
  named : s.inode directory = some node
  isDir : sISDIR node.mode
  shown : ShowsDir node blocks
  fits : ∀ es ∈ blocks, BlockFits es
  top : node.size ≤ maxFilesize

section
variable {s : Store} {directory : Int} {node node' : Node} {blocks front back : List (List Binding)}
  {es es' before after : List Binding} {block buffer : Block} {name : Name} {target : Int} {a j n fuel : Nat}

theorem blocksize_pos : 0 < blocksize := Nat.lt_of_lt_of_le (by decide) blocksize_large

@[simp] theorem showing_mode : (node.showing blocks).mode = node.mode := rfl
@[simp] theorem showing_owner : (node.showing blocks).owner = node.owner := rfl
@[simp] theorem showing_group : (node.showing blocks).group = node.group := rfl
@[simp] theorem showing_nlinks : (node.showing blocks).nlinks = node.nlinks := rfl
@[simp] theorem showing_size : (node.showing blocks).size = blocks.length * blocksize := rfl

theorem showing_byte (inside : a < blocks.length * blocksize) :
    (node.showing blocks).byte a = dirByte blocks a := by
  rw [Node.showing,Node.refill_byte,← Nat.cast_mul,Int.toNat_natCast,if_pos inside]

theorem showsDir_showing : ShowsDir (node.showing blocks) blocks := ⟨rfl,fun _ => showing_byte⟩

@[simp] theorem showing_showing : (node.showing blocks).showing front = node.showing front := rfl

theorem ShowsDir.eq_showing (size : node'.size = blocks.length * blocksize)
    (same : node'.mode = node.mode ∧ node'.owner = node.owner ∧ node'.group = node.group ∧
      node'.nlinks = node.nlinks)
    (bytes : ∀ a < blocks.length * blocksize, node'.byte a = dirByte blocks a) :
    node' = node.showing blocks := by
  obtain ⟨mode,owner,group,nlinks⟩ := same
  refine Node.ext mode owner group nlinks size fun a inside => ?_
  rw [size,← Nat.cast_mul,Int.toNat_natCast] at inside
  rw [bytes a inside,showing_byte inside]

theorem ShowsDir.eq (shown : ShowsDir node blocks) : node.showing blocks = node :=
  (eq_showing shown.size ⟨rfl,rfl,rfl,rfl⟩ shown.bytes).symm

theorem dirByte_block (inside : j < blocksize) :
    dirByte (front ++ es :: back) (front.length * blocksize + j) = encode es j := by
  have row : (front.length * blocksize + j) / blocksize = front.length := by
    rw [Nat.mul_comm,Nat.mul_add_div blocksize_pos,Nat.div_eq_of_lt inside,Nat.add_zero]
  have column : (front.length * blocksize + j) % blocksize = j := by
    rw [Nat.mul_comm,Nat.mul_add_mod,Nat.mod_eq_of_lt inside]
  rw [dirByte,row,column,List.getD_append_right _ _ _ _ le_rfl,Nat.sub_self]
  rfl

theorem dirByte_other (outside : a < front.length * blocksize ∨
    front.length * blocksize + blocksize ≤ a) :
    dirByte (front ++ es :: back) a = dirByte (front ++ es' :: back) a := by
  rw [dirByte,dirByte]
  congr 1
  rcases outside with before | behind
  · have row : a / blocksize < front.length := (Nat.div_lt_iff_lt_mul blocksize_pos).mpr before
    rw [List.getD_append _ _ _ _ row,List.getD_append _ _ _ _ row]
  · have row : front.length + 1 ≤ a / blocksize := by
      rw [Nat.le_div_iff_mul_le blocksize_pos,Nat.succ_mul]
      exact behind
    obtain ⟨k,next⟩ : ∃ k, a / blocksize - front.length = k + 1 :=
      ⟨a / blocksize - front.length - 1,by omega⟩
    rw [List.getD_append_right _ _ _ _ (by omega),List.getD_append_right _ _ _ _ (by omega),next]
    rfl

theorem dirByte_front (inside : a < front.length * blocksize) :
    dirByte (front ++ back) a = dirByte front a := by
  have row : a / blocksize < front.length := (Nat.div_lt_iff_lt_mul blocksize_pos).mpr inside
  rw [dirByte,dirByte,List.getD_append _ _ _ _ row]

theorem block_inside : front.length * blocksize + blocksize ≤
    (front ++ es :: back).length * blocksize := by
  rw [List.length_append,List.length_cons,← Nat.succ_mul]
  exact Nat.mul_le_mul_right _ (by omega)

theorem Directory.read (dir : Directory s directory node (front ++ es :: back)) (buffer : Block) :
    ∃ block, s.inodeRead directory (front.length * blocksize) buffer blocksize =
      ((blocksize : Int),block) ∧ Shows block es := by
  have inside : front.length * blocksize + blocksize ≤ (front ++ es :: back).length * blocksize :=
    block_inside
  have pos := blocksize_pos
  have size := dir.shown.size
  have small : min ((front.length : Int) * blocksize + blocksize) node.size =
      front.length * blocksize + blocksize := by
    rw [size]
    refine min_eq_left ?_
    exact_mod_cast inside
  have start : ((front.length : Int) * blocksize).toNat = front.length * blocksize := by
    rw [← Nat.cast_mul,Int.toNat_natCast]
  refine ⟨copyBytes buffer 0 node.byte (front.length * blocksize) blocksize,?_,fun j low => ?_⟩
  · simp only [Store.inodeRead,dir.named,small,start]
    rw [if_neg (by omega),add_sub_cancel_left,Int.toNat_natCast]
  · rw [copyBytes_inside _ _ _ _ _ _ (Nat.zero_le _) (by omega),Nat.sub_zero,
      dir.shown.bytes _ (by omega),dirByte_block low]

theorem Directory.read_end (dir : Directory s directory node blocks) (buffer : Block) :
    s.inodeRead directory (blocks.length * blocksize) buffer blocksize = (0,buffer) := by
  have size := dir.shown.size
  simp only [Store.inodeRead,dir.named]
  rw [if_pos (by omega)]

theorem Directory.overwrite (dir : Directory s directory node (front ++ es :: back))
    (shown : Shows block es') :
    s.inodeWrite directory (front.length * blocksize) (some block) blocksize =
      .ok (blocksize,s.refile directory node (node.showing (front ++ es' :: back))) := by
  have inside : front.length * blocksize + blocksize ≤ (front ++ es :: back).length * blocksize :=
    block_inside
  have pos := blocksize_pos
  have size := dir.shown.size
  have same : (front ++ es' :: back).length = (front ++ es :: back).length := by simp
  have cast : ((front ++ es :: back).length * blocksize : Int) =
      ((front ++ es :: back).length * blocksize : Nat) := by rw [Nat.cast_mul]
  have start : ((front.length : Int) * blocksize) = (front.length * blocksize : Nat) := by
    rw [Nat.cast_mul]
  simp only [Store.inodeWrite,dir.named]
  rw [if_neg (show ¬(front.length * blocksize : Int) = -1 by omega),
    if_neg (show ¬(front.length * blocksize + blocksize : Int) > node.size by omega),Store.writeRange,
    if_neg (by omega),add_sub_cancel_left,check_true (show (blocksize : Int) ≥ 0 by omega),ok_bind]
  have stored : (node.refill node.size fun a =>
      if (front.length * blocksize : Int) ≤ a ∧ (a : Int) < front.length * blocksize then 0
      else if (front.length * blocksize : Int) ≤ a ∧ (a : Int) < front.length * blocksize + blocksize
        then source (some block) ((a : Int) - front.length * blocksize).toNat else node.byte a) =
      node.showing (front ++ es' :: back) := by
    refine ShowsDir.eq_showing (by rw [Node.refill_size,size,same]) ⟨rfl,rfl,rfl,rfl⟩ fun a low => ?_
    rw [same] at low
    rw [Node.refill_byte,if_pos (by omega),if_neg (by omega)]
    split
    · obtain ⟨j,rfl⟩ : ∃ j, a = front.length * blocksize + j := ⟨a - front.length * blocksize,by omega⟩
      rw [dirByte_block (by omega),← shown j (by omega)]
      exact congrArg block (by omega)
    · rw [dir.shown.bytes a low]
      exact dirByte_other (by omega)
  have room : s.freeBlocks + cost node.size - cost (node.showing (front ++ es' :: back)).size =
      s.freeBlocks := by
    rw [showing_size,same,← size,Nat.add_sub_cancel]
  rw [stored,Store.refile,room]
  rfl

theorem Directory.append (dir : Directory s directory node blocks) (shown : Shows block es) :
    s.inodeWrite directory (blocks.length * blocksize) (some block) blocksize =
      .ok (if Affords s.freeBlocks node.size (node.size + blocksize) then
        ((blocksize : Int),s.refile directory node (node.showing (blocks ++ [es]))) else (0,s)) := by
  have pos := blocksize_pos
  have size := dir.shown.size
  have top := dir.top
  have next : node.size + blocksize = (blocks.length + 1 : Nat) * (blocksize : Int) := by
    rw [size]
    push_cast
    ring
  have nonneg : 0 ≤ node.size := by
    rw [size]
    positivity
  have count : blockcount node.size = blocks.length := by rw [size,blockcount_mul]
  have proper : ¬blockcount (min (node.size + blocksize) maxFilesize) < 0 :=
    not_lt.mpr (blockcount_nonneg (by omega))
  simp only [Store.inodeWrite,dir.named,← size]
  rw [if_neg (show ¬node.size = -1 by omega),if_pos (show node.size + blocksize > node.size by omega),
    if_neg (lt_irrefl _),Store.inodeSetsize,dir.named]
  simp only [if_neg proper]
  by_cases afforded : Affords s.freeBlocks node.size (node.size + blocksize)
  · simp only [if_pos afforded]
    rw [extent_afforded (by omega) afforded,if_neg (by omega),check_true (le_refl _),ok_bind,
      if_neg (lt_irrefl _),Store.writeRange,if_neg (by omega),add_sub_cancel_left,
      check_true (show (blocksize : Int) ≥ 0 by omega),ok_bind]
    have stored : ((node.resize (node.size + blocksize)).refill (node.size + blocksize) fun a =>
        if node.size ≤ (a : Int) ∧ (a : Int) < node.size then 0
        else if node.size ≤ (a : Int) ∧ (a : Int) < node.size + blocksize then
          source (some block) ((a : Int) - node.size).toNat
        else (node.resize (node.size + blocksize)).byte a) = node.showing (blocks ++ [es]) := by
      refine ShowsDir.eq_showing (by rw [Node.refill_size,next,List.length_append,List.length_singleton])
        ⟨rfl,rfl,rfl,rfl⟩ fun a low => ?_
      have cast : ((blocks ++ [es]).length * blocksize : Nat) = node.size + (blocksize : Int) := by
        rw [next,List.length_append,List.length_singleton]
        push_cast
        ring
      have base : node.size = (blocks.length * blocksize : Nat) := by rw [size,Nat.cast_mul]
      rw [Node.refill_byte,if_pos (by omega),if_neg (by omega)]
      split
      · obtain ⟨j,rfl⟩ : ∃ j, a = blocks.length * blocksize + j :=
          ⟨a - blocks.length * blocksize,by omega⟩
        rw [dirByte_block (by omega),← shown j (by omega)]
        exact congrArg block (by omega)
      · rw [Node.resize_byte,if_pos (by omega),dir.shown.bytes a (by omega),dirByte_front (by omega)]
    have sized : (node.showing (blocks ++ [es])).size = node.size + blocksize := by
      rw [showing_size,next,List.length_append,List.length_singleton]
    rw [Node.resize_size,stored,Store.refile,sized]
    simp only [Store.set,Function.update_idem]
  · simp only [if_neg afforded]
    have short := afforded
    rw [next,size] at short
    have stuck := extent_stuck (by rw [← size]; exact top) short
    rw [← next,← size] at stuck
    rw [stuck,if_neg (by omega),check_true (show node.size + blocksize ≥ node.size by omega),ok_bind,
      if_pos (show node.size + blocksize > node.size by omega),if_neg (lt_irrefl _),Store.writeRange,
      if_pos le_rfl,Node.resize_same,set_same _ _ _ dir.named,Nat.add_sub_cancel]

theorem inodeTruncate_cut {size : Int} (named : s.inode directory = some node)
    (top : node.size ≤ maxFilesize) (nonneg : 0 ≤ size) (le : size ≤ node.size) :
    s.inodeTruncate directory size = (size,s.refile directory node (node.resize size)) := by
  rw [Store.inodeTruncate,Store.inodeSetsize,named]
  dsimp only
  rw [if_neg (not_lt.mpr (blockcount_nonneg (by omega))),extent_cut nonneg le top]
  rfl

theorem Directory.truncate (dir : Directory s directory node (front ++ back)) :
    s.inodeTruncate directory (front.length * blocksize) =
      ((front.length : Int) * blocksize,s.refile directory node (node.showing front)) := by
  have size := dir.shown.size
  have top := dir.top
  have nonneg : (0 : Int) ≤ front.length * blocksize := by positivity
  have le : (front.length * blocksize : Int) ≤ node.size := by
    rw [size,List.length_append]
    exact_mod_cast Nat.mul_le_mul_right _ (Nat.le_add_right _ _)
  have stored : node.resize (front.length * blocksize) = node.showing front := by
    refine ShowsDir.eq_showing rfl ⟨rfl,rfl,rfl,rfl⟩ fun a low => ?_
    have inside : a < (front ++ back).length * blocksize := by
      rw [List.length_append]
      exact low.trans_le (Nat.mul_le_mul_right _ (Nat.le_add_right _ _))
    rw [Node.resize_byte,← Nat.cast_mul,Int.toNat_natCast,if_pos low,dir.shown.bytes a inside,
      dirByte_front low]
  rw [inodeTruncate_cut dir.named top nonneg le,stored]

theorem Directory.rounds (dir : Directory s directory node blocks) : blocks.length < dirFuel node := by
  rw [dirFuel,dir.shown.size,← Nat.cast_mul,Int.toNat_natCast,Nat.mul_div_cancel _ blocksize_pos]
  omega

theorem Directory.next_pos (es : List Binding) : (front.length : Int) * blocksize + blocksize =
    ((front ++ [es]).length : Int) * blocksize := by
  rw [List.length_append,List.length_singleton]
  push_cast
  ring

theorem BlockFits.search (fits : BlockFits es) (shown : Shows block es) (name : Name) :
    (es.lookup name = none ∧ scanBlock block name entriesPerDirBlock 0 0 =
      .ok (.done es.length (namesOf es).length)) ∨
    ∃ before target after, es = before ++ (name,target) :: after ∧ (∀ e ∈ before, e.1 ≠ name) ∧
      es.lookup name = some target ∧ word block before.length = target ∧
      scanBlock block name entriesPerDirBlock 0 0 = .ok (.hit before.length (namesOf before).length) := by
  cases found : es.lookup name with
  | none =>
    have absent : ∀ e ∈ es, e.1 ≠ name := fun e member same => by
      simpa [same] using List.lookup_eq_none_iff.mp found e member
    exact .inl ⟨rfl,scanBlock_done shown fits absent⟩
  | some target =>
    obtain ⟨before,after,split,absent⟩ := List.lookup_eq_some_iff.mp found
    have absent : ∀ e ∈ before, e.1 ≠ name := fun e member same => by
      simpa [same] using absent e member
    subst split
    exact .inr ⟨before,target,after,rfl,absent,rfl,shown.number_entry fits,
      scanBlock_hit shown fits absent⟩

theorem dirLookupLoop_spec (dir : Directory s directory node (front ++ back)) (name : Name)
    (buffer : Block) (enough : back.length < fuel) :
    dirLookupLoop s directory name fuel (front.length * blocksize) buffer =
      .ok ((back.flatten.lookup name).getD (-eNOENT)) := by
  have pos := blocksize_pos
  induction back generalizing front fuel buffer with
  | nil =>
    obtain ⟨fuel,rfl⟩ : ∃ m, fuel = m + 1 := ⟨fuel - 1,by omega⟩
    rw [List.append_nil] at dir
    rw [dirLookupLoop,dir.read_end]
    rfl
  | cons es back ih =>
    obtain ⟨fuel,rfl⟩ : ∃ m, fuel = m + 1 := ⟨fuel - 1,by omega⟩
    obtain ⟨block,read,shown⟩ := dir.read buffer
    have fits := dir.fits es (by simp)
    rw [dirLookupLoop,read]
    dsimp only
    rw [if_pos (by omega),List.flatten_cons,List.lookup_append]
    obtain ⟨absent,scanned⟩ | ⟨before,target,after,_,_,found,number,scanned⟩ :=
      fits.search shown name
    · rw [scanned,ok_bind,absent,Option.none_or]
      dsimp only
      rw [Directory.next_pos es]
      refine ih (by simpa using dir) block ?_
      rw [List.length_cons] at enough
      omega
    · rw [scanned,ok_bind,found]
      dsimp only
      rw [number]
      rfl

theorem dirLookup_spec (dir : Directory s directory node blocks) (short : name.length ≤ nameMax) :
    dirLookup s directory name = .ok ((blocks.flatten.lookup name).getD (-eNOENT)) := by
  have whole : Directory s directory node ([] ++ blocks) := dir
  have found := dirLookupLoop_spec whole name s.stack dir.rounds
  rw [List.length_nil,Nat.cast_zero,zero_mul] at found
  rw [dirLookup,dir.named]
  dsimp only
  rw [if_neg (not_not.mpr dir.isDir),if_neg (not_lt.mpr short),found]

/-- What the loop of `dir_insert` has found in the blocks it has seen. -/
inductive Best.Of (name : Name) (seen : List (List Binding)) (best : Best) : Prop where
  | none (pos : best.pos = -1) (nameoff : best.nameoff = 0)
      (full : ∀ es ∈ seen, es ≠ [] → ¬HasRoom es name)
  | some (front : List (List Binding)) (es : List Binding) (back : List (List Binding))
      (split : seen = front ++ es :: back) (used : es ≠ []) (room : HasRoom es name)
      (pos : best.pos = front.length * blocksize) (shown : Shows best.block es)
      (i : best.i = es.length) (nameoff : best.nameoff = (namesOf es).length)

omit [Geometry] in
theorem namesOf_pos (used : es ≠ []) : 0 < (namesOf es).length := by
  obtain ⟨e,es,rfl⟩ := List.exists_cons_of_ne_nil used
  rw [namesOf_cons,List.length_append,List.length_cons]
  omega

theorem Best.Of.next {best : Best} (h : best.Of name front) (shown : Shows block es) :
    Best.Of name (front ++ [es]) (if es.length < entriesPerDirBlock ∧
      namespacePerDirBlock - (namesOf es).length > name.length ∧ (namesOf es).length > best.nameoff
      then ⟨front.length * blocksize,block,es.length,(namesOf es).length⟩ else best) := by
  split
  · rename_i better
    refine .some front es [] rfl ?_ ⟨better.1,better.2.1⟩ rfl shown rfl rfl
    rintro rfl
    exact absurd better.2.2 (Nat.not_lt_zero _)
  · rename_i worse
    cases h with
    | none pos nameoff full =>
      refine .none pos nameoff fun es' member used room => ?_
      rcases List.mem_append.mp member with member | member
      · exact full es' member used room
      · obtain rfl := List.mem_singleton.mp member
        rw [nameoff] at worse
        exact worse ⟨room.1,room.2,namesOf_pos used⟩
    | some front' es' back' split used room pos shown' i nameoff =>
      exact .some front' es' (back' ++ [es]) (by simp [split]) used room pos shown' i nameoff

theorem dirInsertLoop_spec (dir : Directory s directory node (front ++ back)) {best : Best}
    (h : best.Of name front) (buffer : Block) (enough : back.length < fuel) :
    (back.flatten.lookup name ≠ none ∧
      dirInsertLoop s directory name fuel (front.length * blocksize) buffer best = .ok none) ∨
    back.flatten.lookup name = none ∧ ∃ best' : Best, best'.Of name (front ++ back) ∧
      dirInsertLoop s directory name fuel (front.length * blocksize) buffer best =
        .ok (some ((front ++ back).length * blocksize,best')) := by
  have pos := blocksize_pos
  induction back generalizing front fuel buffer best with
  | nil =>
    obtain ⟨fuel,rfl⟩ : ∃ m, fuel = m + 1 := ⟨fuel - 1,by omega⟩
    rw [List.append_nil] at dir ⊢
    refine .inr ⟨rfl,best,h,?_⟩
    rw [dirInsertLoop,dir.read_end]
    dsimp only
    rw [if_neg (by omega)]
  | cons es back ih =>
    obtain ⟨fuel,rfl⟩ : ∃ m, fuel = m + 1 := ⟨fuel - 1,by omega⟩
    obtain ⟨block,read,shown⟩ := dir.read buffer
    have fits := dir.fits es (by simp)
    rw [dirInsertLoop,read]
    dsimp only
    rw [if_pos rfl,List.flatten_cons,List.lookup_append]
    obtain ⟨absent,scanned⟩ | ⟨before,target,after,_,_,found,number,scanned⟩ :=
      fits.search shown name
    · rw [scanned,ok_bind,absent,Option.none_or]
      dsimp only
      rw [Directory.next_pos es]
      have fewer : back.length < fuel := by
        rw [List.length_cons] at enough
        omega
      have rest := ih (by simpa using dir) (h.next shown) block fewer
      simpa using rest
    · rw [scanned,ok_bind,found]
      exact .inl ⟨nofun,rfl⟩

/-- What `dir_insert` returns and leaves. -/
inductive Inserted (s : Store) (directory : Int) (node : Node) (blocks : List (List Binding))
    (name : Name) (target : Int) : Int → Store → Prop where
  | exist (bound : blocks.flatten.lookup name ≠ none) :
      Inserted s directory node blocks name target (-eEXIST) s
  | slot (front : List (List Binding)) (es : List Binding) (back : List (List Binding))
      (split : blocks = front ++ es :: back) (free : blocks.flatten.lookup name = none)
      (used : es ≠ []) (room : HasRoom es name) : Inserted s directory node blocks name target 0
        (s.refile directory node (node.showing (front ++ (es ++ [(name,target)]) :: back)))
  | block (free : blocks.flatten.lookup name = none)
      (full : ∀ es ∈ blocks, es ≠ [] → ¬HasRoom es name)
      (afforded : Affords s.freeBlocks node.size (node.size + blocksize)) :
      Inserted s directory node blocks name target 0
        (s.refile directory node (node.showing (blocks ++ [[(name,target)]])))
  | nospace (free : blocks.flatten.lookup name = none)
      (full : ∀ es ∈ blocks, es ≠ [] → ¬HasRoom es name)
      (short : ¬Affords s.freeBlocks node.size (node.size + blocksize)) :
      Inserted s directory node blocks name target (-eNOSPC) s

theorem Directory.size_le (dir : Directory s directory node blocks) (some : blocks ≠ []) :
    (blocksize : Int) ≤ node.size := by
  obtain ⟨es,rest,rfl⟩ := List.exists_cons_of_ne_nil some
  rw [dir.shown.size,List.length_cons]
  push_cast
  have : (0 : Int) ≤ rest.length * blocksize := by positivity
  linarith

theorem dirInsert_spec (dir : Directory s directory node blocks) (some : blocks ≠ [])
    (good : GoodName name) (target : Int) : ∃ res s', dirInsert s directory name target = .ok (res,s') ∧
      Inserted s directory node blocks name target res s' := by
  have pos := blocksize_pos
  have large := dir.size_le some
  have whole : Directory s directory node ([] ++ blocks) := dir
  have unset : Best.Of name [] ⟨-1,s.stack,0,0⟩ := .none rfl rfl nofun
  have loop := dirInsertLoop_spec whole unset s.stack dir.rounds
  simp only [List.length_nil,Nat.cast_zero,zero_mul,List.nil_append] at loop
  rw [dirInsert,dir.named]
  dsimp only
  rw [if_neg (not_not.mpr dir.isDir),if_neg (not_lt.mpr large),if_neg (not_lt.mpr good.short)]
  obtain ⟨bound,ran⟩ | ⟨free,best,found,ran⟩ := loop
  · rw [ran,ok_bind]
    exact ⟨_,_,rfl,.exist bound⟩
  · rw [ran,ok_bind]
    dsimp only
    cases found with
    | none position nameoff full =>
      have shown : Shows _ ([] ++ [(name,target)]) := shows_empty.add (hasRoom_nil good)
      rw [namesOf_nil,List.length_nil,List.length_nil] at shown
      rw [if_pos position]
      dsimp only
      rw [dir.append shown]
      by_cases afforded : Affords s.freeBlocks node.size (node.size + blocksize)
      · rw [if_pos afforded,ok_bind]
        exact ⟨_,_,if_neg (not_not.mpr rfl),.block free full afforded⟩
      · rw [if_neg afforded,ok_bind]
        exact ⟨_,_,if_pos (show (0 : Int) ≠ blocksize by omega),.nospace free full afforded⟩
    | some front es back split used room position shown i nameoff =>
      subst split
      have nonneg : (0 : Int) ≤ front.length * blocksize := by positivity
      have stored : Shows _ (es ++ [(name,target)]) := shown.add room
      rw [if_neg (by omega),position,i,nameoff,dir.overwrite stored,ok_bind]
      exact ⟨_,_,if_neg (not_not.mpr rfl),.slot front es back rfl free used room⟩

/-- What `dir_remove` returns and leaves. -/
inductive Removed (s : Store) (directory : Int) (node : Node) (blocks : List (List Binding))
    (name : Name) : Int → Store → Prop where
  | absent (free : blocks.flatten.lookup name = none) :
      Removed s directory node blocks name (-eNOENT) s
  | entry (front : List (List Binding)) (before : List Binding) (target : Int)
      (after : List Binding) (back : List (List Binding))
      (split : blocks = front ++ (before ++ (name,target) :: after) :: back)
      (first : front.flatten.lookup name = none) (absent : ∀ e ∈ before, e.1 ≠ name)
      (kept : ¬(before = [] ∧ after = [] ∧ back = [])) :
      Removed s directory node blocks name target
        (s.refile directory node (node.showing (front ++ (before ++ after) :: back)))
  | cut (front : List (List Binding)) (target : Int) (split : blocks = front ++ [[(name,target)]])
      (first : front.flatten.lookup name = none) : Removed s directory node blocks name target
        (s.refile directory node (node.showing (front.rdropWhile List.isEmpty)))

omit [Geometry] in
theorem empties_next (front : List (List Binding)) (es : List Binding) :
    ((front ++ [es]).length : Int) - ((front ++ [es]).rdropWhile List.isEmpty).length =
      if es.length = 0 then (front.length : Int) - (front.rdropWhile List.isEmpty).length + 1
      else 0 := by
  cases es with
  | nil =>
    rw [List.rdropWhile_concat_pos _ _ _ rfl,List.length_append,List.length_singleton,
      if_pos List.length_nil]
    push_cast
    ring
  | cons e es => rw [List.rdropWhile_concat_neg _ _ _ (by simp),if_neg (by simp),sub_self]

theorem Directory.last (dir : Directory s directory node
      (front ++ (before ++ (name,target) :: after) :: back))
    (shown : Shows block (before ++ (name,target) :: after)) :
    (before.length = 0 ∧ word block 1 = eof ∧
      (front.length : Int) * blocksize + blocksize = node.size) ↔
      before = [] ∧ after = [] ∧ back = [] := by
  have pos := blocksize_pos
  have fits := dir.fits (before ++ (name,target) :: after) (by simp)
  have count := fits.count
  have large := entriesPerDirBlock_large
  have size : node.size = (front.length + (back.length + 1) : Nat) * (blocksize : Int) := by
    rw [dir.shown.size,List.length_append,List.length_cons]
  have stop : (front.length : Int) * blocksize + blocksize = node.size ↔ back = [] := by
    rw [size,← List.length_eq_zero_iff]
    push_cast
    constructor
    · intro same
      have : (back.length : Int) * blocksize = 0 := by linarith
      rcases mul_eq_zero.mp this with zero | zero <;> omega
    · intro none
      rw [none]
      push_cast
      ring
  rw [stop,List.length_eq_zero_iff]
  refine and_congr_right fun none => and_congr_left fun _ => ?_
  subst none
  cases after with
  | nil => simpa using shown.number_end fits (i := 1) le_rfl (by omega)
  | cons e after =>
    have split : Shows block ([(name,target)] ++ e :: after) := shown
    have next : word block 1 = e.2 := split.number_entry fits
    rw [next]
    exact ⟨fun none => absurd none (fits.targets e (by simp)).named,nofun⟩

theorem dirRemoveLoop_spec (dir : Directory s directory node (front ++ back))
    (first : front.flatten.lookup name = none) (buffer : Block) (enough : back.length < fuel)
    {emptyCount : Int}
    (count : emptyCount = front.length - (front.rdropWhile List.isEmpty).length) :
    ∃ res s', dirRemoveLoop s directory name node.size fuel (front.length * blocksize) buffer
      emptyCount = .ok (res,s') ∧ Removed s directory node (front ++ back) name res s' := by
  have pos := blocksize_pos
  induction back generalizing front fuel buffer emptyCount with
  | nil =>
    obtain ⟨fuel,rfl⟩ : ∃ m, fuel = m + 1 := ⟨fuel - 1,by omega⟩
    rw [List.append_nil] at dir ⊢
    refine ⟨-eNOENT,s,?_,.absent first⟩
    rw [dirRemoveLoop,dir.read_end]
    dsimp only
    rw [if_neg (by omega)]
  | cons es back ih =>
    obtain ⟨fuel,rfl⟩ : ∃ m, fuel = m + 1 := ⟨fuel - 1,by omega⟩
    obtain ⟨block,read,shown⟩ := dir.read buffer
    have fits := dir.fits es (by simp)
    rw [dirRemoveLoop,read]
    dsimp only
    rw [if_pos rfl]
    obtain ⟨absent,scanned⟩ | ⟨before,target,after,rfl,absent,found,number,scanned⟩ :=
      fits.search shown name
    · rw [scanned,ok_bind]
      dsimp only
      rw [Directory.next_pos es]
      have none : (front ++ [es]).flatten.lookup name = none := by
        rw [List.flatten_concat,List.lookup_append,first,Option.none_or,absent]
      have fewer : back.length < fuel := by
        rw [List.length_cons] at enough
        omega
      have rest := ih (by simpa using dir) none block fewer (empties_next front es).symm
      rw [← count] at rest
      simpa using rest
    · rw [scanned,ok_bind]
      dsimp only
      rw [number]
      by_cases last : before = [] ∧ after = [] ∧ back = []
      · rw [if_pos ((dir.last shown).mpr last)]
        obtain ⟨rfl,rfl,rfl⟩ := last
        obtain ⟨empties,split⟩ := List.rdropWhile_prefix List.isEmpty front
        have cutHere : (front.length : Int) * blocksize - emptyCount * blocksize =
            (front.rdropWhile List.isEmpty).length * blocksize := by
          rw [count]
          ring
        have parts : front ++ [[(name,target)]] =
            front.rdropWhile List.isEmpty ++ (empties ++ [[(name,target)]]) := by
          rw [← List.append_assoc,split]
        rw [List.nil_append,parts] at dir
        refine ⟨target,_,?_,.cut front target rfl first⟩
        rw [cutHere,dir.truncate]
        dsimp only
        have nonneg : ((front.rdropWhile List.isEmpty).length : Int) * blocksize ≥ 0 :=
          mul_nonneg (Int.natCast_nonneg _) (Int.natCast_nonneg _)
        rw [check_true nonneg,ok_bind]
      · rw [if_neg (mt (dir.last shown).mp last),dir.overwrite (shown.drop fits),ok_bind]
        dsimp only
        rw [check_true rfl,ok_bind]
        exact ⟨_,_,rfl,.entry front before target after back rfl first absent last⟩

theorem dirRemove_dot (dir : Directory s directory node blocks) (some : blocks ≠ []) :
    dirRemove s directory dot = .ok (-eINVAL,s) := by
  rw [dirRemove,dir.named]
  dsimp only
  rw [if_neg (not_not.mpr dir.isDir),if_neg (not_lt.mpr (dir.size_le some)),if_neg (by decide),
    if_pos rfl]

theorem dirRemove_dotdot (dir : Directory s directory node blocks) (some : blocks ≠ []) :
    dirRemove s directory dotdot = .ok (-eNOTEMPTY,s) := by
  rw [dirRemove,dir.named]
  dsimp only
  rw [if_neg (not_not.mpr dir.isDir),if_neg (not_lt.mpr (dir.size_le some)),if_neg (by decide),
    if_neg (by decide),if_pos rfl]

theorem dirRemove_spec (dir : Directory s directory node blocks) (some : blocks ≠ [])
    (good : GoodName name) (named : name ≠ dot ∧ name ≠ dotdot) :
    ∃ res s', dirRemove s directory name = .ok (res,s') ∧
      Removed s directory node blocks name res s' := by
  have large := dir.size_le some
  have whole : Directory s directory node ([] ++ blocks) := dir
  have none : (0 : Int) = ([] : List (List Binding)).length -
      (([] : List (List Binding)).rdropWhile List.isEmpty).length := rfl
  obtain ⟨res,s',ran,removed⟩ := dirRemoveLoop_spec whole rfl s.stack dir.rounds none
  rw [List.length_nil,Nat.cast_zero,zero_mul] at ran
  refine ⟨res,s',?_,removed⟩
  rw [dirRemove,dir.named]
  dsimp only
  rw [if_neg (not_not.mpr dir.isDir),if_neg (not_lt.mpr large),if_neg (not_lt.mpr good.short),
    if_neg named.1,if_neg named.2,ran]

/-- The entries from block `k` on with their places. -/
def rowsFrom : Nat → List (List Binding) → List (Nat × Binding)
  | _,[] => []
  | k,es :: rest => es.zipIdx.map (fun e => (k * entriesPerDirBlock + e.2,e.1)) ++ rowsFrom (k + 1) rest

/-- What `dir_enumerate` returns for an offset. -/
def nextRow (rows : List (Nat × Binding)) (offset : Nat) : Int × Int × Name :=
  match rows.find? fun row => offset ≤ row.1 with
  | some (place,e) => ((place + 1 : Nat),e.2,e.1)
  | none => (0,0,[])

theorem rowsFrom_append {k : Nat} :
    rowsFrom k (front ++ back) = rowsFrom k front ++ rowsFrom (k + front.length) back := by
  induction front generalizing k with
  | nil => rfl
  | cons es front ih =>
    rw [List.cons_append,rowsFrom,rowsFrom,ih,List.append_assoc,List.length_cons,Nat.add_assoc,
      Nat.add_comm 1]

theorem rowsFrom_low {k : Nat} {row : Nat × Binding} (member : row ∈ rowsFrom k blocks) :
    k * entriesPerDirBlock ≤ row.1 := by
  induction blocks generalizing k with
  | nil => exact absurd member List.not_mem_nil
  | cons es rest ih =>
    rcases List.mem_append.mp member with member | member
    · obtain ⟨e,_,rfl⟩ := List.mem_map.mp member
      exact Nat.le_add_right _ _
    · have := ih member
      rw [Nat.succ_mul] at this
      omega

theorem rowsFrom_high {k : Nat} {row : Nat × Binding} (fits : ∀ es ∈ blocks, BlockFits es)
    (member : row ∈ rowsFrom k blocks) : row.1 < (k + blocks.length) * entriesPerDirBlock := by
  induction blocks generalizing k with
  | nil => exact absurd member List.not_mem_nil
  | cons es rest ih =>
    rw [List.length_cons,Nat.add_comm rest.length,← Nat.add_assoc]
    rcases List.mem_append.mp member with member | member
    · obtain ⟨e,inside,rfl⟩ := List.mem_map.mp member
      have count := (fits es List.mem_cons_self).count
      have place := List.snd_lt_of_mem_zipIdx inside
      have := Nat.mul_le_mul_right entriesPerDirBlock (show k + 1 ≤ k + 1 + rest.length by omega)
      rw [Nat.succ_mul] at this
      dsimp only
      omega
    · exact ih (fun es member => fits es (List.mem_cons_of_mem _ member)) member

theorem map_snd_rowsFrom {k : Nat} : (rowsFrom k blocks).map (·.2) = blocks.flatten := by
  induction blocks generalizing k with
  | nil => rfl
  | cons es rest ih => simp [rowsFrom,ih,Function.comp_def]

theorem find_rowsFrom {k : Nat} (offset : Nat) (le : offset ≤ k * entriesPerDirBlock) :
    (rowsFrom k blocks).find? (fun row => offset ≤ row.1) = (rowsFrom k blocks).head? := by
  rcases all : rowsFrom k blocks with _ | ⟨row,rest⟩
  · rfl
  · have member : row ∈ rowsFrom k blocks := by simp [all]
    have := rowsFrom_low member
    rw [List.find?_cons_of_pos (by simpa using le.trans this)]
    rfl

theorem dirEnumerateLoop_spec (dir : Directory s directory node (front ++ back)) {idx : Nat}
    (inside : idx < entriesPerDirBlock) (buffer : Block) (enough : back.length < fuel) :
    ((rowsFrom front.length back).find? (fun row => front.length * entriesPerDirBlock + idx ≤ row.1) =
        none ∧
      dirEnumerateLoop s directory fuel (front.length * blocksize) idx buffer = .ok none) ∨
    ∃ front' before e after back' block,
      front ++ back = front' ++ (before ++ e :: after) :: back' ∧ Shows block (before ++ e :: after) ∧
      (rowsFrom front.length back).find? (fun row => front.length * entriesPerDirBlock + idx ≤ row.1) =
        some (front'.length * entriesPerDirBlock + before.length,e) ∧
      dirEnumerateLoop s directory fuel (front.length * blocksize) idx buffer =
        .ok (some (front'.length * blocksize,before.length,block)) := by
  have pos := blocksize_pos
  induction back generalizing front fuel buffer idx with
  | nil =>
    obtain ⟨fuel,rfl⟩ : ∃ m, fuel = m + 1 := ⟨fuel - 1,by omega⟩
    rw [List.append_nil] at dir
    refine .inl ⟨rfl,?_⟩
    rw [dirEnumerateLoop,dir.read_end]
    rfl
  | cons es back ih =>
    obtain ⟨fuel,rfl⟩ : ∃ m, fuel = m + 1 := ⟨fuel - 1,by omega⟩
    obtain ⟨block,read,shown⟩ := dir.read buffer
    have fits := dir.fits es (by simp)
    rw [dirEnumerateLoop,read]
    dsimp only
    rw [if_neg (by omega)]
    by_cases here : idx < es.length
    · obtain ⟨before,e,after,rfl,rfl⟩ : ∃ before e after, es = before ++ e :: after ∧
          before.length = idx :=
        ⟨es.take idx,es[idx],es.drop (idx + 1),by simp,by simp; omega⟩
      refine .inr ⟨front,before,e,after,back,block,rfl,shown,?_,?_⟩
      · have early : (before.zipIdx.map fun e => (front.length * entriesPerDirBlock + e.2,e.1)).find?
            (fun row => front.length * entriesPerDirBlock + before.length ≤ row.1) = none := by
          refine List.find?_eq_none.mpr fun row member => ?_
          obtain ⟨e,inside,rfl⟩ := List.mem_map.mp member
          have := List.snd_lt_of_mem_zipIdx inside
          simpa using this
        rw [rowsFrom,List.zipIdx_append,List.map_append,List.append_assoc,List.find?_append,early,
          List.zipIdx_cons,List.map_cons,List.cons_append,List.find?_cons_of_pos (by simp)]
        simp
      · rw [if_pos]
        rw [shown.number_entry fits]
        exact fits.entry.2.named
    · have later : (es.zipIdx.map fun e => (front.length * entriesPerDirBlock + e.2,e.1)).find?
          (fun row => front.length * entriesPerDirBlock + idx ≤ row.1) = none := by
        refine List.find?_eq_none.mpr fun row member => ?_
        obtain ⟨e,inside,rfl⟩ := List.mem_map.mp member
        have := List.snd_lt_of_mem_zipIdx inside
        simp
        omega
      have same : (rowsFrom (front.length + 1) back).find?
          (fun row => front.length * entriesPerDirBlock + idx ≤ row.1) =
          (rowsFrom (front.length + 1) back).find?
          (fun row => (front.length + 1) * entriesPerDirBlock + 0 ≤ row.1) := by
        have le : front.length * entriesPerDirBlock + idx ≤ (front.length + 1) * entriesPerDirBlock := by
          rw [Nat.succ_mul]
          omega
        rw [find_rowsFrom _ le,find_rowsFrom ((front.length + 1) * entriesPerDirBlock + 0) le_rfl]
      have fewer : back.length < fuel := by
        rw [List.length_cons] at enough
        omega
      rw [List.append_cons] at dir
      have rest := ih dir (show 0 < entriesPerDirBlock by omega) block fewer
      rw [if_neg (not_not.mpr (shown.number_end fits (by omega) inside)),
        Directory.next_pos es,rowsFrom,List.find?_append,later,Option.none_or,same]
      rw [List.length_append,List.length_singleton] at rest ⊢
      simpa using rest

theorem enumerate_pos {offset : Nat} (small : offset / entriesPerDirBlock * blocksize < 2 ^ 63) :
    wrap ((ulong offset / entriesPerDirBlock * blocksize : Nat) : Int) =
      (offset / entriesPerDirBlock : Nat) * (blocksize : Int) ∧
    ulong offset % entriesPerDirBlock = offset % entriesPerDirBlock := by
  have large := entriesPerDirBlock_large
  have top := maxFilesize_lt
  have many : entriesPerDirBlock ≤ blocksize := (Nat.div_le_self _ _).trans (Nat.div_le_self _ _)
  have inside : offset % entriesPerDirBlock < entriesPerDirBlock := Nat.mod_lt _ (by omega)
  have parts := Nat.div_add_mod offset entriesPerDirBlock
  have le := Nat.mul_le_mul_left (offset / entriesPerDirBlock) many
  have : blocksize ≤ maxFilesize := Nat.le_mul_of_pos_left _ firstUnreachableBlock_pos
  rw [Nat.mul_comm entriesPerDirBlock] at parts
  rw [ulong_natCast (show offset < 2 ^ 64 by omega)]
  refine ⟨?_,rfl⟩
  rw [← Nat.cast_mul]
  exact wrap_of_fits ⟨by omega,by omega⟩

theorem dirEnumerate_spec (dir : Directory s directory node blocks) {offset : Nat}
    (small : offset / entriesPerDirBlock * blocksize < 2 ^ 63) :
    dirEnumerate s directory offset (nameMax + 1) = .ok (nextRow (rowsFrom 0 blocks) offset) := by
  have pos := blocksize_pos
  have large := entriesPerDirBlock_large
  have size := dir.shown.size
  have inside : offset % entriesPerDirBlock < entriesPerDirBlock := Nat.mod_lt _ (by omega)
  have parts := Nat.div_add_mod offset entriesPerDirBlock
  rw [Nat.mul_comm] at parts
  obtain ⟨start,place⟩ := enumerate_pos small
  rw [dirEnumerate,start,place,dir.named]
  dsimp only
  rw [if_neg (not_not.mpr dir.isDir)]
  generalize offset / entriesPerDirBlock = k at *
  generalize offset % entriesPerDirBlock = idx at *
  subst parts
  by_cases behind : blocks.length ≤ k
  · have none : (rowsFrom 0 blocks).find? (fun row => k * entriesPerDirBlock + idx ≤ row.1) = none := by
      refine List.find?_eq_none.mpr fun row member => ?_
      have high := rowsFrom_high dir.fits member
      have := Nat.mul_le_mul_right entriesPerDirBlock behind
      rw [Nat.zero_add] at high
      simp
      omega
    have beyond : node.size ≤ k * (blocksize : Int) := by
      rw [size]
      exact_mod_cast Nat.mul_le_mul_right blocksize behind
    have read : s.inodeRead directory (k * blocksize) s.stack blocksize = (0,s.stack) := by
      simp only [Store.inodeRead,dir.named]
      rw [if_pos (by omega)]
    obtain ⟨fuel,rounds⟩ : ∃ fuel, dirFuel node = fuel + 1 := ⟨_,rfl⟩
    rw [nextRow,none,rounds,dirEnumerateLoop,read]
    rfl
  · obtain ⟨front,back,rfl,rfl⟩ : ∃ front back, blocks = front ++ back ∧ front.length = k :=
      ⟨blocks.take k,blocks.drop k,(List.take_append_drop _ _).symm,by rw [List.length_take]; omega⟩
    have early : (rowsFrom 0 front).find?
        (fun row => front.length * entriesPerDirBlock + idx ≤ row.1) = none := by
      refine List.find?_eq_none.mpr fun row member => ?_
      have := rowsFrom_high (fun es member => dir.fits es (List.mem_append_left _ member)) member
      rw [Nat.zero_add] at this
      simp
      omega
    have enough : back.length < dirFuel node := by
      have := dir.rounds
      rw [List.length_append] at this
      omega
    rw [nextRow,rowsFrom_append,List.find?_append,early,Option.none_or,Nat.zero_add]
    obtain ⟨found,ran⟩ | ⟨front',before,e,after,back',block,split,shown,found,ran⟩ :=
      dirEnumerateLoop_spec dir inside s.stack enough
    · rw [found,ran,ok_bind]
    · have fits := dir.fits (before ++ e :: after) (by rw [split]; simp)
      have whole : Shows block ([] ++ (before ++ e :: after)) := shown
      have skipped := skipNames_spec whole fits
      rw [namesOf_nil,List.length_nil,List.nil_append] at skipped
      have room : ulong ((nameMax + 1 : Nat) - 1) = nameMax := by decide
      have short : min e.1.length (ulong ((nameMax + 1 : Nat) - 1)) = e.1.length := by
        rw [room]
        exact min_eq_left fits.entry.1.short
      rw [found,ran,ok_bind]
      dsimp only
      rw [skipped,ok_bind,strlen_spec shown fits,ok_bind,short,nameAt_spec shown fits,
        shown.number_entry fits,Int.mul_ediv_cancel _ (by omega)]
      congr 2
      push_cast
      ring

/-- The node of a directory that is marked destroyed. -/
def Node.destroyed (node : Node) : Node := node.resize (blocksize - 1)

theorem dirDestroy_full (dir : Directory s directory node blocks) (many : 1 < blocks.length) :
    dirDestroy s directory = .ok (-eNOTEMPTY,s) := by
  have size := dir.shown.size
  have : ((1 + 1 : Nat) * blocksize : Int) ≤ blocks.length * blocksize := by
    exact_mod_cast Nat.mul_le_mul_right blocksize many
  have pos := blocksize_pos
  rw [dirDestroy,dir.named]
  dsimp only
  rw [if_neg (not_not.mpr dir.isDir),if_neg (by push_cast at this; omega),
    if_pos (by push_cast at this; omega)]

theorem dirDestroy_block (dir : Directory s directory node [es]) :
    dirDestroy s directory = .ok (if 2 < es.length then (-eNOTEMPTY,s)
      else (0,s.refile directory node node.destroyed)) := by
  have pos := blocksize_pos
  have size : node.size = blocksize := by
    rw [dir.shown.size,List.length_singleton,Nat.cast_one,one_mul]
  have large := entriesPerDirBlock_large
  have top := dir.top
  have fits := dir.fits es (by simp)
  have whole : Directory s directory node ([] ++ es :: []) := dir
  obtain ⟨block,read,shown⟩ := whole.read s.stack
  rw [List.length_nil,Nat.cast_zero,zero_mul] at read
  rw [dirDestroy,dir.named]
  dsimp only
  rw [if_neg (not_not.mpr dir.isDir),if_neg (by omega),if_neg (by omega),read]
  dsimp only
  rw [check_true rfl,ok_bind]
  by_cases more : 2 < es.length
  · have third : word block 2 ≠ eof := by
      rw [shown.number fits (by omega),List.getElem?_eq_getElem more]
      exact (fits.targets _ (List.getElem_mem more)).named
    rw [if_pos third,if_pos more]
  · rw [if_neg (not_not.mpr (shown.number_end fits (by omega) (by omega))),if_neg more,
      inodeTruncate_cut dir.named top (by omega) (by omega)]
    dsimp only
    rw [check_true rfl,ok_bind]
    rfl

theorem dirReparent_spec {parent : Int} {rest : List Binding}
    (dir : Directory s directory node ((dots parent directory ++ rest) :: back)) (newParent : Int) :
    dirReparent s directory newParent = .ok (0,s.refile directory node
      (node.showing ((dots newParent directory ++ rest) :: back))) := by
  have pos := blocksize_pos
  have large := dir.size_le (by simp)
  have fits := dir.fits (dots parent directory ++ rest) (by simp)
  have whole : Directory s directory node ([] ++ (dots parent directory ++ rest) :: back) := dir
  obtain ⟨block,read,shown⟩ := whole.read s.stack
  have entries : Shows block ([(dotdot,parent)] ++ (dot,directory) :: rest) := shown
  have self : word block 1 = directory := entries.number_entry fits
  have stored := whole.overwrite (Shows.retarget shown newParent)
  rw [List.length_nil,Nat.cast_zero,zero_mul] at read stored
  rw [dirReparent,dir.named]
  dsimp only
  rw [if_neg (not_not.mpr dir.isDir),if_neg (not_lt.mpr large),read]
  dsimp only
  rw [check_true rfl,ok_bind,check_true self,ok_bind,stored,ok_bind]
  dsimp only
  rw [check_true rfl,ok_bind]
  rfl

theorem sound_target {number : Int} {rest : List Int} (sound : s.Sound)
    (first : s.freeInodes = number :: rest) : 0 ≤ number ∧ GoodTarget number := by
  obtain ⟨low,high,_⟩ := sound.free number (by simp [first])
  have few := sound.fits
  refine ⟨low,⟨by omega,by omega⟩,?_⟩
  unfold eof
  omega

theorem refile_adopt {number : Int} {rest : List Int}
    (room : 1 + cost node.size ≤ s.freeBlocks) :
    (s.adopt number rest node).refile number node node' = s.adopt number rest node' := by
  have blocks : s.freeBlocks - 1 - cost node.size + cost node.size - cost node'.size =
      s.freeBlocks - 1 - cost node'.size := by omega
  simp only [Store.refile,Store.adopt,Store.set,Function.update_idem,blocks]

/-- The node `dir_create` makes. -/
def dirNode (parent directory : Int) : Node :=
  { Store.freshNode with mode := sIFDIR ||| 0o777 }.showing [dots parent directory]

/-- What `dir_create` returns and leaves. -/
inductive Created (s : Store) (parent : Int) : Int → Store → Prop where
  | none (none : s.freeInodes = [] ∨ s.freeBlocks = 0) : Created s parent (-eNOSPC) s
  | undone (number : Int) (rest : List Int) (first : s.freeInodes = number :: rest)
      (room : s.freeBlocks ≠ 0) (short : s.freeBlocks < 1 + cost blocksize) :
      Created s parent (-eNOSPC) { s with frees := number :: s.frees }
  | made (number : Int) (rest : List Int) (first : s.freeInodes = number :: rest)
      (room : 1 + cost blocksize ≤ s.freeBlocks) :
      Created s parent number (s.adopt number rest (dirNode parent number))

theorem dirCreate_spec (sound : s.Sound) (parent : Int) :
    ∃ res s', dirCreate s parent = .ok (res,s') ∧ Created s parent res s' := by
  have pos := blocksize_pos
  by_cases none : s.freeInodes = [] ∨ s.freeBlocks = 0
  · refine ⟨-eNOSPC,s,?_,.none none⟩
    rw [dirCreate,Store.inodeAllocate_none none]
    rfl
  · obtain ⟨number,rest,first⟩ := List.exists_cons_of_ne_nil (fun empty => none (.inl empty))
    have room : s.freeBlocks ≠ 0 := fun zero => none (.inr zero)
    obtain ⟨low,high,unused⟩ := sound.free number (by simp [first])
    obtain ⟨fresh,made⟩ : ∃ fresh : Node, { Store.freshNode with mode := sIFDIR ||| 0o777 } = fresh :=
      ⟨_,rfl⟩
    have size : fresh.size = 0 := by rw [← made]; rfl
    have dir : Directory (s.adopt number rest fresh) number fresh [] := by
      refine ⟨Store.adopt_inode_self,?_,⟨by simpa using size,by simp⟩,nofun,by rw [size]; omega⟩
      rw [← made]
      exact (by decide : sISDIR (sIFDIR ||| 0o777))
    have small : (blocksize : Int) ≤ maxFilesize := by
      exact_mod_cast Nat.le_mul_of_pos_left blocksize firstUnreachableBlock_pos
    have free : 1 + cost fresh.size ≤ s.freeBlocks := by
      rw [size,Store.cost_zero]
      omega
    have afford : Affords (s.adopt number rest fresh).freeBlocks fresh.size (fresh.size + blocksize) ↔
        1 + cost blocksize ≤ s.freeBlocks := by
      simp only [Affords,Store.adopt,size,Store.cost_zero,zero_add]
      constructor
      · rintro ⟨_,enough⟩
        omega
      · intro enough
        exact ⟨small,by omega⟩
    have wrote := dir.append (shows_dots parent number)
    rw [List.length_nil,Nat.cast_zero,zero_mul] at wrote
    rw [dirCreate,Store.inodeAllocate_some first room]
    dsimp only
    rw [if_neg (not_lt.mpr low),Store.inodeChmod_adopt,made]
    dsimp only
    rw [check_true rfl,ok_bind,wrote]
    by_cases enough : 1 + cost blocksize ≤ s.freeBlocks
    · rw [if_pos (afford.mpr enough),ok_bind]
      refine ⟨number,_,if_neg (not_not.mpr rfl),?_⟩
      rw [refile_adopt free,← made]
      exact .made number rest first enough
    · rw [if_neg (mt afford.mp enough),ok_bind]
      dsimp only
      rw [if_pos (by omega),Store.inodeFree_adopt first unused (by rw [← made]; rfl) free]
      dsimp only
      rw [check_true rfl,ok_bind]
      exact ⟨_,_,rfl,.undone number rest first room (by omega)⟩

end

end CandyFs
