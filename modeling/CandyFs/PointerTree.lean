import CandyFs.FreeList
import CandyFs.ChildRange

/-! Trees of block pointers: the blocks a slot of an inode reaches, which of them are
index blocks and which hold data, and what it means that exactly the block indexes
below a bound are mapped.
-/
namespace CandyFs
open Bytes Finset ChildRange

theorem sum_range_apart {α : Type} {f : Nat → Multiset α} {n i j : Nat}
    (nodup : (∑ k ∈ range n, f k).Nodup) (hi : i < n) (hj : j < n) {a : α} (left : a ∈ f i)
    (right : a ∈ f j) : i = j := by
  by_contra differ
  rw [← add_sum_erase _ f (mem_range.mpr hi)] at nodup
  have other : a ∈ ∑ k ∈ (range n).erase i,f k :=
    Multiset.mem_sum.mpr ⟨j,by simp [Ne.symm differ,hj],right⟩
  exact Multiset.disjoint_left.mp (Multiset.nodup_add.mp nodup).2.2 left other

theorem le_sum_range {α : Type} {f : Nat → Multiset α} {n i : Nat} (inside : i < n) :
    f i ≤ ∑ k ∈ range n, f k := by
  rw [← add_sum_erase _ f (mem_range.mpr inside)]
  exact Multiset.le_add_right _ _

theorem child_unique {s c x : Int} {i : Nat} (low : c + i * s ≤ x) (high : x < c + i * s + s) :
    ((x - c) / s).toNat = i := by
  have found : (x - c) / s = i := by
    rw [Int.ediv_eq_iff_of_pos (by omega)]
    constructor <;> omega
  omega

variable [Geometry]

/-- All blocks under a pointer `level` levels above the data. -/
def tree (w : World) : Nat → Int → Multiset Int
  | 0,p => pointer p
  | level + 1,p =>
    if p = eof then 0
    else p ::ₘ ∑ i ∈ range singleIndirectCount, tree w level (word (w.block p) i)

/-- The index blocks under a pointer. -/
def index (w : World) : Nat → Int → Multiset Int
  | 0,_ => 0
  | level + 1,p =>
    if p = eof then 0
    else p ::ₘ ∑ i ∈ range singleIndirectCount, index w level (word (w.block p) i)

/-- The data blocks under a pointer. -/
def leaves (w : World) : Nat → Int → Multiset Int
  | 0,p => pointer p
  | level + 1,p =>
    if p = eof then 0
    else ∑ i ∈ range singleIndirectCount, leaves w level (word (w.block p) i)

/-- The blocks under the pointers of an index block. -/
def kids (w : World) (level : Nat) (data : Block) : Multiset Int :=
  ∑ i ∈ range singleIndirectCount, tree w level (word data i)

theorem tree_eof (w : World) (level : Nat) : tree w level eof = 0 := by
  cases level <;> simp [tree]

theorem tree_succ {w : World} {level : Nat} {p : Int} (proper : p ≠ eof) :
    tree w (level + 1) p = p ::ₘ kids w level (w.block p) := if_neg proper

theorem mem_tree_self {w : World} {level : Nat} {p : Int} (proper : p ≠ eof) :
    p ∈ tree w level p := by
  cases level with
  | zero => simp [tree,pointer_of_ne proper]
  | succ level => simp [tree_succ proper]

theorem tree_eq_add (w : World) (level : Nat) (p : Int) :
    tree w level p = index w level p + leaves w level p := by
  induction level generalizing p with
  | zero => simp [tree,index,leaves]
  | succ level ih =>
    simp only [tree,index,leaves]
    split
    · simp
    · rw [Multiset.cons_add,← sum_add_distrib]
      simp only [ih]

theorem index_le_tree (w : World) (level : Nat) (p : Int) : index w level p ≤ tree w level p := by
  rw [tree_eq_add]
  exact Multiset.le_add_right _ _

theorem leaves_le_tree (w : World) (level : Nat) (p : Int) : leaves w level p ≤ tree w level p := by
  rw [tree_eq_add]
  exact Multiset.le_add_left _ _

theorem index_congr {w w' : World} {level : Nat} {p : Int}
    (same : ∀ b ∈ index w level p, w'.block b = w.block b) :
    index w' level p = index w level p ∧ leaves w' level p = leaves w level p := by
  induction level generalizing p with
  | zero => exact ⟨rfl,rfl⟩
  | succ level ih =>
    simp only [index,leaves] at same ⊢
    split
    · exact ⟨rfl,rfl⟩
    · rename_i proper
      rw [if_neg proper] at same
      rw [same p (Multiset.mem_cons_self _ _)]
      have child (i : Nat) (inside : i ∈ range singleIndirectCount) := ih (p := word (w.block p) i)
        fun b member => same b (Multiset.mem_cons_of_mem (Multiset.mem_sum.mpr ⟨i,inside,member⟩))
      exact ⟨congrArg _ (sum_congr rfl fun i inside => (child i inside).1),
        sum_congr rfl fun i inside => (child i inside).2⟩

theorem tree_congr {w w' : World} {level : Nat} {p : Int}
    (same : ∀ b ∈ tree w level p, w'.block b = w.block b) : tree w' level p = tree w level p := by
  have inside : ∀ b ∈ index w level p, w'.block b = w.block b := fun b member =>
    same b (Multiset.mem_of_le (index_le_tree w level p) member)
  have shape := index_congr inside
  rw [tree_eq_add,tree_eq_add,shape.1,shape.2]

theorem kids_congr {w w' : World} {level : Nat} {data : Block}
    (same : ∀ b ∈ kids w level data, w'.block b = w.block b) :
    kids w' level data = kids w level data :=
  sum_congr rfl fun i inside => tree_congr fun b member =>
    same b (Multiset.mem_sum.mpr ⟨i,inside,member⟩)

theorem kids_eof (w : World) (level : Nat) : kids w level (ofWords fun _ => eof) = 0 :=
  sum_eq_zero fun i _ => by rw [word_ofWords,wrap_of_fits eof_fits,tree_eof]

/-- Under a pointer whose run of block indexes starts at `cur`, exactly the indexes below
`n` are mapped, and an index block is there exactly when it covers one of them. -/
def Mapped (w : World) : Nat → Int → Int → Int → Prop
  | 0,p,cur,n => p ≠ eof ↔ cur < n
  | level + 1,p,cur,n => (p ≠ eof ↔ cur < n) ∧ (p ≠ eof → ∀ i : Nat, i < singleIndirectCount →
      Mapped w level (word (w.block p) i) (cur + i * indirectCount level) n)

/-- The number of the data block that holds block index `idx`. -/
def dataPtr (w : World) : Nat → Int → Int → Int → Int
  | 0,p,_,_ => p
  | level + 1,p,cur,idx =>
    let i := ((idx - cur) / indirectCount level).toNat
    dataPtr w level (word (w.block p) i) (cur + i * indirectCount level) idx

theorem Mapped.present {w : World} {level : Nat} {p c n : Int} (h : Mapped w level p c n) :
    p ≠ eof ↔ c < n := by
  cases level with
  | zero => exact h
  | succ level => exact h.1

theorem child_exists {level : Nat} (bound : level < 3) {c x : Int} (low : c ≤ x)
    (high : x < c + indirectCount (level + 1)) :
    ∃ i : Nat, i < singleIndirectCount ∧ ((x - c) / (indirectCount level : Int)).toNat = i ∧
      c + i * indirectCount level ≤ x ∧ x < c + i * indirectCount level + indirectCount level := by
  have pos : (0 : Int) < indirectCount level := by exact_mod_cast indirectCount_pos bound.le
  have span := indirectCount_succ bound
  have nonneg : 0 ≤ (x - c) / (indirectCount level : Int) := Int.ediv_nonneg (by omega) pos.le
  have quotient := Int.mul_ediv_add_emod (x - c) (indirectCount level)
  have remainder := Int.emod_nonneg (x - c) pos.ne'
  have remainder' := Int.emod_lt_of_pos (x - c) pos
  have cast : (((x - c) / (indirectCount level : Int)).toNat : Int) =
      (x - c) / (indirectCount level : Int) := by omega
  refine ⟨_,?_,rfl,?_,?_⟩
  · have below : (x - c) / (indirectCount level : Int) < singleIndirectCount := by
      rw [Int.ediv_lt_iff_lt_mul pos]
      rw [span] at high
      push_cast at high
      omega
    omega
  · rw [cast,Int.mul_comm]
    omega
  · rw [cast,Int.mul_comm]
    omega

theorem child_inside {level i : Nat} (bound : level < 3) (inside : i < singleIndirectCount) (c : Int) :
    c ≤ c + i * indirectCount level ∧
      c + i * indirectCount level + indirectCount level ≤ c + indirectCount (level + 1) := by
  have span := indirectCount_succ bound
  have room : (i + 1) * indirectCount level ≤ singleIndirectCount * indirectCount level :=
    Nat.mul_le_mul_right _ inside
  have cast : (((i + 1) * indirectCount level : Nat) : Int) =
      i * indirectCount level + indirectCount level := by push_cast; ring
  have nonneg : (0 : Int) ≤ i * indirectCount level := by positivity
  constructor <;> omega

theorem child_after (level : Nat) {i j : Nat} (less : i < j) (c : Int) :
    c + i * indirectCount level + indirectCount level ≤ c + j * indirectCount level := by
  have room : (i + 1) * indirectCount level ≤ j * indirectCount level := Nat.mul_le_mul_right _ less
  have cast : (((i + 1) * indirectCount level : Nat) : Int) =
      i * indirectCount level + indirectCount level := by push_cast; ring
  have cast' : ((j * indirectCount level : Nat) : Int) = j * indirectCount level := Nat.cast_mul _ _
  omega

theorem mapped_congr {w : World} {level : Nat} (bound : level ≤ 3) {p c m n : Int}
    (same : ∀ x, c ≤ x → x < c + indirectCount level → (x < m ↔ x < n)) :
    Mapped w level p c m ↔ Mapped w level p c n := by
  induction level generalizing p c with
  | zero =>
    have head := same c le_rfl (by simp [indirectCount])
    simp only [Mapped,head]
  | succ level ih =>
    have pos := indirectCount_pos bound
    have head := same c le_rfl (by omega)
    simp only [Mapped,head]
    refine and_congr_right fun _ => forall_congr' fun _ => forall_congr' fun i =>
      forall_congr' fun inside => ih (by omega) fun x low high => ?_
    have run := child_inside (show level < 3 by omega) inside c
    exact same x (by omega) (by omega)

theorem mapped_outside {w : World} {level : Nat} (bound : level ≤ 3) {p c n a b : Int} {j : Nat}
    (proper : a < b) (inside : j < n) (outside : (j : Int) < startIdx c (indirectCount level) a ∨
      endIdx n c (indirectCount level) b < j) :
    Mapped w level p (c + j * indirectCount level) a ↔
      Mapped w level p (c + j * indirectCount level) b := by
  have pos : (0 : Int) < indirectCount level := by exact_mod_cast indirectCount_pos bound
  refine mapped_congr bound fun x low high => ?_
  rcases outside with before | after
  · have full := (startIdx_le_iff (c := c) (a := a) pos (i := j) (by omega)).not.mp (by omega)
    rw [Int.add_mul] at full
    omega
  · have none := (le_endIdx_iff (c := c) (b := b) pos inside).not.mp (by omega)
    omega

theorem mapped_frame {w w' : World} {level : Nat} {p c n : Int}
    (same : ∀ b ∈ index w level p, w'.block b = w.block b) (h : Mapped w level p c n) :
    Mapped w' level p c n := by
  induction level generalizing p c with
  | zero => exact h
  | succ level ih =>
    refine ⟨h.1,fun proper i inside => ?_⟩
    simp only [index,if_neg proper] at same
    rw [same p (Multiset.mem_cons_self _ _)]
    exact ih (fun b member => same b (Multiset.mem_cons_of_mem
      (Multiset.mem_sum.mpr ⟨i,mem_range.mpr inside,member⟩))) (h.2 proper i inside)

theorem mapped_frame_iff {w w' : World} {level : Nat} {p c n : Int}
    (same : ∀ b ∈ index w level p, w'.block b = w.block b) :
    Mapped w' level p c n ↔ Mapped w level p c n := by
  refine ⟨mapped_frame fun b member => (same b ?_).symm,mapped_frame same⟩
  rwa [(index_congr same).1] at member

section
variable {w : World} {level : Nat} {p c n x : Int}

theorem dataPtr_mem (bound : level ≤ 3) (h : Mapped w level p c n) (low : c ≤ x)
    (high : x < c + indirectCount level) (below : x < n) : dataPtr w level p c x ∈ leaves w level p := by
  induction level generalizing p c with
  | zero =>
    have proper : p ≠ eof := h.mpr (by omega)
    simp [leaves,dataPtr,pointer_of_ne proper]
  | succ level ih =>
    have proper : p ≠ eof := h.1.mpr (by omega)
    obtain ⟨i,inside,found,low',high'⟩ := child_exists bound low high
    simp only [dataPtr,leaves,if_neg proper,found]
    exact Multiset.mem_sum.mpr ⟨i,mem_range.mpr inside,
      ih (by omega) (h.2 proper i inside) low' high'⟩

theorem dataPtr_frame {w' : World} (bound : level ≤ 3) (h : Mapped w level p c n) (low : c ≤ x)
    (high : x < c + indirectCount level) (below : x < n)
    (same : ∀ b ∈ index w level p, w'.block b = w.block b) :
    dataPtr w' level p c x = dataPtr w level p c x := by
  induction level generalizing p c with
  | zero => rfl
  | succ level ih =>
    have proper : p ≠ eof := h.1.mpr (by omega)
    obtain ⟨i,inside,found,low',high'⟩ := child_exists bound low high
    simp only [index,if_neg proper] at same
    simp only [dataPtr,found]
    rw [same p (Multiset.mem_cons_self _ _)]
    exact ih (by omega) (h.2 proper i inside) low' high' fun b member =>
      same b (Multiset.mem_cons_of_mem (Multiset.mem_sum.mpr ⟨i,mem_range.mpr inside,member⟩))

theorem dataPtr_injective {y : Int} (bound : level ≤ 3) (h : Mapped w level p c n)
    (nodup : (tree w level p).Nodup) (low : c ≤ x) (high : x < c + indirectCount level)
    (below : x < n) (low' : c ≤ y) (high' : y < c + indirectCount level) (below' : y < n)
    (equal : dataPtr w level p c x = dataPtr w level p c y) : x = y := by
  induction level generalizing p c with
  | zero =>
    simp only [indirectCount] at high high'
    omega
  | succ level ih =>
    have proper : p ≠ eof := h.1.mpr (by omega)
    obtain ⟨i,inside,found,lowi,highi⟩ := child_exists bound low high
    obtain ⟨j,inside',found',lowj,highj⟩ := child_exists bound low' high'
    simp only [dataPtr,found,found'] at equal
    rw [tree_succ proper] at nodup
    have kidsNodup := (Multiset.nodup_cons.mp nodup).2
    unfold kids at kidsNodup
    have left := dataPtr_mem (by omega) (h.2 proper i inside) lowi highi below
    have right := dataPtr_mem (by omega) (h.2 proper j inside') lowj highj below'
    replace left := Multiset.mem_of_le (leaves_le_tree _ _ _) left
    replace right := Multiset.mem_of_le (leaves_le_tree _ _ _) right
    rw [← equal] at right
    have same : i = j := sum_range_apart kidsNodup inside inside' left right
    subst same
    have child := le_sum_range (f := fun k => tree w level (word (w.block p) k)) inside
    exact ih (by omega) (h.2 proper i inside) (Multiset.nodup_of_le child kidsNodup)
      lowi highi lowj highj equal

end

/-- The block indexes below `n` keep their blocks and their contents. -/
def Kept (w w' : World) (level : Nat) (p p' c n : Int) : Prop :=
  ∀ x, c ≤ x → x < c + indirectCount level → x < n →
    dataPtr w' level p' c x = dataPtr w level p c x ∧
    w'.block (dataPtr w level p c x) = w.block (dataPtr w level p c x)

section
variable {w w' w'' : World} {level : Nat} {p p' p'' c m n : Int}

theorem Kept.none (none : n ≤ c) : Kept w w' level p p' c n := by
  intro x low _ below
  omega

theorem Kept.frame (bound : level ≤ 3) (h : Mapped w level p c n) (le : m ≤ n)
    (same : ∀ b ∈ tree w level p, w'.block b = w.block b) : Kept w w' level p p c m := by
  intro x low high below
  have inside := dataPtr_mem bound h low high (by omega)
  exact ⟨dataPtr_frame bound h low high (by omega) fun b member =>
      same b (Multiset.mem_of_le (index_le_tree _ _ _) member),
    same _ (Multiset.mem_of_le (leaves_le_tree _ _ _) inside)⟩

theorem Kept.trans (first : Kept w w' level p p' c n) (second : Kept w' w'' level p' p'' c n) :
    Kept w w'' level p p'' c n := by
  intro x low high below
  obtain ⟨ptr,block⟩ := first x low high below
  obtain ⟨ptr',block'⟩ := second x low high below
  rw [ptr] at ptr' block'
  exact ⟨ptr',block'.trans block⟩

theorem Kept.node (bound : level < 3)
    (children : ∀ j : Nat, j < singleIndirectCount → Kept w w' level (word (w.block p) j)
      (word (w'.block p') j) (c + j * indirectCount level) n) :
    Kept w w' (level + 1) p p' c n := by
  intro x low high below
  obtain ⟨j,inside,found,low',high'⟩ := child_exists bound low high
  simp only [dataPtr,found]
  exact children j inside x low' high' below

theorem mapped_eof (none : n ≤ c) : Mapped w level eof c n := by
  cases level with
  | zero => simpa [Mapped] using none
  | succ level => exact ⟨by simpa using none,fun proper => absurd rfl proper⟩

end

/-- The blocks passed from a pointer down to the data block of block index `idx`. -/
def route (w : World) : Nat → Int → Int → Int → List Int
  | 0,p,_,_ => [p]
  | level + 1,p,cur,idx =>
    let i := ((idx - cur) / indirectCount level).toNat
    p :: route w level (word (w.block p) i) (cur + i * indirectCount level) idx

section
variable {w w' : World} {level : Nat} {p c n x b : Int}

theorem head_mem_route : p ∈ route w level p c x := by
  cases level <;> simp [route]

theorem route_child {i : Nat} (low : c + i * indirectCount level ≤ x)
    (high : x < c + i * indirectCount level + indirectCount level) :
    route w (level + 1) p c x =
      p :: route w level (word (w.block p) i) (c + i * indirectCount level) x := by
  simp only [route,child_unique low high]

theorem route_getLast : (route w level p c x).getLast? = some (dataPtr w level p c x) := by
  induction level generalizing p c with
  | zero => rfl
  | succ level ih =>
    simp only [route,dataPtr]
    rw [List.getLast?_cons,ih]
    rfl

theorem eof_not_mem_tree : eof ∉ tree w level p := by
  induction level generalizing p with
  | zero =>
    by_cases null : p = eof
    · simp [tree,null]
    · simpa [tree,pointer_of_ne null] using Ne.symm null
  | succ level ih =>
    by_cases null : p = eof
    · simp [tree,null]
    · rw [tree_succ null,Multiset.mem_cons,not_or]
      refine ⟨Ne.symm null,fun member => ?_⟩
      obtain ⟨_,_,member⟩ := Multiset.mem_sum.mp member
      exact ih member

theorem route_subset (bound : level ≤ 3) (h : Mapped w level p c n) (low : c ≤ x)
    (high : x < c + indirectCount level) (below : x < n) (member : b ∈ route w level p c x) :
    b ∈ tree w level p := by
  have proper : p ≠ eof := h.present.mpr (by omega)
  induction level generalizing p c with
  | zero => simpa [route,tree,pointer_of_ne proper] using member
  | succ level ih =>
    obtain ⟨i,inside,_,low',high'⟩ := child_exists bound low high
    have child := h.2 proper i inside
    rw [route_child low' high',List.mem_cons] at member
    rw [tree_succ proper,Multiset.mem_cons]
    exact member.imp_right fun member => Multiset.mem_sum.mpr ⟨i,mem_range.mpr inside,
      ih (by omega) child low' high' member (child.present.mpr (by omega))⟩

theorem route_index (bound : level ≤ 3) (h : Mapped w level p c n) (low : c ≤ x)
    (high : x < c + indirectCount level) (below : x < n) (member : b ∈ route w level p c x) :
    b = dataPtr w level p c x ∨ b ∈ index w level p := by
  induction level generalizing p c with
  | zero => exact .inl (List.mem_singleton.mp member)
  | succ level ih =>
    have proper : p ≠ eof := h.1.mpr (by omega)
    obtain ⟨i,inside,found,low',high'⟩ := child_exists bound low high
    rw [route_child low' high',List.mem_cons] at member
    simp only [dataPtr,found,index,if_neg proper,Multiset.mem_cons]
    rcases member with rfl | member
    · exact .inr (.inl rfl)
    · exact (ih (by omega) (h.2 proper i inside) low' high' member).imp_right fun inside' =>
        .inr (Multiset.mem_sum.mpr ⟨i,mem_range.mpr inside,inside'⟩)

theorem mapped_route (bound : level ≤ 3) (h : Mapped w level p c n) (low : c ≤ x)
    (high : x < c + indirectCount level) (below : x < n) : eof ∉ route w level p c x :=
  fun member => eof_not_mem_tree (route_subset bound h low high below member)

theorem exists_route (bound : level ≤ 3) (h : Mapped w level p c n) (member : b ∈ tree w level p) :
    ∃ x, c ≤ x ∧ x < c + indirectCount level ∧ x < n ∧ b ∈ route w level p c x := by
  have proper : p ≠ eof := fun null => by
    rw [null,tree_eof] at member
    exact Multiset.notMem_zero _ member
  have first := h.present.mp proper
  have pos : (0 : Int) < indirectCount level := by exact_mod_cast indirectCount_pos bound
  induction level generalizing p c with
  | zero =>
    obtain rfl : b = p := by simpa [tree,pointer_of_ne proper] using member
    exact ⟨c,le_rfl,by omega,first,head_mem_route⟩
  | succ level ih =>
    rw [tree_succ proper,Multiset.mem_cons] at member
    rcases member with rfl | member
    · exact ⟨c,le_rfl,by omega,first,head_mem_route⟩
    · obtain ⟨i,inside,member⟩ := Multiset.mem_sum.mp member
      have inside := mem_range.mp inside
      have child := h.2 proper i inside
      have present : word (w.block p) i ≠ eof := fun null => by
        rw [null,tree_eof] at member
        exact Multiset.notMem_zero _ member
      obtain ⟨x,low,high,below,found⟩ := ih (by omega) child member present (child.present.mp present)
        (by exact_mod_cast indirectCount_pos (show level ≤ 3 by omega))
      have run := child_inside (show level < 3 by omega) inside c
      exact ⟨x,by omega,by omega,below,by
        rw [route_child low high]
        exact List.mem_cons_of_mem _ found⟩

theorem exists_dataPtr (bound : level ≤ 3) (h : Mapped w level p c n) (member : b ∈ leaves w level p) :
    ∃ x, c ≤ x ∧ x < c + indirectCount level ∧ x < n ∧ dataPtr w level p c x = b := by
  have proper : p ≠ eof := fun null => by
    subst null
    have none := Multiset.mem_of_le (leaves_le_tree w level eof) member
    rw [tree_eof] at none
    exact Multiset.notMem_zero _ none
  induction level generalizing p c with
  | zero =>
    have same : b = p := by simpa [leaves,pointer_of_ne proper] using member
    exact ⟨c,le_rfl,by simp [indirectCount],h.mp proper,same.symm⟩
  | succ level ih =>
    rw [leaves,if_neg proper] at member
    obtain ⟨i,inside,member⟩ := Multiset.mem_sum.mp member
    have inside := mem_range.mp inside
    have present : word (w.block p) i ≠ eof := fun null => by
      have none := Multiset.mem_of_le (leaves_le_tree _ _ _) member
      rw [null,tree_eof] at none
      exact Multiset.notMem_zero _ none
    obtain ⟨x,low,high,below,found⟩ := ih (by omega) (h.2 proper i inside) member present
    have run := child_inside (show level < 3 by omega) inside c
    refine ⟨x,by omega,by omega,below,?_⟩
    simp only [dataPtr,child_unique low high]
    exact found

theorem cut_frame (bound : level ≤ 3) (low : c ≤ x) (high : x < c + indirectCount level)
    (same : ∀ b ∈ index w level p, w'.block b = w.block b) :
    eof ∈ route w' level p c x ↔ eof ∈ route w level p c x := by
  induction level generalizing p c with
  | zero => rfl
  | succ level ih =>
    obtain ⟨i,inside,_,low',high'⟩ := child_exists bound low high
    rw [route_child low' high',route_child low' high',List.mem_cons,List.mem_cons]
    by_cases null : p = eof
    · simp [null]
    · simp only [index,if_neg null] at same
      rw [same p (Multiset.mem_cons_self _ _)]
      exact or_congr_right (ih (by omega) low' high' fun b member => same b
        (Multiset.mem_cons_of_mem (Multiset.mem_sum.mpr ⟨i,mem_range.mpr inside,member⟩)))

end

/-- The block indexes below `n` are reached through the same blocks, and keep their contents. -/
def Routed (w w' : World) (level : Nat) (p p' c n : Int) : Prop :=
  ∀ x, c ≤ x → x < c + indirectCount level → x < n →
    route w' level p' c x = route w level p c x ∧
    w'.block (dataPtr w level p c x) = w.block (dataPtr w level p c x)

section
variable {w w' w'' : World} {level : Nat} {p p' p'' c m n : Int}

theorem dataPtr_of_route {x : Int} (same : route w' level p' c x = route w level p c x) :
    dataPtr w' level p' c x = dataPtr w level p c x := by
  have last := congrArg List.getLast? same
  rw [route_getLast,route_getLast] at last
  exact Option.some.inj last

theorem Routed.kept (h : Routed w w' level p p' c n) : Kept w w' level p p' c n :=
  fun x low high below => (h x low high below).imp_left dataPtr_of_route

theorem Routed.none (none : n ≤ c) : Routed w w' level p p' c n := by
  intro x low _ below
  omega

theorem Routed.frame (bound : level ≤ 3) (h : Mapped w level p c n) (le : m ≤ n)
    (same : ∀ b ∈ tree w level p, w'.block b = w.block b) : Routed w w' level p p c m := by
  intro x low high below
  refine ⟨?_,(Kept.frame bound h le same x low high below).2⟩
  induction level generalizing p c with
  | zero => rfl
  | succ level ih =>
    have proper : p ≠ eof := h.1.mpr (by omega)
    obtain ⟨i,inside,_,low',high'⟩ := child_exists bound low high
    rw [tree_succ proper] at same
    rw [route_child low' high',route_child low' high',same p (Multiset.mem_cons_self _ _)]
    exact congrArg _ (ih (by omega) (h.2 proper i inside) (fun b member => same b
      (Multiset.mem_cons_of_mem (Multiset.mem_sum.mpr ⟨i,mem_range.mpr inside,member⟩))) low' high')

theorem Routed.trans (first : Routed w w' level p p' c n) (second : Routed w' w'' level p' p'' c n) :
    Routed w w'' level p p'' c n := by
  intro x low high below
  obtain ⟨way,block⟩ := first x low high below
  obtain ⟨way',block'⟩ := second x low high below
  rw [dataPtr_of_route way] at block'
  exact ⟨way'.trans way,block'.trans block⟩

theorem Routed.node (bound : level < 3)
    (children : ∀ j : Nat, j < singleIndirectCount → Routed w w' level (word (w.block p) j)
      (word (w'.block p) j) (c + j * indirectCount level) n) :
    Routed w w' (level + 1) p p c n := by
  intro x low high below
  obtain ⟨j,inside,found,low',high'⟩ := child_exists bound low high
  obtain ⟨way,block⟩ := children j inside x low' high' below
  rw [route_child low' high',route_child low' high']
  simp only [dataPtr,found]
  exact ⟨congrArg _ way,block⟩

end

/-- The number of blocks in a tree that maps exactly the indexes below `n`. -/
def treeSize : Nat → Int → Int → Nat
  | 0,cur,n => if cur < n then 1 else 0
  | level + 1,cur,n =>
    if cur < n then 1 + ∑ i ∈ range singleIndirectCount, treeSize level (cur + i * indirectCount level) n
    else 0

/-- The number of blocks under the pointers of an index block that does. -/
def kidsSize (level : Nat) (cur n : Int) : Nat :=
  ∑ i ∈ range singleIndirectCount, treeSize level (cur + i * indirectCount level) n

section
variable {w : World} {level : Nat} {p c m n : Int}

theorem treeSize_succ (below : c < n) : treeSize (level + 1) c n = 1 + kidsSize level c n := if_pos below

theorem treeSize_none (none : n ≤ c) : treeSize level c n = 0 := by
  cases level <;> exact if_neg (not_lt.mpr none)

theorem treeSize_congr (bound : level ≤ 3)
    (same : ∀ x, c ≤ x → x < c + indirectCount level → (x < m ↔ x < n)) :
    treeSize level c m = treeSize level c n := by
  induction level generalizing c with
  | zero => exact if_congr (same c le_rfl (by simp [indirectCount])) rfl rfl
  | succ level ih =>
    have pos := indirectCount_pos bound
    refine if_congr (same c le_rfl (by omega)) (congrArg _ (sum_congr rfl fun i inside => ?_)) rfl
    have run := child_inside (show level < 3 by omega) (mem_range.mp inside) c
    exact ih (by omega) fun x low high => same x (by omega) (by omega)

theorem treeSize_mono (level : Nat) (c : Int) (le : m ≤ n) :
    treeSize level c m ≤ treeSize level c n := by
  induction level generalizing c with
  | zero =>
    unfold treeSize
    split_ifs <;> omega
  | succ level ih =>
    by_cases below : c < m
    · rw [treeSize_succ below,treeSize_succ (below.trans_le le)]
      exact Nat.add_le_add_left (sum_le_sum fun i _ => ih _) 1
    · rw [treeSize_none (not_lt.mp below)]
      exact Nat.zero_le _

theorem kidsSize_none (none : n ≤ c) : kidsSize level c n = 0 :=
  sum_eq_zero fun i _ => treeSize_none (none.trans (by
    have : (0 : Int) ≤ i * indirectCount level := by positivity
    omega))

theorem Mapped.card (h : Mapped w level p c n) : (tree w level p).card = treeSize level c n := by
  induction level generalizing p c with
  | zero =>
    by_cases null : p = eof
    · have none : ¬c < n := fun below => h.mpr below null
      simp [tree,treeSize,null,none]
    · simp [tree,treeSize,pointer_of_ne null,h.mp null]
  | succ level ih =>
    by_cases null : p = eof
    · have none : ¬c < n := fun below => h.1.mpr below null
      rw [null,tree_eof,treeSize_none (not_lt.mp none),Multiset.card_zero]
    · rw [tree_succ null,treeSize_succ (h.1.mp null),Multiset.card_cons,kids,Multiset.card_sum,
        add_comm]
      exact congrArg _ (sum_congr rfl fun i inside => ih (h.2 null i (mem_range.mp inside)))

end

/-- At some level, an index block in use has a first child that is only partly filled. -/
def Straddles (old : Int) : Nat → Int → Prop
  | 0,_ => False
  | level + 1,cur => (cur < old ∧ old < cur + indirectCount level) ∨
      ∃ i : Nat, i < singleIndirectCount ∧ Straddles old level (cur + i * indirectCount level)

theorem Straddles.inside {old : Int} {level : Nat} (bound : level ≤ 3) {c : Int}
    (h : Straddles old level c) : c < old ∧ old < c + indirectCount level := by
  induction level generalizing c with
  | zero => exact h.elim
  | succ level ih =>
    have some := singleIndirectCount_large
    rcases h with ⟨low,high⟩ | ⟨i,inside,h⟩
    · have run := child_inside (show level < 3 by omega) (show 0 < singleIndirectCount by omega) c
      rw [Nat.cast_zero,Int.zero_mul] at run
      omega
    · have run := child_inside (show level < 3 by omega) inside c
      have := ih (by omega) h
      omega

theorem Owned.fits_pointer {w : World} {free : Multiset Int} {level : Nat} {p : Int}
    (owned : Owned w (free + tree w level p)) : Fits p := by
  by_cases null : p = eof
  · rw [null]
    exact eof_fits
  · have range := owned.2 p (Multiset.mem_add.mpr (.inr (mem_tree_self null)))
    exact fits_of_range (by omega) range.2

section
variable {w w' : World} {free free' : Multiset Int} {complete : Prop} {l : Nat → Nat}
  {p q : Nat → Int} {n i : Nat}

theorem Moved.family (inside : i < n)
    (owned : Owned w (free + ∑ j ∈ range n, tree w (l j) (p j)))
    (moved : Moved w w' free (tree w (l i) (p i)) free' (tree w' (l i) (q i)) complete)
    (same : ∀ j, j < n → j ≠ i → q j = p j) :
    Moved w w' free (∑ j ∈ range n, tree w (l j) (p j)) free'
        (∑ j ∈ range n, tree w' (l j) (q j)) complete ∧
      ∀ j, j < n → j ≠ i → ∀ b ∈ tree w (l j) (p j), w'.block b = w.block b := by
  have untouched : ∀ j, j < n → j ≠ i → ∀ b ∈ tree w (l j) (p j), w'.block b = w.block b := by
    intro j hj differ b member
    have whole : b ∈ ∑ j ∈ range n, tree w (l j) (p j) :=
      Multiset.mem_sum.mpr ⟨j,mem_range.mpr hj,member⟩
    refine moved.frame.block b (owned.2 b (Multiset.mem_add.mpr (.inr whole))).1 fun inside' => ?_
    rcases Multiset.mem_add.mp inside' with isFree | inTree
    · exact Multiset.disjoint_left.mp (Multiset.nodup_add.mp owned.1).2.2 isFree whole
    · exact differ (sum_range_apart (Multiset.nodup_add.mp owned.1).2.1 hj inside member inTree)
  obtain ⟨rest,before,after⟩ := sum_range_change (fun j => tree w (l j) (p j))
    (fun j => tree w' (l j) (q j)) inside fun j hj differ => by
      rw [same j hj differ]
      exact tree_congr (untouched j hj differ)
  refine ⟨?_,untouched⟩
  rw [before,after]
  exact moved.add rest

end

theorem Moved.child {w w' : World} {free free' : Multiset Int} {level i : Nat} {data : Block}
    {dest : Int} {complete : Prop} (inside : i < singleIndirectCount)
    (owned : Owned w (free + kids w level data))
    (moved : Moved w w' free (tree w level (word data i)) free' (tree w' level dest) complete) :
    word (setWord data i dest) i = dest ∧
    Moved w w' free (kids w level data) free' (kids w' level (setWord data i dest)) complete ∧
    ∀ j, j < singleIndirectCount → j ≠ i →
      ∀ b ∈ tree w level (word data j), w'.block b = w.block b := by
  have part : Owned w (free + tree w level (word data i)) := owned.mono
    (add_le_add_right (le_sum_range (f := fun j => tree w level (word data j)) inside) free)
  have stored : word (setWord data i dest) i = dest := by
    rw [word_setWord_self,wrap_of_fits (moved.owned part).fits_pointer]
  refine ⟨stored,Moved.family (l := fun _ => level) (p := fun j => word data j)
    (q := fun j => word (setWord data i dest) j) inside owned ?_ fun j _ differ => ?_⟩
  · rw [stored]
    exact moved
  · exact word_setWord_ne _ _ _ _ differ

theorem Moved.store {w : World} {free : Multiset Int} {level : Nat} {b : Int} {data : Block}
    (list : FreeSet w free) (owned : Owned w (free + (b ::ₘ kids w level data))) :
    Moved w (w.put b data) free (b ::ₘ kids w level data) free
        (tree (w.put b data) (level + 1) b) True ∧
      ∀ j, j < singleIndirectCount → ∀ c ∈ tree w level (word data j),
        (w.put b data).block c = w.block c := by
  have positive := (owned.2 b (by simp)).1
  have stays (c : Int) (member : c ∈ kids w level data) : (w.put b data).block c = w.block c := by
    have low := (owned.2 c (by simp [member])).1
    have fresh := (Multiset.nodup_cons.mp (Multiset.nodup_add.mp owned.1).2.1).1
    exact put_block_ne _ _ _ (by omega) (by omega) fun eq => fresh (eq ▸ member)
  refine ⟨?_,fun j inside c member => stays c (Multiset.mem_sum.mpr ⟨j,mem_range.mpr inside,member⟩)⟩
  rw [tree_succ (ne_eof (by omega)),put_block_self,kids_congr stays]
  exact Moved.put list owned (Multiset.mem_cons_self _ _) data

end CandyFs
