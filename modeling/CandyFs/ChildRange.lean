import Mathlib.Tactic.Ring
import Mathlib.Tactic.Linarith
import Mathlib.Algebra.Order.Group.Int

/-! Which children of an index node meet a range of leaves. A node starts at leaf
`cur` and has `fanout` children of `sub` leaves each; the walks compute the first
and the last child to visit by division.
-/
namespace CandyFs.ChildRange

/-- The first child that reaches past leaf `a`. -/
def startIdx (cur sub a : Int) : Int := if cur < a then (a - cur).tdiv sub else 0

/-- The last child that begins before leaf `b`. -/
def endIdx (fanout cur sub b : Int) : Int :=
  if cur + fanout * sub > b then fanout - 1 - (cur + fanout * sub - b).tdiv sub else fanout - 1

/-- The last child that begins at or before leaf `last`. -/
def lastIdx (fanout cur sub last : Int) : Int :=
  if cur + fanout * sub - 1 > last then fanout - 1 - (cur + fanout * sub - 1 - last).tdiv sub
  else fanout - 1

section
variable {n c s a b : Int}

theorem startIdx_nonneg (span : 0 < s) : 0 ≤ startIdx c s a := by
  unfold startIdx
  split
  · exact Int.tdiv_nonneg (by omega) span.le
  · exact le_rfl

theorem endIdx_lt (span : 0 < s) : endIdx n c s b < n := by
  unfold endIdx
  split
  · have := Int.tdiv_nonneg (a := c + n * s - b) (by omega) span.le
    omega
  · omega

theorem lastIdx_eq_endIdx (last : Int) :
    lastIdx n c s last = endIdx n c s (last + 1) := by
  unfold lastIdx endIdx
  rw [show c + n * s - 1 - last = c + n * s - (last + 1) by ring]
  congr 1
  simp only [gt_iff_lt,eq_iff_iff]
  omega

theorem startIdx_le_iff (span : 0 < s) {i : Int} (nonneg : 0 ≤ i) :
    startIdx c s a ≤ i ↔ a < c + (i + 1) * s := by
  have step : 0 < (i + 1) * s := Int.mul_pos (by omega) span
  unfold startIdx
  split
  · rw [Int.tdiv_eq_ediv_of_nonneg (by omega),← Int.lt_add_one_iff,Int.ediv_lt_iff_lt_mul span]
    omega
  · exact ⟨fun _ => by omega,fun _ => nonneg⟩

theorem le_endIdx_iff (span : 0 < s) {i : Int} (inside : i < n) :
    i ≤ endIdx n c s b ↔ c + i * s < b := by
  have split_sub : (n - i) * s = n * s - i * s := Int.sub_mul _ _ _
  have step : s ≤ (n - i) * s := le_mul_of_one_le_left span.le (by omega)
  unfold endIdx
  split
  · have moved : i ≤ n - 1 - (c + n * s - b).tdiv s ↔
        (c + n * s - b).tdiv s < n - i := by omega
    rw [moved,Int.tdiv_eq_ediv_of_nonneg (by omega),Int.ediv_lt_iff_lt_mul span]
    omega
  · exact ⟨fun _ => by omega,fun _ => by omega⟩

theorem startIdx_le_endIdx (span : 0 < s) (some : 0 < n) (proper : a < b)
    (low : c < b) (high : a < c + n * s) :
    startIdx c s a ≤ endIdx n c s b := by
  have bound : startIdx c s a < n := by
    have last := (startIdx_le_iff (c := c) (a := a) span (i := n - 1) (by omega)).mpr
      (by rw [Int.sub_add_cancel]; exact high)
    omega
  rw [le_endIdx_iff span bound]
  unfold startIdx
  split
  · have := Int.mul_ediv_self_le (x := a - c) (k := s) span.ne'
    rw [Int.tdiv_eq_ediv_of_nonneg (by omega),Int.mul_comm]
    omega
  · simpa using low

end

section
variable {n c s a b : Int}

theorem startIdx_covers (span : 0 < s) : startIdx c s a = 0 ∨ c + startIdx c s a * s ≤ a := by
  have nonneg := startIdx_nonneg (c := c) (a := a) span
  by_cases zero : startIdx c s a = 0
  · exact .inl zero
  · refine .inr (not_lt.mp fun lt => ?_)
    have := (startIdx_le_iff (c := c) (a := a) span (i := startIdx c s a - 1) (by omega)).mpr
      (by rwa [Int.sub_add_cancel])
    omega

theorem endIdx_covers (span : 0 < s) :
    endIdx n c s b + 1 = n ∨ b ≤ c + (endIdx n c s b + 1) * s := by
  have below := endIdx_lt (n := n) (c := c) (b := b) span
  by_cases full : endIdx n c s b + 1 = n
  · exact .inl full
  · refine .inr (not_lt.mp fun lt => ?_)
    have := (le_endIdx_iff (n := n) (b := b) span (i := endIdx n c s b + 1) (by omega)).mpr lt
    omega

end

/-- A leaf of `[low,high)` lies in `[a,b)`. -/
def Meets (low high a b : Int) : Prop := ∃ leaf, low ≤ leaf ∧ leaf < high ∧ a ≤ leaf ∧ leaf < b

/-- The children from `start` to `finish`, and no others, meet the range. -/
structure Visits (n c s a b start finish : Int) : Prop where
  nonneg : 0 ≤ start
  ordered : start ≤ finish
  inside : finish < n
  children : ∀ i, 0 ≤ i → i < n → (start ≤ i ∧ i ≤ finish ↔ Meets (c + i * s) (c + (i + 1) * s) a b)

section
variable {n c s a b : Int}

theorem meets_iff {low high : Int} (some : low < high) (proper : a < b) :
    Meets low high a b ↔ a < high ∧ low < b := by
  constructor
  · intro ⟨leaf,_⟩
    omega
  · intro ⟨left,right⟩
    exact ⟨max low a,by omega⟩

theorem visits (some : 1 ≤ n) (span : 1 ≤ s) (proper : a < b) (meets : Meets c (c + n * s) a b) :
    Visits n c s a b (startIdx c s a) (endIdx n c s b) := by
  have positive : 0 < n * s := Int.mul_pos some span
  obtain ⟨high,low⟩ := (meets_iff (by omega) proper).mp meets
  refine ⟨startIdx_nonneg span,startIdx_le_endIdx span some proper low high,endIdx_lt span,?_⟩
  intro i nonneg inside
  have next : (i + 1) * s = i * s + s := by ring
  rw [startIdx_le_iff span nonneg,le_endIdx_iff span inside,meets_iff (by omega) proper]

theorem startIdx_floor (nonneg : 0 ≤ c) {k : Int} (unit : 1 ≤ k) (pos : Int) :
    startIdx c s (pos.tdiv k) = startIdx c s (pos / k) := by
  rcases le_or_gt 0 pos with low | negative
  · rw [Int.tdiv_eq_ediv_of_nonneg low]
  · have opposite : pos.tdiv k = -(-pos).tdiv k := by rw [Int.neg_tdiv,neg_neg]
    have toward : 0 ≤ (-pos).tdiv k := Int.tdiv_nonneg (by omega) (by omega)
    have floor : pos / k < 0 := Int.ediv_neg_of_neg_of_pos negative (by omega)
    rw [startIdx,startIdx,if_neg (by omega),if_neg (by omega)]

theorem lastIdx_floor (nonneg : 0 ≤ c) {k : Int} (unit : 1 ≤ k) {endpos : Int}
    (low : c < (endpos - 1) / k + 1) :
    lastIdx n c s ((endpos - 1).tdiv k) = endIdx n c s ((endpos - 1) / k + 1) := by
  have positive : 0 ≤ endpos - 1 := by
    by_contra negative
    have : (endpos - 1) / k < 0 := Int.ediv_neg_of_neg_of_pos (by omega) (by omega)
    omega
  rw [lastIdx_eq_endIdx,Int.tdiv_eq_ediv_of_nonneg positive]

end

theorem startIdx_scale {c s a k : Int} (span : 0 < s) (unit : 0 < k) (nonneg : 0 ≤ a) :
    startIdx c s (a.tdiv k) = startIdx (c * k) (s * k) a := by
  have same (i : Int) (low : 0 ≤ i) :
      startIdx c s (a.tdiv k) ≤ i ↔ startIdx (c * k) (s * k) a ≤ i := by
    rw [startIdx_le_iff span low,startIdx_le_iff (Int.mul_pos span unit) low,
      Int.tdiv_eq_ediv_of_nonneg nonneg,Int.ediv_lt_iff_lt_mul unit]
    rw [show (c + (i + 1) * s) * k = c * k + (i + 1) * (s * k) by ring]
  exact le_antisymm ((same _ (startIdx_nonneg (Int.mul_pos span unit))).mpr le_rfl)
    ((same _ (startIdx_nonneg span)).mp le_rfl)

theorem lastIdx_scale {n c s b k : Int} (span : 0 < s) (unit : 0 < k) (positive : 1 ≤ b) :
    lastIdx n c s ((b - 1).tdiv k) = endIdx n (c * k) (s * k) b := by
  have same (i : Int) (inside : i < n) :
      i ≤ lastIdx n c s ((b - 1).tdiv k) ↔ i ≤ endIdx n (c * k) (s * k) b := by
    rw [lastIdx_eq_endIdx,le_endIdx_iff span inside,le_endIdx_iff (Int.mul_pos span unit) inside,
      Int.tdiv_eq_ediv_of_nonneg (by omega),Int.lt_add_one_iff,Int.le_ediv_iff_mul_le unit]
    rw [show (c + i * s) * k = c * k + i * (s * k) by ring]
    omega
  have below : lastIdx n c s ((b - 1).tdiv k) < n := by
    rw [lastIdx_eq_endIdx]
    exact endIdx_lt span
  exact le_antisymm ((same _ below).mp le_rfl)
    ((same _ (endIdx_lt (Int.mul_pos span unit))).mpr le_rfl)

/-- The number of leaves of `[a,b)` among the `span` leaves from `cur`. -/
def overlap (cur span a b : Int) : Int := max 0 (min b (cur + span) - max a cur)

theorem overlap_nonneg (c span a b : Int) : 0 ≤ overlap c span a b := le_max_left _ _

theorem overlap_zero (c a b : Int) : overlap c 0 a b = 0 := by
  unfold overlap
  omega

theorem overlap_add (c a b : Int) {t u : Int} (ht : 0 ≤ t) (hu : 0 ≤ u) :
    overlap c (t + u) a b = overlap c t a b + overlap (c + t) u a b := by
  unfold overlap
  omega

theorem overlap_children {n c s a b : Int} (span : 0 < s) (some : 0 < n)
    (proper : a < b) (low : c < b) (high : a < c + n * s) :
    overlap (c + startIdx c s a * s)
        ((endIdx n c s b + 1 - startIdx c s a) * s) a b =
      overlap c (n * s) a b := by
  have start_nonneg := startIdx_nonneg (c := c) (a := a) span
  have end_lt := endIdx_lt (n := n) (c := c) (b := b) span
  have ordered := startIdx_le_endIdx span some proper low high
  have before := startIdx_covers (c := c) (a := a) span
  have after := endIdx_covers (n := n) (c := c) (b := b) span
  generalize startIdx c s a = start at *
  generalize endIdx n c s b = finish at *
  have low_part : 0 ≤ start * s := Int.mul_nonneg start_nonneg span.le
  have mid_part : 0 ≤ (finish + 1 - start) * s := Int.mul_nonneg (by omega) span.le
  have high_part : 0 ≤ (n - 1 - finish) * s := Int.mul_nonneg (by omega) span.le
  have whole : n * s =
      start * s + ((finish + 1 - start) * s + (n - 1 - finish) * s) := by ring
  have joined : start * s + (finish + 1 - start) * s = (finish + 1) * s := by ring
  rw [whole,overlap_add _ _ _ low_part (by omega),overlap_add _ _ _ mid_part high_part]
  have none_before : overlap c (start * s) a b = 0 := by
    unfold overlap
    rcases before with rfl | le
    · simp
    · omega
  have none_after : overlap (c + start * s + (finish + 1 - start) * s)
      ((n - 1 - finish) * s) a b = 0 := by
    unfold overlap
    rcases after with full | le
    · rw [show n - 1 - finish = 0 by omega]
      omega
    · omega
  omega

end CandyFs.ChildRange
