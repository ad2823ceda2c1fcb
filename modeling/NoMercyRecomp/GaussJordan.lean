import Mathlib

/-!
# Gauss-Jordan elimination on augmented rows

A row of an augmented array holds a row of a left and of a right matrix, at the positions
that `left` and `right` name. The rows whose left part is the right part times `m` form a
subspace; the row operations stay in it, since each new row is a combination of old ones.

Once every left column is a unit column, the right part is therefore an inverse of `m`.
How a pivot is chosen does not matter, as long as it is not zero and its row is not one of
the finished ones.
-/

namespace NoMercyRecomp.GaussJordan

variable {K : Type*} [Field K] [DecidableEq K] {n ι : Type*} [DecidableEq n]

/-- Two rows exchanged. -/
def swapRows (c p : n) (a : n → ι → K) : n → ι → K :=
  fun r => if r = c then a p else if r = p then a c else a r

/-- A row times a factor. -/
def scaleRow (c : n) (factor : K) (a : n → ι → K) : n → ι → K :=
  fun r => if r = c then fun k => a c k * factor else a r

/-- A column cleared in all rows but one, by multiples of that row. -/
def clearColumn (c : n) (column : ι) (a : n → ι → K) : n → ι → K :=
  fun r => if r ≠ c ∧ a r column ≠ 0 then fun k => a r k - a r column * a c k else a r

/-- The elimination of one column: the pivot's row comes to row `c`, is scaled to one in
the column, and clears the column elsewhere. -/
def pivotStep (c p : n) (column : ι) (a : n → ι → K) : n → ι → K :=
  clearColumn c column (scaleRow c (1 / a p column) (swapRows c p a))

/-! ## The subspace of the rows -/

omit [DecidableEq K] in
/-- An exchange keeps the rows in a subspace. -/
theorem swapRows_mem (space : Submodule K (ι → K)) (c p : n) (a : n → ι → K)
    (inside : ∀ r, a r ∈ space) (r : n) :
    swapRows c p a r ∈ space := by
  unfold swapRows
  split
  · exact inside p
  · split
    · exact inside c
    · exact inside r

omit [DecidableEq K] in
/-- A scaling keeps the rows in a subspace. -/
theorem scaleRow_mem (space : Submodule K (ι → K)) (c : n) (factor : K) (a : n → ι → K)
    (inside : ∀ r, a r ∈ space) (r : n) : scaleRow c factor a r ∈ space := by
  unfold scaleRow
  split
  · have scaled : factor • a c ∈ space := space.smul_mem factor (inside c)
    have same : (fun k => a c k * factor) = factor • a c := by
      funext k
      exact mul_comm (a c k) factor
    rw [same]
    exact scaled
  · exact inside r

/-- Clearing a column keeps the rows in a subspace. -/
theorem clearColumn_mem (space : Submodule K (ι → K)) (c : n) (column : ι) (a : n → ι → K)
    (inside : ∀ r, a r ∈ space) (r : n) : clearColumn c column a r ∈ space := by
  unfold clearColumn
  split
  · exact space.sub_mem (inside r) (space.smul_mem (a r column) (inside c))
  · exact inside r

/-- The elimination of a column keeps the rows in a subspace. -/
theorem pivotStep_mem (space : Submodule K (ι → K)) (c p : n) (column : ι) (a : n → ι → K)
    (inside : ∀ r, a r ∈ space) (r : n) : pivotStep c p column a r ∈ space := by
  apply clearColumn_mem
  apply scaleRow_mem
  exact swapRows_mem space c p a inside

/-! ## The finished columns -/

/-- The left columns in `done` are unit columns. -/
def Cleared (left : n → ι) (done : n → Prop) (a : n → ι → K) : Prop :=
  ∀ j, done j → ∀ r, a r (left j) = if r = j then 1 else 0

/-- A row after the elimination of a column, entry by entry. A row whose factor is zero is left
out, which is no exception to the formula. -/
theorem pivotStep_apply (c p : n) (column : ι) (a : n → ι → K) (r : n) (k : ι) :
    pivotStep c p column a r k =
      if r = c then a p k * (1 / a p column)
      else swapRows c p a r k - swapRows c p a r column * (a p k * (1 / a p column)) := by
  unfold pivotStep clearColumn scaleRow
  by_cases here : r = c
  · subst here
    simp [swapRows]
  · simp only [here, if_false, ne_eq, not_false_eq_true, true_and]
    split
    · simp [swapRows]
    · rename_i zero
      rw [not_not] at zero
      rw [zero, zero_mul, sub_zero]

/-- The elimination of a column with a pivot from an unfinished row finishes the column and
keeps the finished ones. -/
theorem pivotStep_cleared (left : n → ι) (done : n → Prop) (c p : n) (a : n → ι → K)
    (fresh : ¬done c)
    (unfinished : ¬done p) (pivot : a p (left c) ≠ 0) (cleared : Cleared left done a) :
    Cleared left (fun j => done j ∨ j = c) (pivotStep c p (left c) a) := by
  intro j finished r
  rw [pivotStep_apply]
  obtain before | rfl := finished
  · have notC : c ≠ j := fun same => fresh (same ▸ before)
    have notP : p ≠ j := fun same => unfinished (same ▸ before)
    have zeroP : a p (left j) = 0 := (cleared j before p).trans (if_neg notP)
    have zeroC : a c (left j) = 0 := (cleared j before c).trans (if_neg notC)
    rw [zeroP, zero_mul]
    by_cases here : r = c
    · rw [if_pos here, if_neg (here ▸ notC)]
    · rw [if_neg here, mul_zero, sub_zero]
      unfold swapRows
      rw [if_neg here]
      by_cases there : r = p
      · rw [if_pos there, zeroC, if_neg (there ▸ notP)]
      · rw [if_neg there]
        exact cleared j before r
  · rw [mul_one_div, div_self pivot]
    by_cases here : r = j
    · rw [if_pos here, if_pos here]
    · rw [if_neg here, if_neg here, mul_one, sub_self]

/-! ## The inverse -/

variable [Fintype n]

/-- The rows whose left part is their right part times `m`. -/
def augmented (left right : n → ι) (m : Matrix n n K) : Submodule K (ι → K) where
  carrier := { row | ∀ j, row (left j) = ∑ i, row (right i) * m i j }
  zero_mem' := by simp
  add_mem' := by
    intro first second firstIn secondIn j
    simp only [Pi.add_apply, firstIn j, secondIn j, add_mul, Finset.sum_add_distrib]
  smul_mem' := by
    intro factor row rowIn j
    simp only [Pi.smul_apply, smul_eq_mul, rowIn j, Finset.mul_sum, mul_assoc]

omit [DecidableEq K] in
/-- The array that elimination starts from has its rows in the subspace. -/
theorem augmented_start (left right : n → ι) (m : Matrix n n K) (a : n → ι → K)
    (leftPart : ∀ r j, a r (left j) = m r j)
    (rightPart : ∀ r i, a r (right i) = if r = i then 1 else 0) (r : n) :
    a r ∈ augmented left right m := by
  intro j
  simp [leftPart, rightPart]

omit [DecidableEq K] in
/-- When every left column is finished, the right part is the inverse of `m`. -/
theorem inverse_of_cleared (left right : n → ι) (m : Matrix n n K) (a : n → ι → K)
    (inside : ∀ r, a r ∈ augmented left right m) (cleared : Cleared left (fun _ => True) a) :
    m * Matrix.of (fun r i => a r (right i)) = 1 ∧
    Matrix.of (fun r i => a r (right i)) * m = 1 := by
  have leftInverse : Matrix.of (fun r i => a r (right i)) * m = 1 := by
    ext r j
    have row : a r (left j) = ∑ i, a r (right i) * m i j := inside r j
    rw [Matrix.mul_apply, Matrix.one_apply]
    exact row.symm.trans (cleared j trivial r)
  exact ⟨mul_eq_one_comm.mp leftInverse, leftInverse⟩

end NoMercyRecomp.GaussJordan
