import NoMercyRecomp.GaussJordan

/-!
# The camera's view

The camera hand-off derives the view it emits from the camera matrix and the inverse of
the latched projection. The arithmetic is a parameter: the words are read as floats of
some type with the operations that the code uses. Over the exact rationals the inverse is
the inverse, and the emitted view times the projection is the camera matrix.
-/

namespace NoMercyRecomp.CameraMatrix

/-- The operations on floats that the code uses, and how words are read as floats. `tiny`
is the literal `1e-12f`. -/
structure Floats (F : Type) where
  zero : F
  one : F
  tiny : F
  add : F → F → F
  sub : F → F → F
  mul : F → F → F
  div : F → F → F
  fabs : F → F
  less : F → F → Bool
  equal : F → F → Bool
  wordFloat : UInt32 → F
  floatWord : F → UInt32

/-- A position of a row-major matrix: `r * 4 + c`. -/
def entry (r c : Fin 4) : Fin 16 := ⟨r * 4 + c, by omega⟩

/-- The row of a position. -/
def rowOf (i : Fin 16) : Fin 4 := ⟨i / 4, by omega⟩

/-- The column of a position. -/
def columnOf (i : Fin 16) : Fin 4 := ⟨i % 4, by omega⟩

/-- A column of the left half of the augmented array. -/
def left (c : Fin 4) : Fin 8 := ⟨c, by omega⟩

/-- A column of the right half of the augmented array. -/
def right (c : Fin 4) : Fin 8 := ⟨c + 4, by omega⟩

section Model

variable {F : Type} (f : Floats F)

/-- The array `a` before the elimination: the matrix next to the identity. -/
def augment (m : Fin 16 → F) : Fin 4 → Fin 8 → F :=
  fun r k => if inside : k.val < 4 then m (entry r ⟨k, inside⟩) else if r.val = k.val - 4 then f.one
    else f.zero

/-- The search for the pivot of a column, from the diagonal down. -/
def pivotOf (c : Fin 4) (a : Fin 4 → Fin 8 → F) : Fin 4 :=
  ((List.finRange 4).filter (c < ·)).foldl
    (fun pivot r => if f.less (f.fabs (a pivot (left c))) (f.fabs (a r (left c))) then r
      else pivot) c

/-- The exchange of the rows `c` and `pivot`. -/
def swapRows (c pivot : Fin 4) (a : Fin 4 → Fin 8 → F) : Fin 4 → Fin 8 → F :=
  fun r => if r = c then a pivot else if r = pivot then a c else a r

/-- The row `c` times `inv`. -/
def scaleRow (c : Fin 4) (inv : F) (a : Fin 4 → Fin 8 → F) : Fin 4 → Fin 8 → F :=
  fun r => if r = c then fun k => f.mul (a c k) inv else a r

/-- The column `c` cleared in the other rows. -/
def clearColumn (c : Fin 4) (a : Fin 4 → Fin 8 → F) : Fin 4 → Fin 8 → F :=
  fun r => if r ≠ c ∧ f.equal (a r (left c)) f.zero = false
    then fun k => f.sub (a r k) (f.mul (a r (left c)) (a c k)) else a r

/-- One round of the elimination; nothing when the pivot is tiny. -/
def eliminate (a : Fin 4 → Fin 8 → F) (c : Fin 4) : Option (Fin 4 → Fin 8 → F) :=
  let pivot := pivotOf f c a
  if f.less (f.fabs (a pivot (left c))) f.tiny then none
  else
    let swapped := swapRows c pivot a
    some (clearColumn f c (scaleRow f c (f.div f.one (swapped c (left c))) swapped))

/-- The array after some rounds. -/
def rounds (m : Fin 16 → F) (columns : List (Fin 4)) : Option (Fin 4 → Fin 8 → F) :=
  columns.foldlM (eliminate f) (augment f m)

/-- `invert4`: what it returns, and `out` after it. -/
def invert4 (m out : Fin 16 → F) : Bool × (Fin 16 → F) :=
  match rounds f m (List.finRange 4) with
  | none => (false, out)
  | some a => (true, fun i => a (rowOf i) (right (columnOf i)))

/-- `view_words`, from the latched view and projection and the camera matrix. What `p_inv`
holds at first is never read. -/
def viewWords (view proj camera : Fin 16 → UInt32) : Fin 16 → UInt32 :=
  let p := fun i => f.wordFloat (proj i)
  let c := fun i => f.wordFloat (camera i)
  match invert4 f p (fun _ => f.zero) with
  | (false, _) => view
  | (true, inverse) => fun i =>
    f.floatWord ((List.finRange 4).foldl
      (fun sum j =>
        f.add sum (f.mul (c (entry (rowOf i) j)) (inverse (entry j (columnOf i))))) f.zero)

end Model

/-- The view when the projection inverts. -/
theorem viewWords_inverted {F : Type} (f : Floats F) (view proj camera : Fin 16 → UInt32)
    (accepted : (invert4 f (fun i => f.wordFloat (proj i)) (fun _ => f.zero)).1 = true) :
    viewWords f view proj camera = fun i =>
      f.floatWord ((List.finRange 4).foldl
        (fun sum j => f.add sum (f.mul (f.wordFloat (camera (entry (rowOf i) j)))
        ((invert4 f (fun i => f.wordFloat (proj i)) (fun _ => f.zero)).2
          (entry j (columnOf i))))) f.zero) := by
  unfold viewWords
  dsimp only
  generalize invert4 f (fun i => f.wordFloat (proj i)) (fun _ => f.zero) = result at accepted ⊢
  obtain ⟨inverted, inverse⟩ := result
  subst accepted
  rfl

/-- The view when the projection does not invert. -/
theorem viewWords_latched {F : Type} (f : Floats F) (view proj camera : Fin 16 → UInt32)
    (refused : (invert4 f (fun i => f.wordFloat (proj i)) (fun _ => f.zero)).1 = false) :
    viewWords f view proj camera = view := by
  unfold viewWords
  dsimp only
  generalize invert4 f (fun i => f.wordFloat (proj i)) (fun _ => f.zero) = result at refused ⊢
  obtain ⟨inverted, inverse⟩ := result
  subst refused
  rfl

/-! ## The exact rationals -/

/-- The arithmetic of the exact rationals. -/
def rationals (wordFloat : UInt32 → ℚ) (floatWord : ℚ → UInt32) : Floats ℚ where
  zero := 0
  one := 1
  tiny := 1 / 10 ^ 12
  add := (· + ·)
  sub := (· - ·)
  mul := (· * ·)
  div := (· / ·)
  fabs x := |x|
  less x y := decide (x < y)
  equal x y := decide (x = y)
  wordFloat := wordFloat
  floatWord := floatWord

/-- The matrix of a row-major array. -/
def matrixOf (m : Fin 16 → ℚ) : Matrix (Fin 4) (Fin 4) ℚ := Matrix.of fun r c => m (entry r c)

/-- The row of the entry at a row and a column. -/
@[simp]
theorem rowOf_entry (r c : Fin 4) : rowOf (entry r c) = r :=
  Fin.ext (by simp only [rowOf, entry]; omega)

/-- The column of the entry at a row and a column. -/
@[simp]
theorem columnOf_entry (r c : Fin 4) : columnOf (entry r c) = c :=
  Fin.ext (by simp only [columnOf, entry]; omega)

/-! ## The pivot -/

/-- The largest of some rows, in a column. By induction on the rows: the row that is kept so far
is as large as those before it. -/
theorem foldl_largest (size : Fin 4 → ℚ) (rows : List (Fin 4)) (start : Fin 4) :
    let found := rows.foldl (fun pivot r => if decide (size pivot < size r) then r else pivot) start
    (found = start ∨ found ∈ rows) ∧ size start ≤ size found ∧ ∀ r ∈ rows, size r ≤ size found := by
  induction rows generalizing start with
  | nil => simp
  | cons row rest inductionHypothesis =>
    simp only [List.foldl_cons, decide_eq_true_eq, List.mem_cons,
      forall_eq_or_imp] at inductionHypothesis ⊢
    by_cases larger : size start < size row
    · rw [if_pos larger]
      obtain ⟨place, atLeast, all⟩ := inductionHypothesis row
      exact ⟨.inr place, le_trans (le_of_lt larger) atLeast, atLeast, all⟩
    · rw [if_neg larger]
      obtain ⟨place, atLeast, all⟩ := inductionHypothesis start
      refine ⟨?_, atLeast, le_trans (not_lt.mp larger) atLeast, all⟩
      obtain same | inside := place
      · exact .inl same
      · exact .inr (.inr inside)

section Exact

variable (wordFloat : UInt32 → ℚ) (floatWord : ℚ → UInt32)

/-- The pivot is on or below the diagonal, and no entry there is larger. -/
theorem pivotOf_largest (c : Fin 4) (a : Fin 4 → Fin 8 → ℚ) :
    c ≤ pivotOf (rationals wordFloat floatWord) c a ∧
      ∀ r, c ≤ r → |a r (left c)| ≤ |a (pivotOf (rationals wordFloat floatWord) c a) (left c)| := by
  obtain ⟨place, atLeast, all⟩ :=
    foldl_largest (fun r => |a r (left c)|) ((List.finRange 4).filter (fun r => decide (c < r))) c
  constructor
  · obtain same | inside := place
    · exact le_of_eq same.symm
    · exact le_of_lt (of_decide_eq_true (List.mem_filter.mp inside).2)
  · intro r below
    obtain same | strict := eq_or_lt_of_le below
    · exact same ▸ atLeast
    · exact all r (List.mem_filter.mpr ⟨List.mem_finRange r, decide_eq_true strict⟩)

/-! ## The rounds -/

/-- A round over the rationals is an elimination step with the pivot found: its comparisons are
those of numbers, and what it computes is exact. -/
theorem eliminate_rationals (a : Fin 4 → Fin 8 → ℚ) (c : Fin 4) :
    eliminate (rationals wordFloat floatWord) a c =
      if |a (pivotOf (rationals wordFloat floatWord) c a) (left c)| < 1 / 10 ^ 12 then none
      else some (GaussJordan.pivotStep c (pivotOf (rationals wordFloat floatWord) c a)
        (left c) a) := by
  have clear (b : Fin 4 → Fin 8 → ℚ) :
      clearColumn (rationals wordFloat floatWord) c b = GaussJordan.clearColumn c (left c) b := by
    funext r
    exact if_congr (and_congr_right fun _ => decide_eq_false_iff_not) rfl rfl
  have pivot : swapRows c (pivotOf (rationals wordFloat floatWord) c a) a c (left c) =
      a (pivotOf (rationals wordFloat floatWord) c a) (left c) := by simp [swapRows]
  unfold eliminate
  simp only [clear, pivot]
  exact if_congr decide_eq_true_iff rfl rfl

/-- A round fails exactly when all entries on and below the diagonal are tiny. -/
theorem eliminate_none_iff (a : Fin 4 → Fin 8 → ℚ) (c : Fin 4) :
    eliminate (rationals wordFloat floatWord) a c = none ↔ ∀ r, c ≤ r →
    |a r (left c)| < 1 / 10 ^ 12 := by
  obtain ⟨below, largest⟩ := pivotOf_largest wordFloat floatWord c a
  rw [eliminate_rationals]
  constructor
  · intro failed r inside
    by_cases tiny : |a (pivotOf (rationals wordFloat floatWord) c a) (left c)| < 1 / 10 ^ 12
    · exact lt_of_le_of_lt (largest r inside) tiny
    · rw [if_neg tiny] at failed
      cases failed
  · intro all
    exact if_pos (all _ below)

/-- One more round. -/
theorem rounds_succ {F : Type} (f : Floats F) (m : Fin 16 → F) (k : Nat) (bound : k < 4) :
    rounds f m ((List.finRange 4).take (k + 1)) =
      (rounds f m ((List.finRange 4).take k)).bind (fun a => eliminate f a ⟨k, bound⟩) := by
  have parts : (List.finRange 4).take (k + 1) = (List.finRange 4).take k ++ [⟨k, bound⟩] := by
    rw [List.take_add_one, List.getElem?_eq_getElem (by simpa using bound)]
    simp
  rw [parts]
  unfold rounds
  rw [List.foldlM_append]
  simp only [List.foldlM_cons, List.foldlM_nil, bind_pure]
  rfl

/-- What holds before each round: the rows are those of an augmented array of `m`, and the
columns of the earlier rounds are unit columns. -/
theorem rounds_invariant (m : Fin 16 → ℚ) (k : Nat) (bound : k ≤ 4) (a : Fin 4 → Fin 8 → ℚ)
    (reached : rounds (rationals wordFloat floatWord) m ((List.finRange 4).take k) = some a) :
    (∀ r, a r ∈ GaussJordan.augmented left right (matrixOf m)) ∧
    GaussJordan.Cleared left (fun j => j.val < k) a := by
  induction k generalizing a with
  | zero =>
    have start : augment (rationals wordFloat floatWord) m = a := Option.some.inj reached
    subst start
    refine ⟨?_, fun j before => absurd before (Nat.not_lt_zero _)⟩
    apply GaussJordan.augmented_start
    · intro r j
      simp [augment, left, matrixOf]
    · intro r i
      simp [augment, right, rationals, Fin.ext_iff]
  | succ k inductionHypothesis =>
    rw [rounds_succ _ _ k bound] at reached
    obtain ⟨b, before, round⟩ := Option.bind_eq_some_iff.mp reached
    obtain ⟨rows, columns⟩ := inductionHypothesis (by omega) b before
    obtain ⟨below, -⟩ := pivotOf_largest wordFloat floatWord ⟨k, bound⟩ b
    rw [eliminate_rationals] at round
    split at round
    · cases round
    · rename_i large
      have step := Option.some.inj round
      subst step
      have pivot :
          b (pivotOf (rationals wordFloat floatWord) ⟨k, bound⟩ b) (left ⟨k, bound⟩) ≠ 0 := by
        intro zero
        rw [zero, abs_zero] at large
        exact large (by norm_num)
      have unfinished : ¬(pivotOf (rationals wordFloat floatWord) ⟨k, bound⟩ b).val < k :=
        Nat.not_lt.mpr below
      have finished :=
        GaussJordan.pivotStep_cleared left (fun j => j.val < k) ⟨k, bound⟩ _ b (Nat.lt_irrefl k)
        unfinished pivot columns
      refine ⟨GaussJordan.pivotStep_mem _ _ _ _ b rows, ?_⟩
      intro j before
      apply finished
      obtain less | same := Nat.lt_succ_iff_lt_or_eq.mp before
      · exact .inl less
      · exact .inr (Fin.ext same)

/-- The rounds up to some column fail exactly when one of them does, and those before it were
passed. By induction on the column. -/
theorem rounds_none_iff {F : Type} (f : Floats F) (m : Fin 16 → F) (k : Nat) (bound : k ≤ 4) :
    rounds f m ((List.finRange 4).take k) = none ↔
      ∃ (c : Fin 4) (a : Fin 4 → Fin 8 → F), c.val < k ∧
      rounds f m ((List.finRange 4).take c) = some a ∧ eliminate f a c = none := by
  induction k with
  | zero => simp [rounds]
  | succ k inductionHypothesis =>
    rw [rounds_succ f m k bound, Option.bind_eq_none_iff]
    constructor
    · intro failed
      cases before : rounds f m ((List.finRange 4).take k) with
      | none =>
        obtain ⟨c, a, less, rest⟩ := (inductionHypothesis (by omega)).mp before
        exact ⟨c, a, by omega, rest⟩
      | some a => exact ⟨⟨k, bound⟩, a, Nat.lt_succ_self k, before, failed a before⟩
    · rintro ⟨c, a, less, before, round⟩ b reached
      obtain earlier | same := Nat.lt_succ_iff_lt_or_eq.mp less
      · have none := (inductionHypothesis (by omega)).mpr ⟨c, a, earlier, before, round⟩
        rw [none] at reached
        cases reached
      · obtain rfl : c = ⟨k, bound⟩ := Fin.ext same
        have same : b = a := Option.some.inj (reached.symm.trans before)
        exact same ▸ round

/-! ## The inverse and the view -/

/-- What `invert4` promises, read over the rationals. -/
structure Inverts (m out : Fin 16 → ℚ) : Prop where
  inverse : (invert4 (rationals wordFloat floatWord) m out).1 = true →
    matrixOf m * matrixOf (invert4 (rationals wordFloat floatWord) m out).2 = 1 ∧
      matrixOf (invert4 (rationals wordFloat floatWord) m out).2 * matrixOf m = 1
  singular : (matrixOf m).det = 0 → (invert4 (rationals wordFloat floatWord) m out).1 = false
  refused : (invert4 (rationals wordFloat floatWord) m out).1 = false ↔
    ∃ (c : Fin 4) (a : Fin 4 → Fin 8 → ℚ),
      rounds (rationals wordFloat floatWord) m ((List.finRange 4).take c) = some a ∧
        ∀ r, c ≤ r → |a r (left c)| < 1 / 10 ^ 12
  unwritten : (invert4 (rationals wordFloat floatWord) m out).1 = false →
    (invert4 (rationals wordFloat floatWord) m out).2 = out

/-- A matrix that `invert4` accepts is inverted: all four columns have been cleared, so that the
right half of the augmented matrix is the inverse. -/
theorem invert4_inverse (m out : Fin 16 → ℚ)
    (accepted : (invert4 (rationals wordFloat floatWord) m out).1 = true) :
    matrixOf m * matrixOf (invert4 (rationals wordFloat floatWord) m out).2 = 1 ∧
      matrixOf (invert4 (rationals wordFloat floatWord) m out).2 * matrixOf m = 1 := by
  unfold invert4 at accepted ⊢
  cases reached : rounds (rationals wordFloat floatWord) m (List.finRange 4) with
  | none => simp [reached] at accepted
  | some a =>
    obtain ⟨rows, columns⟩ := rounds_invariant wordFloat floatWord m 4 (le_refl 4) a reached
    have all : GaussJordan.Cleared left (fun _ => True) a := fun j _ => columns j j.isLt
    have read : matrixOf (fun i => a (rowOf i) (right (columnOf i))) = Matrix.of fun r i =>
      a r (right i) := by
      ext r c
      simp [matrixOf]
    simp only [read]
    exact GaussJordan.inverse_of_cleared left right (matrixOf m) a rows all

/-- `invert4` keeps its promises: what it accepts it inverts, on either side, so that it refuses
singular matrices, and it refuses by a column whose pivots are all too small. -/
theorem invert4_inverts (m out : Fin 16 → ℚ) : Inverts wordFloat floatWord m out where
  inverse := invert4_inverse wordFloat floatWord m out
  singular := by
    intro zero
    by_contra accepted
    rw [Bool.not_eq_false] at accepted
    have product := congrArg Matrix.det (invert4_inverse wordFloat floatWord m out accepted).1
    rw [Matrix.det_mul, zero, zero_mul, Matrix.det_one] at product
    exact zero_ne_one product
  refused := by
    have failed := rounds_none_iff (rationals wordFloat floatWord) m 4 (le_refl 4)
    have all : (List.finRange 4).take 4 = List.finRange 4 := rfl
    rw [all] at failed
    have accepts : (invert4 (rationals wordFloat floatWord) m out).1 = false ↔
        rounds (rationals wordFloat floatWord) m (List.finRange 4) = none := by
      unfold invert4
      split <;> simp [*]
    rw [accepts, failed]
    constructor
    · rintro ⟨c, a, -, reached, round⟩
      exact ⟨c, a, reached, (eliminate_none_iff wordFloat floatWord a c).mp round⟩
    · rintro ⟨c, a, reached, tiny⟩
      exact ⟨c, a, c.isLt, reached, (eliminate_none_iff wordFloat floatWord a c).mpr tiny⟩
  unwritten := by
    unfold invert4
    split <;> simp

/-- The sum over the four columns, as the loop adds it up. -/
theorem foldl_sum (term : Fin 4 → ℚ) :
    (List.finRange 4).foldl (fun sum j => sum + term j) 0 = ∑ j, term j := by
  rw [Fin.sum_univ_four]
  change (((0 + term 0) + term 1) + term 2) + term 3 = _
  rw [zero_add]

end Exact

end NoMercyRecomp.CameraMatrix
