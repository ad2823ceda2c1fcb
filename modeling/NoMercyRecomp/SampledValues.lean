import Mathlib.Data.List.Induction

/-!
# A value read from time to time

Of a value that is read again and again, three things are kept: the last reading, the last
one that differed from it, and whether the last reading changed the value. From these
come the reading before the last and the last differing reading of the whole history,
however long it is.
-/

namespace NoMercyRecomp.SampledValues

variable {Value : Type} [DecidableEq Value]

/-- What is kept of the readings. -/
structure Sampled (Value : Type) where
  value : Value
  prior : Value
  changed : Bool

/-- One reading. -/
def Sampled.update (sampled : Sampled Value) (reading : Value) : Sampled Value :=
  if sampled.value = reading then { sampled with changed := false }
  else { value := reading, prior := sampled.value, changed := true }

/-- The reading before the last. -/
def Sampled.delta (sampled : Sampled Value) : Value :=
  if sampled.changed then sampled.prior else sampled.value

/-- What is kept before any reading. -/
def fresh (zero : Value) : Sampled Value := ⟨zero, zero, false⟩

/-- What is kept after a history of readings. -/
def observed (zero : Value) (history : List Value) : Sampled Value :=
  history.foldl Sampled.update (fresh zero)

/-- The last reading. -/
def current (zero : Value) (history : List Value) : Value := history.getLast?.getD zero

/-- The last reading that differs from the last one. -/
def lastDiffering (zero : Value) (history : List Value) : Value :=
  ((zero :: history).reverse.find? (fun reading => reading ≠ current zero history)).getD zero

/-- One more reading. -/
theorem observed_append (zero : Value) (history : List Value) (reading : Value) :
    observed zero (history ++ [reading]) = (observed zero history).update reading := by
  rw [observed, List.foldl_append]
  rfl

/-- The value of an updated sample is the reading. -/
theorem update_value (sampled : Sampled Value) (reading : Value) :
    (sampled.update reading).value = reading := by
  unfold Sampled.update
  split
  next same => exact same
  next => rfl

/-- The reading before the last is the value before it. -/
theorem update_delta (sampled : Sampled Value) (reading : Value) :
    (sampled.update reading).delta = sampled.value := by
  unfold Sampled.update Sampled.delta
  split <;> rfl

omit [DecidableEq Value] in
/-- The current reading is the last one. -/
theorem current_append (zero : Value) (history : List Value) (reading : Value) :
    current zero (history ++ [reading]) = reading := by
  rw [current, List.getLast?_append, List.getLast?_singleton]
  rfl

/-- The value is the last reading. -/
theorem observed_value (zero : Value) (history : List Value) :
    (observed zero history).value = current zero history := by
  induction history using List.reverseRecOn with
  | nil => rfl
  | append_singleton history reading _ => rw [observed_append, update_value, current_append]

/-- The reading before the last. -/
theorem observed_delta (zero : Value) (history : List Value) (reading : Value) :
    (observed zero (history ++ [reading])).delta = current zero history := by
  rw [observed_append, update_delta, observed_value]

/-- The last differing reading, after one that is the same. -/
theorem lastDiffering_same (zero : Value) (history : List Value) :
    lastDiffering zero (history ++ [current zero history]) = lastDiffering zero history := by
  have reversed : (zero :: (history ++ [current zero history])).reverse =
      current zero history :: (zero :: history).reverse := by
    rw [← List.cons_append, List.reverse_append]
    rfl
  rw [lastDiffering, current_append, reversed, List.find?_cons_of_neg (by simp)]
  rfl

/-- The last differing reading, after one that is another: it is the one that was current, which
the search meets first. -/
theorem lastDiffering_other (zero : Value) (history : List Value) (reading : Value)
    (other : current zero history ≠ reading) :
    lastDiffering zero (history ++ [reading]) = current zero history := by
  have reversed : (zero :: (history ++ [reading])).reverse =
      reading :: (zero :: history).reverse := by
    rw [← List.cons_append, List.reverse_append]
    rfl
  have last : (zero :: history).reverse.head? = some (current zero history) := by
    rw [List.head?_reverse, List.getLast?_cons, current]
  obtain ⟨rest, split⟩ : ∃ rest, (zero :: history).reverse = current zero history :: rest :=
    List.head?_eq_some_iff.mp last
  rw [lastDiffering, current_append, reversed, List.find?_cons_of_neg (by simp), split,
    List.find?_cons_of_pos (by simpa using other)]
  rfl

/-- What is kept as prior is the last differing reading. By induction from the last reading, which
is the same as the current one or another. -/
theorem observed_prior (zero : Value) (history : List Value) :
    (observed zero history).prior = lastDiffering zero history := by
  induction history using List.reverseRecOn with
  | nil =>
    have none : ([zero] : List Value).find? (fun reading => reading ≠ zero) = none :=
      List.find?_cons_of_neg (by simp)
    show zero = ([zero].find? (fun reading => reading ≠ zero)).getD zero
    rw [none]
    rfl
  | append_singleton history reading inductionHypothesis =>
    rw [observed_append, Sampled.update, observed_value]
    split
    next same => rw [← same, lastDiffering_same, ← inductionHypothesis]
    next other => rw [lastDiffering_other zero history reading other]

variable {Field : Type} [DecidableEq Field] (field : Value → Field)

omit [DecidableEq Value] [DecidableEq Field] in
/-- The last reading of a field. -/
theorem current_map (zero : Value) (history : List Value) :
    current (field zero) (history.map field) = field (current zero history) := by
  rw [current, List.getLast?_map, current]
  cases history.getLast? <;> rfl

/-- The last differing reading of a field that tells the readings apart is the field of the last
differing reading: searching the images finds the image of what is found. -/
theorem lastDiffering_map (zero : Value) (history : List Value)
    (apart : ∀ first second, first ∈ zero :: history →
    second ∈ zero :: history → field first = field second → first = second) :
    lastDiffering (field zero) (history.map field) = field (lastDiffering zero history) := by
  have member : current zero history ∈ zero :: history := by
    cases last : history.getLast? with
    | none => rw [current, last]; exact List.mem_cons_self
    | some reading =>
      rw [current, last]
      exact List.mem_cons_of_mem zero (List.mem_of_getLast? last)
  have same : ∀ readings : List Value, (∀ reading ∈ readings, reading ∈ zero :: history) →
      (readings.map field).find? (fun reading => reading ≠ field (current zero history)) =
        (readings.find? (fun reading => reading ≠ current zero history)).map field := by
    intro readings among
    induction readings with
    | nil => rfl
    | cons reading readings inductionHypothesis =>
      have later :=
        inductionHypothesis (fun other inside => among other (List.mem_cons_of_mem _ inside))
      by_cases equal : reading = current zero history
      · rw [List.map_cons, List.find?_cons_of_neg (by simp [equal]),
          List.find?_cons_of_neg (by simp [equal]), later]
      · have different : field reading ≠ field (current zero history) := fun images =>
          equal (apart _ _ (among reading List.mem_cons_self) member images)
        rw [List.map_cons, List.find?_cons_of_pos (by simpa using different),
          List.find?_cons_of_pos (by simpa using equal)]
        rfl
  rw [lastDiffering, current_map, ← List.map_cons, ← List.map_reverse,
    same _ (fun reading inside => List.mem_reverse.mp inside), lastDiffering]
  cases (zero :: history).reverse.find? (fun reading => reading ≠ current zero history) <;> rfl

end NoMercyRecomp.SampledValues
