import NoMercyRecomp.TextScan

/-!
# Replacing a literal everywhere in a line

Replacing every occurrence of a literal walks the line from the left: at an occurrence it
puts the new text and goes on behind it, elsewhere it keeps the character. A new text that
is fenced off from a pattern, because neither its first nor its last character occurs in
it, makes no occurrence of the pattern that the line did not have.
-/

namespace TextScan

/-! ## The walk -/

/-- Nothing is replaced in the empty line. -/
theorem replaceUpTo_nil (pattern new : Line) (fuel : Nat) :
    replaceUpTo pattern new fuel [] = [] := by
  cases fuel <;> rfl

/-- More rounds than characters do not matter, since each round takes at least one character off
the line. -/
theorem replaceUpTo_enough (pattern new line : Line) (nonempty : pattern ≠ []) (first second : Nat)
    (firstEnough : line.length ≤ first) (secondEnough : line.length ≤ second) :
    replaceUpTo pattern new first line = replaceUpTo pattern new second line := by
  induction first generalizing line second with
  | zero =>
    have empty : line = [] := List.length_eq_zero_iff.mp (Nat.le_zero.mp firstEnough)
    subst empty
    rw [replaceUpTo_nil, replaceUpTo_nil]
  | succ first inductionHypothesis =>
    cases second with
    | zero =>
      have empty : line = [] := List.length_eq_zero_iff.mp (Nat.le_zero.mp secondEnough)
      subst empty
      rw [replaceUpTo_nil, replaceUpTo_nil]
    | succ second =>
      rw [replaceUpTo, replaceUpTo]
      cases found : cut pattern line with
      | none => rfl
      | some parts =>
        obtain ⟨before, after⟩ := parts
        have whole := congrArg List.length (cut_eq pattern line before after found)
        have some : 0 < pattern.length := List.length_pos_iff.mpr nonempty
        simp only [List.length_append] at whole
        have later := inductionHypothesis after second (by omega) (by omega)
        simp only [later]

/-- Nothing is replaced in the empty line. -/
@[simp]
theorem replaceAll_nil (pattern new : Line) : replaceAll pattern new [] = [] := rfl

/-- At an occurrence the new text stands, and replacing goes on behind the pattern; the rounds
that are left there are enough. -/
theorem replaceAll_here (pattern new after : Line) (nonempty : pattern ≠ []) :
    replaceAll pattern new (pattern ++ after) = new ++ replaceAll pattern new after := by
  cases pattern with
  | nil => exact absurd rfl nonempty
  | cons first pattern =>
    have here : cut (first :: pattern) (first :: pattern ++ after) = some ([], after) := by
      simp [cut, search]
    have rounds := replaceUpTo_enough (first :: pattern) new after nonempty
      (pattern ++ after).length after.length
      (by simp) (le_refl _)
    rw [replaceAll, replaceAll, ← rounds]
    change replaceUpTo (first :: pattern) new ((pattern ++ after).length + 1)
      (first :: pattern ++ after) = _
    rw [replaceUpTo, here]
    rfl

/-- Where the literal does not begin, the character stays. -/
theorem replaceAll_skip (pattern new rest : Line) (c : Char) (nonempty : pattern ≠ [])
    (elsewhere : lit pattern (c :: rest) = none) :
    replaceAll pattern new (c :: rest) = c :: replaceAll pattern new rest := by
  have step :
      cut pattern (c :: rest) = (cut pattern rest).map (fun found => (c :: found.1, found.2)) := by
    simp [cut, search, elsewhere]
  have more := replaceUpTo_enough pattern new rest nonempty (rest.length + 1) rest.length
    (Nat.le_succ _) (le_refl _)
  rw [replaceAll, replaceAll, ← more, List.length_cons, replaceUpTo, replaceUpTo, step]
  cases found : cut pattern rest with
  | none => rfl
  | some parts => rfl

/-- A line is read from the left by the occurrences of a literal: it starts with one, or with a
character where none starts. The induction is on its length. -/
theorem literal_induction (pattern : Line) (nonempty : pattern ≠ []) {motive : Line → Prop}
    (nil : motive []) (here : ∀ after, motive after → motive (pattern ++ after))
    (skip : ∀ c rest, lit pattern (c :: rest) = none → motive rest → motive (c :: rest))
    (line : Line) : motive line := by
  induction size : line.length using Nat.strong_induction_on generalizing line with
  | _ size inductionHypothesis =>
    subst size
    cases line with
    | nil => exact nil
    | cons c rest =>
      cases found : lit pattern (c :: rest) with
      | none => exact skip c rest found (inductionHypothesis rest.length (by simp) rest rfl)
      | some after =>
        have whole := (lit_eq_some pattern (c :: rest) after).mp found
        have some : 0 < pattern.length := List.length_pos_iff.mpr nonempty
        rw [whole]
        exact here after (inductionHypothesis after.length
          (by rw [whole, List.length_append]; omega) after rfl)

/-- Text without the first character of the literal stays. -/
theorem replaceAll_run (first : Char) (pattern new skipped rest : Line) (absent : first ∉ skipped) :
    replaceAll (first :: pattern) new (skipped ++ rest) = skipped ++
      replaceAll (first :: pattern) new rest := by
  induction skipped with
  | nil => rfl
  | cons c skipped inductionHypothesis =>
    have different : c ≠ first := fun same => absent (same ▸ List.mem_cons_self)
    have elsewhere := lit_startsWith first pattern c (skipped ++ rest) different
    rw [List.cons_append, replaceAll_skip _ new _ c (List.cons_ne_nil _ _) elsewhere,
      inductionHypothesis (fun member => absent (List.mem_cons_of_mem c member)), List.cons_append]

/-- A line without the literal stays as it is. -/
theorem replaceAll_absent (pattern new line : Line) (absent : occurs pattern line = false) :
    replaceAll pattern new line = line := by
  have none : cut pattern line = none := by
    rw [occurs] at absent
    exact Option.not_isSome_iff_eq_none.mp (by simp [absent])
  cases line with
  | nil => rfl
  | cons c rest => rw [replaceAll, List.length_cons, replaceUpTo, none]

/-! ## Occurrences -/

/-- A literal occurs in a line when it begins there or occurs later. -/
theorem occurs_cons (pattern rest : Line) (c : Char) :
    occurs pattern (c :: rest) = ((lit pattern (c :: rest)).isSome || occurs pattern rest) := by
  rw [occurs, cut, search, occurs, cut]
  cases lit pattern (c :: rest) <;> simp

/-- What occurs in the end of a line occurs in the line. -/
theorem occurs_append_right (pattern before line : Line) (found : occurs pattern line = true) :
    occurs pattern (before ++ line) = true := by
  induction before with
  | nil => exact found
  | cons c before inductionHypothesis =>
    rw [List.cons_append, occurs_cons, inductionHypothesis, Bool.or_true]

/-- A literal at the front of a line occurs there. -/
theorem occurs_front (pattern rest : Line) (nonempty : pattern ≠ []) :
    occurs pattern (pattern ++ rest) = true :=
  (occurs_iff pattern (pattern ++ rest) nonempty).mpr ⟨[], rest, rfl⟩

/-- A new text is fenced off from a pattern: it does not hold the pattern, and its ends are
characters that the pattern does not have. -/
structure Fenced (pattern new : Line) : Prop where
  opens : ∃ first rest, new = first :: rest ∧ first ∉ pattern
  closes : ∃ before last, new = before ++ [last] ∧ last ∉ pattern
  absent : occurs pattern new = false

variable {pattern new : Line}

/-- A pattern does not begin inside a text that is fenced off from it: its first character is not
in the text, or what would have to follow is not. -/
theorem Fenced.inside (fenced : Fenced pattern new) (before rest after : Line) (c : Char)
    (part : new = before ++ c :: rest) : lit pattern (c :: rest ++ after) = none := by
  cases found : lit pattern (c :: rest ++ after) with
  | none => rfl
  | some remaining =>
    have whole := (lit_eq_some pattern _ remaining).mp found
    obtain ⟨front, last, ends, outside⟩ := fenced.closes
    have lastRest : last ∈ c :: rest := by
      have same := congrArg List.getLast? (part.symm.trans ends)
      rw [List.getLast?_append_cons, List.getLast?_concat] at same
      exact List.mem_of_getLast? same
    obtain ⟨middle, inside, -⟩ | ⟨middle, past, -⟩ := List.append_eq_append_iff.mp whole
    · exact absurd (inside ▸ List.mem_append_left middle lastRest) outside
    · have held : occurs pattern new = true := by
        by_cases empty : pattern = []
        · obtain ⟨first, later, shape, -⟩ := fenced.opens
          rw [shape, empty]
          rfl
        · exact (occurs_iff pattern new empty).mpr
            ⟨before, middle, by rw [part, past, List.append_assoc]⟩
      rw [fenced.absent] at held
      cases held

/-- A pattern occurs behind a text that is fenced off from it, if at all. -/
theorem Fenced.behind (fenced : Fenced pattern new) (line : Line) :
    occurs pattern (new ++ line) = occurs pattern line := by
  have suffixes (before rest : Line) (part : new = before ++ rest) :
      occurs pattern (rest ++ line) = occurs pattern line := by
    induction rest generalizing before with
    | nil => rfl
    | cons c rest inductionHypothesis =>
      have later := inductionHypothesis (before ++ [c]) (by simp [part])
      rw [List.cons_append, occurs_cons, ← List.cons_append, fenced.inside before rest line c part,
        later]
      rfl
  exact suffixes [] new rfl

/-- Replacing passes over a text that is fenced off from the pattern, character by character, as
the pattern starts at none of them. -/
theorem Fenced.replaceAll_behind (fenced : Fenced pattern new) (other line : Line)
    (nonempty : pattern ≠ []) :
    replaceAll pattern other (new ++ line) = new ++ replaceAll pattern other line := by
  have suffixes (before rest : Line) (part : new = before ++ rest) :
      replaceAll pattern other (rest ++ line) = rest ++ replaceAll pattern other line := by
    induction rest generalizing before with
    | nil => rfl
    | cons c rest inductionHypothesis =>
      have later := inductionHypothesis (before ++ [c]) (by simp [part])
      have elsewhere : lit pattern (c :: (rest ++ line)) = none :=
        fenced.inside before rest line c part
      rw [List.cons_append, replaceAll_skip pattern other (rest ++ line) c nonempty elsewhere,
        later, List.cons_append]
  exact suffixes [] new rfl

/-- What the replaced line starts with, up to the first new text, the line started with. By
induction on the line, as the search goes through it. -/
theorem replaceAll_prefix (searched new line front back : Line) (nonempty : searched ≠ [])
    (first : Char) (rest : Line) (opens : new = first :: rest) (outside : first ∉ front)
    (parts : replaceAll searched new line = front ++ back) :
    ∃ remaining, line = front ++ remaining ∧ replaceAll searched new remaining = back := by
  induction front generalizing line with
  | nil => exact ⟨line, rfl, parts⟩
  | cons d front inductionHypothesis =>
    have notHere : first ≠ d := fun same => outside (same ▸ List.mem_cons_self)
    cases line with
    | nil => cases parts
    | cons c remaining =>
      cases found : lit searched (c :: remaining) with
      | some after =>
        rw [(lit_eq_some searched _ after).mp found, replaceAll_here searched new after nonempty,
          opens] at parts
        exact absurd (List.cons.inj parts).1 notHere
      | none =>
        rw [replaceAll_skip searched new remaining c nonempty found] at parts
        obtain ⟨rfl, later⟩ := List.cons.inj parts
        obtain ⟨last, rfl, done⟩ := inductionHypothesis remaining
          (fun member => outside (List.mem_cons_of_mem _ member)) later
        exact ⟨last, rfl, done⟩

/-- Replacing by a text that is fenced off from a pattern makes no occurrence of it: one would
have to begin in the text, or lie outside it, where the line has it too. -/
theorem Fenced.occurs_replaceAll (fenced : Fenced pattern new) (searched line : Line)
    (nonempty : searched ≠ []) (found : occurs pattern (replaceAll searched new line) = true) :
    occurs pattern line = true := by
  induction line using literal_induction searched nonempty with
  | nil => exact found
  | here after inductionHypothesis =>
    rw [replaceAll_here searched new after nonempty, fenced.behind] at found
    exact occurs_append_right pattern searched after (inductionHypothesis found)
  | skip c rest elsewhere inductionHypothesis =>
    rw [replaceAll_skip searched new rest c nonempty elsewhere, occurs_cons,
      Bool.or_eq_true] at found
    obtain here | later := found
    · obtain ⟨back, here⟩ := Option.isSome_iff_exists.mp here
      have whole := (lit_eq_some pattern _ back).mp here
      obtain ⟨first, others, opens, outside⟩ := fenced.opens
      rw [← replaceAll_skip searched new rest c nonempty elsewhere] at whole
      obtain ⟨remaining, same, -⟩ := replaceAll_prefix searched new
        (c :: rest) pattern back nonempty first others opens outside whole
      rw [occurs_cons, same, lit_append]
      rfl
    · rw [occurs_cons, inductionHypothesis later, Bool.or_true]

/-- Replacing a pattern by a text that is fenced off from it leaves no occurrence: between the
texts the search has found none, and none begins inside them. -/
theorem Fenced.gone (fenced : Fenced pattern new) (line : Line) (nonempty : pattern ≠ []) :
    occurs pattern (replaceAll pattern new line) = false := by
  induction line using literal_induction pattern nonempty with
  | nil =>
    exact occurs_absent pattern [] (pattern.head nonempty) (List.head_mem nonempty)
      (List.not_mem_nil)
  | here after inductionHypothesis =>
    rw [replaceAll_here pattern new after nonempty, fenced.behind, inductionHypothesis]
  | skip c rest elsewhere inductionHypothesis =>
    have none : lit pattern (c :: replaceAll pattern new rest) = none := by
      cases here : lit pattern (c :: replaceAll pattern new rest) with
      | none => rfl
      | some back =>
        have whole := (lit_eq_some pattern _ back).mp here
        obtain ⟨first, others, opens, outside⟩ := fenced.opens
        rw [← replaceAll_skip pattern new rest c nonempty elsewhere] at whole
        obtain ⟨remaining, same, -⟩ := replaceAll_prefix pattern new
          (c :: rest) pattern back nonempty first others opens outside whole
        rw [same, lit_append] at elsewhere
        cases elsewhere
    rw [replaceAll_skip pattern new rest c nonempty elsewhere, occurs_cons, none,
      inductionHypothesis]
    rfl

/-! ## Other literals -/

/-- Of two literals of one length the one does not begin where the other stands. -/
theorem lit_other (pattern other rest : Line) (length : pattern.length = other.length)
    (different : pattern ≠ other) :
    lit pattern (other ++ rest) = none := by
  cases found : lit pattern (other ++ rest) with
  | none => rfl
  | some after =>
    have whole := (lit_eq_some pattern _ after).mp found
    exact absurd (List.append_inj_left whole.symm length) different

/-- A literal still occurs after another one is replaced: they have one length, begin with
one character and hold it nowhere else, so that they do not overlap. -/
theorem occurs_replaceAll_other (first : Char) (pattern other new line : Line)
    (inPattern : first ∉ pattern) (inOther : first ∉ other) (length : pattern.length = other.length)
    (different : pattern ≠ other) (found : occurs (first :: pattern) line = true) :
    occurs (first :: pattern) (replaceAll (first :: other) new line) = true := by
  have lengths : (first :: pattern).length = (first :: other).length := by simp [length]
  have unequal : first :: pattern ≠ first :: other := by simp [different]
  induction line using literal_induction (first :: other) (List.cons_ne_nil _ _) with
  | nil => exact found
  | here after inductionHypothesis =>
    have later : occurs (first :: pattern) after = true := by
      rw [List.cons_append, occurs_cons, ← List.cons_append, lit_other _ _ after lengths unequal,
        occurs_skip first pattern other after inOther] at found
      exact found
    rw [replaceAll_here _ new after (List.cons_ne_nil _ _)]
    exact occurs_append_right _ new _ (inductionHypothesis later)
  | skip c rest elsewhere inductionHypothesis =>
    rw [occurs_cons, Bool.or_eq_true] at found
    obtain here | later := found
    · obtain ⟨after, here⟩ := Option.isSome_iff_exists.mp here
      have whole := (lit_eq_some _ _ after).mp here
      rw [List.cons_append] at whole
      obtain ⟨rfl, rfl⟩ := List.cons.inj whole
      rw [replaceAll_skip _ new _ c (List.cons_ne_nil _ _) elsewhere,
        replaceAll_run c other new pattern after inPattern, ← List.cons_append]
      exact occurs_front _ _ (List.cons_ne_nil _ _)
    · rw [replaceAll_skip _ new rest c (List.cons_ne_nil _ _) elsewhere, occurs_cons,
        inductionHypothesis later, Bool.or_true]

end TextScan
