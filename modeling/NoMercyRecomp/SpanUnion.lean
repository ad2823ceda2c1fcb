import Mathlib

/-!
# Unions of spans and the gaps between them

Spans that are sorted by their starts are merged in one pass: a span joins the last interval
when it starts inside it or at its end. The intervals are separated and cover what the spans
cover; an empty span that touches no other one becomes an empty interval.

A walk over the intervals reports the gaps between them that have at least a given length.
These are the maximal runs outside the spans, except where an empty interval cuts a run.
-/

namespace SpanUnion

section Merge

variable {τ : Type} [LinearOrder τ]

/-- A span joins the last interval or becomes one. The intervals are kept latest first. -/
def add : List (τ × τ) → τ × τ → List (τ × τ)
  | last :: earlier, span =>
    if span.1 ≤ last.2 then (last.1, max last.2 span.2) :: earlier else span :: last :: earlier
  | [], span => [span]

def merge (spans : List (τ × τ)) : List (τ × τ) := (spans.foldl add []).reverse

/-- The intervals, latest first, of the spans. -/
structure Merged (spans intervals : List (τ × τ)) : Prop where
  separated : intervals.Pairwise (fun later earlier => earlier.2 < later.1)
  starts : ∀ interval ∈ intervals, ∃ span ∈ spans, span.1 = interval.1 ∧ span.2 ≤ interval.2
  holds : ∀ span ∈ spans, ∃ interval ∈ intervals, interval.1 ≤ span.1 ∧ span.2 ≤ interval.2
  covered : ∀ interval ∈ intervals, ∀ x, interval.1 ≤ x → x < interval.2 →
    ∃ span ∈ spans, span.1 ≤ x ∧ x < span.2

/-- No interval ends before its start. -/
theorem Merged.proper {spans intervals : List (τ × τ)} (merged : Merged spans intervals)
    (proper : ∀ span ∈ spans, span.1 ≤ span.2) (interval : τ × τ) (member : interval ∈ intervals) :
    interval.1 ≤ interval.2 := by
  obtain ⟨span, inSpans, start, inside⟩ := merged.starts interval member
  exact start ▸ (proper span inSpans).trans inside

/-- A span that starts behind the others is added. It extends the last interval if it starts
within it or at its end, and opens a new one otherwise; either way the intervals stay apart and
cover the same points. -/
theorem Merged.add {spans intervals : List (τ × τ)} (merged : Merged spans intervals)
    (proper : ∀ span ∈ spans, span.1 ≤ span.2) (span : τ × τ)
    (order : ∀ other ∈ spans, other.1 ≤ span.1) :
    Merged (spans ++ [span]) (add intervals span) := by
  have older {other : τ × τ} (member : other ∈ spans) : other ∈ spans ++ [span] :=
    List.mem_append_left _ member
  have self : span ∈ spans ++ [span] := by simp
  cases intervals with
  | nil =>
    have none : spans = [] := by
      rw [List.eq_nil_iff_forall_not_mem]
      intro other member
      obtain ⟨_, impossible, _⟩ := merged.holds other member
      cases impossible
    subst none
    refine ⟨List.pairwise_singleton _ _, ?_, ?_, ?_⟩
    · intro interval member
      obtain rfl := List.mem_singleton.mp member
      exact ⟨interval, self, rfl, le_refl _⟩
    · intro other member
      obtain rfl := List.mem_singleton.mp member
      exact ⟨other, List.mem_singleton_self _, le_refl _, le_refl _⟩
    · intro interval member x lower upper
      obtain rfl := List.mem_singleton.mp member
      exact ⟨interval, self, lower, upper⟩
  | cons last earlier =>
    obtain ⟨before, rest⟩ := List.pairwise_cons.mp merged.separated
    obtain ⟨opening, inSpans, start, fits⟩ := merged.starts last List.mem_cons_self
    have first : last.1 ≤ span.1 := start ▸ order opening inSpans
    rw [SpanUnion.add]
    split
    · rename_i joins
      refine ⟨List.pairwise_cons.mpr ⟨before, rest⟩, ?_, ?_, ?_⟩
      · intro interval member
        rcases List.mem_cons.mp member with rfl | inEarlier
        · exact ⟨opening, older inSpans, start, fits.trans (le_max_left _ _)⟩
        · obtain ⟨other, among, known⟩ := merged.starts interval (List.mem_cons_of_mem _ inEarlier)
          exact ⟨other, older among, known⟩
      · intro other member
        rcases List.mem_append.mp member with old | new
        · obtain ⟨interval, among, lower, upper⟩ := merged.holds other old
          rcases List.mem_cons.mp among with rfl | inEarlier
          · exact ⟨_, List.mem_cons_self, lower, upper.trans (le_max_left _ _)⟩
          · exact ⟨interval, List.mem_cons_of_mem _ inEarlier, lower, upper⟩
        · obtain rfl := List.mem_singleton.mp new
          exact ⟨_, List.mem_cons_self, first, le_max_right _ _⟩
      · intro interval member x lower upper
        rcases List.mem_cons.mp member with rfl | inEarlier
        · by_cases inLast : x < last.2
          · obtain ⟨other, among, known⟩ := merged.covered last List.mem_cons_self x lower inLast
            exact ⟨other, older among, known⟩
          · have behind : last.2 ≤ x := not_lt.mp inLast
            have inSpan : x < span.2 := (lt_max_iff.mp upper).resolve_left inLast
            exact ⟨span, self, joins.trans behind, inSpan⟩
        · obtain ⟨other, among, known⟩ :=
            merged.covered interval (List.mem_cons_of_mem _ inEarlier) x lower upper
          exact ⟨other, older among, known⟩
    · rename_i apart
      have behind : last.2 < span.1 := not_le.mp apart
      refine ⟨List.pairwise_cons.mpr ⟨?_, merged.separated⟩, ?_, ?_, ?_⟩
      · intro interval member
        rcases List.mem_cons.mp member with rfl | inEarlier
        · exact behind
        · exact (before interval inEarlier).trans_le
            ((merged.proper proper last List.mem_cons_self).trans behind.le)
      · intro interval member
        rcases List.mem_cons.mp member with rfl | among
        · exact ⟨interval, self, rfl, le_refl _⟩
        · obtain ⟨other, inOthers, known⟩ := merged.starts interval among
          exact ⟨other, older inOthers, known⟩
      · intro other member
        rcases List.mem_append.mp member with old | new
        · obtain ⟨interval, among, known⟩ := merged.holds other old
          exact ⟨interval, List.mem_cons_of_mem _ among, known⟩
        · obtain rfl := List.mem_singleton.mp new
          exact ⟨other, List.mem_cons_self, le_refl _, le_refl _⟩
      · intro interval member x lower upper
        rcases List.mem_cons.mp member with rfl | among
        · exact ⟨interval, self, lower, upper⟩
        · obtain ⟨other, inOthers, known⟩ := merged.covered interval among x lower upper
          exact ⟨other, older inOthers, known⟩

/-- The pass over sorted spans merges them. -/
theorem foldl_merged (spans : List (τ × τ)) (order : spans.Pairwise (fun a b => a.1 ≤ b.1))
    (proper : ∀ span ∈ spans, span.1 ≤ span.2) : Merged spans (spans.foldl add []) := by
  induction spans using List.reverseRecOn with
  | nil => exact ⟨List.Pairwise.nil, by simp, by simp, by simp⟩
  | append_singleton spans span inductionHypothesis =>
    rw [List.pairwise_append] at order
    obtain ⟨earlier, _, across⟩ := order
    have before : ∀ other ∈ spans, other.1 ≤ other.2 := fun other member =>
      proper other (List.mem_append_left _ member)
    rw [List.foldl_append, List.foldl_cons, List.foldl_nil]
    exact (inductionHypothesis earlier before).add before span
      (fun other member => across other member span (by simp))

/-- The intervals cover what the spans cover. -/
theorem merge_covers (spans : List (τ × τ)) (order : spans.Pairwise (fun a b => a.1 ≤ b.1))
    (proper : ∀ span ∈ spans, span.1 ≤ span.2) (x : τ) :
    (∃ interval ∈ merge spans, interval.1 ≤ x ∧ x < interval.2) ↔ ∃ span ∈ spans, span.1 ≤ x ∧
    x < span.2 := by
  have merged := foldl_merged spans order proper
  constructor
  · rintro ⟨interval, member, lower, upper⟩
    exact merged.covered interval (List.mem_reverse.mp member) x lower upper
  · rintro ⟨span, member, lower, upper⟩
    obtain ⟨interval, among, starts, ends⟩ := merged.holds span member
    exact ⟨interval, List.mem_reverse.mpr among, starts.trans lower, upper.trans_le ends⟩

end Merge

/-! ## Gaps -/

/-- Walk along the intervals and report the gaps in front of them that are long enough. -/
def walk (least : Int) : Int → List (Int × Int) → List (Int × Int)
  | _, [] => []
  | position, (first, last) :: edges =>
    (if least ≤ first - position then [(position, first)] else []) ++
      walk least (max position last) edges

/-- Between two neighbours, where the start and the end of the whole count as such. -/
structure Between (position size : Int) (intervals : List (Int × Int)) (lower upper : Int) :
    Prop where
  start : lower = position ∨ ∃ interval ∈ intervals, interval.2 = lower
  stop : upper = size ∨ ∃ interval ∈ intervals, interval.1 = upper
  first : position ≤ lower
  last : upper ≤ size
  apart : ∀ interval ∈ intervals, interval.2 ≤ lower ∨ upper ≤ interval.1

/-- The walk reports what lies between neighbours and is long enough. By induction on the
intervals, each of which moves the position to its end. -/
theorem mem_walk (least size position : Int) (positive : 0 < least) (intervals : List (Int × Int))
    (separated : intervals.Pairwise (fun earlier later => earlier.2 < later.1))
    (proper : ∀ interval ∈ intervals, interval.1 ≤ interval.2)
    (inside : ∀ interval ∈ intervals, position ≤ interval.1 ∧ interval.2 ≤ size)
    (order : position ≤ size) (lower upper : Int) :
    (lower, upper) ∈ walk least position (intervals ++ [(size, size)]) ↔
      least ≤ upper - lower ∧ Between position size intervals lower upper := by
  induction intervals generalizing position with
  | nil =>
    rw [List.nil_append, walk, walk, List.append_nil]
    constructor
    · intro member
      split at member
      · rename_i long
        obtain ⟨rfl, rfl⟩ : lower = position ∧ upper = size := by simpa using member
        exact ⟨long, Or.inl rfl, Or.inl rfl, le_refl _, le_refl _, by simp⟩
      · cases member
    · rintro ⟨long, between⟩
      obtain rfl : lower = position := by simpa using between.start
      obtain rfl : upper = size := by simpa using between.stop
      simp [long]
  | cons interval rest inductionHypothesis =>
    obtain ⟨first, last⟩ := interval
    obtain ⟨behind, separatedRest⟩ := List.pairwise_cons.mp separated
    obtain ⟨before, within⟩ := inside (first, last) List.mem_cons_self
    have nonneg : first ≤ last := proper (first, last) List.mem_cons_self
    dsimp only at before within
    have insideRest : ∀ interval ∈ rest, last ≤ interval.1 ∧
        interval.2 ≤ size := fun interval member =>
      ⟨(behind interval member).le, (inside interval (List.mem_cons_of_mem _ member)).2⟩
    have properRest : ∀ interval ∈ rest, interval.1 ≤ interval.2 := fun interval member =>
      proper interval (List.mem_cons_of_mem _ member)
    have later := inductionHypothesis last separatedRest properRest insideRest within
    rw [List.cons_append, walk, max_eq_right (before.trans nonneg), List.mem_append, later]
    constructor
    · rintro (here | ⟨long, between⟩)
      · split at here
        · rename_i long
          obtain ⟨rfl, rfl⟩ : lower = position ∧ upper = first := by simpa using here
          refine ⟨long, Or.inl rfl, Or.inr ⟨_, List.mem_cons_self, rfl⟩, le_refl _,
            nonneg.trans within, ?_⟩
          rw [List.forall_mem_cons]
          refine ⟨Or.inr (le_refl _), fun interval member => Or.inr ?_⟩
          exact nonneg.trans (behind interval member).le
        · cases here
      · refine ⟨long, Or.inr ?_, ?_, (before.trans nonneg).trans between.first, between.last, ?_⟩
        · rcases between.start with rfl | ⟨interval, member, stops⟩
          · exact ⟨_, List.mem_cons_self, rfl⟩
          · exact ⟨interval, List.mem_cons_of_mem _ member, stops⟩
        · refine between.stop.imp id ?_
          rintro ⟨interval, member, starts⟩
          exact ⟨interval, List.mem_cons_of_mem _ member, starts⟩
        · exact List.forall_mem_cons.mpr ⟨Or.inl between.first, between.apart⟩
    · rintro ⟨long, between⟩
      obtain ⟨here, others⟩ := List.forall_mem_cons.mp between.apart
      dsimp only at here
      rcases here with past | ahead
      · refine Or.inr ⟨long, ?_, ?_, past, between.last, others⟩
        · rcases between.start with same | ⟨interval, member, stops⟩
          · left
            omega
          · rcases List.mem_cons.mp member with rfl | inRest
            · exact Or.inl stops.symm
            · exact Or.inr ⟨interval, inRest, stops⟩
        · rcases between.stop with same | ⟨interval, member, starts⟩
          · exact Or.inl same
          · rcases List.mem_cons.mp member with rfl | inRest
            · dsimp only at starts
              omega
            · exact Or.inr ⟨interval, inRest, starts⟩
      · left
        have starts : lower = position := by
          rcases between.start with same | ⟨interval, member, stops⟩
          · exact same
          · rcases List.mem_cons.mp member with rfl | inRest
            · dsimp only at stops
              omega
            · have far := behind interval inRest
              have grows := properRest interval inRest
              dsimp only at far
              omega
        have stops : upper = first := by
          rcases between.stop with same | ⟨interval, member, starts⟩
          · omega
          · rcases List.mem_cons.mp member with rfl | inRest
            · exact starts.symm
            · have far := behind interval inRest
              dsimp only at far
              omega
        rw [starts, stops] at long ⊢
        simp [long]

/-- The reported gaps are in order, and none starts before the position of the walk. By induction
on the edges, each of which moves the position to its end. -/
theorem walk_sorted (least position : Int) (edges : List (Int × Int))
    (separated : edges.Pairwise (fun earlier later => earlier.2 ≤ later.1))
    (proper : ∀ edge ∈ edges, edge.1 ≤ edge.2) (inside : ∀ edge ∈ edges, position ≤ edge.1) :
    (walk least position edges).Pairwise (fun earlier later => earlier.2 ≤ later.1) ∧
      ∀ gap ∈ walk least position edges, position ≤ gap.1 := by
  induction edges generalizing position with
  | nil => exact ⟨List.Pairwise.nil, by simp [walk]⟩
  | cons edge edges inductionHypothesis =>
    obtain ⟨first, last⟩ := edge
    obtain ⟨behind, separatedRest⟩ := List.pairwise_cons.mp separated
    obtain ⟨here, properRest⟩ := List.forall_mem_cons.mp proper
    obtain ⟨before, _⟩ := List.forall_mem_cons.mp inside
    dsimp only at here before
    obtain ⟨later, starts⟩ := inductionHypothesis last separatedRest properRest behind
    rw [walk, max_eq_right (before.trans here)]
    constructor
    · rw [List.pairwise_append]
      refine ⟨by split <;> simp, later, ?_⟩
      intro gap member other inRest
      split at member
      · obtain rfl := List.mem_singleton.mp member
        exact here.trans (starts other inRest)
      · cases member
    · intro gap member
      rcases List.mem_append.mp member with now | inRest
      · split at now
        · obtain rfl := List.mem_singleton.mp now
          exact le_refl _
        · cases now
      · exact (before.trans here).trans (starts gap inRest)

/-! ## Runs outside the spans -/

/-- A maximal run of positions of the whole that are not covered. -/
structure Run (covered : Int → Prop) (size lower upper : Int) : Prop where
  first : 0 ≤ lower
  proper : lower < upper
  last : upper ≤ size
  free : ∀ x, lower ≤ x → x < upper → ¬ covered x
  start : lower = 0 ∨ covered (lower - 1)
  stop : upper = size ∨ covered upper

/-- A free stretch lies in a maximal run: its start is moved down, and its end up, as long as the
next point is free and inside. -/
theorem exists_run (covered : Int → Prop) (size lower upper : Int) (first : 0 ≤ lower)
    (proper : lower < upper)
    (last : upper ≤ size) (free : ∀ x, lower ≤ x → x < upper → ¬ covered x) :
    ∃ start stop, Run covered size start stop ∧ start ≤ lower ∧ upper ≤ stop := by
  have downwards (n : Nat) : ∀ lower, 0 ≤ lower → lower < upper → lower.toNat = n →
      (∀ x, lower ≤ x → x < upper → ¬ covered x) →
      ∃ start ≤ lower, 0 ≤ start ∧ (∀ x, start ≤ x → x < upper → ¬ covered x) ∧
      (start = 0 ∨ covered (start - 1)) := by
    induction n with
    | zero =>
      intro lower first proper size free
      exact ⟨lower, le_refl _, first, free, Or.inl (by omega)⟩
    | succ n inductionHypothesis =>
      intro lower first proper size free
      by_cases blocked : covered (lower - 1)
      · exact ⟨lower, le_refl _, first, free, Or.inr blocked⟩
      · obtain ⟨start, below, known⟩ :=
          inductionHypothesis (lower - 1) (by omega) (by omega) (by omega) (by
          intro x atLeast less
          by_cases edge : x = lower - 1
          · exact edge ▸ blocked
          · exact free x (by omega) less)
        exact ⟨start, by omega, known⟩
  have upwards (n : Nat) : ∀ upper, upper ≤ size → (size - upper).toNat = n →
      (∀ x, lower ≤ x → x < upper → ¬ covered x) →
      ∃ stop, upper ≤ stop ∧ stop ≤ size ∧ (∀ x, lower ≤ x → x < stop → ¬ covered x) ∧
      (stop = size ∨ covered stop) := by
    induction n with
    | zero =>
      intro upper last rest free
      exact ⟨upper, le_refl _, last, free, Or.inl (by omega)⟩
    | succ n inductionHypothesis =>
      intro upper last rest free
      by_cases blocked : covered upper
      · exact ⟨upper, le_refl _, last, free, Or.inr blocked⟩
      · obtain ⟨stop, above, known⟩ := inductionHypothesis (upper + 1) (by omega) (by omega) (by
          intro x atLeast less
          by_cases edge : x = upper
          · exact edge ▸ blocked
          · exact free x atLeast (by omega))
        exact ⟨stop, by omega, known⟩
  obtain ⟨start, below, nonneg, freeBelow, opens⟩ :=
    downwards lower.toNat lower first proper rfl free
  obtain ⟨stop, above, within, freeAbove, closes⟩ :=
    upwards (size - upper).toNat upper last rfl free
  refine ⟨start, stop, ⟨nonneg, by omega, within, ?_, opens, closes⟩, below, above⟩
  intro x atLeast less
  by_cases early : x < upper
  · exact freeBelow x atLeast early
  · exact freeAbove x (by omega) less

section Tiling

variable (least size : Int) (spans : List (Int × Int))
  (sorted : spans.Pairwise (fun a b => a.1 ≤ b.1))
  (inside : ∀ span ∈ spans, 0 ≤ span.1 ∧ span.1 ≤ span.2 ∧ span.2 ≤ size)
include sorted inside

/-- The intervals of the merge, in order: apart, not reversed and within the section. It folds the
addition of one span over the spans as they are sorted. -/
theorem merge_intervals : Merged spans (spans.foldl add []) ∧
    (merge spans).Pairwise (fun earlier later => earlier.2 < later.1) ∧
    (∀ interval ∈ merge spans, interval.1 ≤ interval.2) ∧
    ∀ interval ∈ merge spans, 0 ≤ interval.1 ∧ interval.2 ≤ size := by
  have merged := foldl_merged spans sorted (fun span member => (inside span member).2.1)
  refine ⟨merged, List.pairwise_reverse.mpr merged.separated, ?_, ?_⟩
  · intro interval member
    exact merged.proper (fun span inSpans => (inside span inSpans).2.1) interval
      (List.mem_reverse.mp member)
  · intro interval member
    have among := List.mem_reverse.mp member
    obtain ⟨span, inSpans, start, fits⟩ := merged.starts interval among
    obtain ⟨first, proper, last⟩ := inside span inSpans
    refine ⟨start ▸ first, ?_⟩
    by_cases empty : interval.1 = interval.2
    · omega
    · have grows := merged.proper (fun span inSpans => (inside span inSpans).2.1) interval among
      obtain ⟨other, inOthers, _, upper⟩ :=
        merged.covered interval among (interval.2 - 1) (by omega) (by omega)
      have ends := (inside other inOthers).2.2
      omega

/-- The walk reports exactly the maximal runs that are long enough, unless an empty span lies
inside a free stretch of that length. -/
theorem walk_runs (some? : 0 ≤ size) (long : 2 ≤ least) :
    (∀ lower upper, (lower, upper) ∈ walk least 0 (merge spans ++ [(size, size)]) ↔
      least ≤ upper - lower ∧
    Run (fun x => ∃ span ∈ spans, span.1 ≤ x ∧ x < span.2) size lower upper) ↔
    ¬ ∃ span ∈ spans, span.1 = span.2 ∧ ∃ start, 0 ≤ start ∧ start + least ≤ size ∧ start < span.1 ∧
      span.1 < start + least ∧ ∀ x, start ≤ x → x < start + least → ¬ ∃ span ∈ spans, span.1 ≤ x ∧
      x < span.2 := by
  obtain ⟨merged, separated, proper, within⟩ := merge_intervals size spans sorted inside
  have covers := merge_covers spans sorted (fun span member => (inside span member).2.1)
  have reported := mem_walk least size 0 (by omega) (merge spans) separated proper within some?
  have empty (interval : Int × Int) (member : interval ∈ merge spans)
    (none : interval.1 = interval.2) :
      ∃ span ∈ spans, span.1 = span.2 ∧ span.1 = interval.1 := by
    obtain ⟨span, inSpans, start, fits⟩ := merged.starts interval (List.mem_reverse.mp member)
    have grows := (inside span inSpans).2.1
    exact ⟨span, inSpans, by omega, start⟩
  constructor
  · rintro precise ⟨span, member, none, start, first, last, before, behind, free⟩
    obtain ⟨lower, upper, run, below, above⟩ :=
      exists_run _ size start (start + least) first (by omega) last free
    obtain ⟨_, between⟩ := (reported lower upper).mp ((precise lower upper).mpr ⟨by omega, run⟩)
    obtain ⟨interval, among, starts, ends⟩ := merged.holds span member
    have apart := between.apart interval (List.mem_reverse.mpr among)
    omega
  · intro uncut lower upper
    rw [reported]
    refine and_congr_right (fun enough => ⟨fun between => ?_, fun run => ?_⟩)
    · have free : ∀ x, lower ≤ x → x < upper → ¬ ∃ span ∈ spans, span.1 ≤ x ∧ x < span.2 := by
        intro x atLeast less held
        obtain ⟨interval, member, starts, ends⟩ := (covers x).mpr held
        have apart := between.apart interval member
        omega
      refine ⟨between.first, by omega, between.last, free, ?_, ?_⟩
      · rcases between.start with zero | ⟨interval, member, stops⟩
        · exact Or.inl zero
        · have grows := proper interval member
          by_cases held : ∃ span ∈ spans, span.1 ≤ lower - 1 ∧ lower - 1 < span.2
          · exact Or.inr held
          · left
            by_contra inner
            have first := between.first
            have last := between.last
            by_cases none : interval.1 = interval.2
            · obtain ⟨span, inSpans, isEmpty, starts⟩ := empty interval member none
              refine uncut ⟨span, inSpans, isEmpty, lower - 1,
                by omega, by omega, by omega, by omega, ?_⟩
              intro x atLeast less
              by_cases edge : x = lower - 1
              · exact edge ▸ held
              · exact free x (by omega) (by omega)
            · exact held ((covers (lower - 1)).mp ⟨interval, member, by omega, by omega⟩)
      · rcases between.stop with whole | ⟨interval, member, starts⟩
        · exact Or.inl whole
        · have grows := proper interval member
          by_cases held : ∃ span ∈ spans, span.1 ≤ upper ∧ upper < span.2
          · exact Or.inr held
          · left
            by_contra inner
            have first := between.first
            have last := between.last
            by_cases none : interval.1 = interval.2
            · obtain ⟨span, inSpans, isEmpty, begins⟩ := empty interval member none
              refine uncut ⟨span, inSpans, isEmpty, upper + 1 - least,
                by omega, by omega, by omega, by omega, ?_⟩
              intro x atLeast less
              by_cases edge : x = upper
              · exact edge ▸ held
              · exact free x (by omega) (by omega)
            · exact held ((covers upper).mp ⟨interval, member, by omega, by omega⟩)
    · refine ⟨?_, ?_, run.first, run.last, ?_⟩
      · refine run.start.imp id (fun held => ?_)
        obtain ⟨interval, member, starts, ends⟩ := (covers (lower - 1)).mpr held
        refine ⟨interval, member, ?_⟩
        by_contra further
        exact run.free lower (le_refl _) run.proper
          ((covers lower).mp ⟨interval, member, by omega, by omega⟩)
      · refine run.stop.imp id (fun held => ?_)
        obtain ⟨interval, member, starts, ends⟩ := (covers upper).mpr held
        have proper := run.proper
        refine ⟨interval, member, ?_⟩
        by_contra further
        exact run.free (upper - 1) (by omega) (by omega)
          ((covers (upper - 1)).mp ⟨interval, member, by omega, by omega⟩)
      · intro interval member
        by_contra overlap
        have first := run.first
        have last := run.last
        have grows := proper interval member
        by_cases none : interval.1 = interval.2
        · obtain ⟨span, inSpans, isEmpty, begins⟩ := empty interval member none
          refine uncut ⟨span, inSpans, isEmpty, max lower (span.1 + 1 - least),
            by omega, by omega, by omega, by omega, ?_⟩
          intro x atLeast less
          exact run.free x (by omega) (by omega)
        · exact run.free (max interval.1 lower) (by omega) (by omega)
            ((covers (max interval.1 lower)).mp ⟨interval, member, by omega, by omega⟩)

end Tiling

/-! ## Lengths -/

/-- The lengths of separated intervals add up to the number of positions that they cover: they are
disjoint, and each covers as many as it is long. -/
theorem sum_lengths (size : Int) (intervals : List (Int × Int))
    (separated : intervals.Pairwise (fun earlier later => earlier.2 < later.1))
    (proper : ∀ interval ∈ intervals, interval.1 ≤ interval.2)
    (inside : ∀ interval ∈ intervals, 0 ≤ interval.1 ∧ interval.2 ≤ size) :
    (intervals.map (fun interval => interval.2 - interval.1)).sum =
      (((Finset.Ico 0 size).filter (fun x => ∃ interval ∈ intervals, interval.1 ≤ x ∧
        x < interval.2)).card : Int) := by
  induction intervals with
  | nil => simp
  | cons interval rest inductionHypothesis =>
    obtain ⟨behind, separatedRest⟩ := List.pairwise_cons.mp separated
    obtain ⟨grows, properRest⟩ := List.forall_mem_cons.mp proper
    obtain ⟨⟨first, last⟩, insideRest⟩ := List.forall_mem_cons.mp inside
    have parts :
      (Finset.Ico 0 size).filter (fun x => ∃ other ∈ interval :: rest, other.1 ≤ x ∧ x < other.2) =
        Finset.Ico interval.1 interval.2 ∪
          (Finset.Ico 0 size).filter (fun x => ∃ other ∈ rest, other.1 ≤ x ∧ x < other.2) := by
      ext x
      simp only [Finset.mem_filter, Finset.mem_Ico, Finset.mem_union, List.mem_cons,
        exists_eq_or_imp]
      constructor
      · rintro ⟨whole, here | later⟩
        · exact Or.inl here
        · exact Or.inr ⟨whole, later⟩
      · rintro (here | ⟨whole, later⟩)
        · exact ⟨by omega, Or.inl here⟩
        · exact ⟨whole, Or.inr later⟩
    have disjoint : Disjoint (Finset.Ico interval.1 interval.2)
        ((Finset.Ico 0 size).filter (fun x => ∃ other ∈ rest, other.1 ≤ x ∧ x < other.2)) := by
      rw [Finset.disjoint_left]
      intro x here there
      obtain ⟨_, other, member, starts, _⟩ := Finset.mem_filter.mp there
      have far := behind other member
      rw [Finset.mem_Ico] at here
      omega
    rw [List.map_cons, List.sum_cons, inductionHypothesis separatedRest properRest insideRest,
      parts, Finset.card_union_of_disjoint disjoint, Int.card_Ico]
    push_cast
    rw [Int.toNat_of_nonneg (by omega)]

end SpanUnion
