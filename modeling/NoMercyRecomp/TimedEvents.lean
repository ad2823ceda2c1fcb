import Mathlib.Data.List.Induction
import Mathlib.Data.List.Sigma
import Mathlib.Order.Lattice

/-!
# Events that are replayed by a cursor

A frame applies the events that are due at its time and leaves the cursor behind them.
Frames in order apply each event once: after the frame at a time the state is that of all
events up to the first one that is later, whichever frames came before. Where the events are
in the order of their times, these are all events that are not later.

Sorting by time is stable, so the last event of a kind is the one of the greatest time, and
among those of one time the one that came last.
-/

namespace TimedEvents

variable {α σ τ : Type} [LinearOrder τ] (time : α → τ)

/-! ## The cursor -/

section Cursor

variable (apply : σ → α → σ)

/-- Apply the first events while they are due, and count them. -/
def catchUp (now : τ) : List α → Nat → σ → Nat × σ
  | [], next, state => (next, state)
  | event :: rest, next, state =>
    if time event ≤ now then catchUp now rest (next + 1) (apply state event) else (next, state)

/-- A frame catches up from the cursor on. -/
def frame (events : List α) (cursor : Nat × σ) (now : τ) : Nat × σ :=
  catchUp time apply now (events.drop cursor.1) cursor.1 cursor.2

/-- The events in front of the first one that is later. -/
def due (events : List α) (now : τ) : List α := events.takeWhile (fun event => time event ≤ now)

/-- The cursor behind the events that are due, and their state. -/
def replayed (events : List α) (state : σ) (now : τ) : Nat × σ :=
  ((due time events now).length, (due time events now).foldl apply state)

/-- Catching up applies the events that are due, and goes on behind them. By induction on the
events, up to the first that is later. -/
theorem catchUp_due (now : τ) (events : List α) (next : Nat) (state : σ) :
    catchUp time apply now events next state =
      (next + (due time events now).length, (due time events now).foldl apply state) := by
  induction events generalizing next state with
  | nil => rfl
  | cons event rest inductionHypothesis =>
    by_cases here : time event ≤ now
    · have more : due time (event :: rest) now = event :: due time rest now := by simp [due, here]
      rw [catchUp, if_pos here, inductionHypothesis, more, List.length_cons, List.foldl_cons]
      congr 1
      omega
    · have none : due time (event :: rest) now = [] := by simp [due, here]
      rw [catchUp, if_neg here, none]
      rfl

/-- A part of the state on which the events act by themselves is replayed by itself. -/
theorem frame_part {ρ : Type} (act : ρ → α → ρ) (part : σ → ρ)
    (acts : ∀ state event, part (apply state event) = act (part state) event) (events : List α)
    (cursor : Nat × σ) (now : τ) : frame time act events (cursor.1, part cursor.2) now =
      ((frame time apply events cursor now).1, part (frame time apply events cursor now).2) := by
  have folded (applied : List α) (state : σ) :
      applied.foldl act (part state) = part (applied.foldl apply state) := by
    induction applied generalizing state with
    | nil => rfl
    | cons event rest inductionHypothesis =>
      rw [List.foldl_cons, List.foldl_cons, ← acts, inductionHypothesis]
  rw [frame, frame, catchUp_due, catchUp_due, folded]

/-- A first frame replays everything up to now. -/
theorem frame_first (events : List α) (state : σ) (now : τ) :
    frame time apply events (0, state) now = replayed time apply events state now := by
  rw [frame, List.drop_zero, catchUp_due, Nat.zero_add]
  rfl

/-- A later time adds the events in between: those that were due still are, and the rest is looked
through from where it had stopped. -/
theorem due_later (events : List α) (first now : τ) (order : first ≤ now) :
    due time events now =
      due time events first ++ due time (events.drop (due time events first).length) now := by
  induction events with
  | nil => rfl
  | cons event rest inductionHypothesis =>
    by_cases early : time event ≤ first
    · have here : time event ≤ now := early.trans order
      have before : due time (event :: rest) first = event :: due time rest first := by
        simp [due, early]
      have after : due time (event :: rest) now = event :: due time rest now := by simp [due, here]
      rw [before, after, List.length_cons, List.drop_succ_cons, List.cons_append,
        ← inductionHypothesis]
    · have before : due time (event :: rest) first = [] := by simp [due, early]
      rw [before]
      rfl

/-- A frame at a later time goes on where the one before stopped. -/
theorem frame_later (events : List α) (state : σ) (first now : τ) (order : first ≤ now) :
    frame time apply events (replayed time apply events state first) now =
      replayed time apply events state now := by
  rw [frame, catchUp_due, replayed, replayed, due_later time events first now order]
  simp

/-- After frames in order the state is that of the events due at the last one. -/
theorem frames_replayed (events : List α) (state : σ) (times : List τ) (now : τ)
    (order : (times ++ [now]).Pairwise (· ≤ ·)) :
    (times ++ [now]).foldl (frame time apply events) (0, state) =
      replayed time apply events state now := by
  induction times using List.reverseRecOn generalizing now with
  | nil => exact frame_first time apply events state now
  | append_singleton times last inductionHypothesis =>
    rw [List.pairwise_append] at order
    obtain ⟨earlier, _, across⟩ := order
    have step : last ≤ now := across last (by simp) now (by simp)
    rw [List.foldl_append, inductionHypothesis last earlier]
    exact frame_later time apply events state last now step

/-- In the order of their times the events that are due are those that are not later: behind the
first later event, all are. -/
theorem due_sorted (events : List α) (now : τ)
    (order : events.Pairwise (fun a b => time a ≤ time b)) :
    due time events now = events.filter (fun event => time event ≤ now) := by
  induction events with
  | nil => rfl
  | cons event rest inductionHypothesis =>
    rw [List.pairwise_cons] at order
    by_cases here : time event ≤ now
    · have more : due time (event :: rest) now = event :: due time rest now := by simp [due, here]
      rw [more, inductionHypothesis order.2, List.filter_cons_of_pos (by simpa using here)]
    · have none : due time (event :: rest) now = [] := by simp [due, here]
      have later : ∀ other ∈ event :: rest, ¬ time other ≤ now := by
        intro other member early
        rcases List.mem_cons.mp member with rfl | inRest
        · exact here early
        · exact here ((order.1 other inRest).trans early)
      rw [none]
      exact (List.filter_eq_nil_iff.mpr
        (fun other member => by simpa using later other member)).symm

end Cursor

/-! ## Stable time order -/

/-- The events in the order of their times; events of one time keep their order. -/
def inTimeOrder (events : List α) : List α := events.mergeSort (fun a b => decide (time a ≤ time b))

/-- An event with its position comes before another. -/
def Before (first second : α × Nat) : Prop :=
  time first.1 < time second.1 ∨ (time first.1 = time second.1 ∧ first.2 < second.2)

/-- The event of the kind that all others come before. -/
def Last (kind : α → Bool) (events : List α) (event : α) : Prop :=
  ∃ k, events[k]? = some event ∧ kind event = true ∧
    ∀ j other, events[j]? = some other → kind other = true → j = k ∨
    Before time (other, j) (event, k)

/-- The event of the kind that comes before all others. -/
def First (kind : α → Bool) (events : List α) (event : α) : Prop :=
  ∃ k, events[k]? = some event ∧ kind event = true ∧
    ∀ j other, events[j]? = some other → kind other = true → j = k ∨
    Before time (event, k) (other, j)

/-- Of two events one at most comes before the other. -/
theorem before_asymm (first second : α × Nat) (before : Before time first second) :
    ¬ Before time second first := by
  rintro (later | ⟨same, after⟩)
  · rcases before with earlier | ⟨same, _⟩
    · exact lt_asymm earlier later
    · exact later.ne' same
  · rcases before with earlier | ⟨_, earlier⟩
    · exact earlier.ne' same
    · omega

/-- The last element of an ordered list is the one that all others come before. The order is
asymmetric, so there is no second one; by cases on the list's end. -/
theorem getLast_iff {β : Type} (precedes : β → β → Prop)
    (asymm : ∀ x y, precedes x y → ¬ precedes y x)
    (list : List β) (order : list.Pairwise precedes) (x : β) :
    list.getLast? = some x ↔ x ∈ list ∧ ∀ y ∈ list, y = x ∨ precedes y x := by
  induction list using List.reverseRecOn with
  | nil => simp
  | append_singleton front z _ =>
    rw [List.pairwise_append] at order
    obtain ⟨_, _, across⟩ := order
    rw [List.getLast?_concat, Option.some.injEq]
    constructor
    · rintro rfl
      refine ⟨by simp, ?_⟩
      intro y member
      rcases List.mem_append.mp member with inFront | atEnd
      · exact Or.inr (across y inFront z (by simp))
      · exact Or.inl (List.mem_singleton.mp atEnd)
    · rintro ⟨member, least⟩
      rcases List.mem_append.mp member with inFront | atEnd
      · have first := across x inFront z (by simp)
        rcases least z (by simp) with same | second
        · exact same
        · exact absurd second (asymm x z first)
      · exact (List.mem_singleton.mp atEnd).symm

/-- The head of an ordered list is the entry that comes before all others. -/
theorem head_iff {β : Type} (precedes : β → β → Prop) (asymm : ∀ x y, precedes x y → ¬ precedes y x)
    (list : List β) (order : list.Pairwise precedes) (x : β) :
    list.head? = some x ↔ x ∈ list ∧ ∀ y ∈ list, y = x ∨ precedes x y := by
  rw [← List.getLast?_reverse,
    getLast_iff (fun y z => precedes z y) (fun y z first second => asymm z y first second)
    list.reverse (List.pairwise_reverse.mpr order)]
  simp only [List.mem_reverse]

/-- The sorted events with their positions. The sort is stable, so it is the sort of the pairs of
events and positions by time and then by position, which has every pair once. -/
theorem inTimeOrder_positions (events : List α) :
    ∃ pairs : List (α × Nat), pairs.map Prod.fst = inTimeOrder time events ∧
    (∀ event k, (event, k) ∈ pairs ↔ events[k]? = some event) ∧ pairs.Pairwise (Before time) := by
  let le : α → α → Bool := fun a b => decide (time a ≤ time b)
  have trans (a b c : α) (first : le a b = true) (second : le b c = true) : le a c = true := by
    have early : time a ≤ time b := of_decide_eq_true first
    exact decide_eq_true (early.trans (of_decide_eq_true second))
  have total (a b : α) : (le a b || le b a) = true := by simpa [le] using le_total (time a) (time b)
  have sorted : (events.zipIdx.mergeSort (List.zipIdxLE le)).Pairwise
      (fun a b => List.zipIdxLE le a b = true) :=
    List.pairwise_mergeSort (List.zipIdxLE_trans trans) (List.zipIdxLE_total total) events.zipIdx
  have positions : ((events.zipIdx.mergeSort (List.zipIdxLE le)).map Prod.snd).Nodup :=
    (((List.mergeSort_perm events.zipIdx _).map Prod.snd).nodup_iff).mpr
      (List.nodup_zipIdx_map_snd events)
  refine ⟨events.zipIdx.mergeSort (List.zipIdxLE le), List.mergeSort_zipIdx, ?_, ?_⟩
  · intro event k
    rw [List.mem_mergeSort, List.mk_mem_zipIdx_iff_getElem?]
  · refine (sorted.and (List.pairwise_map.mp positions)).imp ?_
    rintro first second ⟨ordered, distinct⟩
    have early : time first.1 ≤ time second.1 := by
      by_contra late
      simp [List.zipIdxLE, le, late] at ordered
    rcases early.lt_or_eq with earlier | same
    · exact Or.inl earlier
    · refine Or.inr ⟨same, ?_⟩
      have place : first.2 ≤ second.2 := by simpa [List.zipIdxLE, le, same] using ordered
      omega

/-- An event is extreme among pairs as it is among the events of the kind by their positions: the
pairs are these events, each at its position. -/
theorem extreme_iff (kind : α → Bool) (events : List α) (pairs : List (α × Nat))
    (members : ∀ event k, (event, k) ∈ pairs ↔ events[k]? = some event ∧ kind event = true)
    (precedes : α × Nat → α × Nat → Prop) (event : α) :
    (∃ k, (event, k) ∈ pairs ∧ ∀ y ∈ pairs, y = (event, k) ∨ precedes y (event, k)) ↔
      ∃ k, events[k]? = some event ∧ kind event = true ∧
        ∀ j other, events[j]? = some other → kind other = true → j = k ∨
        precedes (other, j) (event, k) := by
  constructor
  · rintro ⟨k, member, least⟩
    obtain ⟨here, isKind⟩ := (members event k).mp member
    refine ⟨k, here, isKind, ?_⟩
    intro j other there otherKind
    exact (least (other, j) ((members other j).mpr ⟨there, otherKind⟩)).imp (fun same =>
      congrArg Prod.snd same) id
  · rintro ⟨k, here, isKind, least⟩
    refine ⟨k, (members event k).mpr ⟨here, isKind⟩, ?_⟩
    rintro ⟨other, j⟩ member
    obtain ⟨there, otherKind⟩ := (members other j).mp member
    refine (least j other there otherKind).imp (fun same => ?_) id
    subst same
    rw [Option.some.inj (there.symm.trans here)]

/-- The sorted events of a kind with their positions. -/
theorem inTimeOrder_kind (kind : α → Bool) (events : List α) :
    ∃ pairs : List (α × Nat), pairs.map Prod.fst = (inTimeOrder time events).filter kind ∧
      (∀ event k, (event, k) ∈ pairs ↔ events[k]? = some event ∧ kind event = true) ∧
      pairs.Pairwise (Before time) := by
  obtain ⟨pairs, sorted, members, order⟩ := inTimeOrder_positions time events
  refine ⟨pairs.filter (fun pair => kind pair.1), ?_, ?_, order.filter _⟩
  · rw [← sorted, List.filter_map]
    rfl
  · intro event k
    rw [List.mem_filter, members event k]

/-- The last of the sorted events of a kind. -/
theorem inTimeOrder_last (kind : α → Bool) (events : List α) (event : α) :
    ((inTimeOrder time events).filter kind).getLast? = some event ↔
    Last time kind events event := by
  obtain ⟨pairs, sorted, members, order⟩ := inTimeOrder_kind time kind events
  rw [Last, ← extreme_iff kind events pairs members (Before time), ← sorted, List.getLast?_map,
    Option.map_eq_some_iff]
  constructor
  · rintro ⟨⟨found, k⟩, isLast, rfl⟩
    exact ⟨k, (getLast_iff (Before time) (before_asymm time) pairs order (found, k)).mp isLast⟩
  · rintro ⟨k, isLast⟩
    exact ⟨(event, k),
      (getLast_iff (Before time) (before_asymm time) pairs order (event, k)).mpr isLast, rfl⟩

/-- The first of the sorted events of a kind. -/
theorem inTimeOrder_first (kind : α → Bool) (events : List α) (event : α) :
    (inTimeOrder time events).find? kind = some event ↔ First time kind events event := by
  obtain ⟨pairs, sorted, members, order⟩ := inTimeOrder_kind time kind events
  rw [First, ← extreme_iff kind events pairs members (fun second first => Before time first second),
    ← List.head?_filter, ← sorted, List.head?_map, Option.map_eq_some_iff]
  constructor
  · rintro ⟨⟨found, k⟩, isFirst, rfl⟩
    exact ⟨k, (head_iff (Before time) (before_asymm time) pairs order (found, k)).mp isFirst⟩
  · rintro ⟨k, isFirst⟩
    exact ⟨(event, k),
      (head_iff (Before time) (before_asymm time) pairs order (event, k)).mpr isFirst, rfl⟩

/-- The sorted events are in the order of their times. -/
theorem inTimeOrder_sorted (events : List α) :
    (inTimeOrder time events).Pairwise (fun a b => time a ≤ time b) := by
  obtain ⟨pairs, sorted, _, order⟩ := inTimeOrder_positions time events
  rw [← sorted, List.pairwise_map]
  refine order.imp ?_
  rintro first second (earlier | ⟨same, _⟩)
  · exact earlier.le
  · exact same.le

end TimedEvents
