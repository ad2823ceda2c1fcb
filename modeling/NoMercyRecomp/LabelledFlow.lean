import Mathlib.Logic.Basic
import Mathlib.Data.List.Basic

/-!
# Control flow of labelled structured code

Code is a list of items, of conditional blocks and of blocks with arms. Control runs
through it from the start or from a label, which may stand inside a block, and leaves
it by running off the end or by jumping to a label. A conditional block may be entered
or skipped; a block with arms is left only through its arms.

A scan reads the items outside blocks in order and keeps one bit: whether control may
be there. An item it sees as a label sets the bit and one it takes for an exit clears
it. The scan is sound on a piece of code exactly when no label that is jumped to is
unseen: a label in a dead place from which control runs off the end without meeting a
label that the scan sees.
-/

namespace LabelledFlow

/-- Items `α`, the frames `φ` of blocks, and arms `γ`. -/
inductive Code (α φ γ : Type) where
  | nil
  | item (a : α) (rest : Code α φ γ)
  | branch (frame : φ) (inner rest : Code α φ γ)
  | choice (frame : φ) (arms : List γ) (rest : Code α φ γ)

/-- Where control enters. -/
inductive Entry (ℓ : Type) where
  | start
  | enter (label : ℓ)

/-- How control leaves. -/
inductive Exit (ℓ : Type) where
  | fall
  | jump (label : ℓ)

/-- What items and arms mean: the label an item is, the labels it may jump to, and
whether control may pass it. -/
structure Reading (α γ ℓ : Type) where
  label : α → Option ℓ
  jumps : α → List ℓ
  falls : α → Bool
  armJumps : γ → List ℓ

variable {α φ γ ℓ : Type}

/-- Control runs through the code from an entry to an exit without a jump in between. -/
def Passes (reading : Reading α γ ℓ) : Code α φ γ → Entry ℓ → Exit ℓ → Prop
  | .nil, .start, .fall => True
  | .nil, _, _ => False
  | .item a rest, .start, exit =>
    (reading.falls a = true ∧ Passes reading rest .start exit) ∨
      ∃ label ∈ reading.jumps a, exit = .jump label
  | .item a rest, .enter label, exit =>
    (reading.label a = some label ∧ Passes reading rest .start exit) ∨
      Passes reading rest (.enter label) exit
  | .branch _ inner rest, .start, exit =>
    Passes reading rest .start exit ∨ ∃ label, exit = .jump label ∧ Passes reading inner .start exit
  | .branch _ inner rest, .enter label, exit =>
    (Passes reading inner (.enter label) .fall ∧ Passes reading rest .start exit) ∨
      (∃ other, exit = .jump other ∧ Passes reading inner (.enter label) exit) ∨
      Passes reading rest (.enter label) exit
  | .choice _ arms _, .start, exit =>
    ∃ arm ∈ arms, ∃ label ∈ reading.armJumps arm, exit = .jump label
  | .choice _ _ rest, .enter label, exit => Passes reading rest (.enter label) exit

/-- The entries that an execution of the code comes to. -/
inductive Reaches (reading : Reading α γ ℓ) (code : Code α φ γ) : Entry ℓ → Prop where
  | start : Reaches reading code .start
  | jump (entry : Entry ℓ) (label : ℓ) (reached : Reaches reading code entry)
      (passes : Passes reading code entry (.jump label)) : Reaches reading code (.enter label)

/-- Some execution runs off the end. -/
def FallsOff (reading : Reading α γ ℓ) (code : Code α φ γ) : Prop :=
  ∃ entry, Reaches reading code entry ∧ Passes reading code entry .fall

/-! ## The scan -/

/-- What a scan takes for a label, and what for an exit. -/
structure Scan (α : Type) where
  sees : α → Bool
  kills : α → Bool

/-- The scan's bit behind an item. -/
def Scan.step (scan : Scan α) (alive : Bool) (a : α) : Bool :=
  if scan.sees a then true else if scan.kills a then false else alive

/-- The scan's bit behind the code. -/
def Scan.run (scan : Scan α) : Bool → Code α φ γ → Bool
  | alive, .nil => alive
  | alive, .item a rest => scan.run (scan.step alive a) rest
  | alive, .branch _ _ rest => scan.run alive rest
  | alive, .choice _ _ rest => scan.run alive rest

/-- The scan sees a label outside the blocks of the code. -/
def Scan.Sees (scan : Scan α) : Code α φ γ → Prop
  | .nil => False
  | .item a rest => scan.sees a = true ∨ scan.Sees rest
  | .branch _ _ rest => scan.Sees rest
  | .choice _ _ rest => scan.Sees rest

/-- A label that stands where the bit is cleared and is not seen itself, and from which
control runs off the end past no label that is seen. -/
def Scan.Unseen (scan : Scan α) (reading : Reading α γ ℓ) : Bool → Code α φ γ → ℓ → Prop
  | _, .nil, _ => False
  | alive, .item a rest, label =>
    (reading.label a = some label ∧ scan.sees a = false ∧ alive = false ∧
      Passes reading rest .start .fall ∧
      ¬ scan.Sees rest) ∨ scan.Unseen reading (scan.step alive a) rest label
  | alive, .branch _ inner rest, label =>
    (Passes reading inner (.enter label) .fall ∧ alive = false ∧ Passes reading rest .start .fall ∧
      ¬ scan.Sees rest) ∨ scan.Unseen reading alive rest label
  | alive, .choice _ _ rest, label => scan.Unseen reading alive rest label

/-- The scan takes for an exit only what control does not pass, and no label. -/
structure Scan.Fits (scan : Scan α) (reading : Reading α γ ℓ) : Prop where
  exits : ∀ a, scan.kills a = true → reading.falls a = false
  labels : ∀ a label, reading.label a = some label → scan.kills a = false

section Exactness

variable (scan : Scan α) (reading : Reading α γ ℓ) (fits : scan.Fits reading)
include fits

/-- Where control runs off the end, a set bit stays set. By induction on the code: an item that
clears the bit is an exit, which control would not get past. -/
theorem run_alive (code : Code α φ γ) (passes : Passes reading code .start .fall) :
    scan.run true code = true := by
  induction code with
  | nil => rfl
  | item a rest inductionHypothesis =>
    obtain ⟨falls, further⟩ | ⟨label, _, impossible⟩ := passes
    · have kept : scan.step true a = true := by
        cases killed : scan.kills a with
        | false => simp [Scan.step, killed]
        | true => simp [fits.exits a killed] at falls
      rw [Scan.run, kept]
      exact inductionHypothesis further
    · cases impossible
  | branch frame inner rest _ inductionHypothesis =>
    obtain further | ⟨label, impossible, _⟩ := passes
    · exact inductionHypothesis further
    · cases impossible
  | choice frame arms rest _ =>
    obtain ⟨arm, _, label, _, impossible⟩ := passes
    cases impossible

/-- Where control runs off the end, a cleared bit is set exactly by a seen label: once it is set,
nothing that control gets past clears it again. -/
theorem run_dead (code : Code α φ γ) (passes : Passes reading code .start .fall) :
    scan.run false code = true ↔ scan.Sees code := by
  induction code with
  | nil => simp [Scan.run, Scan.Sees]
  | item a rest inductionHypothesis =>
    obtain ⟨falls, further⟩ | ⟨label, _, impossible⟩ := passes
    · cases seen : scan.sees a with
      | true =>
        simp [Scan.run, Scan.step, Scan.Sees, seen, run_alive scan reading fits rest further]
      | false => simpa [Scan.run, Scan.step, Scan.Sees, seen] using inductionHypothesis further
    · cases impossible
  | branch frame inner rest _ inductionHypothesis =>
    obtain further | ⟨label, impossible, _⟩ := passes
    · exact inductionHypothesis further
    · cases impossible
  | choice frame arms rest _ =>
    obtain ⟨arm, _, label, _, impossible⟩ := passes
    cases impossible

/-- Behind an unseen label the scan ends dead although control runs off the end: the bit was clear
at the label, and nothing behind it is seen that would set it. -/
theorem unseen_dead (code : Code α φ γ) (alive : Bool) (label : ℓ)
    (unseen : scan.Unseen reading alive code label) :
    Passes reading code (.enter label) .fall ∧ scan.run alive code = false := by
  induction code generalizing alive with
  | nil => exact absurd unseen id
  | item a rest inductionHypothesis =>
    obtain ⟨isLabel, notSeen, rfl, further, none⟩ | later := unseen
    · refine ⟨Or.inl ⟨isLabel, further⟩, ?_⟩
      have dead := mt (run_dead scan reading fits rest further).mp none
      have killed := fits.labels a label isLabel
      simpa [Scan.run, Scan.step, notSeen, killed] using dead
    · obtain ⟨further, dead⟩ := inductionHypothesis (scan.step alive a) later
      exact ⟨Or.inr further, dead⟩
  | branch frame inner rest _ inductionHypothesis =>
    obtain ⟨inside, rfl, further, none⟩ | later := unseen
    · refine ⟨Or.inl ⟨inside, further⟩, ?_⟩
      simpa [Scan.run] using mt (run_dead scan reading fits rest further).mp none
    · obtain ⟨further, dead⟩ := inductionHypothesis alive later
      exact ⟨Or.inr (Or.inr further), dead⟩
  | choice frame arms rest inductionHypothesis => exact inductionHypothesis alive unseen

/-- A label from which control runs off the end is unseen when the scan ends dead. A set bit would
have stayed set behind the label, so it was clear there, and no later label has set it. -/
theorem dead_unseen (code : Code α φ γ) (alive : Bool) (label : ℓ)
    (passes : Passes reading code (.enter label) .fall) (dead : scan.run alive code = false) :
    scan.Unseen reading alive code label := by
  have deadBehind (rest : Code α φ γ) (bit : Bool) (further : Passes reading rest .start .fall)
      (dead : scan.run bit rest = false) : bit = false ∧ ¬ scan.Sees rest := by
    cases bit with
    | true => simp [run_alive scan reading fits rest further] at dead
    | false =>
      exact ⟨rfl, fun sees => by simp [(run_dead scan reading fits rest further).mpr sees] at dead⟩
  induction code generalizing alive with
  | nil => exact absurd passes id
  | item a rest inductionHypothesis =>
    obtain ⟨isLabel, further⟩ | later := passes
    · obtain ⟨bit, none⟩ := deadBehind rest _ further dead
      have killed := fits.labels a label isLabel
      cases seen : scan.sees a with
      | true => simp [Scan.step, seen] at bit
      | false =>
        have wasDead : alive = false := by simpa [Scan.step, seen, killed] using bit
        exact Or.inl ⟨isLabel, seen, wasDead, further, none⟩
    · exact Or.inr (inductionHypothesis (scan.step alive a) later dead)
  | branch frame inner rest _ inductionHypothesis =>
    obtain ⟨inside, further⟩ | ⟨other, impossible, _⟩ | later := passes
    · obtain ⟨bit, none⟩ := deadBehind rest alive further dead
      exact Or.inl ⟨inside, bit, further, none⟩
    · cases impossible
    · exact Or.inr (inductionHypothesis alive later dead)
  | choice frame arms rest inductionHypothesis => exact inductionHypothesis alive passes dead

/-- The scan is sound on the code exactly when no label that is jumped to is unseen: from the
start the bit stays set, and behind a label that is seen it is set again. -/
theorem sound_iff (code : Code α φ γ) : (FallsOff reading code → scan.run true code = true) ↔
    ∀ label, Reaches reading code (.enter label) → ¬ scan.Unseen reading true code label := by
  constructor
  · intro sound label reached unseen
    obtain ⟨passes, dead⟩ := unseen_dead scan reading fits code true label unseen
    have alive := sound ⟨.enter label, reached, passes⟩
    simp [alive] at dead
  · rintro seen ⟨entry, reached, passes⟩
    cases entry with
    | start => exact run_alive scan reading fits code passes
    | enter label =>
      cases dead : scan.run true code with
      | true => rfl
      | false =>
        exact absurd (dead_unseen scan reading fits code true label passes dead)
          (seen label reached)

end Exactness

end LabelledFlow
