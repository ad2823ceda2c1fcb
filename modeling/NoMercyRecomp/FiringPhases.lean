import Mathlib.Tactic.Common

/-!
# Triggers that wait

Verdicts come one after the other, true or false. A trigger that waits lets true verdicts
pass until there has been a false one; that arms it, and it fires at the next true one, and
never again.
-/

namespace NoMercyRecomp.FiringPhases

/-- The phases of a trigger. -/
inductive Phase
  | waiting
  | armed
  | fired
deriving DecidableEq

/-- What a phase makes of a verdict: the next phase, and whether it fires. -/
def Phase.step : Phase → Bool → Phase × Bool
  | .waiting, true => (.waiting, false)
  | .waiting, false => (.armed, false)
  | .armed, true => (.fired, true)
  | .armed, false => (.armed, false)
  | .fired, _ => (.fired, false)

/-- Whether it fires, verdict after verdict. -/
def Phase.firings : Phase → List Bool → List Bool
  | _, [] => []
  | phase, verdict :: verdicts => (phase.step verdict).2 :: (phase.step verdict).1.firings verdicts

/-- Some false verdicts, and then a true one. -/
def Rises (verdicts : List Bool) (start place : Nat) : Prop :=
  (∀ k, start ≤ k → k < place → verdicts[k]? = some false) ∧ verdicts[place]? = some true

/-- What has fired does not fire again. -/
theorem fired_firings (verdicts : List Bool) :
    ∀ fires ∈ Phase.fired.firings verdicts, fires = false := by
  induction verdicts with
  | nil => exact fun _ member => nomatch member
  | cons verdict verdicts inductionHypothesis =>
    intro fires member
    obtain rfl | later := List.mem_cons.mp member
    · rfl
    · exact inductionHypothesis fires later

/-- Once armed, a trigger fires at the first true verdict, and never again: a fired trigger stays
silent. By induction on the verdicts. -/
theorem armed_firings (verdicts : List Bool) (place : Nat) :
    (Phase.armed.firings verdicts)[place]? = some true ↔ Rises verdicts 0 place := by
  induction verdicts generalizing place with
  | nil => simp [Phase.firings, Rises]
  | cons verdict verdicts inductionHypothesis =>
    cases verdict with
    | true =>
      cases place with
      | zero => simp [Phase.firings, Phase.step, Rises]
      | succ place =>
        constructor
        · intro fires
          have never := fired_firings verdicts true (List.mem_of_getElem? fires)
          cases never
        · intro rises
          have first := rises.1 0 (Nat.zero_le 0) (Nat.succ_pos place)
          cases first
    | false =>
      cases place with
      | zero => simp [Phase.firings, Phase.step, Rises]
      | succ place =>
        have later := inductionHypothesis place
        show (Phase.armed.firings verdicts)[place]? = some true ↔ _
        rw [later]
        constructor
        · intro rises
          refine ⟨fun k _ before => ?_, rises.2⟩
          cases k with
          | zero => rfl
          | succ k => exact rises.1 k (Nat.zero_le k) (Nat.lt_of_succ_lt_succ before)
        · exact fun rises =>
            ⟨fun k _ before => rises.1 (k + 1) (Nat.zero_le _) (Nat.succ_lt_succ before), rises.2⟩

/-- A waiting trigger lets the first true verdicts pass, is armed by a false one, and fires at
the next true one. -/
theorem waiting_firings (verdicts : List Bool) (place : Nat) :
    (Phase.waiting.firings verdicts)[place]? = some true ↔
      ∃ start < place, (∀ k < start, verdicts[k]? = some true) ∧ Rises verdicts start place := by
  induction verdicts generalizing place with
  | nil => simp [Phase.firings, Rises]
  | cons verdict verdicts inductionHypothesis =>
    cases place with
    | zero => cases verdict <;> simp [Phase.firings, Phase.step]
    | succ place =>
      cases verdict with
      | true =>
        show (Phase.waiting.firings verdicts)[place]? = some true ↔ _
        rw [inductionHypothesis place]
        constructor
        · rintro ⟨start, before, passed, rises⟩
          refine ⟨start + 1, Nat.succ_lt_succ before, fun k early => ?_, fun k late early => ?_,
            rises.2⟩
          · cases k with
            | zero => rfl
            | succ k => exact passed k (Nat.lt_of_succ_lt_succ early)
          · cases k with
            | zero => exact absurd late (Nat.not_succ_le_zero start)
            | succ k => exact rises.1 k (Nat.le_of_succ_le_succ late) (Nat.lt_of_succ_lt_succ early)
        · rintro ⟨start, before, passed, rises⟩
          cases start with
          | zero => cases rises.1 0 (Nat.le_refl 0) (Nat.succ_pos place)
          | succ start =>
            exact ⟨start, Nat.lt_of_succ_lt_succ before,
              fun k early => passed (k + 1) (Nat.succ_lt_succ early),
              fun k late early =>
                rises.1 (k + 1) (Nat.succ_le_succ late) (Nat.succ_lt_succ early), rises.2⟩
      | false =>
        show (Phase.armed.firings verdicts)[place]? = some true ↔ _
        rw [armed_firings]
        constructor
        · intro rises
          refine ⟨0, Nat.succ_pos place, fun k early => absurd early (Nat.not_lt_zero k),
            fun k _ early => ?_, rises.2⟩
          cases k with
          | zero => rfl
          | succ k => exact rises.1 k (Nat.zero_le k) (Nat.lt_of_succ_lt_succ early)
        · rintro ⟨start, before, passed, rises⟩
          cases start with
          | zero => exact ⟨fun k _ early =>
            rises.1 (k + 1) (Nat.zero_le _) (Nat.succ_lt_succ early), rises.2⟩
          | succ start => cases passed 0 (Nat.succ_pos start)

end NoMercyRecomp.FiringPhases
