import Mathlib.Data.List.Basic
import Mathlib.Tactic.Ring

/-!
# Data taken in blocks

A machine processes its input in blocks of one size and keeps what does not fill a block
until more data comes. The pieces in which the data comes do not matter: appending one
after the other leaves the machine where appending them together does.
-/

namespace NoMercyRecomp.BlockStream

variable {State Item : Type}

/-- The state after the first `count` blocks of the data. -/
def blocks (size : Nat) (process : State → List Item → State) : Nat → State → List Item → State
  | 0, state, _ => state
  | count + 1, state, data =>
    blocks size process count (process state (data.take size)) (data.drop size)

/-- What a machine has reached: its state, and the data that has not filled a block. -/
structure Progress (State Item : Type) where
  state : State
  rest : List Item

/-- More data: every whole block is processed. -/
def Progress.append (size : Nat) (process : State → List Item → State)
    (stream : Progress State Item) (data : List Item) :
    Progress State Item :=
  let all := stream.rest ++ data
  ⟨blocks size process (all.length / size) stream.state all, all.drop (size * (all.length / size))⟩

variable (size : Nat) (process : State → List Item → State)

/-- Some blocks, and then some more. -/
theorem blocks_add (first second : Nat) (state : State) (data : List Item) :
    blocks size process (first + second) state data =
      blocks size process second (blocks size process first state data)
        (data.drop (size * first)) := by
  induction first generalizing state data with
  | zero => simp [blocks]
  | succ first inductionHypothesis =>
    have step : first + 1 + second = first + second + 1 := by ring
    have shift : size + size * first = size * (first + 1) := by ring
    rw [step]
    simp only [blocks, inductionHypothesis, List.drop_drop, shift]

/-- Blocks that lie in the data are those of the data with more behind it. -/
theorem blocks_append (count : Nat) (state : State) (data more : List Item)
    (enough : size * count ≤ data.length) :
    blocks size process count state (data ++ more) = blocks size process count state data := by
  induction count generalizing state data with
  | zero => rfl
  | succ count inductionHypothesis =>
    have step : size * (count + 1) = size * count + size := by ring
    rw [step] at enough
    have first : size ≤ data.length := by omega
    have others : size * count ≤ (data.drop size).length := by rw [List.length_drop]; omega
    simp only [blocks, List.take_append_of_le_length first, List.drop_append_of_le_length first]
    exact inductionHypothesis _ _ others

/-- One block. -/
theorem blocks_one (state : State) (data : List Item) :
    blocks size process 1 state data = process state (data.take size) := rfl

/-- Less than a block is kept. -/
theorem append_short (stream : Progress State Item) (data : List Item)
    (short : stream.rest.length + data.length < size) :
    stream.append size process data = ⟨stream.state, stream.rest ++ data⟩ := by
  have none : (stream.rest ++ data).length / size = 0 := by
    rw [List.length_append]
    exact Nat.div_eq_of_lt short
  simp only [Progress.append, none, blocks, Nat.mul_zero, List.drop_zero]

/-- Exactly what is missing of a block: it is processed, and nothing is kept. -/
theorem append_full (positive : 0 < size) (stream : Progress State Item) (data : List Item)
    (full : stream.rest.length + data.length = size) :
    stream.append size process data = ⟨process stream.state (stream.rest ++ data), []⟩ := by
  have one : (stream.rest ++ data).length / size = 1 := by
    rw [List.length_append, full]
    exact Nat.div_self positive
  have whole : (stream.rest ++ data).length ≤ size := by rw [List.length_append, full]
  simp only [Progress.append, one, blocks_one, Nat.mul_one, List.take_of_length_le whole,
    List.drop_of_length_le whole]

/-- What is kept does not fill a block. -/
theorem append_rest_lt (positive : 0 < size) (stream : Progress State Item) (data : List Item) :
    (stream.append size process data).rest.length < size := by
  have split := Nat.div_add_mod (stream.rest ++ data).length size
  have bound := Nat.mod_lt (stream.rest ++ data).length positive
  simp only [Progress.append, List.length_drop]
  omega

/-- Two pieces leave the machine where the data in one piece does: the first leaves less than a
block, and the blocks of the whole are its blocks and those of its rest with the second piece. -/
theorem append_append (positive : 0 < size) (stream : Progress State Item)
    (first second : List Item) :
    (stream.append size process first).append size process second = stream.append size process
      (first ++ second) := by
  obtain ⟨state, rest⟩ := stream
  have whole : rest ++ (first ++ second) = (rest ++ first) ++ second :=
    (List.append_assoc _ _ _).symm
  generalize done : (rest ++ first).length / size = count
  have fits : size * count ≤ (rest ++ first).length := done ▸ Nat.mul_div_le _ _
  have kept : ((rest ++ first) ++ second).drop (size * count) = (rest ++ first).drop
      (size * count) ++ second :=
    List.drop_append_of_le_length fits
  have total : ((rest ++ first) ++ second).length / size =
      count + ((rest ++ first).drop (size * count) ++ second).length / size := by
    have length : ((rest ++ first) ++ second).length =
        size * count + ((rest ++ first).drop (size * count) ++ second).length := by
      simp only [List.length_append, List.length_drop] at fits ⊢
      omega
    rw [length, Nat.mul_add_div positive]
  simp only [Progress.append, done, whole, total, blocks_add, kept,
    blocks_append size process count state _ second fits, Nat.mul_add, ← List.drop_drop]

/-- A run of pieces leaves the machine where the data in one piece does. -/
theorem foldl_append (positive : 0 < size) (stream : Progress State Item)
    (short : stream.rest.length < size) (pieces : List (List Item)) :
    pieces.foldl (Progress.append size process) stream =
      stream.append size process pieces.flatten := by
  induction pieces generalizing stream with
  | nil =>
    have empty : stream.rest.length + ([] : List Item).length < size := short
    simp only [List.foldl_nil, List.flatten_nil, append_short size process stream [] empty,
      List.append_nil]
  | cons piece pieces inductionHypothesis =>
    rw [List.foldl_cons, inductionHypothesis _ (append_rest_lt size process positive stream piece),
      List.flatten_cons, append_append size process positive]

end NoMercyRecomp.BlockStream
