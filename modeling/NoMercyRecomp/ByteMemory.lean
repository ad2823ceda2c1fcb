import Mathlib

/-!
# Words in a byte memory

A memory gives each offset a byte. A word is four bytes, the lowest first. Words that do
not overlap are written and read independently; a series of such writes leaves each of
its words to be read, and every byte outside them as it was.
-/

namespace NoMercyRecomp.ByteMemory

/-- A memory of bytes. -/
abbrev Memory := Nat → UInt8

/-- The word at an offset. -/
def readWord (memory : Memory) (offset : Nat) : UInt32 :=
  UInt32.ofNat ((memory offset).toNat + 256 * (memory (offset + 1)).toNat + 65536 *
    (memory (offset + 2)).toNat + 16777216 * (memory (offset + 3)).toNat)

/-- A word written at an offset. -/
def writeWord (memory : Memory) (offset : Nat) (word : UInt32) : Memory := fun i =>
  if offset ≤ i ∧ i < offset + 4 then UInt8.ofNat (word.toNat / 256 ^ (i - offset)) else memory i

/-- The word that four bytes are loaded as. -/
def loadWord (a b c d : UInt8) : UInt32 :=
  a.toUInt32 ||| (b.toUInt32 <<< 8) ||| (c.toUInt32 <<< 16) ||| (d.toUInt32 <<< 24)

/-- The words of a series written in order. -/
def writeWords (memory : Memory) (writes : List (Nat × UInt32)) : Memory :=
  writes.foldl (fun memory write => writeWord memory write.1 write.2) memory

/-- Two words do not overlap. -/
def Apart (first second : Nat) : Prop := first + 4 ≤ second ∨ second + 4 ≤ first

instance (first second : Nat) : Decidable (Apart first second) :=
  inferInstanceAs (Decidable (first + 4 ≤ second ∨ second + 4 ≤ first))

/-- A byte outside the word written. -/
theorem writeWord_outside (memory : Memory) (offset : Nat) (word : UInt32) (i : Nat)
    (outside : i < offset ∨ offset + 4 ≤ i) :
    writeWord memory offset word i = memory i := by
  unfold writeWord
  exact if_neg (by omega)

/-- A byte of the word written. -/
theorem writeWord_inside (memory : Memory) (offset : Nat) (word : UInt32) (k : Nat)
    (inside : k < 4) :
    writeWord memory offset word (offset + k) = UInt8.ofNat (word.toNat / 256 ^ k) := by
  unfold writeWord
  rw [if_pos (by omega), Nat.add_sub_cancel_left]

/-- The word written is read back. -/
theorem readWord_writeWord (memory : Memory) (offset : Nat) (word : UInt32) :
    readWord (writeWord memory offset word) offset = word := by
  have bound : word.toNat < 2 ^ 32 := word.toNat_lt
  have first := writeWord_inside memory offset word 0 (by decide)
  rw [Nat.add_zero] at first
  unfold readWord
  rw [first, writeWord_inside memory offset word 1 (by decide),
    writeWord_inside memory offset word 2 (by decide),
    writeWord_inside memory offset word 3 (by decide)]
  apply UInt32.toNat_inj.mp
  simp only [UInt8.toNat_ofNat', UInt32.toNat_ofNat']
  omega

/-- A word apart from the one written is read as before. -/
theorem readWord_writeWord_apart (memory : Memory) (offset other : Nat) (word : UInt32)
    (apart : Apart offset other) :
    readWord (writeWord memory offset word) other = readWord memory other := by
  unfold Apart at apart
  unfold readWord
  rw [writeWord_outside memory offset word other (by omega),
    writeWord_outside memory offset word (other + 1) (by omega),
    writeWord_outside memory offset word (other + 2) (by omega),
    writeWord_outside memory offset word (other + 3) (by omega)]

/-- A byte outside all words of a series. -/
theorem writeWords_outside (memory : Memory) (writes : List (Nat × UInt32)) (i : Nat)
    (outside : ∀ write ∈ writes, i < write.1 ∨ write.1 + 4 ≤ i) :
    writeWords memory writes i = memory i := by
  induction writes generalizing memory with
  | nil => rfl
  | cons write rest inductionHypothesis =>
    have later :
        writeWords (writeWord memory write.1 write.2) rest i = writeWord memory write.1 write.2 i :=
      inductionHypothesis (writeWord memory write.1 write.2)
        (fun other inside => outside other (List.mem_cons_of_mem write inside))
    exact later.trans (writeWord_outside memory write.1 write.2 i
      (outside write List.mem_cons_self))

/-- A word apart from all words of a series. -/
theorem readWord_writeWords_apart (memory : Memory) (writes : List (Nat × UInt32)) (other : Nat)
    (apart : ∀ write ∈ writes, Apart write.1 other) :
    readWord (writeWords memory writes) other = readWord memory other := by
  induction writes generalizing memory with
  | nil => rfl
  | cons write rest inductionHypothesis =>
    have later := inductionHypothesis (writeWord memory write.1 write.2)
      (fun next inside => apart next (List.mem_cons_of_mem write inside))
    exact later.trans (readWord_writeWord_apart memory write.1 other write.2
      (apart write List.mem_cons_self))

/-- Every word of a series of words that do not overlap is read back. -/
theorem readWord_writeWords (memory : Memory) (writes : List (Nat × UInt32))
    (apart : writes.Pairwise (fun first second => Apart first.1 second.1)) (write : Nat × UInt32)
    (inside : write ∈ writes) :
    readWord (writeWords memory writes) write.1 = write.2 := by
  induction writes generalizing memory with
  | nil => cases inside
  | cons first rest inductionHypothesis =>
    obtain ⟨separate, others⟩ := List.pairwise_cons.mp apart
    obtain rfl | later := List.mem_cons.mp inside
    · have kept := readWord_writeWords_apart (writeWord memory write.1 write.2) rest write.1
        (fun other among => (separate other among).symm)
      exact kept.trans (readWord_writeWord memory write.1 write.2)
    · exact inductionHypothesis (writeWord memory first.1 first.2) others later

end NoMercyRecomp.ByteMemory
