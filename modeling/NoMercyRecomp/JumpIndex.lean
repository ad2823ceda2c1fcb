import NoMercyRecomp.FixJraddend
import Mathlib.Tactic.Ring

/-!
# What a repaired jump index selects

The inserted assignment subtracts the table base from the low half of a register and
the switch shifts the difference right by two. The register is the one that the
nearest `ADD32` line with a nonnegative immediate assigns. Where that line is the
table load, the switch takes the arm the original jump would; an `ADD32` after the
load, such as the induction pointer's increment in the delay slot, is taken for
the load instead.

Registers hold 64 bits. A statement between the load and the switch may have any
effect on the registers, except that a line which reads as a table load has the
effect of one. What the lines between tell of a register is the sum that these loads
form of it; at any other line everything but the loaded register is forgotten.
-/

namespace NoMercyRecomp.JumpIndex

open TextScan FixJraddend

abbrev Regs := Nat → BitVec 64

/-- `ADD32(a, b)`: the low 32 bits of the sum, sign-extended. -/
def add32 (a b : BitVec 64) : BitVec 64 := ((a + b).setWidth 32).signExtend 64

/-- `ctx->rD = ADD32(ctx->rS, off);` -/
def assignAdd (dest base : Nat) (offset : Int) (regs : Regs) : Regs :=
  Function.update regs dest (add32 (regs base) (BitVec.ofInt 64 offset))

/-- The immediate as printed: a sign, `0X` and upper-case digits. -/
def immediate : Int → Line
  | .ofNat n => '0' :: (str "X" ++ hex n)
  | .negSucc n => '-' :: (str "0X" ++ hex (n + 1))

/-- The generated line for an addition of an immediate. -/
def addLine (dest base : Nat) (offset : Int) : Line :=
  str "    " ++ 'c' :: (str "tx->r" ++ (decimal dest ++ ' ' :: (str "= ADD32(ctx->r" ++
    (decimal base ++ ',' :: (' ' :: (immediate offset ++ ')' :: str ";"))))))

/-- A generated statement: its line and its effect. -/
structure Stmt where
  text : Line
  effect : Regs → Regs
  models : ∀ load, loadRe text = some load →
    effect = assignAdd (value 10 load.dest) (value 10 load.base) (value 16 load.offset)

/-- `jr_addend_<vram> = (uint32_t)ctx->r<dest> - 0x<table>U;`: the register and the table. -/
def assignRe (line : Line) : Option (Nat × Nat) := do
  let vram ← lit ('j' :: str "r_addend_") (line.dropWhile isBlank)
  let dest ← lit (' ' :: str "= (uint32_t)ctx->r") (vram.dropWhile isHex)
  let table ← lit (' ' :: str "- 0x") (dest.dropWhile Char.isDigit)
  let _ ← lit ('U' :: str ";") (table.dropWhile isHex)
  some (value 10 (dest.takeWhile Char.isDigit), value 16 (table.takeWhile isHex))

/-- The 32-bit difference of an address and the table base. -/
def offsetIn (table : Nat) (address : BitVec 64) : BitVec 32 :=
  address.setWidth 32 - BitVec.ofNat 32 table

/-- The value an inserted assignment gives to `jr_addend`. -/
def addend (line : Line) (regs : Regs) : Option (BitVec 64) :=
  (assignRe line).map (fun found => (offsetIn found.2 (regs found.1)).setWidth 64)

/-- `switch (jr_addend >> 2)` with arms 0 to n-1. -/
def selectArm (arms : Nat) (index : BitVec 64) : Option Nat :=
  if (index >>> 2).toNat < arms then some (index >>> 2).toNat else none

/-- The table entry an address lies in. -/
def entryOf (table : Nat) (address : BitVec 64) : Nat := (offsetIn table address).toNat / 4

/-- A jump-table load and the switch that it should drive, in their file. The load is
in the window above the switch, no load between assigns its register, and the switch's
address is declared as constant 0. -/
structure Dispatch where
  above : List Line
  dest : Nat
  base : Nat
  offset : Int
  between : List Line
  switchLine : Line
  indent : Line
  vram : Line
  below : List Line
  table : Line
  arms : Nat
  notFirst : above ≠ []
  near : between.length < 7
  apart : ∀ line ∈ between, ∀ load, loadRe line = some load → value 10 load.dest ≠ dest
  isSwitch : swRe switchLine = some (indent, vram)
  defaultArm : tableBelow below = some table
  declared : declares (above ++ addLine dest base offset :: between) vram = true

namespace Dispatch

variable (d : Dispatch)

/-- The lines above the switch. -/
def linesAbove : List Line := d.above ++ addLine d.dest d.base d.offset :: d.between

/-- The lines of the file. -/
def lines : List Line := d.linesAbove ++ d.switchLine :: d.below

/-- What the pass inserts above the switch. -/
def repair : Option Line := insertion d.lines d.linesAbove d.switchLine d.below

/-- What the statements between the load and the switch do: any effects that leave the
loaded register alone. -/
structure Meaning where
  stmts : List Stmt
  texts : stmts.map Stmt.text = d.between
  keeps : ∀ stmt ∈ stmts, ∀ regs, stmt.effect regs d.dest = regs d.dest

/-- The registers at the switch, from those before the load. -/
def Meaning.atSwitch {d : Dispatch} (meaning : d.Meaning) (regs : Regs) : Regs :=
  meaning.stmts.foldl (fun regs stmt => stmt.effect regs) (assignAdd d.dest d.base d.offset regs)

/-- Guest pointers are held sign-extended. -/
def SignExtended (regs : Regs) : Prop := ∀ r, regs r = ((regs r).setWidth 32).signExtend 64

/-- The load is from entry `k` of the table. -/
def Loads (regs : Regs) (k : Nat) : Prop :=
  SignExtended regs ∧ k < d.arms ∧
    ((regs d.base + BitVec.ofInt 64 d.offset).setWidth 32).toNat = value 16 d.table + 4 * k

/-- The repair makes the switch take the arm of the entry that was loaded from, whatever the
statements between do. -/
def LikeJump : Prop := ∃ text, d.repair = some text ∧
  ∀ (meaning : d.Meaning) (regs : Regs) (k : Nat), d.Loads regs k →
    (addend text (meaning.atSwitch regs)).bind (selectArm d.arms) = some k

end Dispatch

/-! ## What the lines tell -/

/-- What is told of the registers at a line: the low half of a register is that of a register
before the load, or of something that is not known, and a constant added to it. -/
abbrev Told := Nat → Option Nat × BitVec 32

/-- What is told below a line. A line that reads as a load adds its immediate; any other line
may have changed every register but the loaded one. -/
def tell (dest : Nat) (told : Told) (line : Line) : Told :=
  match loadRe line with
  | some load => Function.update told (value 10 load.dest)
      ((told (value 10 load.base)).1,
        (told (value 10 load.base)).2 + BitVec.ofNat 32 (value 16 load.offset))
  | none => fun r => if r = dest then told r else (none, 0)

namespace Dispatch

variable (d : Dispatch)

/-- What is told below the load. -/
def toldBelow : Told :=
  Function.update (fun r => (some r, 0)) d.dest (some d.base, BitVec.ofInt 32 d.offset)

/-- What the lines between the load and the switch tell at the switch. -/
def toldAtSwitch : Told := d.between.foldl (tell d.dest) d.toldBelow

/-- Some register state loads from the table: it has an entry, and an address. -/
def Loadable : Prop := 0 < d.arms ∧ value 16 d.table < 2 ^ 32

/-- The last of the seven lines above the switch that reads as a load, the table's or another's.
The first line of the file is no such line. -/
def LastLoad (load : Load) : Prop := ∃ higher line lower,
  d.linesAbove.drop (d.linesAbove.length - 8 + 1) = higher ++ line :: lower ∧
    loadRe line = some load ∧ ∀ other ∈ lower, loadRe other = none

/-- The lines tell of the register of the last load that it is the loaded address, or up to
three bytes behind it, within the same entry of the table. -/
def Aims : Prop := ∃ load, d.LastLoad load ∧ (d.Loadable →
  (d.toldAtSwitch (value 10 load.dest)).1 = some d.base ∧
    ((d.toldAtSwitch (value 10 load.dest)).2 - BitVec.ofInt 32 d.offset).toNat < 4)

/-- The load is the nearest line of its form: its immediate is not negative and no
such line stands between it and the switch. -/
def Nearest : Prop := 0 ≤ d.offset ∧ ∀ line ∈ d.between, loadRe line = none

end Dispatch

/-! ## Reading the lines -/

/-- An addition with a nonnegative immediate reads as a load of its registers. The pattern is
taken along the line, run by run: digits up to a blank, a comma or a bracket. -/
theorem loadRe_addLine (dest base n : Nat) :
    loadRe (addLine dest base n) = some ⟨decimal dest, decimal base, hex n⟩ := by
  have text (rest : Line) : (str "    " ++ 'c' :: rest).dropWhile isBlank = 'c' :: rest :=
    dropWhile_indent (str "    ") rest 'c' (List.all_eq_true.mp (by decide)) (by decide)
  have destRun (rest : Line) :
      (decimal dest ++ ' ' :: rest).takeWhile Char.isDigit = decimal dest :=
    takeWhile_run Char.isDigit _ rest ' ' (decimal_isDigit dest) (by decide)
  have afterDest (rest : Line) :
      (decimal dest ++ ' ' :: rest).dropWhile Char.isDigit = ' ' :: rest :=
    dropWhile_run Char.isDigit _ rest ' ' (decimal_isDigit dest) (by decide)
  have baseRun (rest : Line) :
      (decimal base ++ ',' :: rest).takeWhile Char.isDigit = decimal base :=
    takeWhile_run Char.isDigit _ rest ',' (decimal_isDigit base) (by decide)
  have afterBase (rest : Line) :
      (decimal base ++ ',' :: rest).dropWhile Char.isDigit = ',' :: rest :=
    dropWhile_run Char.isDigit _ rest ',' (decimal_isDigit base) (by decide)
  have inside : ∀ c ∈ hex n, isHex c = true := fun c member =>
    isHex_of_upper c (hex_upper n c member)
  have offsetRun (rest : Line) : (hex n ++ ')' :: rest).takeWhile isHex = hex n :=
    takeWhile_run isHex _ rest ')' inside (by decide)
  have afterOffset (rest : Line) : (hex n ++ ')' :: rest).dropWhile isHex = ')' :: rest :=
    dropWhile_run isHex _ rest ')' inside (by decide)
  have immediateText (rest : Line) : lit (',' :: str " 0X") (',' :: ' ' :: (immediate n ++ rest)) =
      some (hex n ++ rest) := by
    have shape : immediate n = str "0X" ++ hex n := by simp [immediate, str]
    rw [shape]
    exact (lit_eq_some _ _ _).mpr (by simp [str])
  have closed : lit (')' :: str ";") (')' :: str ";") = some [] := by decide
  simp only [loadRe, addLine, text, lit_cons_append, Option.bind_eq_bind, Option.bind_some, destRun,
    afterDest, baseRun, afterBase, immediateText, offsetRun, afterOffset, closed]
  exact if_neg (by simp [decimal, hex, number_ne_nil])

/-- An inserted assignment is read as the register and table it was written with, whatever blanks
it is indented by. -/
theorem assignRe_assignment (indent vram dest table : Line) (blank : ∀ c ∈ indent, isBlank c = true)
    (hexVram : ∀ c ∈ vram, isHex c = true) (digits : ∀ c ∈ dest, Char.isDigit c = true)
    (hexTable : ∀ c ∈ table, isHex c = true) :
    assignRe (assignment indent vram dest table) = some (value 10 dest, value 16 table) := by
  have text (rest : Line) : (indent ++ 'j' :: rest).dropWhile isBlank = 'j' :: rest :=
    dropWhile_indent indent rest 'j' blank (by decide)
  have afterVram (rest : Line) : (vram ++ ' ' :: rest).dropWhile isHex = ' ' :: rest :=
    dropWhile_run isHex _ rest ' ' hexVram (by decide)
  have destRun (rest : Line) : (dest ++ ' ' :: rest).takeWhile Char.isDigit = dest :=
    takeWhile_run Char.isDigit _ rest ' ' digits (by decide)
  have afterDest (rest : Line) : (dest ++ ' ' :: rest).dropWhile Char.isDigit = ' ' :: rest :=
    dropWhile_run Char.isDigit _ rest ' ' digits (by decide)
  have tableRun (rest : Line) : (table ++ 'U' :: rest).takeWhile isHex = table :=
    takeWhile_run isHex _ rest 'U' hexTable (by decide)
  have afterTable (rest : Line) : (table ++ 'U' :: rest).dropWhile isHex = 'U' :: rest :=
    dropWhile_run isHex _ rest 'U' hexTable (by decide)
  have closed : lit ('U' :: str ";") ('U' :: (str "; " ++ tag)) = some (' ' :: tag) :=
    (lit_eq_some _ _ _).mpr (by simp [str])
  simp only [assignRe, assignment, text, lit_cons_append, Option.bind_eq_bind, Option.bind_some,
    afterVram, destRun, afterDest, tableRun, afterTable, closed]

/-! ## Arithmetic -/

/-- The low half of an `ADD32` is the low half of the sum. -/
theorem add32_low (a b : BitVec 64) : (add32 a b).setWidth 32 = (a + b).setWidth 32 := by
  apply BitVec.eq_of_getLsbD_eq
  intro i bound
  have inside : i < 64 := by omega
  simp only [add32, BitVec.getLsbD_setWidth, BitVec.getLsbD_signExtend, bound, inside, decide_true,
    Bool.true_and, if_true]

/-- The switch selects the entry of its address, when it has an arm for it: the offset within the
table, in words, is the number of the arm. -/
theorem selectArm_offset (arms k table : Nat) (address : BitVec 64) (bound : k < arms) :
    selectArm arms ((offsetIn table address).setWidth 64) = some k ↔ entryOf table address = k := by
  have shifted : ((offsetIn table address).setWidth 64 >>> 2).toNat = entryOf table address := by
    have small : (offsetIn table address).toNat < 2 ^ 32 := (offsetIn table address).isLt
    rw [BitVec.toNat_ushiftRight, BitVec.toNat_setWidth, Nat.shiftRight_eq_div_pow, entryOf,
      Nat.mod_eq_of_lt (by omega)]
  rw [selectArm, shifted]
  constructor
  · intro selected
    split at selected
    · simpa using selected
    · simp at selected
  · rintro rfl
    exact if_pos bound

/-- The low half of an immediate is the immediate. -/
theorem ofInt_low (offset : Int) :
    (BitVec.ofInt 64 offset).setWidth 32 = BitVec.ofInt 32 offset := by
  apply BitVec.eq_of_toNat_eq
  rw [BitVec.toNat_setWidth, BitVec.toNat_ofInt, BitVec.toNat_ofInt]
  omega

/-- The low half of a sum with an immediate. -/
theorem assignAdd_low (dest base : Nat) (offset : Int) (regs : Regs) :
    (assignAdd dest base offset regs dest).setWidth 32 =
      (regs base).setWidth 32 + BitVec.ofInt 32 offset := by
  rw [assignAdd, Function.update_self, add32_low, BitVec.setWidth_add _ _ (by decide), ofInt_low]

/-- The low half of a sign-extended word is the word. -/
theorem signExtend_low (word : BitVec 32) : (word.signExtend 64).setWidth 32 = word := by
  apply BitVec.eq_of_getLsbD_eq
  intro i bound
  have inside : i < 64 := by omega
  simp only [BitVec.getLsbD_setWidth, BitVec.getLsbD_signExtend, bound, inside, decide_true,
    Bool.true_and, if_true]

/-- The entry of an address, from the distance of its low half to the base. -/
theorem entryOf_eq (table : Nat) (address : BitVec 64) :
    entryOf table address = (address.setWidth 32 - BitVec.ofNat 32 table).toNat / 4 := rfl

/-- An address up to three bytes behind four times `k` past the table base lies in entry
`k`. The entries of the table have addresses of 32 bits, so the distance does not wrap. -/
theorem entryOf_near (table k : Nat) (bound : table + 4 * k < 2 ^ 32) (past : BitVec 32)
    (small : past.toNat < 4)
    (address : BitVec 64) (low : address.setWidth 32 = BitVec.ofNat 32 (table + 4 * k) + past) :
    entryOf table address = k := by
  have distance : (address.setWidth 32 - BitVec.ofNat 32 table).toNat = 4 * k + past.toNat := by
    rw [low]
    simp only [BitVec.toNat_sub, BitVec.toNat_add, BitVec.toNat_ofNat]
    omega
  rw [entryOf_eq, distance]
  omega

/-! ## What is told holds -/

section Told

variable {dest : Nat}

/-- A line tells the truth of a statement that it reads as: a load of an immediate adds it,
and any other statement leaves the loaded register alone. -/
theorem tell_holds (stmt : Stmt) (keeps : ∀ regs, stmt.effect regs dest = regs dest) (told : Told)
    (start regs : Regs)
    (holds : ∀ r x c, told r = (some x, c) → (regs r).setWidth 32 = (start x).setWidth 32 + c)
    (r x : Nat) (c : BitVec 32) (here : tell dest told stmt.text r = (some x, c)) :
    (stmt.effect regs r).setWidth 32 = (start x).setWidth 32 + c := by
  rw [tell] at here
  cases read : loadRe stmt.text with
  | none =>
    simp only [read] at here
    by_cases same : r = dest
    · rw [if_pos same] at here
      rw [same, keeps, ← same]
      exact holds r x c here
    · rw [if_neg same] at here
      cases here
  | some load =>
    simp only [read] at here
    rw [stmt.models load read]
    by_cases same : r = value 10 load.dest
    · subst same
      rw [Function.update_self] at here
      obtain ⟨origin, rfl⟩ := Prod.mk.inj here
      have base := holds (value 10 load.base) x _ (Prod.ext origin rfl)
      rw [assignAdd_low, base, BitVec.add_assoc]
      rfl
    · rw [Function.update_of_ne same] at here
      rw [assignAdd, Function.update_of_ne same]
      exact holds r x c here

/-- What some lines tell holds of the statements. -/
theorem tells_hold (stmts : List Stmt)
    (keeps : ∀ stmt ∈ stmts, ∀ regs, stmt.effect regs dest = regs dest)
    (told : Told) (start regs : Regs)
    (holds : ∀ r x c, told r = (some x, c) → (regs r).setWidth 32 = (start x).setWidth 32 + c) :
    ∀ r x c, (stmts.map Stmt.text).foldl (tell dest) told r = (some x, c) →
      (stmts.foldl (fun regs stmt => stmt.effect regs) regs r).setWidth 32 =
        (start x).setWidth 32 + c := by
  induction stmts generalizing told regs with
  | nil => exact holds
  | cons stmt rest inductionHypothesis =>
    exact inductionHypothesis (fun other among => keeps other (List.mem_cons_of_mem stmt among)) _ _
      (tell_holds stmt (keeps stmt List.mem_cons_self) told start regs holds)

end Told

/-! ## Statements that spoil -/

/-- The statement of a line that sets every register but the loaded one to some value, unless
the line reads as a load. -/
def spoil (dest : Nat) (junk : BitVec 64) (line : Line) : Stmt where
  text := line
  effect :=
    match loadRe line with
    | some load => assignAdd (value 10 load.dest) (value 10 load.base) (value 16 load.offset)
    | none => fun regs r => if r = dest then regs r else junk
  models := by
    intro load read
    rw [read]

/-- Where every other line spoils, what is told is all there is: the unknown value is the one
that was put in. -/
theorem tells_spoil (dest : Nat) (junk : BitVec 64) (lines : List Line) (told : Told)
    (start regs : Regs) (exact : ∀ r, (regs r).setWidth 32 =
      (((told r).1.elim junk start).setWidth 32) + (told r).2) (r : Nat) :
    ((lines.map (spoil dest junk)).foldl (fun regs stmt => stmt.effect regs) regs r).setWidth 32 =
      (((lines.foldl (tell dest) told r).1.elim junk start).setWidth 32) +
        (lines.foldl (tell dest) told r).2 := by
  induction lines generalizing told regs with
  | nil => exact exact r
  | cons line rest inductionHypothesis =>
    refine inductionHypothesis (tell dest told line) ((spoil dest junk line).effect regs)
      (fun s => ?_)
    rw [tell]
    cases read : loadRe line with
    | none =>
      have effect : (spoil dest junk line).effect regs s = if s = dest then regs s else junk := by
        simp only [spoil, read]
      rw [effect]
      by_cases same : s = dest
      · simp only [if_pos same]
        exact exact s
      · simp [if_neg same]
    | some load =>
      rw [(spoil dest junk line).models load read]
      by_cases same : s = value 10 load.dest
      · subst same
        simp only [Function.update_self]
        rw [assignAdd_low, exact, BitVec.add_assoc]
        rfl
      · simp only [Function.update_of_ne same]
        rw [assignAdd, Function.update_of_ne same]
        exact exact s

/-! ## The repaired switch -/

namespace Dispatch

variable (d : Dispatch)

/-- The pass writes the assignment from the nearest load, if it finds one. -/
theorem repair_eq : d.repair =
    (loadAbove d.linesAbove).map (fun load => assignment d.indent d.vram load.dest d.table) := by
  have declared : declares d.lines d.vram = true := by
    have above := d.declared
    rw [declares] at above
    simp only [lines, linesAbove, declares, List.any_append, above, Bool.true_or]
  simp only [repair, insertion, d.isSwitch, declared, d.defaultArm, Option.bind_eq_bind,
    Option.bind_some, if_true]
  cases loadAbove d.linesAbove <;> rfl

/-- The search of the pass finds the last load. -/
theorem loadAbove_iff (load : Load) : loadAbove d.linesAbove = some load ↔ d.LastLoad load := by
  rw [loadAbove, List.findSome?_eq_some_iff]
  constructor
  · rintro ⟨lower, line, higher, split, reads, none⟩
    refine ⟨higher.reverse, line, lower.reverse, ?_, reads, fun other among =>
      none other (List.mem_reverse.mp among)⟩
    rw [List.reverse_eq_iff.mp split]
    simp
  · rintro ⟨higher, line, lower, split, reads, none⟩
    refine ⟨lower.reverse, line, higher.reverse, by rw [split]; simp, reads, fun other among =>
      none other (List.mem_reverse.mp among)⟩

/-- The written assignment gives the distance of its register from the table. -/
theorem addend_repair (load : Load) (found : loadAbove d.linesAbove = some load) (regs : Regs) :
    addend (assignment d.indent d.vram load.dest d.table) regs =
      some ((offsetIn (value 16 d.table) (regs (value 10 load.dest))).setWidth 64) := by
  obtain ⟨blank, hexVram⟩ := swRe_classes d.switchLine d.indent d.vram d.isSwitch
  obtain ⟨loadLine, _, loadFound⟩ := List.exists_of_findSome?_eq_some found
  obtain ⟨tableLine, _, tableFound⟩ := List.exists_of_findSome?_eq_some d.defaultArm
  rw [addend, assignRe_assignment d.indent d.vram load.dest d.table blank hexVram
    (loadRe_dest loadLine load loadFound) (tableRe_hex tableLine d.table tableFound)]
  rfl

/-- A state that loads from an entry is told by the low half of its base register. -/
theorem loads_low (regs : Regs) (k : Nat) (loads : d.Loads regs k) :
    value 16 d.table + 4 * k < 2 ^ 32 ∧ (regs d.base).setWidth 32 + BitVec.ofInt 32 d.offset =
      BitVec.ofNat 32 (value 16 d.table + 4 * k) := by
  have low := loads.2.2
  rw [BitVec.setWidth_add _ _ (by decide), ofInt_low] at low
  have bound : value 16 d.table + 4 * k < 2 ^ 32 := low ▸ BitVec.isLt _
  refine ⟨bound, BitVec.eq_of_toNat_eq ?_⟩
  rw [low, BitVec.toNat_ofNat, Nat.mod_eq_of_lt bound]

/-- What is told below the load holds below it. -/
theorem toldBelow_holds (regs : Regs) (r : Nat) (x : Nat) (c : BitVec 32)
    (told : d.toldBelow r = (some x, c)) :
    (assignAdd d.dest d.base d.offset regs r).setWidth 32 = (regs x).setWidth 32 + c := by
  rw [toldBelow] at told
  by_cases same : r = d.dest
  · rw [same, Function.update_self] at told
    obtain ⟨rfl, rfl⟩ : d.base = x ∧ BitVec.ofInt 32 d.offset = c := by simpa using told
    rw [same, assignAdd_low]
  · rw [Function.update_of_ne same] at told
    obtain ⟨rfl, rfl⟩ : r = x ∧ 0 = c := by simpa using told
    rw [assignAdd, Function.update_of_ne same]
    simp

/-- Where the lines tell that the register found is the loaded address, or just behind it,
the repaired switch takes the jump's arm, whatever the statements do: what is told holds of
every meaning. -/
theorem likeJump_of_aims (aims : d.Aims) : d.LikeJump := by
  obtain ⟨load, last, near⟩ := aims
  have found := (d.loadAbove_iff load).mpr last
  refine ⟨_, by rw [repair_eq, found]; rfl, fun meaning regs k loads => ?_⟩
  obtain ⟨bound, low⟩ := d.loads_low regs k loads
  have loadable : d.Loadable := ⟨Nat.lt_of_le_of_lt (Nat.zero_le k) loads.2.1, by omega⟩
  obtain ⟨origin, small⟩ := near loadable
  generalize past : (d.toldAtSwitch (value 10 load.dest)).2 - BitVec.ofInt 32 d.offset = p at small
  have told : d.toldAtSwitch (value 10 load.dest) = (some d.base, BitVec.ofInt 32 d.offset + p) :=
    Prod.ext origin (by rw [← past]; simp)
  have holds := tells_hold meaning.stmts meaning.keeps d.toldBelow regs
    (assignAdd d.dest d.base d.offset regs) (d.toldBelow_holds regs)
  rw [meaning.texts] at holds
  have address := holds (value 10 load.dest) d.base _ told
  rw [← BitVec.add_assoc, low] at address
  rw [d.addend_repair load found, Option.bind_some, selectArm_offset _ _ _ _ loads.2.1]
  exact entryOf_near _ k bound p small _ address

/-- The meaning in which every line that reads as no load spoils the registers. -/
def spoiled (junk : BitVec 64) : d.Meaning where
  stmts := d.between.map (spoil d.dest junk)
  texts := by
    rw [List.map_map]
    exact List.map_id d.between
  keeps := by
    intro stmt among regs
    obtain ⟨line, inside, rfl⟩ := List.mem_map.mp among
    cases read : loadRe line with
    | none => simp [spoil, read]
    | some load =>
      rw [(spoil d.dest junk line).models load read, assignAdd,
        Function.update_of_ne (d.apart line inside load read).symm]

/-- The state whose base register points to the table's first entry, and whose other
registers hold some word. -/
def pointing (junk : BitVec 32) : Regs := fun r =>
  if r = d.base then (BitVec.ofNat 32 (value 16 d.table) - BitVec.ofInt 32 d.offset).signExtend 64
  else junk.signExtend 64

/-- That state loads from the first entry. -/
theorem pointing_loads (loadable : d.Loadable) (junk : BitVec 32) :
    d.Loads (d.pointing junk) 0 := by
  refine ⟨fun r => ?_, loadable.1, ?_⟩
  · rw [pointing]
    split
    · rw [signExtend_low]
    · rw [signExtend_low]
  · rw [BitVec.setWidth_add _ _ (by decide), ofInt_low, pointing, if_pos rfl, signExtend_low,
      BitVec.sub_add_cancel, BitVec.toNat_ofNat, Nat.mod_eq_of_lt loadable.2]
    omega

/-- Where the switch takes the jump's arm under every meaning, the lines tell that the
register found is the loaded address, or just behind it. A register that comes from another
one, or that a spoiled line may have set, could as well hold the address of the next entry. -/
theorem aims_of_likeJump (like : d.LikeJump) : d.Aims := by
  obtain ⟨text, written, selects⟩ := like
  rw [repair_eq] at written
  obtain ⟨load, found, rfl⟩ := Option.map_eq_some_iff.mp written
  refine ⟨load, (d.loadAbove_iff load).mp found, fun loadable => ?_⟩
  generalize told : d.toldAtSwitch (value 10 load.dest) = at'
  obtain ⟨origin, c⟩ := at'
  -- other registers, and spoiled ones, lead to the second entry
  let junk : BitVec 32 := BitVec.ofNat 32 (value 16 d.table + 4) - c
  have selected := selects (d.spoiled (junk.signExtend 64)) (d.pointing junk) 0
    (d.pointing_loads loadable junk)
  rw [d.addend_repair load found, Option.bind_some, selectArm_offset _ _ _ _ loadable.1,
    entryOf_eq] at selected
  have below (r : Nat) : (assignAdd d.dest d.base d.offset (d.pointing junk) r).setWidth 32 =
      (((d.toldBelow r).1.elim (junk.signExtend 64) (d.pointing junk)).setWidth 32) +
      (d.toldBelow r).2 := by
    rw [toldBelow]
    by_cases same : r = d.dest
    · rw [same, Function.update_self, assignAdd_low]
      rfl
    · rw [Function.update_of_ne same, assignAdd, Function.update_of_ne same]
      simp
  have exact :=
    tells_spoil d.dest (junk.signExtend 64) d.between d.toldBelow (d.pointing junk) _ below
    (value 10 load.dest)
  rw [← toldAtSwitch, told] at exact
  have astray (source : (origin.elim (junk.signExtend 64) (d.pointing junk)).setWidth 32 = junk) :
      False := by
    rw [source] at exact
    have address : junk + c = BitVec.ofNat 32 (value 16 d.table + 4) := BitVec.sub_add_cancel _ _
    have behind :
        BitVec.ofNat 32 (value 16 d.table + 4) - BitVec.ofNat 32 (value 16 d.table) = 4 := by
      rw [BitVec.ofNat_add, BitVec.add_comm, BitVec.add_sub_cancel]
      rfl
    rw [Meaning.atSwitch, spoiled, exact, address, behind] at selected
    exact absurd selected (by decide)
  cases origin with
  | none => exact (astray (signExtend_low junk)).elim
  | some x =>
    by_cases same : x = d.base
    · refine ⟨congrArg some same, ?_⟩
      have source : ((some x).elim (junk.signExtend 64) (d.pointing junk)).setWidth 32 =
          BitVec.ofNat 32 (value 16 d.table) - BitVec.ofInt 32 d.offset := by
        rw [Option.elim_some, pointing, if_pos same, signExtend_low]
      rw [source] at exact
      have distance : BitVec.ofNat 32 (value 16 d.table) - BitVec.ofInt 32 d.offset + c -
          BitVec.ofNat 32 (value 16 d.table) = c - BitVec.ofInt 32 d.offset := by
        generalize BitVec.ofNat 32 (value 16 d.table) = base
        generalize BitVec.ofInt 32 d.offset = offset
        bv_omega
      rw [Meaning.atSwitch, spoiled, exact, distance] at selected
      have small : (c - BitVec.ofInt 32 d.offset).toNat < 4 := by omega
      exact small
    · exact (astray (by rw [Option.elim_some, pointing, if_neg same, signExtend_low])).elim

/-- Where the load is the nearest line of its form, it is the last load, and no line between
tells anything else of its register. -/
theorem aims_nearest (nearest : d.Nearest) : d.Aims := by
  obtain ⟨positive, plain⟩ := nearest
  obtain ⟨n, sameOffset⟩ := Int.eq_ofNat_of_zero_le positive
  have first : 0 < d.above.length := List.length_pos_iff.mpr d.notFirst
  have window : d.linesAbove.length - 8 + 1 ≤ d.above.length := by
    have near := d.near
    simp only [linesAbove, List.length_append, List.length_cons]
    omega
  have here :
      loadRe (addLine d.dest d.base d.offset) = some ⟨decimal d.dest, decimal d.base, hex n⟩ := by
    rw [sameOffset]
    exact loadRe_addLine d.dest d.base n
  have last : d.LastLoad ⟨decimal d.dest, decimal d.base, hex n⟩ := by
    refine ⟨_, _, d.between, List.drop_append_of_le_length window, here, plain⟩
  have kept (lines : List Line) (among : ∀ line ∈ lines, loadRe line = none) (told : Told) :
      lines.foldl (tell d.dest) told d.dest = told d.dest := by
    induction lines generalizing told with
    | nil => rfl
    | cons line rest inductionHypothesis =>
      rw [List.foldl_cons,
        inductionHypothesis (fun other inside => among other (List.mem_cons_of_mem line inside)),
        tell, among line List.mem_cons_self]
      simp
  refine ⟨_, last, fun _ => ?_⟩
  have told :
      d.toldAtSwitch (value 10 (decimal d.dest)) = (some d.base, BitVec.ofInt 32 d.offset) := by
    rw [value_decimal, toldAtSwitch, kept d.between plain, toldBelow, Function.update_self]
  rw [told]
  exact ⟨rfl, by rw [BitVec.sub_self]; decide⟩

end Dispatch

/-- The table load of a loop whose delay slot increments the table pointer. -/
def incrementedPointer : Dispatch where
  above := [str "    gpr jr_addend_800EE2B4 = 0;"]
  dest := 2
  base := 16
  offset := 0
  between := [addLine 16 16 4]
  switchLine := str "    switch (jr_addend_800EE2B4 >> 2) \x7b"
  indent := str "    "
  vram := str "800EE2B4"
  below := [str "        default: switch_error(__func__, 0x800EE2B4, 0x801036D0);"]
  table := str "801036D0"
  arms := 5
  notFirst := by decide
  near := by decide
  apart := by
    intro line member load found
    obtain rfl := List.mem_singleton.mp member
    rw [show addLine 16 16 4 = addLine 16 16 (4 : Nat) from rfl, loadRe_addLine] at found
    obtain rfl := Option.some.inj found
    decide +kernel
  isSwitch := by decide +kernel
  defaultArm := by decide +kernel
  declared := by decide +kernel

end NoMercyRecomp.JumpIndex
