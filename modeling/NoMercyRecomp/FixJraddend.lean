import NoMercyRecomp.Recompiled
import NoMercyRecomp.Contexts

/-!
# Repairing constant jump indices

N64Recomp declares the byte offset of a jump table as `jr_addend_<vram>`. Where it
finds no shift that forms the offset it declares the constant 0, and the switch on
it always takes its first arm. `fix_jraddend` puts an assignment from the table
pointer's register in front of such a switch and tags the declaration.

The pass works on a whole file. It keys declarations by address only, the last one
winning, and matches any switch on a declared address; the functions of the file
do not enter. Mid-entry functions decode the same jump, so one address may be
declared by several functions.
-/

namespace NoMercyRecomp.FixJraddend

open TextScan Recompiled Contexts

/-! ## Patterns -/

/-- `/* [nomercy fix_jraddend] */` -/
def tag : Line := str "/* [nomercy fix_jraddend] */"

/-- `^([ \t]*)gpr jr_addend_([0-9A-Fa-f]+) = 0;[ \t]*$`: the address. -/
def declRe (line : Line) : Option Line := do
  let rest ← lit ('g' :: str "pr jr_addend_") (line.dropWhile isBlank)
  let tail ← lit (' ' :: str "= 0;") (rest.dropWhile isHex)
  if rest.takeWhile isHex = [] ∨ tail.all isBlank = false then none else some (rest.takeWhile isHex)

/-- `^([ \t]*)switch \(jr_addend_([0-9A-Fa-f]+) >> \d+\) \{[ \t]*$`: the indentation
and the address. -/
def swRe (line : Line) : Option (Line × Line) := do
  let rest ← lit ('s' :: str "witch (jr_addend_") (line.dropWhile isBlank)
  let shift ← lit (' ' :: str ">> ") (rest.dropWhile isHex)
  let tail ← lit (')' :: str " \x7b") (shift.dropWhile Char.isDigit)
  if rest.takeWhile isHex = [] ∨ shift.takeWhile Char.isDigit = [] ∨
    tail.all isBlank = false then none
    else some (line.takeWhile isBlank, rest.takeWhile isHex)

/-- `default: switch_error\(__func__, 0x[0-9A-Fa-f]+, (0x[0-9A-Fa-f]+)\);` at a
position: the digits of the table's address. -/
def errRe (text : Line) : Option Line := do
  let pc ← lit ('d' :: str "efault: switch_error(__func__, 0x") text
  let table ← lit (',' :: str " 0x") (pc.dropWhile isHex)
  let _ ← lit (')' :: str ";") (table.dropWhile isHex)
  if pc.takeWhile isHex = [] ∨ table.takeWhile isHex = [] then none
    else some (table.takeWhile isHex)

/-- A modelled table load: the digits of its destination, base and offset. -/
structure Load where
  dest : Line
  base : Line
  offset : Line
deriving DecidableEq, Repr

/-- `^[ \t]*ctx->r(\d+) = ADD32\(ctx->r\d+, 0X[0-9A-Fa-f]+\);[ \t]*$` -/
def loadRe (line : Line) : Option Load := do
  let dest ← lit ('c' :: str "tx->r") (line.dropWhile isBlank)
  let base ← lit (' ' :: str "= ADD32(ctx->r") (dest.dropWhile Char.isDigit)
  let offset ← lit (',' :: str " 0X") (base.dropWhile Char.isDigit)
  let tail ← lit (')' :: str ";") (offset.dropWhile isHex)
  if dest.takeWhile Char.isDigit = [] ∨ base.takeWhile Char.isDigit = [] ∨
      offset.takeWhile isHex = [] ∨ tail.all isBlank = false then none
    else some ⟨dest.takeWhile Char.isDigit, base.takeWhile Char.isDigit, offset.takeWhile isHex⟩

/-! ## The repair of one file -/

/-- The address a switch line dispatches on. -/
def switchVram (line : Line) : Option Line := (swRe line).map Prod.snd

/-- Some line declares the address as constant 0. -/
def declares (lines : List Line) (vram : Line) : Bool :=
  lines.any (fun line => declRe line == some vram)

/-- The table named by a default arm on the line. -/
def tableRe (line : Line) : Option Line := (search errRe line).map Prod.snd

/-- The table base: the first default arm in the 39 lines below the switch. -/
def tableBelow (after : List Line) : Option Line := (after.take 39).findSome? tableRe

/-- The table load: the nearest one in the seven lines above the switch, the first
line of the file excepted. -/
def loadAbove (before : List Line) : Option Load :=
  (before.drop (before.length - 8 + 1)).reverse.findSome? loadRe

/-- `%sjr_addend_%s = (uint32_t)ctx->r%s - %sU; %s` -/
def assignment (indent vram dest table : Line) : Line :=
  indent ++ 'j' :: (str "r_addend_" ++ (vram ++ ' ' :: (str "= (uint32_t)ctx->r" ++ (dest ++
    ' ' :: (str "- 0x" ++ (table ++ 'U' :: (str "; " ++ tag)))))))

/-- Both ends of the repair are found around the switch. -/
def resolvable (before after : List Line) : Bool :=
  (tableBelow after).isSome && (loadAbove before).isSome

/-- What is inserted before a line of the file. -/
def insertion (lines before : List Line) (line : Line) (after : List Line) : Option Line := do
  let (indent, vram) ← swRe line
  if declares lines vram then
    let table ← tableBelow after
    let load ← loadAbove before
    some (assignment indent vram load.dest table)
  else none

/-- Some switch on the address is repaired. -/
def repaired (lines : List Line) (vram : Line) : Bool :=
  (contexts lines).any (fun c => switchVram c.2.1 == some vram &&
    (insertion lines c.1 c.2.1 c.2.2).isSome)

/-- Whether a line is tagged: the last declaration of an address with a repaired switch. -/
def tagged (lines : List Line) (line : Line) (after : List Line) : Bool :=
  match declRe line with
  | some vram => !declares after vram && repaired lines vram
  | none => false

/-- `ln.rstrip() + ' ' + TAG` -/
def withTag (line : Line) : Line := line.rdropWhile isSpace ++ ' ' :: tag

/-- What one line becomes. -/
def rewritten (lines : List Line) (c : Context Line) : List Line :=
  (insertion lines c.1 c.2.1 c.2.2).toList ++
    [if tagged lines c.2.1 c.2.2 then withTag c.2.1 else c.2.1]

/-- The lines of the repaired file. -/
def fixedLines (lines : List Line) : List Line := (contexts lines).flatMap (rewritten lines)

/-- Whether any switch of the file is repaired. -/
def changes (lines : List Line) : Bool :=
  (contexts lines).any (fun c => (insertion lines c.1 c.2.1 c.2.2).isSome)

/-- The switches the pass reports as failures. -/
def failures (lines : List Line) : Nat :=
  (contexts lines).countP (fun c => (switchVram c.2.1).any (declares lines) &&
    !resolvable c.1 c.2.2)

/-- The file after the pass; it is written only when something was repaired. -/
def fixFile (src : Line) : Line :=
  if changes (splitlines src) then joined (newline src) (fixedLines (splitlines src)) else src

/-- The whole pass: every file, and whether the exit status is nonzero. -/
def fixJraddend (files : List Line) : List Line × Bool :=
  (files.map fixFile, files.any (fun src => failures (splitlines src) ≠ 0))

/-! ## What the patterns read in what the pass writes -/

/-- A declaration is indentation, the declared address and trailing blanks. The pattern is taken
apart from the left, one literal or class after the other. -/
theorem declRe_shape (line vram : Line) (found : declRe line = some vram) :
    ∃ indent tail, (∀ c ∈ indent, isBlank c = true) ∧ vram ≠ [] ∧ (∀ c ∈ vram, isHex c = true) ∧
      (∀ c ∈ tail, isBlank c = true) ∧
      line = indent ++ 'g' :: (str "pr jr_addend_" ++ (vram ++ (str " = 0" ++ ';' :: tail))) := by
  simp only [declRe, Option.bind_eq_bind, Option.bind_eq_some_iff] at found
  obtain ⟨rest, opened, tail, closed, kept⟩ := found
  have start := (lit_eq_some _ _ _).mp opened
  have ending := (lit_eq_some _ _ _).mp closed
  split at kept
  · simp at kept
  · next solid =>
    obtain rfl : rest.takeWhile isHex = vram := by simpa using kept
    simp only [not_or, Bool.not_eq_false, List.all_eq_true] at solid
    refine ⟨line.takeWhile isBlank, tail, fun c member => List.mem_takeWhile_imp member, solid.1,
      fun c member => List.mem_takeWhile_imp member, solid.2, ?_⟩
    calc line = line.takeWhile isBlank ++ line.dropWhile isBlank :=
      List.takeWhile_append_dropWhile.symm
      _ = line.takeWhile isBlank ++
          ('g' :: str "pr jr_addend_" ++ (rest.takeWhile isHex ++ rest.dropWhile isHex)) := by
        rw [start, List.takeWhile_append_dropWhile]
      _ = _ := by simp [ending, str]

/-- Indentation is skipped. -/
theorem dropWhile_indent (indent rest : Line) (first : Char)
    (blank : ∀ c ∈ indent, isBlank c = true)
    (solid : isBlank first = false) : (indent ++ first :: rest).dropWhile isBlank = first :: rest :=
  dropWhile_run isBlank indent rest first blank solid

/-- A line whose text starts with another letter is no declaration, switch or load. -/
theorem declRe_other (line rest : Line) (first : Char)
    (text : line.dropWhile isBlank = first :: rest) (other : first ≠ 'g') : declRe line = none := by
  simp [declRe, text, lit, Ne.symm other]

/-- A line that starts with another letter is no switch on an addend. -/
theorem switchVram_other (line rest : Line) (first : Char)
    (text : line.dropWhile isBlank = first :: rest)
    (other : first ≠ 's') : switchVram line = none := by
  simp [switchVram, swRe, text, lit, Ne.symm other]

/-- A line that starts with another letter is no load. -/
theorem loadRe_other (line rest : Line) (first : Char)
    (text : line.dropWhile isBlank = first :: rest) (other : first ≠ 'c') : loadRe line = none := by
  simp [loadRe, text, lit, Ne.symm other]

/-- A default arm contains the `w` of its `switch_error`. -/
theorem tableRe_absent (line : Line) (absent : 'w' ∉ line) : tableRe line = none := by
  cases found : search errRe line with
  | none => simp [tableRe, found]
  | some result =>
    obtain ⟨rest, rfl, here⟩ := search_some errRe line result.1 result.2 found
    obtain ⟨pc, opened, _⟩ := Option.bind_eq_some_iff.mp here
    have shape := (lit_eq_some _ _ _).mp opened
    exact absurd (by simp [shape, str]) absent

/-- What the windows read of a line. -/
def reading (line : Line) : Option Line × Option Load := (tableRe line, loadRe line)

/-- The windows see lines only through their readings. -/
theorem resolvable_reading (before before' after after' : List Line)
    (above : before.map reading = before'.map reading)
    (below : after.map reading = after'.map reading) :
    resolvable before after = resolvable before' after' := by
  have table (lines : List Line) :
      tableBelow lines = ((lines.map reading).take 39).findSome? Prod.fst := by
    simp [tableBelow, ← List.map_take, List.findSome?_map, reading, Function.comp_def]
  have load (lines : List Line) : loadAbove lines =
      ((lines.map reading).drop
        ((lines.map reading).length - 8 + 1)).reverse.findSome? Prod.snd := by
    simp [loadAbove, ← List.map_drop, ← List.map_reverse, List.findSome?_map, reading,
      Function.comp_def]
  rw [resolvable, resolvable, table, table, load, load, above, below]

section Written

variable (indent vram : Line) (blank : ∀ c ∈ indent, isBlank c = true)
include blank

/-- The inserted assignment is no declaration, no switch and invisible to the windows: it starts
with a `j`, and there is no `w` in it. -/
theorem assignment_reads (dest table : Line) (hexVram : ∀ c ∈ vram, isHex c = true)
    (digits : ∀ c ∈ dest, Char.isDigit c = true) (hexTable : ∀ c ∈ table, isHex c = true) :
    declRe (assignment indent vram dest table) = none ∧
      switchVram (assignment indent vram dest table) = none ∧
      reading (assignment indent vram dest table) = (none, none) := by
  have text : (assignment indent vram dest table).dropWhile isBlank =
      'j' :: (str "r_addend_" ++ (vram ++ ' ' :: (str "= (uint32_t)ctx->r" ++ (dest ++
        ' ' :: (str "- 0x" ++ (table ++ 'U' :: (str "; " ++ tag))))))) :=
    dropWhile_indent indent _ 'j' blank (by decide)
  have absent : 'w' ∉ assignment indent vram dest table := by
    have inIndent : 'w' ∉ indent := fun member => absurd (blank _ member) (by decide)
    have inVram : 'w' ∉ vram := fun member => absurd (hexVram _ member) (by decide)
    have inDest : 'w' ∉ dest := fun member => absurd (digits _ member) (by decide)
    have inTable : 'w' ∉ table := fun member => absurd (hexTable _ member) (by decide)
    simp [assignment, tag, str, inIndent, inVram, inDest, inTable]
  exact ⟨declRe_other _ _ _ text (by decide), switchVram_other _ _ _ text (by decide),
    by rw [reading, tableRe_absent _ absent, loadRe_other _ _ _ text (by decide)]⟩

end Written

/-- A declaration is no switch and invisible to the windows; tagged, it is no
declaration either. -/
theorem decl_reads (line vram : Line) (found : declRe line = some vram) :
    switchVram line = none ∧ reading line = (none, none) ∧ declRe (withTag line) = none ∧
      switchVram (withTag line) = none ∧ reading (withTag line) = (none, none) := by
  obtain ⟨indent, tail, blank, nonempty, hexVram, blankTail, rfl⟩ := declRe_shape line vram found
  have text (rest : Line) : (indent ++ 'g' :: rest).dropWhile isBlank = 'g' :: rest :=
    dropWhile_indent indent rest 'g' blank (by decide)
  have spaces : ∀ c ∈ tail, isSpace c = true := by
    intro c member
    have isBlankTail := blankTail c member
    simp only [isBlank, Bool.or_eq_true, beq_iff_eq] at isBlankTail
    rcases isBlankTail with rfl | rfl <;> decide
  have trimmed :
    withTag (indent ++ 'g' :: (str "pr jr_addend_" ++ (vram ++ (str " = 0" ++ ';' :: tail)))) =
      indent ++ 'g' :: (str "pr jr_addend_" ++ (vram ++ (' ' :: (str "= 0;" ++ ' ' :: tag)))) := by
    have core := rdropWhile_run isSpace
      (indent ++ 'g' :: (str "pr jr_addend_" ++ (vram ++ str " = 0"))) tail ';'
      spaces (by decide)
    simp only [List.append_assoc, List.cons_append] at core
    rw [withTag, core]
    simp [str]
  have inIndent : 'w' ∉ indent := fun member => absurd (blank _ member) (by decide)
  have inVram : 'w' ∉ vram := fun member => absurd (hexVram _ member) (by decide)
  have inTail : 'w' ∉ tail := fun member => absurd (blankTail _ member) (by decide)
  have closed : declRe (indent ++
      'g' :: (str "pr jr_addend_" ++ (vram ++ (' ' :: (str "= 0;" ++ ' ' :: tag))))) = none := by
    have run : (vram ++ ' ' :: (str "= 0;" ++ ' ' :: tag)).dropWhile isHex =
        ' ' :: (str "= 0;" ++ ' ' :: tag) :=
      dropWhile_run isHex vram _ ' ' hexVram (by decide)
    have solid : (' ' :: tag).all isBlank = false := by decide
    simp only [declRe, text, lit_cons_append, Option.bind_eq_bind, Option.bind_some, run]
    exact if_pos (Or.inr solid)
  refine ⟨switchVram_other _ _ 'g' (text _) (by decide), ?_, ?_, ?_, ?_⟩
  · rw [reading, loadRe_other _ _ 'g' (text _) (by decide),
      tableRe_absent _ (by simp [str, inIndent, inVram, inTail])]
  · rw [trimmed, closed]
  · rw [trimmed]
    exact switchVram_other _ _ 'g' (text _) (by decide)
  · rw [trimmed, reading, loadRe_other _ _ 'g' (text _) (by decide),
      tableRe_absent _ (by simp [str, tag, inIndent, inVram])]

/-- The texts a switch line gives are blanks and hexadecimal digits. -/
theorem swRe_classes (line indent vram : Line) (found : swRe line = some (indent, vram)) :
    (∀ c ∈ indent, isBlank c = true) ∧ ∀ c ∈ vram, isHex c = true := by
  simp only [swRe, Option.bind_eq_bind, Option.bind_eq_some_iff] at found
  obtain ⟨rest, _, shift, _, tail, _, kept⟩ := found
  split at kept
  · simp at kept
  · obtain ⟨rfl, rfl⟩ : line.takeWhile isBlank = indent ∧ rest.takeWhile isHex = vram := by
      simpa using kept
    exact ⟨fun c member => List.mem_takeWhile_imp member,
      fun c member => List.mem_takeWhile_imp member⟩

/-- A load's destination is written in digits. -/
theorem loadRe_dest (line : Line) (load : Load) (found : loadRe line = some load) :
    ∀ c ∈ load.dest, Char.isDigit c = true := by
  simp only [loadRe, Option.bind_eq_bind, Option.bind_eq_some_iff] at found
  obtain ⟨dest, _, base, _, offset, _, tail, _, kept⟩ := found
  split at kept
  · simp at kept
  · obtain rfl : _ = load := by simpa using kept
    exact fun c member => List.mem_takeWhile_imp member

/-- A table is written in hexadecimal digits. -/
theorem tableRe_hex (line table : Line) (found : tableRe line = some table) :
    ∀ c ∈ table, isHex c = true := by
  obtain ⟨⟨before, other⟩, search_, rfl⟩ := Option.map_eq_some_iff.mp found
  obtain ⟨rest, _, here⟩ := search_some errRe line before other search_
  simp only [errRe, Option.bind_eq_bind, Option.bind_eq_some_iff] at here
  obtain ⟨pc, _, digits, _, _, _, kept⟩ := here
  split at kept
  · simp at kept
  · obtain rfl : digits.takeWhile isHex = other := by simpa using kept
    exact fun c member => List.mem_takeWhile_imp member

/-- A switch is repaired when its address is declared and the windows resolve it. -/
theorem insertion_isSome (lines before : List Line) (line : Line) (after : List Line) :
    (insertion lines before line after).isSome =
      ((switchVram line).any (declares lines) && resolvable before after) := by
  cases found : swRe line with
  | none => simp [insertion, switchVram, found]
  | some parts =>
    obtain ⟨indent, vram⟩ := parts
    cases declared : declares lines vram <;> cases table : tableBelow after <;>
      cases load : loadAbove before <;>
      simp [insertion, switchVram, found, declared, table, load, resolvable]

/-- What is inserted is an assignment of digits found in the file: those of the switch, of the
load above it and of the table below. -/
theorem insertion_shape (lines before : List Line) (line : Line) (after : List Line) (text : Line)
    (found : insertion lines before line after = some text) :
    ∃ indent vram dest table, (∀ c ∈ indent, isBlank c = true) ∧ (∀ c ∈ vram, isHex c = true) ∧
      (∀ c ∈ dest, Char.isDigit c = true) ∧ (∀ c ∈ table, isHex c = true) ∧
      text = assignment indent vram dest table := by
  simp only [insertion, Option.bind_eq_bind, Option.bind_eq_some_iff] at found
  obtain ⟨⟨indent, vram⟩, isSwitch, kept⟩ := found
  split at kept
  · obtain ⟨table, below, load, above, rfl⟩ : ∃ table, tableBelow after = some table ∧ ∃ load,
        loadAbove before = some load ∧ assignment indent vram load.dest table = text := by
      simpa [Option.bind_eq_some_iff] using kept
    obtain ⟨blank, hexVram⟩ := swRe_classes line indent vram isSwitch
    obtain ⟨tableLine, _, tableFound⟩ := List.exists_of_findSome?_eq_some below
    obtain ⟨loadLine, _, loadFound⟩ := List.exists_of_findSome?_eq_some above
    exact ⟨indent, vram, load.dest, table, blank, hexVram, loadRe_dest loadLine load loadFound,
      tableRe_hex tableLine table tableFound, rfl⟩
  · simp at kept

/-- Inserted lines are no declarations, no switches and invisible to the windows. -/
theorem insertion_reads (lines before : List Line) (line : Line) (after : List Line) (text : Line)
    (found : insertion lines before line after = some text) :
    declRe text = none ∧ switchVram text = none ∧ reading text = (none, none) := by
  obtain ⟨indent, vram, dest, table, blank, hexVram, digits, hexTable, rfl⟩ :=
    insertion_shape lines before line after text found
  exact assignment_reads indent vram blank dest table hexVram digits hexTable

/-- A switch is no declaration. -/
theorem declRe_switch (line vram : Line) (found : switchVram line = some vram) :
    declRe line = none := by
  cases declared : declRe line with
  | none => rfl
  | some other => simp [(decl_reads line other declared).1] at found

/-- Only declarations are tagged. -/
theorem tagged_decl (lines : List Line) (line : Line) (after : List Line)
    (isTagged : tagged lines line after = true) : ∃ vram, declRe line = some vram := by
  cases declared : declRe line with
  | none => simp [tagged, declared] at isTagged
  | some vram => exact ⟨vram, rfl⟩

/-! ## The repaired text -/

/-- No line of the repaired file contains a break: the lines that are kept had none, and what is
inserted is made of indentation, digits and fixed texts of such lines. -/
theorem fixedLines_unbroken (lines : List Line) (unbroken : ∀ line ∈ lines, Unbroken line) :
    ∀ line ∈ fixedLines lines, Unbroken line := by
  have blankPlain : ∀ c, isBlank c = true → isBreak c = false := by
    intro c blank
    simp only [isBlank, Bool.or_eq_true, beq_iff_eq] at blank
    rcases blank with rfl | rfl <;> decide
  have hexPlain : ∀ c, isHex c = true → isBreak c = false := by
    intro c hexDigit
    cases breaks : isBreak c with
    | false => rfl
    | true =>
      simp only [isBreak, Bool.or_eq_true, beq_iff_eq] at breaks
      rcases breaks with ((((((((rfl | rfl) | rfl) | rfl) | rfl) | rfl) | rfl) | rfl) | rfl) |
        rfl <;>
        exact absurd hexDigit (by decide)
  have digitPlain : ∀ c, Char.isDigit c = true → isBreak c = false := fun c digit =>
    hexPlain c (by simp [isHex, isUpperHex, digit])
  have tagPlain : Unbroken tag := by decide
  intro written member
  obtain ⟨c, inContexts, inRewritten⟩ := List.mem_flatMap.mp member
  have original : c.2.1 ∈ lines := by
    rw [(mem_contexts lines c).mp inContexts]
    simp
  rcases List.mem_append.mp inRewritten with inserted | kept
  · obtain ⟨indent, vram, dest, table, blank, hexVram, digits, hexTable, rfl⟩ :=
      insertion_shape lines c.1 c.2.1 c.2.2 written (Option.mem_toList.mp inserted)
    intro d among
    simp only [assignment, List.mem_append, List.mem_cons] at among
    rcases among with h | rfl | h | h | rfl | h | h | rfl | h | h | rfl | h | h
    · exact blankPlain d (blank d h)
    · decide
    · exact (by decide : Unbroken (str "r_addend_")) d h
    · exact hexPlain d (hexVram d h)
    · decide
    · exact (by decide : Unbroken (str "= (uint32_t)ctx->r")) d h
    · exact digitPlain d (digits d h)
    · decide
    · exact (by decide : Unbroken (str "- 0x")) d h
    · exact hexPlain d (hexTable d h)
    · decide
    · exact (by decide : Unbroken (str "; ")) d h
    · exact tagPlain d h
  · have whole := unbroken c.2.1 original
    split at kept
    · obtain rfl : written = withTag c.2.1 := by simpa using kept
      intro d among
      rcases List.mem_append.mp among with inLine | inTag
      · exact whole d ((List.rdropWhile_prefix isSpace _).subset inLine)
      · rcases List.mem_cons.mp inTag with rfl | inTag
        · decide
        · exact tagPlain d inTag
    · obtain rfl : written = c.2.1 := by simpa using kept
      exact whole

/-- A file without repairs is left as it is: no context inserts a line, so no declaration is used,
and none is tagged. -/
theorem fixedLines_unchanged (lines : List Line) (unchanged : changes lines = false) :
    fixedLines lines = lines := by
  have none_ : ∀ c ∈ contexts lines, insertion lines c.1 c.2.1 c.2.2 = none := by
    intro c member
    simpa using (List.any_eq_false.mp unchanged) c member
  have untagged (vram : Line) : repaired lines vram = false := by
    rw [repaired, List.any_eq_false]
    intro c member
    simp [none_ c member]
  have same : ∀ c ∈ contexts lines, rewritten lines c = [c.2.1] := by
    intro c member
    have plain : tagged lines c.2.1 c.2.2 = false := by
      cases declared : declRe c.2.1 <;> simp [tagged, declared, untagged]
    simp [rewritten, none_ c member, plain]
  calc fixedLines lines = (contexts lines).flatMap (fun c => [c.2.1]) := by
        rw [fixedLines, List.flatMap_def, List.flatMap_def, List.map_congr_left same]
    _ = (contexts lines).map (fun c => c.2.1) := List.map_eq_flatMap.symm
    _ = lines := contexts_elements lines

/-- Reading the written file back gives the repaired lines. -/
theorem splitlines_fixFile (src : Line) :
    splitlines (fixFile src) = fixedLines (splitlines src) := by
  cases changed : changes (splitlines src) with
  | true =>
    simp only [fixFile, changed, if_true]
    exact splitlines_joined src _ (fixedLines_unbroken _ (splitlines_unbroken src))
  | false => simp [fixFile, changed, fixedLines_unchanged]

/-- A file is left alone exactly when no switch of it is repaired, since a repair adds a line and
no other change takes one away. -/
theorem fixFile_stable (src : Line) : fixFile src = src ↔ changes (splitlines src) = false := by
  constructor
  · intro stable
    cases changed : changes (splitlines src) with
    | false => rfl
    | true =>
      have sameLines : fixedLines (splitlines src) = splitlines src := by
        rw [← splitlines_fixFile, stable]
      have longer : (contexts (splitlines src)).length < (fixedLines (splitlines src)).length := by
        refine flatMap_longer _ _ (fun c _ => by simp [rewritten]) ?_
        obtain ⟨c, member, inserted⟩ := List.any_eq_true.mp changed
        obtain ⟨text, found⟩ := Option.isSome_iff_exists.mp inserted
        exact ⟨c, member, by simp [rewritten, found]⟩
      have sameLength : (contexts (splitlines src)).length = (splitlines src).length := by
        simpa using congrArg List.length (contexts_elements (splitlines src))
      rw [sameLines, sameLength] at longer
      exact absurd longer (Nat.lt_irrefl _)
  · intro unchanged
    simp [fixFile, unchanged]

/-! ## Functions and their own declarations -/

/-- Every line of the file with the function or text it belongs to. -/
def owned (lines : List Line) : List (Piece × Line) :=
  (pieces lines).flatMap (fun piece => piece.lines.map (fun line => (piece, line)))

/-- A line of the file in its place: its function and what stands around it. -/
abbrev Place := Context (Piece × Line)

def places (lines : List Line) : List Place := contexts (owned lines)

def Place.own (place : Place) : List Line := place.2.1.1.lines

def Place.line (place : Place) : Line := place.2.1.2

def Place.above (place : Place) : List Line := place.1.map Prod.snd

def Place.below (place : Place) : List Line := place.2.2.map Prod.snd

/-- The line is a switch whose own function declares its address as constant 0. -/
def broken (own : List Line) (line : Line) : Bool := (switchVram line).any (declares own)

/-- Some line of the function switches on the address. -/
def switches (own : List Line) (vram : Line) : Bool :=
  own.any (fun line => switchVram line == some vram)

/-- The line declares an address on which its own function switches. -/
def used (own : List Line) (line : Line) : Bool := (declRe line).any (switches own)

/-- The repair meets its purpose: exactly the switches whose own function declares
the constant are repaired, exactly their declarations are tagged, nothing else
changes, and a second run changes nothing. -/
structure RepairsExactly (src : Line) : Prop where
  inserted : ∀ place ∈ places (splitlines src),
    (insertion (splitlines src) place.above place.line place.below).isSome =
      broken place.own place.line
  tagged : ∀ place ∈ places (splitlines src),
    tagged (splitlines src) place.line place.below = used place.own place.line
  others : splitlines (fixFile src) = (places (splitlines src)).flatMap (fun place =>
    (insertion (splitlines src) place.above place.line place.below).toList ++
      [if used place.own place.line then withTag place.line else place.line])
  again : fixFile (fixFile src) = fixFile src

/-- The file with an empty line above every broken switch. -/
def spaced (lines : List (Piece × Line)) : List Line :=
  lines.flatMap (fun owner => if broken owner.1.lines owner.2 then [[], owner.2] else [owner.2])

/-- The condition on a file: a switch on a declared address is resolvable exactly
when its own function declares the address; a declaration whose function switches
on it is the file's last of its address; and an address that is also declared by a
function without a switch on it has no switch that the windows still resolve once a
line stands above every broken switch. -/
structure Tidy (lines : List Line) : Prop where
  resolves : ∀ place ∈ places lines, ∀ vram, switchVram place.line = some vram →
    declares lines vram = true → resolvable place.above place.below = declares place.own vram
  last : ∀ place ∈ places lines, ∀ vram, declRe place.line = some vram →
    switches place.own vram = true → declares place.below vram = false
  unfound : ∀ place ∈ places lines, ∀ vram, switchVram place.line = some vram →
    (∃ other ∈ places lines, declRe other.line = some vram ∧ switches other.own vram = false) →
      resolvable (spaced place.1 ++ if broken place.own place.line then [[]] else [])
        (spaced place.2.2) = false

/-- The lines with their functions are the lines. -/
theorem owned_lines (lines : List Line) : (owned lines).map Prod.snd = lines := by
  calc (owned lines).map Prod.snd = (pieces lines).flatMap Piece.lines := by
        simp [owned, List.map_flatMap, Function.comp_def]
    _ = lines := pieces_lines lines

/-- The contexts of the lines are those of their places. -/
theorem contexts_places (lines : List Line) :
    contexts lines = (places lines).map (fun place => (place.above, place.line, place.below)) := by
  conv_lhs => rw [← owned_lines lines]
  exact contexts_map Prod.snd (owned lines)

/-- The lines of a place's own function are lines of the file, owned alike: lines are paired with
the piece that they come from before they get their places. -/
theorem own_places (lines : List Line) (place : Place) (member : place ∈ places lines) (line : Line)
    (inOwn : line ∈ place.own) :
    ∃ other ∈ places lines, other.line = line ∧ other.own = place.own := by
  have isOwned : place.2.1 ∈ owned lines := by
    rw [(mem_contexts _ _).mp member]
    simp
  obtain ⟨piece, inPieces, ownedLine⟩ := List.mem_flatMap.mp isOwned
  obtain ⟨_, _, same⟩ := List.mem_map.mp ownedLine
  have samePiece : piece = place.2.1.1 := congrArg Prod.fst same
  have alike : (piece, line) ∈ owned lines :=
    List.mem_flatMap.mpr ⟨piece, inPieces, List.mem_map.mpr ⟨line, samePiece ▸ inOwn, rfl⟩⟩
  rw [← contexts_elements (owned lines)] at alike
  obtain ⟨other, inPlaces, found⟩ := List.mem_map.mp alike
  exact ⟨other, inPlaces, by simp [Place.line, found], by simp [Place.own, found, samePiece]⟩

/-- A place's line is one of its own function's. -/
theorem line_own (lines : List Line) (place : Place) (member : place ∈ places lines) :
    place.line ∈ place.own := by
  have isOwned : place.2.1 ∈ owned lines := by
    rw [(mem_contexts _ _).mp member]
    simp
  obtain ⟨piece, _, ownedLine⟩ := List.mem_flatMap.mp isOwned
  obtain ⟨line, inLines, same⟩ := List.mem_map.mp ownedLine
  simpa [Place.line, Place.own, ← same] using inLines

/-- An address is declared where some place declares it. -/
theorem declares_places (lines : List Line) (vram : Line) :
    declares lines vram = true ↔ ∃ place ∈ places lines, declRe place.line = some vram := by
  conv_lhs => rw [← contexts_elements lines, contexts_places]
  simp [declares, Place.line]

/-- An address declared by a place's own function is declared by a place of it. -/
theorem own_declares (lines : List Line) (place : Place) (member : place ∈ places lines)
    (vram : Line) (declared : declares place.own vram = true) :
    ∃ other ∈ places lines, declRe other.line = some vram ∧ other.own = place.own := by
  obtain ⟨line, inOwn, found⟩ := List.any_eq_true.mp declared
  obtain ⟨other, inPlaces, rfl, sameOwn⟩ := own_places lines place member line inOwn
  exact ⟨other, inPlaces, by simpa using found, sameOwn⟩

/-- An address on which a place's own function switches has a switch at a place of it. -/
theorem own_switches (lines : List Line) (place : Place) (member : place ∈ places lines)
    (vram : Line) (switched : switches place.own vram = true) :
    ∃ other ∈ places lines, switchVram other.line = some vram ∧ other.own = place.own := by
  obtain ⟨line, inOwn, found⟩ := List.any_eq_true.mp switched
  obtain ⟨other, inPlaces, rfl, sameOwn⟩ := own_places lines place member line inOwn
  exact ⟨other, inPlaces, by simpa using found, sameOwn⟩

/-- An address is repaired where the place of a switch on it is. -/
theorem repaired_places (lines : List Line) (vram : Line) :
    repaired lines vram = true ↔ ∃ place ∈ places lines, switchVram place.line = some vram ∧
      (insertion lines place.above place.line place.below).isSome = true := by
  rw [repaired, contexts_places]
  simp

/-- The last declaration of an address has one place: of two places one stands above the other,
and would then declare again below. -/
theorem last_unique (lines : List Line) (place other : Place) (inPlaces : place ∈ places lines)
    (otherIn : other ∈ places lines) (vram : Line) (found : declRe place.line = some vram)
    (otherFound : declRe other.line = some vram) (isLast : declares place.below vram = false)
    (otherLast : declares other.below vram = false) : place = other := by
  have split := ((mem_contexts _ _).mp inPlaces).symm.trans ((mem_contexts _ _).mp otherIn)
  have absent (first second : Place) (secondFound : declRe second.line = some vram)
      (firstLast : declares first.below vram = false) : second.2.1 ∉ first.2.2 := by
    intro among
    have declared : declares first.below vram = true :=
      List.any_eq_true.mpr ⟨second.line, List.mem_map.mpr ⟨second.2.1, among, rfl⟩,
        by simp [secondFound]⟩
    simp [firstLast] at declared
  rcases List.append_eq_append_iff.mp split with ⟨between, front, back⟩ | ⟨between, front, back⟩
  · cases between with
    | nil =>
      obtain ⟨same, rest⟩ := List.cons.inj back
      exact Prod.ext (by simpa using front.symm) (Prod.ext same rest)
    | cons x between =>
      obtain ⟨same, rest⟩ := List.cons.inj back
      exact absurd (by simp [rest]) (absent place other otherFound isLast)
  · cases between with
    | nil =>
      obtain ⟨same, rest⟩ := List.cons.inj back
      exact Prod.ext (by simpa using front) (Prod.ext same.symm rest.symm)
    | cons x between =>
      obtain ⟨same, rest⟩ := List.cons.inj back
      exact absurd (by simp [rest]) (absent other place found otherLast)

/-! ## When the repair is exact -/

section Exact

variable (lines : List Line)

/-- Exactly the broken switches are repaired. -/
def InsertsExactly : Prop := ∀ place ∈ places lines,
  (insertion lines place.above place.line place.below).isSome = broken place.own place.line

/-- Exactly their declarations are tagged. -/
def TagsExactly : Prop := ∀ place ∈ places lines,
  tagged lines place.line place.below = used place.own place.line

/-- An address declared in a function is declared in the file. -/
theorem declares_own (place : Place) (member : place ∈ places lines) (vram : Line)
    (declared : declares place.own vram = true) : declares lines vram = true := by
  obtain ⟨other, inPlaces, found, _⟩ := own_declares lines place member vram declared
  exact (declares_places lines vram).mpr ⟨other, inPlaces, found⟩

/-- The pass inserts what it should exactly when, at every switch whose addend the file declares
as constant, both ends of the repair are found if and only if the switch's own function declares
it. -/
theorem inserts_iff : InsertsExactly lines ↔
    ∀ place ∈ places lines, ∀ vram, switchVram place.line = some vram → declares lines vram = true →
      resolvable place.above place.below = declares place.own vram := by
  constructor
  · intro exact_ place member vram isSwitch declared
    have same := exact_ place member
    rw [insertion_isSome] at same
    simpa [broken, isSwitch, declared] using same
  · intro resolves place member
    rw [insertion_isSome, broken]
    cases isSwitch : switchVram place.line with
    | none => rfl
    | some vram =>
      cases declared : declares lines vram with
      | true => simpa [declared] using resolves place member vram isSwitch declared
      | false =>
        have undeclared : declares place.own vram = false := by
          cases own : declares place.own vram with
          | false => rfl
          | true => simp [declares_own lines place member vram own] at declared
        simp [declared, undeclared]

/-- Given exact insertions, the tags are exact when used declarations are last ones. The file's
map keeps one declaration for an address, the last, and that one is tagged when any switch uses
the address. -/
theorem tags_iff (inserts : InsertsExactly lines) : TagsExactly lines ↔
    ∀ place ∈ places lines, ∀ vram, declRe place.line = some vram → switches place.own vram = true →
      declares place.below vram = false := by
  constructor
  · intro tags place member vram isDecl switched
    have same := tags place member
    simp only [tagged, used, isDecl, Option.any_some, switched] at same
    simpa using (Bool.and_eq_true_iff.mp same).1
  · intro last place member
    rw [tagged, used]
    cases isDecl : declRe place.line with
    | none => rfl
    | some vram =>
      have own : declares place.own vram = true :=
        List.any_eq_true.mpr ⟨place.line, line_own lines place member, by simp [isDecl]⟩
      apply Bool.eq_iff_iff.mpr
      simp only [Option.any_some, Bool.and_eq_true, Bool.not_eq_true']
      constructor
      · rintro ⟨isLast, someRepaired⟩
        obtain ⟨switch, inPlaces, isSwitch, inserted⟩ :=
          (repaired_places lines vram).mp someRepaired
        have declared : declares switch.own vram = true := by
          have isBroken := (inserts switch inPlaces).symm.trans inserted
          simpa [broken, isSwitch] using isBroken
        obtain ⟨decl, declIn, found, sameOwn⟩ := own_declares lines switch inPlaces vram declared
        have switched : switches decl.own vram = true := by
          rw [sameOwn]
          exact List.any_eq_true.mpr ⟨switch.line, line_own lines switch inPlaces,
            by simp [isSwitch]⟩
        have declLast := last decl declIn vram found switched
        rw [last_unique lines place decl member declIn vram isDecl found isLast declLast]
        exact switched
      · intro switched
        refine ⟨last place member vram isDecl switched, ?_⟩
        obtain ⟨switch, inPlaces, isSwitch, sameOwn⟩ :=
          own_switches lines place member vram switched
        refine (repaired_places lines vram).mpr ⟨switch, inPlaces, isSwitch, ?_⟩
        rw [inserts switch inPlaces, broken, isSwitch, sameOwn]
        exact own

variable {lines} (inserts : InsertsExactly lines)

/-- What the line of a place becomes. -/
def Place.rewritten (lines : List Line) (place : Place) : List Line :=
  FixJraddend.rewritten lines (place.above, place.line, place.below)

/-- The new lines are those that each place makes of its own line. -/
theorem fixedLines_places : fixedLines lines = (places lines).flatMap (Place.rewritten lines) := by
  rw [fixedLines, contexts_places, List.flatMap_map]
  rfl

/-- A switch line is kept as it is, below its assignment if it has one. -/
theorem rewritten_switch (place : Place) (vram : Line)
    (isSwitch : switchVram place.line = some vram) :
    place.rewritten lines =
      (insertion lines place.above place.line place.below).toList ++ [place.line] := by
  have untagged : tagged lines place.line place.below = false := by
    simp [tagged, declRe_switch place.line vram isSwitch]
  simp [Place.rewritten, FixJraddend.rewritten, untagged]

include inserts

/-- The windows read a rewritten line as the line itself, below an empty one where a
switch was repaired. -/
theorem rewritten_reading (place : Place) (member : place ∈ places lines) :
    (place.rewritten lines).map reading =
      (if broken place.own place.line then [[], place.line] else [place.line]).map reading := by
  have empty : reading [] = (none, none) := by decide
  have kept :
    reading (if tagged lines place.line place.below then withTag place.line else place.line) =
      reading place.line := by
    split
    next isTagged =>
      obtain ⟨vram, isDecl⟩ := tagged_decl lines place.line place.below isTagged
      obtain ⟨_, plain, _, _, withoutTag⟩ := decl_reads place.line vram isDecl
      rw [plain, withoutTag]
    next => rfl
  have inserted := inserts place member
  cases found : insertion lines place.above place.line place.below with
  | none =>
    have whole : broken place.own place.line = false := by simpa [found] using inserted.symm
    simp [Place.rewritten, FixJraddend.rewritten, found, kept, whole]
  | some text =>
    have isBroken : broken place.own place.line = true := by simpa [found] using inserted.symm
    have invisible := (insertion_reads lines _ _ _ text found).2.2
    simp [Place.rewritten, FixJraddend.rewritten, found, kept, isBroken, invisible, empty]

/-- The new lines of some places read as their lines with the marks and the assignments between
them. -/
theorem flatMap_reading (some_ : List Place) (among : some_ ⊆ places lines) :
    (some_.flatMap (Place.rewritten lines)).map reading =
      (spaced (some_.map (fun place => place.2.1))).map reading := by
  induction some_ with
  | nil => rfl
  | cons place rest inductionHypothesis =>
    have here := rewritten_reading inserts place (among List.mem_cons_self)
    have later :=
      inductionHypothesis (fun other member => among (List.mem_cons_of_mem place member))
    simp only [List.flatMap_cons, List.map_append, here, later, spaced, List.map_cons]
    rfl

/-- Around a switch of the repaired file the windows see the original lines, with an
empty line above each broken switch. -/
theorem switch_window (earlier later : List Place) (place : Place) (vram : Line)
    (split : places lines = earlier ++ place :: later)
    (isSwitch : switchVram place.line = some vram) :
    resolvable (earlier.flatMap (Place.rewritten lines) ++
        (insertion lines place.above place.line place.below).toList)
      (later.flatMap (Place.rewritten lines)) =
      resolvable (spaced place.1 ++ if broken place.own place.line then [[]] else [])
        (spaced place.2.2) := by
  obtain ⟨front, back⟩ := contexts_around (owned lines) earlier later place split
  have earlierIn : earlier ⊆ places lines := by simp [split]
  have laterIn : later ⊆ places lines := by
    rw [split]
    exact fun other member => List.mem_append_right _ (List.mem_cons_of_mem _ member)
  have here := rewritten_reading inserts place (by simp [split])
  rw [rewritten_switch place vram isSwitch] at here
  apply resolvable_reading
  · rw [List.map_append, List.map_append, flatMap_reading inserts earlier earlierIn, front]
    congr 1
    cases isBroken : broken place.own place.line with
    | false => simpa [isBroken] using here
    | true =>
      rw [isBroken, List.map_append] at here
      have shape : (insertion lines place.above place.line place.below).toList.map reading ++
          [reading place.line] = [reading []] ++ [reading place.line] := here
      exact List.append_cancel_right shape
  · rw [flatMap_reading inserts later laterIn, back]

/-- A switch of the repaired file is one of the original, and the windows resolve it
as they would with an empty line above each broken switch. -/
theorem fixed_switch (c : Context Line) (vram : Line) (isSwitch : switchVram c.2.1 = some vram)
    (member : c ∈ contexts (fixedLines lines)) :
    ∃ place ∈ places lines, switchVram place.line = some vram ∧ resolvable c.1 c.2.2 =
      resolvable (spaced place.1 ++ if broken place.own place.line then [[]] else [])
        (spaced place.2.2) := by
  have split := (mem_contexts _ _).mp member
  rw [fixedLines_places] at split
  obtain ⟨earlier, place, later, front, back, order, inside, above, below⟩ :=
    flatMap_split _ _ _ _ _ split
  rcases last_or_before _ _ _ _ _ inside with ⟨rfl, last, rfl⟩ | inserted
  · have untagged : tagged lines place.line place.below = false := by
      cases isTagged : tagged lines place.line place.below with
      | false => rfl
      | true =>
        obtain ⟨declared, isDecl⟩ := tagged_decl lines place.line place.below isTagged
        rw [if_pos isTagged] at last
        simp [← last, (decl_reads place.line declared isDecl).2.2.2.1] at isSwitch
    have same : place.line = c.2.1 := by simpa [untagged] using last
    have placed : switchVram place.line = some vram := same ▸ isSwitch
    refine ⟨place, by simp [order], placed, ?_⟩
    rw [← switch_window inserts earlier later place vram order placed, above, below]
    rfl
  · have invisible := insertion_reads lines _ _ _ c.2.1 (Option.mem_toList.mp inserted)
    simp [invisible.2.1] at isSwitch

/-- Every switch of the original file stands in the repaired one, resolved likewise. -/
theorem switch_fixed (place : Place) (vram : Line) (isSwitch : switchVram place.line = some vram)
    (member : place ∈ places lines) :
    ∃ c ∈ contexts (fixedLines lines), switchVram c.2.1 = some vram ∧ resolvable c.1 c.2.2 =
      resolvable (spaced place.1 ++ if broken place.own place.line then [[]] else [])
        (spaced place.2.2) := by
  obtain ⟨earlier, later, order⟩ := List.append_of_mem member
  refine ⟨(earlier.flatMap (Place.rewritten lines) ++
    (insertion lines place.above place.line place.below).toList, place.line,
    later.flatMap (Place.rewritten lines)), ?_, isSwitch,
    switch_window inserts earlier later place vram order isSwitch⟩
  rw [mem_contexts, fixedLines_places, order]
  simp [rewritten_switch place vram isSwitch]

omit inserts in
/-- The addresses still declared after the repair are those declared by a function
without a switch on them. -/
theorem fixed_declares (tags : TagsExactly lines) (vram : Line) :
    declares (fixedLines lines) vram = true ↔
    ∃ other ∈ places lines, declRe other.line = some vram ∧ switches other.own vram = false := by
  rw [declares, List.any_eq_true, fixedLines_places]
  constructor
  · rintro ⟨line, member, found⟩
    obtain ⟨place, placeIn, among⟩ := List.mem_flatMap.mp member
    have isDecl : declRe line = some vram := by simpa using found
    rcases List.mem_append.mp among with inserted | kept
    · simp [(insertion_reads lines _ _ _ line (Option.mem_toList.mp inserted)).1] at isDecl
    · cases isTagged : tagged lines place.line place.below with
      | true =>
        obtain ⟨declared, tagDecl⟩ := tagged_decl lines place.line place.below isTagged
        obtain rfl : line = withTag place.line := by simpa [isTagged] using kept
        simp [(decl_reads place.line declared tagDecl).2.2.1] at isDecl
      | false =>
        obtain rfl : line = place.line := by simpa [isTagged] using kept
        refine ⟨place, placeIn, isDecl, ?_⟩
        have unused := (tags place placeIn).symm.trans isTagged
        simpa [used, isDecl] using unused
  · rintro ⟨place, placeIn, isDecl, unswitched⟩
    refine ⟨place.line, List.mem_flatMap.mpr ⟨place, placeIn, ?_⟩, by simp [isDecl]⟩
    have untagged : tagged lines place.line place.below = false := by
      rw [tags place placeIn]
      simp [used, isDecl, unswitched]
    simp [Place.rewritten, FixJraddend.rewritten, untagged]

/-- A second run repairs nothing exactly when no switch on an address that stays
declared is resolved in the repaired file. -/
theorem unfound_iff (tags : TagsExactly lines) : changes (fixedLines lines) = false ↔
    ∀ place ∈ places lines, ∀ vram, switchVram place.line = some vram →
      (∃ other ∈ places lines, declRe other.line = some vram ∧ switches other.own vram = false) →
        resolvable (spaced place.1 ++ if broken place.own place.line then [[]] else [])
          (spaced place.2.2) = false := by
  rw [changes, List.any_eq_false]
  constructor
  · intro unchanged place member vram isSwitch stays
    obtain ⟨c, inFixed, stillSwitch, window⟩ := switch_fixed inserts place vram isSwitch member
    have kept := unchanged c inFixed
    rw [insertion_isSome, stillSwitch] at kept
    rw [← window]
    simpa [(fixed_declares tags vram).mpr stays] using kept
  · intro unfound c inFixed
    rw [insertion_isSome]
    cases isSwitch : switchVram c.2.1 with
    | none => simp
    | some vram =>
      obtain ⟨place, placeIn, placed, window⟩ := fixed_switch inserts c vram isSwitch inFixed
      cases stays : declares (fixedLines lines) vram with
      | false => simp [stays]
      | true =>
        have unresolved := unfound place placeIn vram placed ((fixed_declares tags vram).mp stays)
        simp [stays, window, unresolved]

end Exact

/-- The repair meets its purpose on a file exactly when the file is tidy. Each part of tidiness
answers for one part of the purpose: that both ends of a repair are found for what is inserted,
that a declaration is the last of its name for what is tagged, and that nothing tagged is found
again for a second run. -/
theorem repairsExactly_iff (src : Line) : RepairsExactly src ↔ Tidy (splitlines src) := by
  have again : fixFile (fixFile src) = fixFile src ↔
      changes (fixedLines (splitlines src)) = false := by
    rw [fixFile_stable, splitlines_fixFile]
  constructor
  · intro exact_
    have inserts : InsertsExactly (splitlines src) := exact_.inserted
    have tags : TagsExactly (splitlines src) := exact_.tagged
    exact ⟨(inserts_iff _).mp inserts, (tags_iff _ inserts).mp tags,
      (unfound_iff inserts tags).mp (again.mp exact_.again)⟩
  · intro tidy
    have inserts : InsertsExactly (splitlines src) := (inserts_iff _).mpr tidy.resolves
    have tags : TagsExactly (splitlines src) := (tags_iff _ inserts).mpr tidy.last
    refine ⟨inserts, tags, ?_, again.mpr ((unfound_iff inserts tags).mpr tidy.unfound)⟩
    rw [splitlines_fixFile, fixedLines_places, List.flatMap_def, List.flatMap_def]
    refine congrArg List.flatten (List.map_congr_left (fun place member => ?_))
    rw [Place.rewritten, FixJraddend.rewritten, tags place member]

/-- Two functions that decode one jump: the first declares the constant 0, the second
takes the offset from a register. -/
def duplicatedJump : Line := joined ['\n']
  [str "RECOMP_FUNC void func_80001000(uint8_t* rdram, recomp_context* ctx) \x7b",
    str "    gpr jr_addend_80001010 = 0;",
    str "    ctx->r2 = ADD32(ctx->r4, 0X0);",
    str "    switch (jr_addend_80001010 >> 2) \x7b",
    str "        case 0: goto L_80001020; break;",
    str "        default: switch_error(__func__, 0x80001010, 0x80002000);",
    str "    \x7d",
    str ";\x7d",
    str "RECOMP_FUNC void func_80001008(uint8_t* rdram, recomp_context* ctx) \x7b",
    str "    gpr jr_addend_80001010 = ctx->r5;",
    str "    ctx->r2 = ADD32(ctx->r2, 0X0);",
    str "    switch (jr_addend_80001010 >> 2) \x7b",
    str "        case 0: goto L_80001020; break;",
    str "        default: switch_error(__func__, 0x80001010, 0x80002000);",
    str "    \x7d",
    str ";\x7d"]

/-- The healthy copy of the jump is repaired as well. -/
theorem duplicatedJump_repaired : ¬ RepairsExactly duplicatedJump := by
  intro exact_
  have healthy : ∃ place ∈ places (splitlines duplicatedJump),
      (insertion (splitlines duplicatedJump) place.above place.line place.below).isSome ≠
        broken place.own place.line := by decide +kernel
  obtain ⟨place, member, differ⟩ := healthy
  exact differ (exact_.inserted place member)

end NoMercyRecomp.FixJraddend
