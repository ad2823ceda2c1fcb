import NoMercyRecomp.GenSymbols

/-!
# The table's text and its readers

`gen_symbols.main` writes the table as text. Three readers parse it back on their
own: the repair passes match the whole file and compare match positions,
`load_funcs` walks the lines with a current section, and `nm_coverage` runs a
key/value state machine. The first two agree on every text; all three recover
from a written table exactly what was written when names are word characters.

Braces in patterns and printed lines are written as character escapes.
-/

namespace NoMercyRecomp.SymbolReaders

open TextScan SymbolTable

/-! ## The written text -/

/-- A function of the table from its opening brace on. -/
def funcBody (f : Func) : Line :=
  '\x7b' :: (str " name = \"" ++ (f.name ++ '"' :: (str ", vram = 0x" ++ (hex8 f.vram ++
    ',' :: (str " size = 0x" ++ (hex f.size ++ ' ' :: str "\x7d,"))))))

/-- One function line of the table. -/
def funcLine (f : Func) : Line := str "    " ++ funcBody f

/-- The line that names a section. -/
def nameLine (sec : Section) : Line := 'n' :: (str "ame = \"" ++ (sec.name ++ ['"']))

/-- The lines of one section. -/
def sectionLines (sec : Section) : List Line :=
  [] :: str "[[section]]" :: nameLine sec :: (str "rom = 0x" ++ hex8 sec.rom) ::
    (str "vram = 0x" ++ hex8 sec.vram) :: (str "size = 0x" ++ hex sec.size) :: [] ::
    str "functions = [" :: (sec.funcs.map funcLine ++ [[']']])

/-- The whole file. -/
def tomlLines (dump : Dump) : List Line :=
  str "# Autogenerated from splat disassembly by tools/gen_symbols.py" :: dump.flatMap sectionLines

/-! ## Patterns -/

/-- `^name = "(\w+)"` at the start of a line. -/
def secNameRe (line : Line) : Option Line := do
  let rest ← lit ('n' :: str "ame = \"") line
  let word := rest.takeWhile isWord
  let _ ← lit ['"'] (rest.dropWhile isWord)
  if word = [] then none else some word

/-- `\{ name = "(\w+)", vram = (0x[0-9A-Fa-f]+)` at a position. -/
def fnRe (text : Line) : Option (Line × Nat) := do
  let rest ← lit ('\x7b' :: str " name = \"") text
  let word := rest.takeWhile isWord
  let digits ← lit ('"' :: str ", vram = 0x") (rest.dropWhile isWord)
  if word = [] ∨ digits.takeWhile isHex = [] then none
    else some (word, value 16 (digits.takeWhile isHex))

/-- The class `[^"]`. -/
def notQuote (c : Char) : Bool := c != '"'

/-- `name = "([^"]+)"` at the start of a line. -/
def quotedNameRe (line : Line) : Option Line := do
  let rest ← lit ('n' :: str "ame = \"") line
  let word := rest.takeWhile notQuote
  let _ ← lit ['"'] (rest.dropWhile notQuote)
  if word = [] then none else some word

/-- `\{ name = "([^"]+)", vram = (0x[0-9A-Fa-f]+), size = (0x[0-9A-Fa-f]+)` at a
position, with the text that follows it. -/
def sizedFnRe (text : Line) : Option (Func × Line) := do
  let rest ← lit ('\x7b' :: str " name = \"") text
  let word := rest.takeWhile notQuote
  let digits ← lit ('"' :: str ", vram = 0x") (rest.dropWhile notQuote)
  let sizeDigits ← lit (',' :: str " size = 0x") (digits.dropWhile isHex)
  if word = [] ∨ digits.takeWhile isHex = [] ∨ sizeDigits.takeWhile isHex = [] then none
    else some (⟨word, value 16 (digits.takeWhile isHex), value 16 (sizeDigits.takeWhile isHex)⟩,
      sizeDigits.dropWhile isHex)

/-- The same with ` \}` after it. -/
def closedFnRe (text : Line) : Option Func := do
  let (f, tail) ← sizedFnRe text
  let _ ← lit (' ' :: str "\x7d") tail
  some f

/-! ## The readers -/

/-- `sec_positions` of the repair passes: where each section name line starts. -/
def namePositions : Nat → List Line → List (Nat × Line)
  | _, [] => []
  | start, line :: rest =>
    ((secNameRe line).map (fun sec => (start, sec))).toList ++
      namePositions (start + line.length + 1) rest

/-- Every match of the function pattern in the file, with its position. -/
def fnPositions : Nat → List Line → List (Nat × Line × Nat)
  | _, [] => []
  | start, line :: rest => findAllAt fnRe start line ++ fnPositions (start + line.length + 1) rest

/-- The loop over `sec_positions`: the last section before the match, stopping
at the first position that is not before it. -/
def sectionAt (position : Nat) : Option Line → List (Nat × Line) → Option Line
  | sec, [] => sec
  | sec, (pos, s) :: rest => if pos < position then sectionAt position (some s) rest else sec

/-- The reader of `fix_stumps`, `fix_backbranches` and `audit_coresidency`: every
function with its section, name and address. -/
def readByPosition (lines : List Line) : List (Option Line × Line × Nat) :=
  (fnPositions 0 lines).map (fun found => (sectionAt found.1 none (namePositions 0 lines), found.2))

/-- One walk over the lines with a current section: a line first sets the section
it names, then yields its functions under the current one. -/
def walk {α : Type} (nameRe : Line → Option Line) (funcsOf : Line → List α) :
    Option Line → List Line → List (Option Line × α)
  | _, [] => []
  | sec, line :: rest =>
    let here := (nameRe line).or sec
    (funcsOf line).map (fun found => (here, found)) ++ walk nameRe funcsOf here rest

/-- `load_funcs` of `recomp_loop` and `nm_sweep`: at most one function a line. -/
def loadFuncs (lines : List Line) : List (Option Line × Func) :=
  walk quotedNameRe (fun line =>
    ((search sizedFnRe line).map (fun found => found.2.1)).toList) none lines

/-- The dictionary that `nm_coverage` fills for one section. -/
structure Record where
  name : Option Line := none
  rom : Option Nat := none
  vram : Option Nat := none
  size : Option Nat := none
  funcs : List Func := []
deriving DecidableEq, Repr

/-- `int(v, 0)` on a hexadecimal or decimal literal. -/
def intLiteral (text : Line) : Option Nat :=
  match lit (str "0x") text with
  | some digits => if digits ≠ [] ∧ digits.all isHex then some (value 16 digits) else none
  | none => if text ≠ [] ∧ text.all Char.isDigit then some (value 10 text) else none

/-- `^(name|rom|vram|size) = (.+)$` on a stripped line: the key and its text. -/
def secRe (line : Line) : Option (Line × Line) :=
  [str "name", str "rom", str "vram", str "size"].findSome? (fun key =>
    ((lit (key ++ str " = ") line).filter (fun text => text ≠ [])).map (fun text => (key, text)))

/-- Whether the dictionary holds the key. -/
def Record.has (record : Record) (key : Line) : Bool :=
  if key = str "name" then record.name.isSome
  else if key = str "rom" then record.rom.isSome
  else if key = str "vram" then record.vram.isSome
  else record.size.isSome

/-- `cur[k] = v`: a name without its quotes, otherwise an integer. -/
def Record.assign (record : Record) (key text : Line) : Option Record :=
  if key = str "name" then
    some { record with name := some ((text.dropWhile (· == '"')).rdropWhile (· == '"')) }
  else
    (intLiteral text).map (fun n =>
      if key = str "rom" then { record with rom := some n }
      else if key = str "vram" then { record with vram := some n }
      else { record with size := some n })

/-- Whether the state machine takes the line as a key: until the section has a
name any key, afterwards only a key it lacks. -/
def Record.takes (record : Record) (key : Line) : Bool :=
  record.name.isNone || (key ≠ str "name" && !record.has key)

/-- One line of `nm_coverage`'s parser. The sections are kept latest first;
`none` is the uncaught `ValueError` of a malformed integer. -/
def coverageLine (sections : List Record) (line : Line) : Option (List Record) :=
  let line := strip line
  if line = str "[[section]]" then some ({} :: sections)
  else match sections with
    | [] => some []
    | cur :: earlier =>
      match (secRe line).filter (fun found => cur.takes found.1) with
      | some (key, text) => (cur.assign key text).map (· :: earlier)
      | none =>
        match search closedFnRe line with
        | some (_, f) => some ({ cur with funcs := cur.funcs ++ [f] } :: earlier)
        | none => some (cur :: earlier)

/-- `nm_coverage`'s parser over the file. -/
def coverageRead (lines : List Line) : Option (List Record) :=
  (lines.foldlM coverageLine []).map List.reverse

/-! ## Position and line readers agree -/

/-- Positions of section lines lie at or after the line the walk starts from. -/
theorem namePositions_bound (start : Nat) (lines : List Line) (found : Nat × Line)
    (member : found ∈ namePositions start lines) : start ≤ found.1 := by
  induction lines generalizing start with
  | nil => simp [namePositions] at member
  | cons line rest inductionHypothesis =>
    rcases List.mem_append.mp member with here | later
    · cases named : secNameRe line with
      | none => simp [named] at here
      | some sec =>
        obtain rfl : found = (start, sec) := by simpa [named] using here
        exact Nat.le_refl start
    · have bound := inductionHypothesis _ later
      omega

/-- Sections before the match set the current section; the others do not matter. By induction on
those before, of which the last one counts. -/
theorem sectionAt_split (position : Nat) (sec : Option Line) (before after : List (Nat × Line))
    (earlier : ∀ found ∈ before, found.1 < position) (later : ∀ found ∈ after, position ≤ found.1) :
    sectionAt position sec (before ++ after) = (before.getLast?.map Prod.snd).or sec := by
  induction before generalizing sec with
  | nil =>
    cases after with
    | nil => rfl
    | cons found rest =>
      have stop : ¬ found.1 < position := Nat.not_lt.mpr (later found List.mem_cons_self)
      simp [sectionAt, stop]
  | cons found rest inductionHypothesis =>
    have go : found.1 < position := earlier found List.mem_cons_self
    rw [List.cons_append, sectionAt, if_pos go,
      inductionHypothesis _ (fun other member => earlier other (List.mem_cons_of_mem found member))]
    cases rest with
    | nil => rfl
    | cons second rest => simp [List.getLast?_cons]

/-- A match on a section's own line starts after the line does. -/
theorem fnRe_inside (start : Nat) (line sec : Line) (named : secNameRe line = some sec)
    (found : Nat × Line × Nat) (member : found ∈ findAllAt fnRe start line) : start < found.1 := by
  obtain ⟨rest, opened, _⟩ := Option.bind_eq_some_iff.mp named
  obtain rfl := (lit_eq_some _ _ _).mp opened
  have skipFirst : findAllAt fnRe start ('n' :: str "ame = \"" ++ rest) =
      findAllAt fnRe (start + 1) (str "ame = \"" ++ rest) := by
    simp [findAllAt, fnRe, lit]
  rw [skipFirst] at member
  have bound := (findAllAt_bounds fnRe (start + 1) _ found member).1
  omega

/-- Comparing match positions finds the same section as walking the lines, on
every text. Sections named on earlier lines come before the match, the line's own
section line starts before a match on it, and later lines start after it. -/
theorem position_walk (before : List (Nat × Line)) (start : Nat) (lines : List Line)
    (earlier : ∀ found ∈ before, found.1 < start) :
    (fnPositions start lines).map (fun found =>
        (sectionAt found.1 none (before ++ namePositions start lines), found.2)) =
      walk secNameRe (findAll fnRe) (before.getLast?.map Prod.snd) lines := by
  induction lines generalizing before start with
  | nil => rfl
  | cons line rest inductionHypothesis =>
    have own : ∀ found ∈ findAllAt fnRe start line,
        sectionAt found.1 none (before ++ namePositions start (line :: rest)) =
          (secNameRe line).or (before.getLast?.map Prod.snd) := by
      intro found member
      obtain ⟨low, high⟩ := findAllAt_bounds fnRe start line found member
      have after : ∀ other ∈ namePositions (start + line.length + 1) rest, found.1 ≤ other.1 := by
        intro other inRest
        have bound := namePositions_bound _ rest other inRest
        omega
      have past : ∀ other ∈ before, other.1 < found.1 := fun other inBefore =>
        lt_of_lt_of_le (earlier other inBefore) low
      cases named : secNameRe line with
      | none =>
        have split :=
          sectionAt_split found.1 none before (namePositions (start + line.length + 1) rest)
          past after
        simpa [namePositions, named] using split
      | some sec =>
        have inside := fnRe_inside start line sec named found member
        have split := sectionAt_split found.1 none (before ++ [(start, sec)])
          (namePositions (start + line.length + 1) rest)
          (fun other inBefore => by
            rcases List.mem_append.mp inBefore with old | new
            · exact past other old
            · obtain rfl : other = (start, sec) := by simpa using new
              exact inside)
          after
        simpa [namePositions, named] using split
    have next :=
      inductionHypothesis (before ++ ((secNameRe line).map (fun sec => (start, sec))).toList)
      (start + line.length + 1) (fun found member => by
        rcases List.mem_append.mp member with old | new
        · have bound := earlier found old
          omega
        · cases named : secNameRe line with
          | none => simp [named] at new
          | some sec =>
            obtain rfl : found = (start, sec) := by simpa [named] using new
            simp only
            omega)
    have current :
      ((before ++ ((secNameRe line).map (fun sec => (start, sec))).toList).getLast?.map Prod.snd) =
        (secNameRe line).or (before.getLast?.map Prod.snd) := by
      cases secNameRe line <;> simp
    rw [current] at next
    rw [fnPositions, List.map_append, walk, ← findAllAt_found fnRe start line, List.map_map]
    congr 1
    · exact List.map_congr_left (fun found member => by simp [own found member])
    · simpa [namePositions, List.append_assoc] using next

/-- Reading by position agrees with a walk over the lines on every text. -/
theorem readByPosition_eq (lines : List Line) :
    readByPosition lines = walk secNameRe (findAll fnRe) none lines :=
  position_walk [] 0 lines (by simp)

/-! ## Reading what was written -/

/-- Sections and functions are named by nonempty words. -/
def WordName (name : Line) : Prop := name ≠ [] ∧ ∀ c ∈ name, isWord c = true

instance (name : Line) : Decidable (WordName name) :=
  decidable_of_iff (name ≠ [] ∧ name.all isWord = true) (by simp [WordName])

def WordNames (dump : Dump) : Prop :=
  ∀ sec ∈ dump, WordName sec.name ∧ ∀ f ∈ sec.funcs, WordName f.name

/-- A word contains no character outside the class. -/
theorem word_absent (name : Line) (word : WordName name) (c : Char) (outside : isWord c = false) :
    c ∉ name := by
  intro member
  simp [word.2 c member] at outside

/-- A word has no quotation mark. -/
theorem word_notQuote (name : Line) (word : WordName name) : ∀ c ∈ name, notQuote c = true := by
  intro c member
  have different : c ≠ '"' := fun same => word_absent name word '"' (by decide) (same ▸ member)
  simp [notQuote, different]

/-- The digits of the address end at the comma, those of the size at the space. -/
theorem vram_run (vram : Nat) (tail : Line) :
    (hex8 vram ++ ',' :: tail).takeWhile isHex = hex8 vram ∧
      (hex8 vram ++ ',' :: tail).dropWhile isHex = ',' :: tail := by
  have inside : ∀ c ∈ hex8 vram, isHex c = true := fun c member =>
    isHex_of_upper c (hex8_upper vram c member)
  exact ⟨takeWhile_run isHex _ _ _ inside (by decide), dropWhile_run isHex _ _ _ inside (by decide)⟩

/-- A size is read up to the blank behind it. -/
theorem size_run (size : Nat) (tail : Line) :
    (hex size ++ ' ' :: tail).takeWhile isHex = hex size ∧
      (hex size ++ ' ' :: tail).dropWhile isHex = ' ' :: tail := by
  have inside : ∀ c ∈ hex size, isHex c = true := fun c member =>
    isHex_of_upper c (hex_upper size c member)
  exact ⟨takeWhile_run isHex _ _ _ inside (by decide), dropWhile_run isHex _ _ _ inside (by decide)⟩

/-- The function pattern reads a written function where its brace stands. -/
theorem fnRe_written (f : Func) (word : WordName f.name) :
    fnRe (funcBody f) = some (f.name, f.vram) := by
  have name : ∀ tail, (f.name ++ '"' :: tail).takeWhile isWord = f.name := fun tail =>
    takeWhile_run isWord f.name tail '"' word.2 (by decide)
  have afterName : ∀ tail, (f.name ++ '"' :: tail).dropWhile isWord = '"' :: tail := fun tail =>
    dropWhile_run isWord f.name tail '"' word.2 (by decide)
  simp only [fnRe, funcBody, lit_cons_append, Option.bind_eq_bind, Option.bind_some, name,
    afterName, (vram_run f.vram _).1]
  rw [if_neg (by simp [word.1, hex8_ne_nil]), value_hex8]

/-- The sized pattern reads the whole function. -/
theorem sizedFnRe_written (f : Func) (word : WordName f.name) :
    sizedFnRe (funcBody f) = some (f, ' ' :: str "\x7d,") := by
  have inside := word_notQuote f.name word
  have name : ∀ tail, (f.name ++ '"' :: tail).takeWhile notQuote = f.name := fun tail =>
    takeWhile_run notQuote f.name tail '"' inside (by decide)
  have afterName : ∀ tail, (f.name ++ '"' :: tail).dropWhile notQuote = '"' :: tail := fun tail =>
    dropWhile_run notQuote f.name tail '"' inside (by decide)
  simp only [sizedFnRe, funcBody, lit_cons_append, Option.bind_eq_bind, Option.bind_some, name,
    afterName,
    (vram_run f.vram _).1, (vram_run f.vram _).2, (size_run f.size _).1, (size_run f.size _).2]
  rw [if_neg (by simp [word.1, hex8_ne_nil, hex, number_ne_nil]), value_hex8, value_hex]

/-- The pattern with a closing brace reads a written function back. -/
theorem closedFnRe_written (f : Func) (word : WordName f.name) :
    closedFnRe (funcBody f) = some f := by
  have closed : lit (' ' :: str "\x7d") (' ' :: str "\x7d,") = some [','] := by decide
  simp [closedFnRe, sizedFnRe_written f word, closed]

/-- No brace follows the one that opens a written function. -/
theorem funcBody_brace (f : Func) (word : WordName f.name) :
    ∃ tail, funcBody f = '\x7b' :: tail ∧ '\x7b' ∉ tail := by
  refine ⟨_, rfl, ?_⟩
  have inName := word_absent f.name word '\x7b' (by decide)
  have inVram := hex8_absent f.vram '\x7b' (by decide)
  have inSize := hex_absent f.size '\x7b' (by decide)
  simp [str, inName, inVram, inSize]

/-- Every pattern for functions starts with a brace. -/
theorem fnRe_startsWith : StartsWith fnRe '\x7b' := by
  intro c rest different
  simp [fnRe, lit, Ne.symm different]

/-- The pattern with a size starts with a brace. -/
theorem sizedFnRe_startsWith : StartsWith sizedFnRe '\x7b' := by
  intro c rest different
  simp [sizedFnRe, lit, Ne.symm different]

/-- The pattern with a closing brace starts with a brace. -/
theorem closedFnRe_startsWith : StartsWith closedFnRe '\x7b' := by
  intro c rest different
  simp [closedFnRe, sizedFnRe_startsWith c rest different]

/-- A written function line holds one match of the function pattern. -/
theorem findAll_funcLine (f : Func) (word : WordName f.name) :
    findAll fnRe (funcLine f) = [(f.name, f.vram)] := by
  obtain ⟨tail, opened, closed⟩ := funcBody_brace f word
  have reads := fnRe_written f word
  rw [opened] at reads
  rw [funcLine, opened, findAll_skip fnRe '\x7b' fnRe_startsWith _ _ (by decide), findAll, reads,
    findAll_absent fnRe '\x7b' fnRe_startsWith tail closed]
  rfl

/-- A search for a function in a written line succeeds at its brace. -/
theorem search_funcLine {α : Type} (match? : Line → Option α) (starts : StartsWith match? '\x7b')
    (f : Func) (word : WordName f.name) (result : α) (reads : match? (funcBody f) = some result) :
    search match? (funcLine f) = some (str "    ", result) := by
  obtain ⟨tail, opened, _⟩ := funcBody_brace f word
  rw [opened] at reads
  rw [funcLine, opened, search_skip match? '\x7b' starts _ _ (by decide), search, reads]
  simp

/-- The lines of a section other than its functions hold no opening brace. -/
theorem header_brace (sec : Section) (word : WordName sec.name) :
    '\x7b' ∉ nameLine sec ∧ '\x7b' ∉ str "rom = 0x" ++ hex8 sec.rom ∧
      '\x7b' ∉ str "vram = 0x" ++ hex8 sec.vram ∧ '\x7b' ∉ str "size = 0x" ++ hex sec.size := by
  have inName := word_absent sec.name word '\x7b' (by decide)
  have inRom := hex8_absent sec.rom '\x7b' (by decide)
  have inVram := hex8_absent sec.vram '\x7b' (by decide)
  have inSize := hex_absent sec.size '\x7b' (by decide)
  simp [str, nameLine, inName, inRom, inVram, inSize]

/-- A walking reader fits the table: it names a section at the name line and at no
line that starts otherwise, and reads a function exactly in a function's line. -/
structure Fits {α : Type} (nameRe : Line → Option Line) (funcsOf : Line → List α)
    (result : Func → α) :
    Prop where
  named : ∀ sec : Section, WordName sec.name → nameRe (nameLine sec) = some sec.name
  unnamed : ∀ line, line.head? ≠ some 'n' → nameRe line = none
  braceless : ∀ line, '\x7b' ∉ line → funcsOf line = []
  reads : ∀ f : Func, WordName f.name → funcsOf (funcLine f) = [result f]

section Walking

variable {α : Type} {nameRe : Line → Option Line} {funcsOf : Line → List α} {result : Func → α}
  (fits : Fits nameRe funcsOf result)
include fits

/-- A line that neither starts like a name line nor holds a brace is passed over. -/
theorem walk_plain (sec : Option Line) (line : Line) (rest : List Line)
    (other : line.head? ≠ some 'n') (braceless : '\x7b' ∉ line) :
    walk nameRe funcsOf sec (line :: rest) = walk nameRe funcsOf sec rest := by
  simp [walk, fits.unnamed line other, fits.braceless line braceless]

/-- The function lines of a section yield its functions. -/
theorem walk_funcs (sec : Option Line) (funcs : List Func) (words : ∀ f ∈ funcs, WordName f.name)
    (rest : List Line) :
    walk nameRe funcsOf sec (funcs.map funcLine ++ rest) =
      funcs.map (fun f => (sec, result f)) ++ walk nameRe funcsOf sec rest := by
  induction funcs with
  | nil => rfl
  | cons f funcs inductionHypothesis =>
    have unnamed : nameRe (funcLine f) = none := fits.unnamed _ (by simp [funcLine, str])
    have later := inductionHypothesis (fun g member => words g (List.mem_cons_of_mem f member))
    simp [walk, unnamed, fits.reads f (words f List.mem_cons_self), later]

/-- A section's lines set the section and yield its functions: the name line sets it, a line of a
function yields one, and the others do neither. -/
theorem walk_section (before : Option Line) (sec : Section) (word : WordName sec.name)
    (words : ∀ f ∈ sec.funcs, WordName f.name) (rest : List Line) :
    walk nameRe funcsOf before (sectionLines sec ++ rest) =
      sec.funcs.map (fun f => (some sec.name, result f)) ++
        walk nameRe funcsOf (some sec.name) rest := by
  obtain ⟨inName, inRom, inVram, inSize⟩ := header_brace sec word
  have closing : walk nameRe funcsOf (some sec.name) ([']'] :: rest) =
      walk nameRe funcsOf (some sec.name) rest :=
    walk_plain fits _ _ _ (by decide) (by decide)
  have atName : ∀ lines, walk nameRe funcsOf before (nameLine sec :: lines) =
      walk nameRe funcsOf (some sec.name) lines := by
    intro lines
    simp [walk, fits.named sec word, fits.braceless _ inName]
  simp only [sectionLines, List.cons_append, List.append_assoc, List.nil_append]
  rw [walk_plain fits _ _ _ (by decide) (by decide), walk_plain fits _ _ _ (by decide) (by decide),
    atName,
    walk_plain fits _ _ _ (by simp [str]) inRom, walk_plain fits _ _ _ (by simp [str]) inVram,
    walk_plain fits _ _ _ (by simp [str]) inSize, walk_plain fits _ _ _ (by decide) (by decide),
    walk_plain fits _ _ _ (by decide) (by decide),
    walk_funcs fits _ _ words, closing]

/-- A fitting reader recovers every entry of a written table, in order. By induction on the
sections; what is written in front of them is passed over. -/
theorem walk_written (dump : Dump) (words : WordNames dump) :
    walk nameRe funcsOf none (tomlLines dump) = (entries dump).map
      (fun e => (some e.1, result e.2)) := by
  have sections (before : Option Line) (remaining : Dump) (words : WordNames remaining) :
      walk nameRe funcsOf before (remaining.flatMap sectionLines) =
        (entries remaining).map (fun e => (some e.1, result e.2)) := by
    induction remaining generalizing before with
    | nil => rfl
    | cons sec remaining inductionHypothesis =>
      obtain ⟨word, funcWords⟩ := words sec List.mem_cons_self
      rw [List.flatMap_cons, walk_section fits before sec word funcWords,
        inductionHypothesis _ (fun s member => words s (List.mem_cons_of_mem sec member))]
      simp [entries, Function.comp_def]
  rw [tomlLines, walk_plain fits _ _ _ (by decide) (by decide)]
  exact sections none dump words

end Walking

/-- Both name patterns need the name line's first character. -/
theorem secNameRe_other (line : Line) (other : line.head? ≠ some 'n') : secNameRe line = none := by
  cases line with
  | nil => rfl
  | cons c rest =>
    have different : 'n' ≠ c := fun same => other (by rw [← same]; rfl)
    simp [secNameRe, lit, different]

/-- A line that starts with another letter names nothing. -/
theorem quotedNameRe_other (line : Line) (other : line.head? ≠ some 'n') :
    quotedNameRe line = none := by
  cases line with
  | nil => rfl
  | cons c rest =>
    have different : 'n' ≠ c := fun same => other (by rw [← same]; rfl)
    simp [quotedNameRe, lit, different]

/-- The repair passes' patterns fit the table. -/
theorem position_fits : Fits secNameRe (findAll fnRe) (fun f => (f.name, f.vram)) where
  named := by
    intro sec word
    have name : (sec.name ++ ['"']).takeWhile isWord = sec.name :=
      takeWhile_run isWord sec.name [] '"' word.2 (by decide)
    have afterName : (sec.name ++ ['"']).dropWhile isWord = ['"'] :=
      dropWhile_run isWord sec.name [] '"' word.2 (by decide)
    simp only [secNameRe, nameLine, lit_cons_append, Option.bind_eq_bind, Option.bind_some, name,
      afterName]
    simp [lit, word.1]
  unnamed := secNameRe_other
  braceless := fun line absent => findAll_absent fnRe '\x7b' fnRe_startsWith line absent
  reads := findAll_funcLine

/-- `load_funcs`' patterns fit the table: the name of a section is read up to its quote, and a
function's line holds the only brace. -/
theorem loadFuncs_fits :
    Fits quotedNameRe (fun line =>
      ((search sizedFnRe line).map (fun found => found.2.1)).toList) id where
  named := by
    intro sec word
    have inside := word_notQuote sec.name word
    have name : (sec.name ++ ['"']).takeWhile notQuote = sec.name :=
      takeWhile_run notQuote sec.name [] '"' inside (by decide)
    have afterName : (sec.name ++ ['"']).dropWhile notQuote = ['"'] :=
      dropWhile_run notQuote sec.name [] '"' inside (by decide)
    simp only [quotedNameRe, nameLine, lit_cons_append, Option.bind_eq_bind, Option.bind_some, name,
      afterName]
    simp [lit, word.1]
  unnamed := quotedNameRe_other
  braceless := fun line absent => by
    simp [search_absent sizedFnRe '\x7b' sizedFnRe_startsWith line absent]
  reads := fun f word => by
    simp [search_funcLine sizedFnRe sizedFnRe_startsWith f word _ (sizedFnRe_written f word)]

/-- Positions of section lines name the sections in emission order. No other line of the table
starts as a section's name line does. -/
theorem namePositions_written (dump : Dump) (words : WordNames dump) :
    (namePositions 0 (tomlLines dump)).map Prod.snd = secPositions dump := by
  have named (start : Nat) (lines : List Line) :
      (namePositions start lines).map Prod.snd = lines.filterMap secNameRe := by
    induction lines generalizing start with
    | nil => rfl
    | cons line rest inductionHypothesis =>
      cases found : secNameRe line <;> simp [namePositions, found, inductionHypothesis]
  have funcs : ∀ sec : Section, (sec.funcs.map funcLine).filterMap secNameRe = [] := by
    intro sec
    simp only [List.filterMap_eq_nil_iff, List.mem_map]
    rintro _ ⟨f, _, rfl⟩
    exact secNameRe_other _ (by simp [funcLine, str])
  have sectionNames : ∀ sec ∈ dump, (sectionLines sec).filterMap secNameRe = [sec.name] := by
    intro sec member
    have own := position_fits.named sec (words sec member).1
    have rom : secNameRe (str "rom = 0x" ++ hex8 sec.rom) = none :=
      secNameRe_other _ (by simp [str])
    have vram : secNameRe (str "vram = 0x" ++ hex8 sec.vram) = none :=
      secNameRe_other _ (by simp [str])
    have size : secNameRe (str "size = 0x" ++ hex sec.size) = none :=
      secNameRe_other _ (by simp [str])
    have opening : secNameRe (str "[[section]]") = none := by decide
    have list : secNameRe (str "functions = [") = none := by decide
    have blank : secNameRe [] = none := by decide
    have closing : secNameRe [']'] = none := by decide
    simp [sectionLines, own, rom, vram, size, opening, list, blank, closing, funcs sec]
  have first :
      secNameRe (str "# Autogenerated from splat disassembly by tools/gen_symbols.py") = none := by
    decide
  rw [named, tomlLines, List.filterMap_cons_none first, List.filterMap_flatMap]
  clear named funcs
  induction dump with
  | nil => rfl
  | cons sec dump inductionHypothesis =>
    rw [List.flatMap_cons, sectionNames sec List.mem_cons_self,
      inductionHypothesis (fun s member => words s (List.mem_cons_of_mem sec member))
        (fun s member => sectionNames s (List.mem_cons_of_mem sec member))]
    rfl

/-! ## The key/value machine -/

/-- What the machine holds of a written section. -/
def record (sec : Section) : Record :=
  { name := some sec.name, rom := some sec.rom, vram := some sec.vram, size := some sec.size,
    funcs := sec.funcs }

/-- A hexadecimal literal is read as its number. -/
theorem intLiteral_hex (digits : Line) (nonempty : digits ≠ [])
    (upper : ∀ c ∈ digits, isUpperHex c = true) :
    intLiteral (str "0x" ++ digits) = some (value 16 digits) := by
  have all : digits.all isHex = true :=
    List.all_eq_true.mpr (fun c member => isHex_of_upper c (upper c member))
  rw [intLiteral, lit_append]
  simp [nonempty, all]

/-- A key line that the section takes assigns its key. -/
theorem coverageLine_key (cur : Record) (earlier : List Record) (line key text : Line)
    (plain : strip line = line) (other : line ≠ str "[[section]]")
    (keyed : secRe line = some (key, text)) (taken : cur.takes key = true) :
    coverageLine (cur :: earlier) line = (cur.assign key text).map (· :: earlier) := by
  simp [coverageLine, plain, other, keyed, Option.filter, taken]

/-- A line that is neither a key nor a function leaves the sections as they are. -/
theorem coverageLine_other (sections : List Record) (line : Line)
    (other : strip line ≠ str "[[section]]")
    (keyless : secRe (strip line) = none) (braceless : '\x7b' ∉ strip line) :
    coverageLine sections line = some sections := by
  cases sections with
  | nil => simp [coverageLine, other]
  | cons cur earlier =>
    simp [coverageLine, other, keyless,
      search_absent closedFnRe '\x7b' closedFnRe_startsWith _ braceless]

/-- A hexadecimal key line assigns its number to the field of its key; other keys do not occur
with such values. -/
theorem coverageLine_hex (cur : Record) (earlier : List Record) (first : Char) (rest digits : Line)
    (plain : isSpace first = false) (other : first ≠ '[') (nonempty : digits ≠ [])
    (upper : ∀ c ∈ digits, isUpperHex c = true)
    (keyed : secRe (first :: rest ++ str " = " ++ (str "0x" ++ digits)) =
      some (first :: rest, str "0x" ++ digits))
    (named : first :: rest ≠ str "name") (taken : cur.takes (first :: rest) = true) :
    coverageLine (cur :: earlier) (first :: rest ++ str " = " ++ (str "0x" ++ digits)) =
      some ((if first :: rest = str "rom" then { cur with rom := some (value 16 digits) }
        else if first :: rest = str "vram" then { cur with vram := some (value 16 digits) }
        else { cur with size := some (value 16 digits) }) :: earlier) := by
  have ends : (first :: rest ++ str " = " ++ (str "0x" ++ digits)).getLast? =
      some (digits.getLast nonempty) := by
    rw [← List.append_assoc, List.getLast?_append, List.getLast?_eq_some_getLast nonempty]
    rfl
  have lastSolid : isSpace (digits.getLast nonempty) = false := by
    have digit := upper _ (List.getLast_mem nonempty)
    cases solid : isSpace (digits.getLast nonempty) with
    | false => rfl
    | true =>
      have spaces : ∀ c, isSpace c = true → isUpperHex c = false := by
        intro c space
        simp only [isSpace, Bool.or_eq_true, beq_iff_eq] at space
        rcases space with ((((rfl | rfl) | rfl) | rfl) | rfl) | rfl <;> decide
      simp [spaces _ solid] at digit
  have solid := strip_solid _ first _ (by simp) ends plain lastSolid
  rw [coverageLine_key cur earlier _ _ _ solid (by simp [str, other]) keyed taken, Record.assign,
    if_neg named, intLiteral_hex digits nonempty upper]
  rfl

/-- A function line appends its function to the current section. Stripped, it starts with a brace,
so it is neither a header nor a key's line. -/
theorem coverageLine_func (cur : Record) (earlier : List Record) (f : Func)
    (word : WordName f.name) :
    coverageLine (cur :: earlier) (funcLine f) =
      some ({ cur with funcs := cur.funcs ++ [f] } :: earlier) := by
  have stripped : strip (funcLine f) = funcBody f := by
    obtain ⟨tail, opened, _⟩ := funcBody_brace f word
    rw [funcLine, strip_spaces _ _ (List.all_eq_true.mp (by decide))]
    refine strip_solid _ '\x7b' ',' (by simp [opened]) ?_ (by decide) (by decide)
    simp [funcBody, str, List.getLast?_cons, List.getLast?_append]
  have keyless : secRe (funcBody f) = none := by
    simp [secRe, funcBody, str, lit]
  have reads : search closedFnRe (funcBody f) = some ([], f) := by
    obtain ⟨tail, opened, _⟩ := funcBody_brace f word
    have here := closedFnRe_written f word
    rw [opened] at here ⊢
    simp [search, here]
  have other : funcBody f ≠ str "[[section]]" := by simp [funcBody, str]
  simp [coverageLine, stripped, other, keyless, reads]

/-- The function lines of a section append its functions. -/
theorem coverage_funcs (cur : Record) (earlier : List Record) (funcs : List Func)
    (words : ∀ f ∈ funcs, WordName f.name) :
    (funcs.map funcLine).foldlM coverageLine (cur :: earlier) =
      some ({ cur with funcs := cur.funcs ++ funcs } :: earlier) := by
  induction funcs generalizing cur with
  | nil => simp
  | cons f funcs inductionHypothesis =>
    have later := inductionHypothesis { cur with funcs := cur.funcs ++ [f] }
      (fun g member => words g (List.mem_cons_of_mem f member))
    simp [coverageLine_func cur earlier f (words f List.mem_cons_self), later]

/-- The name line names an unnamed section. A function's line has its name in braces, and is not
read as a key. -/
theorem coverageLine_name (cur : Record) (earlier : List Record) (sec : Section)
    (word : WordName sec.name) (unnamed : cur.name = none) :
    coverageLine (cur :: earlier) (nameLine sec) =
      some ({ cur with name := some sec.name } :: earlier) := by
  have solid : strip (nameLine sec) = nameLine sec :=
    strip_solid _ 'n' '"' rfl (by simp [nameLine, str, List.getLast?_cons]) (by decide) (by decide)
  have keyed : secRe (nameLine sec) = some (str "name", '"' :: (sec.name ++ ['"'])) := by
    simp [secRe, nameLine, str, lit]
  have bare :
      (('"' :: (sec.name ++ ['"'])).dropWhile (· == '"')).rdropWhile (· == '"') = sec.name := by
    have inName := word_absent sec.name word '"' (by decide)
    have quoteless : ∀ c ∈ sec.name, (c == '"') = false := by
      intro c member
      simpa using fun same : c = '"' => inName (same ▸ member)
    obtain ⟨first, rest, shape⟩ := List.exists_cons_of_ne_nil word.1
    have leading : ('"' :: (sec.name ++ ['"'])).dropWhile (· == '"') = sec.name ++ ['"'] := by
      have solidFirst := quoteless first (by simp [shape])
      simpa [shape] using solidFirst
    rw [leading, List.rdropWhile_concat_pos _ _ _ (by decide)]
    exact List.rdropWhile_eq_self_iff.mpr
      (fun nonempty => by simp [quoteless _ (List.getLast_mem nonempty)])
  rw [coverageLine_key cur earlier _ _ _ solid (by simp [nameLine, str]) keyed
    (by simp [Record.takes, unnamed]), Record.assign, if_pos rfl, bare]
  rfl

/-- The lines of a section add exactly that section: the header opens a record, the four keys fill
it, and its functions are added in order. -/
theorem coverage_section (earlier : List Record) (sec : Section) (word : WordName sec.name)
    (words : ∀ f ∈ sec.funcs, WordName f.name) :
    (sectionLines sec).foldlM coverageLine earlier = some (record sec :: earlier) := by
  have blank (sections : List Record) : coverageLine sections [] = some sections :=
    coverageLine_other sections [] (by decide) (by decide) (by decide)
  have list (sections : List Record) :
      coverageLine sections (str "functions = [") = some sections :=
    coverageLine_other sections _ (by decide) (by decide) (by decide)
  have closing (sections : List Record) : coverageLine sections [']'] = some sections :=
    coverageLine_other sections _ (by decide) (by decide) (by decide)
  have opening : coverageLine earlier (str "[[section]]") = some ({} :: earlier) := by
    have solid : strip (str "[[section]]") = str "[[section]]" := by decide
    simp [coverageLine, solid]
  have rom (cur : Record) (named : cur.name.isSome) (lacks : cur.rom = none) :
      coverageLine (cur :: earlier) (str "rom = 0x" ++ hex8 sec.rom) =
        some ({ cur with rom := some sec.rom } :: earlier) := by
    have written :=
      coverageLine_hex cur earlier 'r' (str "om") (hex8 sec.rom) (by decide) (by decide)
      (hex8_ne_nil _) (hex8_upper _) (by simp [secRe, str, lit]) (by decide)
      (by cases name : cur.name <;> simp_all [Record.takes, Record.has, str])
    simpa [str] using written
  have vram (cur : Record) (named : cur.name.isSome) (lacks : cur.vram = none) :
      coverageLine (cur :: earlier) (str "vram = 0x" ++ hex8 sec.vram) =
        some ({ cur with vram := some sec.vram } :: earlier) := by
    have written :=
      coverageLine_hex cur earlier 'v' (str "ram") (hex8 sec.vram) (by decide) (by decide)
      (hex8_ne_nil _) (hex8_upper _) (by simp [secRe, str, lit]) (by decide)
      (by cases name : cur.name <;> simp_all [Record.takes, Record.has, str])
    simpa [str] using written
  have size (cur : Record) (named : cur.name.isSome) (lacks : cur.size = none) :
      coverageLine (cur :: earlier) (str "size = 0x" ++ hex sec.size) =
        some ({ cur with size := some sec.size } :: earlier) := by
    have written :=
      coverageLine_hex cur earlier 's' (str "ize") (hex sec.size) (by decide) (by decide)
      (number_ne_nil _ _) (hex_upper _) (by simp [secRe, str, lit]) (by decide)
      (by cases name : cur.name <;> simp_all [Record.takes, Record.has, str])
    simpa [str] using written
  simp only [sectionLines, List.foldlM_cons, List.foldlM_append, List.foldlM_nil, blank, opening,
    list, closing,
    coverageLine_name _ _ sec word, rom, vram, size, coverage_funcs _ _ _ words,
    Option.bind_eq_bind, Option.bind_some, Option.pure_def, Option.isSome_some, List.nil_append]
  rfl

/-- The key/value machine recovers every section of a written table, by induction on the sections;
no record is left open. -/
theorem coverageRead_written (dump : Dump) (words : WordNames dump) :
    coverageRead (tomlLines dump) = some (dump.map record) := by
  have sections (earlier : List Record) (remaining : Dump) (words : WordNames remaining) :
      (remaining.flatMap sectionLines).foldlM coverageLine earlier =
        some ((remaining.map record).reverse ++ earlier) := by
    induction remaining generalizing earlier with
    | nil => rfl
    | cons sec remaining inductionHypothesis =>
      obtain ⟨word, funcWords⟩ := words sec List.mem_cons_self
      rw [List.flatMap_cons, List.foldlM_append, coverage_section earlier sec word funcWords]
      have later := inductionHypothesis (record sec :: earlier)
        (fun s member => words s (List.mem_cons_of_mem sec member))
      simpa using later
  have heading (lines : List Line) :
      (str "# Autogenerated from splat disassembly by tools/gen_symbols.py" ::
        lines).foldlM coverageLine [] = lines.foldlM coverageLine [] := by
    rw [List.foldlM_cons, coverageLine_other [] _ (by decide) (by decide) (by decide)]
    rfl
  rw [coverageRead, tomlLines, heading, sections [] dump words]
  simp

/-! ## The round trip -/

section RoundTrip

open GenSymbols

/-- What the merge promises of its inputs: distinct sections named by words, and
inside one section a renamed name with one address that does not end in a
section's suffix. -/
structure Promised (inputs : Inputs) : Prop where
  distinct : (inputs.sections.map Section.name).Nodup
  sectionWords : ∀ sec ∈ inputs.sections, WordName sec.name
  oneAddress : ∀ a ∈ places inputs, ∀ b ∈ places inputs, a.1 = b.1 →
    renamed inputs a.2.name = renamed inputs b.2.name → a.2.vram = b.2.vram
  plainNames : ∀ a ∈ places inputs, ∀ sec ∈ inputs.sections,
    ¬ ('_' :: sec.name) <:+ renamed inputs a.2.name

/-- The written table determines places by name, every reader recovers it, the
positions of its sections are their emission order, and entries ascend. -/
structure RoundTrip (inputs : Inputs) : Prop where
  determined : ∀ a ∈ entries (main inputs), ∀ b ∈ entries (main inputs),
    a.2.name = b.2.name → a.1 = b.1 ∧ a.2.vram = b.2.vram
  byPosition : readByPosition (tomlLines (main inputs)) =
    (entries (main inputs)).map (fun entry => (some entry.1, entry.2.name, entry.2.vram))
  byLine : loadFuncs (tomlLines (main inputs)) =
    (entries (main inputs)).map (fun entry => (some entry.1, entry.2))
  byKey : coverageRead (tomlLines (main inputs)) = some ((main inputs).map record)
  positions :
    (namePositions 0 (tomlLines (main inputs))).map Prod.snd = inputs.sections.map Section.name
  indexed : ∀ index sec, inputs.sections[index]? = some sec →
    secName2idx (main inputs) sec.name = some index ∧
      ∀ vram, name2sec (main inputs) (staticName index vram) = none →
        sectionOf (main inputs) (staticName index vram) = some sec.name
  ascending : ∀ sec ∈ main inputs, (sec.funcs.map Func.vram).Pairwise (· ≤ ·)

/-- A suffixed word is a word. -/
theorem suffixed_word (fn sec : Line) (fnWord : WordName fn) (secWord : WordName sec) :
    WordName (suffixed fn sec) := by
  refine ⟨by simp [suffixed], ?_⟩
  intro c member
  rcases List.mem_append.mp member with inFn | inSuffix
  · exact fnWord.2 c inFn
  · rcases List.mem_cons.mp inSuffix with rfl | inSec
    · decide
    · exact secWord.2 c inSec

/-- Words are written for words: a name is the renamed one, or that with the suffix of its
section. By induction on the functions. -/
theorem emitFuncs_words (inputs : Inputs) (sec : Line) (secWord : WordName sec) (seen : Seen)
    (funcs : List Func) (words : ∀ f ∈ funcs, WordName (renamed inputs f.name)) :
    ∀ g ∈ (emitFuncs inputs sec seen funcs).1, WordName g.name := by
  induction funcs generalizing seen with
  | nil => simp [emitFuncs]
  | cons f rest inductionHypothesis =>
    have word := words f List.mem_cons_self
    have named : WordName (emittedName inputs seen sec f) := by
      rw [emittedName]
      cases seen.lookup (renamed inputs f.name) with
      | none => exact word
      | some place =>
        by_cases same : place = (sec, f.vram)
        · simpa [same] using word
        · simpa [same] using suffixed_word _ _ word secWord
    intro g written
    rcases List.mem_cons.mp written with rfl | later
    · exact named
    · exact inductionHypothesis _ (fun h member => words h (List.mem_cons_of_mem f member)) g later

/-- Sections and functions of the written table are named by words. -/
theorem emitSections_words (inputs : Inputs) (seen : Seen) (sections : List Section)
    (secWords : ∀ sec ∈ sections, WordName sec.name)
    (words : ∀ sec ∈ sections, ∀ f ∈ listed inputs sec, WordName (renamed inputs f.name)) :
    WordNames (emitSections inputs seen sections) := by
  induction sections generalizing seen with
  | nil => simp [WordNames, emitSections]
  | cons sec rest inductionHypothesis =>
    have secWord := secWords sec List.mem_cons_self
    intro written member
    rcases List.mem_cons.mp member with rfl | later
    · exact ⟨secWord, emitFuncs_words inputs sec.name secWord seen _ (words sec List.mem_cons_self)⟩
    · exact inductionHypothesis _ (fun s inRest => secWords s (List.mem_cons_of_mem sec inRest))
        (fun s inRest => words s (List.mem_cons_of_mem sec inRest)) written later

/-- The table survives when, further, no section name ends in another's suffix and function names
are words. The proof follows the written lines one by one: each reader takes the lines of its
patterns and is blind to the rest, so that it walks the table as it was written. That names and
suffixes determine their functions is what the further premise is for. -/
theorem table_roundTrip (inputs : Inputs) (promised : Promised inputs)
    (plainSections : ∀ sec ∈ inputs.sections, ∀ other ∈ inputs.sections,
      ¬ ('_' :: sec.name) <:+ other.name)
    (funcWords : ∀ a ∈ places inputs, WordName (renamed inputs a.2.name)) : RoundTrip inputs := by
  have words : WordNames (main inputs) :=
    emitSections_words inputs [] inputs.sections promised.sectionWords
        (fun sec inSections f inListed =>
      funcWords (sec.name, f) (List.mem_flatMap.mpr
        ⟨sec, inSections, List.mem_map.mpr ⟨f, inListed, rfl⟩⟩))
  have names : secPositions (main inputs) = inputs.sections.map Section.name :=
    emitSections_names inputs [] inputs.sections
  exact {
    determined := fun a inA b inB => main_names_unique inputs
      ⟨promised.oneAddress, promised.plainNames, plainSections⟩ a b inA inB
    byPosition := by rw [readByPosition_eq, walk_written position_fits _ words]
    byLine := by rw [loadFuncs, walk_written loadFuncs_fits _ words]; rfl
    byKey := coverageRead_written _ words
    positions := by rw [namePositions_written _ words, names]
    indexed := by
      intro index sec here
      have position : (secPositions (main inputs))[index]? = some sec.name := by simp [names, here]
      refine ⟨secName2idx_own _ (names ▸ promised.distinct) index sec.name position, ?_⟩
      intro vram unlisted
      simp [sectionOf, unlisted, staticRe_staticName, position]
    ascending := emitSections_sorted inputs [] inputs.sections }

/-- Two overlays that share a name. -/
def sharedName : Inputs :=
  { sections := [⟨str "ovl_a", 0, 0x1000, 16,
    [⟨str "func_00001000", 0x1000, 8⟩, ⟨str "init", 0x1008, 8⟩]⟩,
      ⟨str "ovl_b", 0x100, 0x1000, 16, [⟨str "func_00001000", 0x1000, 16⟩]⟩]
    extra := [(str "ovl_b", ⟨str "tail", 0x100c, 4⟩)]
    skip := [], rename := [(str "init", str "ovl_init")] }

/-- A table of two overlays that share an address survives its readers. -/
theorem table_roundTrip_sharedName : RoundTrip sharedName :=
  table_roundTrip sharedName
    ⟨by decide, by decide +kernel, by decide +kernel, by decide +kernel⟩ (by decide +kernel)
    (by decide +kernel)

/-- Sections whose names end alike: the suffix of `x` on `foo_y` meets the suffix of
`y_x` on `foo`. -/
def suffixClash : Inputs :=
  { sections := [⟨str "p", 0, 0x1000, 16, [⟨str "foo", 0x1000, 8⟩, ⟨str "foo_y", 0x1008, 8⟩]⟩,
      ⟨str "y_x", 0x100, 0x2000, 16, [⟨str "foo", 0x2000, 16⟩]⟩,
      ⟨str "x", 0x200, 0x3000, 16, [⟨str "foo_y", 0x3000, 16⟩]⟩]
    extra := [], skip := [], rename := [] }

/-- A function name outside `\w+`. -/
def dottedName : Inputs :=
  { sections := [⟨str "p", 0, 0x1000, 16, [⟨str "foo.part", 0x1000, 16⟩]⟩]
    extra := [], skip := [], rename := [] }

/-- The promise alone is not enough: suffixed names meet, and readers that match
words miss the dotted name. -/
theorem table_roundTrip_fails :
    (Promised suffixClash ∧ ¬ RoundTrip suffixClash) ∧ Promised dottedName ∧
    ¬ RoundTrip dottedName := by
  refine ⟨⟨⟨by decide, by decide +kernel, by decide +kernel, by decide +kernel⟩, ?_⟩,
    ⟨by decide, by decide +kernel, by decide +kernel, by decide +kernel⟩, ?_⟩
  · intro survives
    have meet := survives.determined (str "y_x", ⟨str "foo_y_x", 0x2000, 16⟩) (by decide +kernel)
      (str "x", ⟨str "foo_y_x", 0x3000, 16⟩) (by decide +kernel) rfl
    exact absurd meet.2 (by decide)
  · intro survives
    have missed : readByPosition (tomlLines (main dottedName)) = [] := by decide +kernel
    have written := survives.byPosition
    rw [missed] at written
    exact absurd written (by decide +kernel)

end RoundTrip

end NoMercyRecomp.SymbolReaders
