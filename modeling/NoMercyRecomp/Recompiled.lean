import NoMercyRecomp.SymbolTable

/-!
# Generated files and their functions

N64Recomp writes C files of functions, each with its header and its closing `;}` on
lines of their own. The repair passes find a function by its header and take its
body up to the first line that starts with `;}`; text outside functions is copied.

The lines of a file here are those between line feeds, or for `fix_jraddend` those of
`str.splitlines`. Cutting a file into functions and text loses no line.
-/

namespace NoMercyRecomp.Recompiled

open TextScan

/-! ## Functions -/

/-- `RECOMP_FUNC void <name>(uint8_t* rdram, recomp_context* ctx) {` -/
def headerText (name : Line) : Line :=
  'R' :: (str "ECOMP_FUNC void " ++
    (name ++ '(' :: str "uint8_t* rdram, recomp_context* ctx) \x7b"))

/-- A function's header: its name and what follows the opening brace on the line. -/
def headerRe (line : Line) : Option (Line × Line) := do
  let rest ← lit ('R' :: str "ECOMP_FUNC void ") line
  let tail ← lit ('(' :: str "uint8_t* rdram, recomp_context* ctx) \x7b") (rest.dropWhile isWord)
  if rest.takeWhile isWord = [] then none else some (rest.takeWhile isWord, tail)

/-- `^;\}` -/
def isClose (line : Line) : Bool := (lit [';', '\x7d'] line).isSome

/-- A generated function: its name, what follows its opening brace on that line, the
further lines of its body and its closing line. -/
structure GenFunc where
  name : Line
  tail : Line
  body : List Line
  close : Line
deriving DecidableEq, Repr

/-- A function, or a line outside functions. -/
inductive Piece where
  | func (f : GenFunc)
  | text (line : Line)
deriving DecidableEq, Repr

def GenFunc.lines (f : GenFunc) : List Line :=
  (headerText f.name ++ f.tail) :: (f.body ++ [f.close])

def Piece.lines : Piece → List Line
  | .func f => f.lines
  | .text line => [line]

/-- The function of a piece, if it is one. -/
def Piece.func? : Piece → Option GenFunc
  | .func f => some f
  | .text _ => none

/-- The scan for functions: outside one, or inside with its name, tail and the lines
read so far. A header without a closing line is text. -/
def scan : Option (Line × Line × List Line) → List Line → List Piece
  | none, [] => []
  | some (name, tail, body), [] => .text (headerText name ++ tail) :: body.map .text
  | none, line :: rest =>
    match headerRe line with
    | some (name, tail) => scan (some (name, tail, [])) rest
    | none => .text line :: scan none rest
  | some (name, tail, body), line :: rest =>
    if isClose line then .func ⟨name, tail, body, line⟩ :: scan none rest
    else scan (some (name, tail, body ++ [line])) rest

/-- The functions and text of a file. -/
def pieces (lines : List Line) : List Piece := scan none lines

/-- The functions of a file. -/
def functions (lines : List Line) : List GenFunc := (pieces lines).filterMap Piece.func?

/-- A piece with its body rewritten. -/
def Piece.rewrite (body : GenFunc → List Line) : Piece → Piece
  | .func f => .func { f with body := body f }
  | .text line => .text line

/-- The file with every body rewritten. -/
def rewrite (body : GenFunc → List Line) (lines : List Line) : List Line :=
  (pieces lines).flatMap (fun piece => (piece.rewrite body).lines)

/-- A piece with its function changed. -/
def Piece.change (change : GenFunc → GenFunc) : Piece → Piece
  | .func f => .func (change f)
  | .text line => .text line

/-- The file with every function changed. -/
def changeFuncs (change : GenFunc → GenFunc) (lines : List Line) : List Line :=
  (pieces lines).flatMap (fun piece => (piece.change change).lines)

/-- A header line is its text and its tail: the name is the longest run of word characters, and
the parameters behind it are fixed. -/
theorem headerRe_text (line name tail : Line) (found : headerRe line = some (name, tail)) :
    line = headerText name ++ tail := by
  simp only [headerRe, Option.bind_eq_bind, Option.bind_eq_some_iff] at found
  obtain ⟨rest, opened, ending, closed, kept⟩ := found
  split at kept
  · simp at kept
  · obtain ⟨rfl, rfl⟩ : rest.takeWhile isWord = name ∧ ending = tail := by simpa using kept
    have start := (lit_eq_some _ _ _).mp opened
    have middle := (lit_eq_some _ _ _).mp closed
    calc line = 'R' :: str "ECOMP_FUNC void " ++
        (rest.takeWhile isWord ++ rest.dropWhile isWord) := by
          rw [start, List.takeWhile_append_dropWhile]
      _ = headerText (rest.takeWhile isWord) ++ ending := by
          rw [middle]
          simp [headerText]

/-- The lines held by an open function. -/
def openLines : Option (Line × Line × List Line) → List Line
  | none => []
  | some (name, tail, body) => (headerText name ++ tail) :: body

/-- Cutting a file into pieces loses no line. The induction carries the lines of the function that
is open so far, which are handed over when it is closed, or at the end of the file. -/
theorem scan_lines (state : Option (Line × Line × List Line)) (lines : List Line) :
    (scan state lines).flatMap Piece.lines = openLines state ++ lines := by
  induction lines generalizing state with
  | nil =>
    cases state with
    | none => rfl
    | some opened =>
      obtain ⟨name, tail, body⟩ := opened
      have texts : (body.map Piece.text).flatMap Piece.lines = body := by
        induction body with
        | nil => rfl
        | cons line body inductionHypothesis => simpa [Piece.lines] using inductionHypothesis
      simp [scan, openLines, Piece.lines, texts]
  | cons line rest inductionHypothesis =>
    cases state with
    | none =>
      cases found : headerRe line with
      | none => simp [scan, found, openLines, Piece.lines, inductionHypothesis none]
      | some named =>
        obtain ⟨name, tail⟩ := named
        have opened : scan none (line :: rest) = scan (some (name, tail, [])) rest := by
          simp [scan, found]
        rw [opened, inductionHypothesis, headerRe_text line name tail found]
        rfl
    | some opened =>
      obtain ⟨name, tail, body⟩ := opened
      by_cases closed : isClose line = true
      · simp [scan, closed, openLines, Piece.lines, GenFunc.lines, inductionHypothesis none]
      · simp [scan, closed, openLines, inductionHypothesis]

/-- The pieces of a file hold its lines. -/
theorem pieces_lines (lines : List Line) : (pieces lines).flatMap Piece.lines = lines := by
  simpa [pieces, openLines] using scan_lines none lines

/-- A body without closing lines is read up to the close that follows it. -/
theorem scan_body (name tail : Line) (before body : List Line) (close : Line) (rest : List Line)
    (inside : ∀ line ∈ body, isClose line = false) (closes : isClose close = true) :
    scan (some (name, tail, before)) (body ++ close :: rest) =
      .func ⟨name, tail, before ++ body, close⟩ :: scan none rest := by
  induction body generalizing before with
  | nil => simp [scan, closes]
  | cons line body inductionHypothesis =>
    have plain := inside line List.mem_cons_self
    have later := inductionHypothesis (before ++ [line])
      (fun other member => inside other (List.mem_cons_of_mem line member))
    simp [scan, plain, later]

/-- Lines without a closing line leave an open function open, so it stays text. -/
theorem scan_unclosed (name tail : Line) (before body : List Line)
    (inside : ∀ line ∈ body, isClose line = false) :
    scan (some (name, tail, before)) body =
      .text (headerText name ++ tail) :: (before ++ body).map .text := by
  induction body generalizing before with
  | nil => simp [scan]
  | cons line body inductionHypothesis =>
    have plain := inside line List.mem_cons_self
    have later := inductionHypothesis (before ++ [line])
      (fun other member => inside other (List.mem_cons_of_mem line member))
    simp [scan, plain, later]

/-- A file is read up to its first closing line, or has none. -/
theorem first_close (lines : List Line) : (∀ line ∈ lines, isClose line = false) ∨
    ∃ body close rest, lines = body ++ close :: rest ∧ (∀ line ∈ body, isClose line = false) ∧
      isClose close = true := by
  induction lines with
  | nil => exact Or.inl (by simp)
  | cons line lines inductionHypothesis =>
    cases closes : isClose line with
    | true => exact Or.inr ⟨[], line, lines, rfl, by simp, closes⟩
    | false =>
      rcases inductionHypothesis with plain | ⟨body, close, rest, rfl, inside, isClosed⟩
      · exact Or.inl (by simpa [closes] using plain)
      · exact Or.inr ⟨line :: body, close, rest, rfl, by simpa [closes] using inside, isClosed⟩

/-- A header is read as the function's name and the rest of the line. A word ends before
the parenthesis, so the name is taken whole. -/
theorem headerRe_header (name tail : Line) (word : name ≠ [] ∧ ∀ c ∈ name, isWord c = true) :
    headerRe (headerText name ++ tail) = some (name, tail) := by
  have line : headerText name ++ tail =
      'R' :: (str "ECOMP_FUNC void " ++ (name ++
        '(' :: (str "uint8_t* rdram, recomp_context* ctx) \x7b" ++ tail))) := by simp [headerText]
  have isName : ∀ rest, (name ++ '(' :: rest).takeWhile isWord = name := fun rest =>
    takeWhile_run isWord name rest '(' word.2 (by decide)
  have behind : ∀ rest, (name ++ '(' :: rest).dropWhile isWord = '(' :: rest := fun rest =>
    dropWhile_run isWord name rest '(' word.2 (by decide)
  rw [line, headerRe]
  simp only [lit_cons_append, Option.bind_eq_bind, Option.bind_some, isName, behind]
  rw [if_neg word.1]

/-- A header that is read names a nonempty word. -/
theorem headerRe_word (line name tail : Line) (found : headerRe line = some (name, tail)) :
    name ≠ [] ∧ ∀ c ∈ name, isWord c = true := by
  simp only [headerRe, Option.bind_eq_bind, Option.bind_eq_some_iff] at found
  obtain ⟨rest, _, _, _, kept⟩ := found
  split at kept
  · simp at kept
  · rename_i nonempty
    obtain ⟨rfl, _⟩ : rest.takeWhile isWord = name ∧ _ = tail := by simpa using kept
    exact ⟨nonempty, fun c member => List.mem_takeWhile_imp member⟩

/-- What a change keeps of a function so that a reader of the changed file finds the changed
function: its name, its closing line, and a body in which no line closes it. -/
structure Keeps (change : GenFunc → GenFunc) (f : GenFunc) : Prop where
  name : (change f).name = f.name
  close : (change f).close = f.close
  inside : ∀ line ∈ (change f).body, isClose line = false

/-- The changed file has the same pieces with their functions changed, when every change
keeps what a reader goes by. The induction is on the number of lines: a header takes all
lines up to its closing line at once. -/
theorem pieces_change (change : GenFunc → GenFunc) (lines : List Line)
    (kept : ∀ f ∈ functions lines, Keeps change f) :
    pieces (changeFuncs change lines) = (pieces lines).map (Piece.change change) := by
  induction length : lines.length using Nat.strong_induction_on generalizing lines with
  | _ size inductionHypothesis =>
    cases lines with
    | nil => rfl
    | cons line rest =>
      cases found : headerRe line with
      | none =>
        have cutHere : pieces (line :: rest) = .text line :: pieces rest := by
          simp [pieces, scan, found]
        have later := inductionHypothesis rest.length (by simp [← length]) rest
          (fun f member => kept f (by simpa [functions, cutHere, Piece.func?] using member)) rfl
        rw [changeFuncs, cutHere, List.flatMap_cons, ← changeFuncs]
        simpa [pieces, scan, found, Piece.change, Piece.lines] using later
      | some named =>
        obtain ⟨name, tail⟩ := named
        have text := headerRe_text line name tail found
        rcases first_close rest with plain | ⟨inner, close, after, rfl, inside, closes⟩
        · have cutHere : pieces (line :: rest) = (line :: rest).map .text := by
            have unclosed := scan_unclosed name tail [] rest plain
            simp only [pieces, scan, found, unclosed, ← text]
            rfl
          have same : changeFuncs change (line :: rest) = line :: rest := by
            rw [changeFuncs, cutHere, List.flatMap_map]
            exact List.flatMap_singleton' _
          rw [same, cutHere, List.map_map]
          rfl
        · have cutHere : pieces (line :: (inner ++ close :: after)) =
              .func ⟨name, tail, inner, close⟩ :: pieces after := by
            have closed := scan_body name tail [] inner close after inside closes
            simp only [pieces, scan, found, closed, List.nil_append]
          have later := inductionHypothesis after.length (by simp [← length]; omega) after
            (fun f member => kept f (by
              rw [functions, cutHere]
              exact List.mem_cons_of_mem _ member)) rfl
          have keeps := kept ⟨name, tail, inner, close⟩ (by simp [functions, cutHere, Piece.func?])
          generalize changed : change ⟨name, tail, inner, close⟩ = g at keeps
          have closed := scan_body g.name g.tail [] g.body g.close (changeFuncs change after)
            (changed ▸ keeps.inside) (by rw [← changed, keeps.close]; exact closes)
          have header : headerRe (headerText g.name ++ g.tail) = some (g.name, g.tail) :=
            headerRe_header g.name g.tail (by
              rw [← changed, keeps.name]
              exact headerRe_word line name tail found)
          rw [changeFuncs, cutHere, List.flatMap_cons, ← changeFuncs]
          simp only [Piece.change, changed, Piece.lines, GenFunc.lines, List.cons_append,
            List.append_assoc, List.nil_append, List.map_cons]
          rw [pieces, scan, header, ← later]
          exact closed

/-- The functions of the changed file are those of the original, changed. -/
theorem functions_change (change : GenFunc → GenFunc) (lines : List Line)
    (kept : ∀ f ∈ functions lines, Keeps change f) :
    functions (changeFuncs change lines) = (functions lines).map change := by
  rw [functions, pieces_change change lines kept, functions, List.filterMap_map,
    List.map_filterMap]
  refine List.filterMap_congr (fun piece _ => ?_)
  cases piece <;> rfl

/-- A function with another body. -/
def GenFunc.withBody (body : GenFunc → List Line) (f : GenFunc) : GenFunc :=
  { f with body := body f }

/-- Rewriting bodies is changing functions in nothing but their bodies. -/
theorem rewrite_change (body : GenFunc → List Line) (lines : List Line) :
    rewrite body lines = changeFuncs (GenFunc.withBody body) lines := by
  refine List.flatMap_congr (fun piece _ => ?_)
  cases piece <;> rfl

/-- The functions of the rewritten file are those of the original, rewritten. -/
theorem functions_rewrite (body : GenFunc → List Line) (lines : List Line)
    (kept : ∀ f ∈ functions lines, ∀ line ∈ body f, isClose line = false) :
    functions (rewrite body lines) = (functions lines).map
      (fun f => { f with body := body f }) := by
  have keeps (f : GenFunc) (member : f ∈ functions lines) : Keeps (GenFunc.withBody body) f :=
    ⟨rfl, rfl, kept f member⟩
  rw [rewrite_change, functions_change _ lines keeps]
  rfl

/-- What holds of a function when its header is read, and is kept by every further line of
its body, holds of the functions of a file. -/
theorem functions_induction (holds : Line → Line → List Line → Prop)
    (opens : ∀ line name tail, headerRe line = some (name, tail) → holds name tail [])
    (grows : ∀ name tail body line, holds name tail body → isClose line = false →
      holds name tail (body ++ [line]))
    (lines : List Line) (f : GenFunc) (member : f ∈ functions lines) :
    holds f.name f.tail f.body := by
  have scanned (state : Option (Line × Line × List Line)) (lines : List Line)
      (opened : ∀ name tail body, state = some (name, tail, body) → holds name tail body) :
      ∀ piece ∈ scan state lines, ∀ g, piece.func? = some g → holds g.name g.tail g.body := by
    induction lines generalizing state with
    | nil =>
      intro piece among g isFunc
      cases state with
      | none => simp [scan] at among
      | some named =>
        obtain ⟨name, tail, body⟩ := named
        simp only [scan, List.mem_cons, List.mem_map] at among
        obtain rfl | ⟨line, _, rfl⟩ := among
        · simp [Piece.func?] at isFunc
        · simp [Piece.func?] at isFunc
    | cons line rest inductionHypothesis =>
      intro piece among g isFunc
      cases state with
      | none =>
        cases found : headerRe line with
        | none =>
          simp only [scan, found, List.mem_cons] at among
          obtain rfl | later := among
          · simp [Piece.func?] at isFunc
          · exact inductionHypothesis none (by simp) piece later g isFunc
        | some named =>
          simp only [scan, found] at among
          refine inductionHypothesis _ ?_ piece among g isFunc
          rintro name tail body same
          obtain ⟨rfl, rfl, rfl⟩ : named.1 = name ∧ named.2 = tail ∧ [] = body := by
            simpa using same
          exact opens line _ _ found
      | some named =>
        obtain ⟨name, tail, body⟩ := named
        have inside := opened name tail body rfl
        by_cases closed : isClose line = true
        · simp only [scan, closed, if_true, List.mem_cons] at among
          obtain rfl | later := among
          · obtain rfl : _ = g := by simpa [Piece.func?] using isFunc
            exact inside
          · exact inductionHypothesis none (by simp) piece later g isFunc
        · simp only [scan, closed] at among
          refine inductionHypothesis _ ?_ piece among g isFunc
          intro name' tail' body' same
          obtain ⟨rfl, rfl, rfl⟩ : name = name' ∧ tail = tail' ∧ body ++ [line] = body' := by
            simpa using same
          exact grows name tail body line inside (by simpa using closed)
  obtain ⟨piece, among, isFunc⟩ := List.mem_filterMap.mp member
  exact scanned none lines (by simp) piece among f isFunc

/-- No line of a body closes the function. -/
theorem functions_open (lines : List Line) (f : GenFunc) (member : f ∈ functions lines) :
    ∀ line ∈ f.body, isClose line = false := by
  apply functions_induction (fun _ _ body => ∀ line ∈ body, isClose line = false) _ _ lines f member
  · intro line name tail _
    simp
  · intro name tail body line inside closed other inBody
    rcases List.mem_append.mp inBody with earlier | last
    · exact inside other earlier
    · rwa [List.mem_singleton.mp last]

/-- A function's name is a nonempty word. -/
theorem functions_word (lines : List Line) (f : GenFunc) (member : f ∈ functions lines) :
    f.name ≠ [] ∧ ∀ c ∈ f.name, isWord c = true := by
  apply functions_induction (fun name _ _ => name ≠ [] ∧
    ∀ c ∈ name, isWord c = true) _ _ lines f member
  · exact headerRe_word
  · intro name tail body line word _
    exact word

/-- Only the bodies of the file's own functions matter. -/
theorem rewrite_congr (body other : GenFunc → List Line) (lines : List Line)
    (same : ∀ f ∈ functions lines, body f = other f) :
    rewrite body lines = rewrite other lines := by
  refine List.flatMap_congr (fun piece among => ?_)
  cases piece with
  | func f => simp [Piece.rewrite, same f (List.mem_filterMap.mpr ⟨.func f, among, rfl⟩)]
  | text line => rfl

/-! ## Written trees -/

/-- A function of a file and the one that stands in its place in another: the pieces of the
same number. -/
def InFile (file after : List Line) (f g : GenFunc) : Prop :=
  ∃ k : Nat, (pieces file)[k]? = some (Piece.func f) ∧ (pieces after)[k]? = some (Piece.func g)

/-- A function of a tree and the one in its place in the tree that a pass writes: in the
file of the same number, the piece of the same number. -/
def InPlace (files written : List (List Line)) (f g : GenFunc) : Prop :=
  ∃ (n : Nat) (file after : List Line),
    files[n]? = some file ∧ written[n]? = some after ∧ InFile file after f g

/-- The functions of a file are its pieces that are no text. -/
theorem mem_functions (file : List Line) (f : GenFunc) :
    f ∈ functions file ↔ .func f ∈ pieces file := by
  rw [functions, List.mem_filterMap]
  constructor
  · rintro ⟨piece, among, isFunc⟩
    cases piece with
    | func g =>
      obtain rfl := Option.some.inj isFunc
      exact among
    | text line => cases isFunc
  · exact fun among => ⟨.func f, among, rfl⟩

/-- In a changed file, the changed function stands in the place of each function, and in no
other. -/
theorem inFile_change (change : GenFunc → GenFunc) (file : List Line)
    (kept : ∀ f ∈ functions file, Keeps change f) (f g : GenFunc) :
    InFile file (changeFuncs change file) f g ↔ f ∈ functions file ∧ g = change f := by
  rw [InFile, pieces_change change file kept, mem_functions]
  constructor
  · rintro ⟨k, here, there⟩
    rw [List.getElem?_map, here] at there
    have same : Piece.func (change f) = .func g := Option.some.inj there
    exact ⟨List.mem_of_getElem? here, (Piece.func.inj same).symm⟩
  · rintro ⟨among, rfl⟩
    obtain ⟨k, here⟩ := List.getElem?_of_mem among
    refine ⟨k, here, ?_⟩
    rw [List.getElem?_map, here]
    rfl

/-- In the tree that a pass writes by changing every function, the changed function stands
in the place of each. -/
theorem inPlace_change (change : GenFunc → GenFunc) (files : List (List Line))
    (kept : ∀ file ∈ files, ∀ f ∈ functions file, Keeps change f) (f g : GenFunc) :
    InPlace files (files.map (changeFuncs change)) f g ↔
      (∃ file ∈ files, f ∈ functions file) ∧ g = change f := by
  constructor
  · rintro ⟨n, file, after, read, wrote, inFile⟩
    have among := List.mem_of_getElem? read
    rw [List.getElem?_map, read] at wrote
    obtain rfl : changeFuncs change file = after := Option.some.inj wrote
    obtain ⟨isFunc, changed⟩ := (inFile_change change file (kept file among) f g).mp inFile
    exact ⟨⟨file, among, isFunc⟩, changed⟩
  · rintro ⟨⟨file, among, isFunc⟩, changed⟩
    obtain ⟨n, read⟩ := List.getElem?_of_mem among
    refine ⟨n, file, _, read, ?_,
      (inFile_change change file (kept file among) f g).mpr ⟨isFunc, changed⟩⟩
    rw [List.getElem?_map, read]
    rfl

/-! ## Decoded addresses -/

/-- `// (0x[0-9A-F]{8}):` at a position. -/
def addrRe (text : Line) : Option Nat := do
  let digits ← lit ('/' :: str "/ 0x") text
  let _ ← lit [':'] (digits.drop 8)
  if (digits.take 8).length = 8 ∧
    (digits.take 8).all isUpperHex then some (value 16 (digits.take 8)) else none

/-- An address is found only at its first slash. -/
theorem addrRe_startsWith : StartsWith addrRe '/' := by
  intro c rest different
  simp [addrRe, lit, Ne.symm different]

/-! ## Line breaks -/

/-- The characters at which `str.splitlines` ends a line. -/
def isBreak (c : Char) : Bool :=
  c == '\n' || c == '\r' || c == '\x0b' || c == '\x0c' || c == '\x1c' || c == '\x1d' ||
    c == '\x1e' ||
    c == '\u0085' || c == '\u2028' || c == '\u2029'

/-- Put a character in front of the first line. -/
def consFirst (c : Char) : List Line → List Line
  | [] => [[c]]
  | line :: rest => (c :: line) :: rest

/-- `str.splitlines()`; the flag says that the last character was a carriage return. -/
def splitAfter : Bool → Line → List Line
  | _, [] => []
  | afterReturn, c :: rest =>
    if c = '\n' ∧ afterReturn = true then splitAfter false rest
    else if isBreak c then [] :: splitAfter (c == '\r') rest
    else consFirst c (splitAfter false rest)

def splitlines (src : Line) : List Line := splitAfter false src

/-- `nl.join(lines) + nl`. -/
def joined (nl : Line) (lines : List Line) : Line := lines.flatMap (· ++ nl)

/-- The line ending that `fix_jraddend` writes back. -/
def newline (src : Line) : Line := if occurs ['\r', '\n'] src then ['\r', '\n'] else ['\n']

/-- A line without breaks. -/
def Unbroken (line : Line) : Prop := ∀ c ∈ line, isBreak c = false

instance (line : Line) : Decidable (Unbroken line) :=
  decidable_of_iff (line.all (fun c => !isBreak c) = true) (by simp [Unbroken])

/-- Lines of a split contain no break: a line ends at the first break, and the line feed behind a
carriage return is passed over with it. -/
theorem splitAfter_unbroken (afterReturn : Bool) (src : Line) :
    ∀ line ∈ splitAfter afterReturn src, Unbroken line := by
  induction src generalizing afterReturn with
  | nil => simp [splitAfter]
  | cons c rest inductionHypothesis =>
    rw [splitAfter]
    split
    · exact inductionHypothesis false
    · split
      · intro line member
        rcases List.mem_cons.mp member with rfl | later
        · simp [Unbroken]
        · exact inductionHypothesis _ line later
      · next solid =>
        have plain : isBreak c = false := by simpa using solid
        cases shape : splitAfter false rest with
        | nil => simp [consFirst, Unbroken, plain]
        | cons first more =>
          have later := inductionHypothesis false
          rw [shape] at later
          intro line member
          rcases List.mem_cons.mp member with rfl | among
          · intro d inLine
            rcases List.mem_cons.mp inLine with rfl | inFirst
            · exact plain
            · exact later first List.mem_cons_self d inFirst
          · exact later line (List.mem_cons_of_mem first among)

/-- A line that was split off holds no line break. -/
theorem splitlines_unbroken (src : Line) : ∀ line ∈ splitlines src, Unbroken line :=
  splitAfter_unbroken false src

/-- Text without breaks is one line up to the break that ends it. -/
theorem splitAfter_run (line rest : Line) (unbroken : Unbroken line) (ending : Char)
    (breaks : isBreak ending = true) :
    splitAfter false (line ++ ending :: rest) = line :: splitAfter (ending == '\r') rest := by
  induction line with
  | nil => simp [splitAfter, breaks]
  | cons c line inductionHypothesis =>
    have plain : isBreak c = false := unbroken c List.mem_cons_self
    rw [List.cons_append, splitAfter, if_neg (by simp), if_neg (by simp [plain]),
      inductionHypothesis (fun d member => unbroken d (List.mem_cons_of_mem c member))]
    rfl

/-- Splitting what was joined gives the lines back, with either line ending. The carriage return
ends the line and the line feed behind it is passed over, so that no empty line comes between. -/
theorem splitlines_joined (src : Line) (lines : List Line)
    (unbroken : ∀ line ∈ lines, Unbroken line) :
    splitlines (joined (newline src) lines) = lines := by
  have feed (rest : Line) : splitAfter true ('\n' :: rest) = splitAfter false rest := by
    simp [splitAfter]
  induction lines with
  | nil => rfl
  | cons line lines inductionHypothesis =>
    have whole := unbroken line List.mem_cons_self
    have later :=
      inductionHypothesis (fun other member => unbroken other (List.mem_cons_of_mem line member))
    rw [splitlines] at later ⊢
    rw [joined, List.flatMap_cons, ← joined]
    cases carriage : occurs ['\r', '\n'] src with
    | true =>
      simp only [newline, carriage, if_true, List.append_assoc, List.cons_append,
        List.nil_append] at later ⊢
      rw [splitAfter_run line _ whole '\r' (by decide), show ('\r' == '\r') = true from rfl, feed,
        later]
    | false =>
      simp only [newline, carriage, Bool.false_eq_true, if_false, List.append_assoc,
        List.cons_append, List.nil_append] at later ⊢
      rw [splitAfter_run line _ whole '\n' (by decide), show ('\n' == '\r') = false from rfl, later]

end NoMercyRecomp.Recompiled
