import NoMercyRecomp.HandEdits

/-!
# Generated files under edits

A generated file is text outside functions, the `#include` lines among it, and functions of
distinct names, each from its header to a line `;}` of its own. What an edit finds in such a
file by scanning its lines is the function of that name; an edit of the function's range is
an edit of its body, and lines that are added behind the includes lie outside functions.

The functions that a reader finds in the edited file are therefore the functions of the
original with one body changed.
-/

namespace NoMercyRecomp.GeneratedFile

open TextScan Recompiled HandEdits

/-! ## The shape of a file -/

/-- The start of every header line. -/
def head : Line := 'R' :: str "ECOMP_FUNC void "

/-- A line that can stand inside a function: it opens none, closes none and includes no
file. -/
def plain (line : Line) : Bool :=
  !startsWith head line && !isClose line && !startsWith (str "#include") line

/-- A function as N64Recomp writes it, or a line that opens none. -/
def Shaped : Piece → Prop
  | .text line => startsWith head line = false
  | .func f =>
    (f.name ≠ [] ∧ ∀ c ∈ f.name, isWord c = true) ∧ (∀ line ∈ f.body, plain line = true) ∧
      chomp f.close = [';', '\x7d']

instance : DecidablePred Shaped
  | .text line => inferInstanceAs (Decidable (startsWith head line = false))
  | .func f =>
    decidable_of_iff ((f.name ≠ [] ∧ f.name.all isWord = true) ∧ f.body.all plain = true ∧
      chomp f.close = [';', '\x7d']) (by simp only [Shaped, List.all_eq_true])

/-- The lines of the pieces. -/
def render (file : List Piece) : List Line := file.flatMap Piece.lines

/-- The functions of the pieces. -/
def funcs (file : List Piece) : List GenFunc := file.filterMap Piece.func?

/-- A generated file. -/
structure Generated (file : List Piece) : Prop where
  shaped : ∀ piece ∈ file, Shaped piece
  names : ((funcs file).map GenFunc.name).Nodup

instance : DecidablePred Generated := fun file =>
  decidable_of_iff ((∀ piece ∈ file, Shaped piece) ∧ ((funcs file).map GenFunc.name).Nodup)
    ⟨fun both => ⟨both.1, both.2⟩, fun generated => ⟨generated.shaped, generated.names⟩⟩

/-- An empty file has no lines. -/
@[simp] theorem render_nil : render [] = [] := rfl

/-- The lines of a file are those of its first piece and of the others. -/
@[simp] theorem render_cons (piece : Piece) (file : List Piece) :
    render (piece :: file) = piece.lines ++ render file :=
  List.flatMap_cons

/-- The lines of two files in one. -/
@[simp] theorem render_append (front back : List Piece) :
    render (front ++ back) = render front ++ render back :=
  List.flatMap_append

/-- The functions of two files in one. -/
theorem funcs_append (front back : List Piece) :
    funcs (front ++ back) = funcs front ++ funcs back :=
  List.filterMap_append

/-- A function is the first of its file's. -/
theorem funcs_func (f : GenFunc) (file : List Piece) : funcs (.func f :: file) = f :: funcs file :=
  rfl

/-- A function of a file is one of its pieces. -/
theorem mem_funcs (f : GenFunc) (file : List Piece) : f ∈ funcs file ↔ Piece.func f ∈ file := by
  simp only [funcs, List.mem_filterMap]
  constructor
  · rintro ⟨piece, member, isFunc⟩
    cases piece with
    | func g =>
      obtain rfl : g = f := by simpa [Piece.func?] using isFunc
      exact member
    | text line => simp [Piece.func?] at isFunc
  · intro member
    exact ⟨.func f, member, rfl⟩

/-- What a line starts with after removing its end, it starts with. -/
theorem chomp_prefix (line : Line) : chomp line <+: line := List.rdropWhile_prefix _ _

/-- A line starts with a text when the text is a prefix of it. -/
theorem startsWith_iff (text line : Line) : startsWith text line = true ↔ text <+: line := by
  rw [startsWith, Option.isSome_iff_exists]
  constructor
  · rintro ⟨rest, found⟩
    exact ⟨rest, ((lit_eq_some text line rest).mp found).symm⟩
  · rintro ⟨rest, rfl⟩
    exact ⟨rest, lit_append text rest⟩

/-- A line whose text is given starts with the first character of it. -/
theorem chomp_head (line : Line) (first : Char) (rest : Line) (text : chomp line = first :: rest) :
    line.head? = some first := by
  obtain ⟨tail, rfl⟩ := text ▸ chomp_prefix line
  rfl

/-- The line that ends a function closes it. -/
theorem close_isClose (line : Line) (text : chomp line = [';', '\x7d']) : isClose line = true :=
  (startsWith_iff [';', '\x7d'] line).mpr (text ▸ chomp_prefix line)

/-- The functions and text that are read from a file are its pieces. By induction on the pieces: a
header starts a function, and the first closing line ends it. -/
theorem pieces_render (file : List Piece) (shaped : ∀ piece ∈ file, Shaped piece) :
    pieces (render file) = file := by
  induction file with
  | nil => rfl
  | cons piece file inductionHypothesis =>
    have later :=
      inductionHypothesis (fun other member => shaped other (List.mem_cons_of_mem piece member))
    have here := shaped piece List.mem_cons_self
    rw [pieces] at later ⊢
    cases piece with
    | text line =>
      have noHead : lit ('R' :: str "ECOMP_FUNC void ") line = none :=
        Option.isNone_iff_eq_none.mp (Option.isSome_eq_false_iff.mp here)
      have noHeader : headerRe line = none := by simp [headerRe, noHead]
      simp [Piece.lines, scan, noHeader, later]
    | func f =>
      obtain ⟨word, inside, closing⟩ := here
      have opened : ∀ line ∈ f.body, isClose line = false := fun line member => by
        have isPlain := inside line member
        simp only [plain, Bool.and_eq_true, Bool.not_eq_true'] at isPlain
        exact isPlain.1.2
      have body := scan_body f.name f.tail [] f.body f.close (render file) opened
        (close_isClose f.close closing)
      simp only [render_cons, Piece.lines, GenFunc.lines, List.cons_append, scan,
        headerRe_header f.name f.tail word, List.append_assoc, List.nil_append, body, later]

/-- A reader finds the functions of a file of shaped pieces: no other line opens one, and no line
of a body closes it early. -/
theorem functions_render (file : List Piece) (shaped : ∀ piece ∈ file, Shaped piece) :
    functions (render file) = funcs file := by
  rw [functions, pieces_render file shaped, funcs]

/-! ## Finding a function -/

/-- Splitting at the first element outside a class. -/
theorem span_run {α : Type} (class? : α → Bool) (inside : List α) (next : α) (rest : List α)
    (within : ∀ x ∈ inside, class? x = true) (outside : class? next = false) :
    (inside ++ next :: rest).span class? = (inside, next :: rest) := by
  rw [List.span_eq_takeWhile_dropWhile, List.takeWhile_append_of_pos within,
    List.dropWhile_append_of_pos within]
  simp [outside]

/-- The header line of a function. -/
def header (f : GenFunc) : Line := headerText f.name ++ f.tail

/-- A header has the signature of its own name only. -/
theorem signature_header (func : Line) (f : GenFunc) (plainName : '(' ∉ func)
    (word : ∀ c ∈ f.name, isWord c = true) :
    startsWith (signature func) (header f) = true ↔ f.name = func := by
  have solid : '(' ∉ f.name := fun member => absurd (word '(' member) (by decide)
  have shape : lit (signature func) (header f) =
      lit (func ++ '(' :: [])
        (f.name ++ '(' :: (str "uint8_t* rdram, recomp_context* ctx) \x7b" ++ f.tail)) := by
    simp [signature, header, headerText, str, lit]
  rw [startsWith, shape, lit_until '(' func [] f.name _ plainName solid]
  by_cases same : f.name = func <;> simp [same, lit]

/-- A line that opens no function has no signature. -/
theorem signature_plain (func line : Line) (opens : startsWith head line = false) :
    startsWith (signature func) line = false := by
  cases found : startsWith (signature func) line with
  | false => rfl
  | true =>
    have front : head <+: signature func := ⟨func ++ ['('], by simp [head, signature]⟩
    have starts := (startsWith_iff head line).mpr (front.trans ((startsWith_iff _ line).mp found))
    simp [opens] at starts

/-- A line with another first character than a header opens no function. -/
theorem head_other (line : Line) (first : Char) (starts : line.head? = some first)
    (different : first ≠ 'R') :
    startsWith head line = false := by
  cases line with
  | nil => rfl
  | cons c line =>
    obtain rfl : c = first := by simpa using starts
    simp [startsWith, head, lit, Ne.symm different]

/-- The lines of a piece that is not the function have no signature of it. A signature ends in a
bracket, so it is not the start of a longer name's. -/
theorem signature_other (func : Line) (plainName : '(' ∉ func) (piece : Piece)
    (shaped : Shaped piece) (other : ∀ f, piece = .func f → f.name ≠ func) :
    ∀ line ∈ piece.lines, startsWith (signature func) line = false := by
  intro line member
  cases piece with
  | text text =>
    obtain rfl : line = text := by simpa [Piece.lines] using member
    exact signature_plain func line shaped
  | func f =>
    obtain ⟨word, inside, closing⟩ := shaped
    have cases : line = header f ∨ line ∈ f.body ∨ line = f.close := by
      simpa [Piece.lines, GenFunc.lines, header] using member
    rcases cases with rfl | inBody | rfl
    · have different := other f rfl
      exact Bool.eq_false_iff.mpr
        (fun found => different ((signature_header func f plainName word.2).mp found))
    · have isPlain := inside line inBody
      simp only [plain, Bool.and_eq_true, Bool.not_eq_true'] at isPlain
      exact signature_plain func line isPlain.1.1
    · exact signature_plain func _ (head_other _ ';' (chomp_head _ _ _ closing) (by decide))

/-- The range of a function is its header and body: no earlier line has its signature, and its
closing line is the first behind the header. -/
theorem bodyRange_found (func : Line) (plainName : '(' ∉ func) (front back : List Piece)
    (f : GenFunc) (shaped : ∀ piece ∈ front ++ .func f :: back, Shaped piece)
    (named : f.name = func) (first : ∀ g ∈ funcs front, g.name ≠ func) :
    bodyRange func (render (front ++ .func f :: back)) =
      some (render front, header f :: f.body, f.close :: render back) := by
  obtain ⟨word, inside, closing⟩ := shaped (.func f) (by simp)
  have before : ∀ line ∈ render front, (!startsWith (signature func) line) = true := by
    intro line member
    obtain ⟨piece, inFront, inPiece⟩ := List.mem_flatMap.mp member
    rw [Bool.not_eq_true']
    refine signature_other func plainName piece
      (shaped piece (List.mem_append_left _ inFront)) ?_ line inPiece
    rintro g rfl
    exact first g ((mem_funcs g front).mpr inFront)
  have atHeader : (!startsWith (signature func) (header f)) = false := by
    rw [(signature_header func f plainName word.2).mpr named]
    rfl
  have body : ∀ line ∈ f.body, (chomp line != [';', '\x7d']) = true := by
    intro line member
    have isPlain := inside line member
    simp only [plain, Bool.and_eq_true, Bool.not_eq_true'] at isPlain
    rw [bne_iff_ne]
    intro closes
    simp [close_isClose line closes] at isPlain
  have lines : render (front ++ .func f :: back) =
      render front ++ header f :: (f.body ++ f.close :: render back) := by
    simp [Piece.lines, GenFunc.lines, header]
  rw [bodyRange, lines, span_run _ _ _ _ before atHeader]
  dsimp only
  rw [span_run _ _ _ _ body (by simp [closing])]

/-- A file without a function of the name has no range for it. -/
theorem bodyRange_missing (func : Line) (plainName : '(' ∉ func) (file : List Piece)
    (shaped : ∀ piece ∈ file, Shaped piece) (absent : ∀ g ∈ funcs file, g.name ≠ func) :
    bodyRange func (render file) = none := by
  have before : ∀ line ∈ render file, (!startsWith (signature func) line) = true := by
    intro line member
    obtain ⟨piece, inFile, inPiece⟩ := List.mem_flatMap.mp member
    rw [Bool.not_eq_true']
    refine signature_other func plainName piece (shaped piece inFile) ?_ line inPiece
    rintro g rfl
    exact absent g ((mem_funcs g file).mpr inFile)
  have none : (render file).dropWhile (fun line => !startsWith (signature func) line) = [] :=
    List.dropWhile_eq_nil_iff.mpr before
  rw [bodyRange, List.span_eq_takeWhile_dropWhile, none]

/-! ## Editing a function -/

/-- Functions before a function of a generated file have other names. -/
theorem Generated.others {front back : List Piece} {f : GenFunc}
    (generated : Generated (front ++ .func f :: back)) :
    (∀ g ∈ funcs front, g.name ≠ f.name) ∧ ∀ g ∈ funcs back, g.name ≠ f.name := by
  have names := generated.names
  rw [funcs_append, funcs_func, List.map_append, List.map_cons, List.nodup_append] at names
  obtain ⟨_, inBack, apart⟩ := names
  constructor
  · intro g member
    exact apart g.name (List.mem_map_of_mem member) f.name List.mem_cons_self
  · intro g member same
    exact (List.nodup_cons.mp inBack).1 (same ▸ List.mem_map_of_mem member)

/-- A function may be given another body of old and plain lines: the file is still generated, as
names are kept and no line closes a function. -/
theorem Generated.withBody {front back : List Piece} {f : GenFunc}
    (generated : Generated (front ++ .func f :: back))
    (body : List Line) (lines : ∀ line ∈ body, line ∈ f.body ∨ plain line = true) :
    Generated (front ++ .func { f with body := body } :: back) := by
  constructor
  · intro piece member
    rcases List.mem_append.mp member with inFront | behind
    · exact generated.shaped piece (List.mem_append_left _ inFront)
    rcases List.mem_cons.mp behind with rfl | inBack
    · obtain ⟨word, inside, closing⟩ := generated.shaped (.func f) (by simp)
      refine ⟨word, ?_, closing⟩
      intro line inBody
      exact (lines line inBody).elim (inside line) id
    · exact generated.shaped piece (List.mem_append_right _ (List.mem_cons_of_mem _ inBack))
  · have names := generated.names
    simpa [funcs_append, funcs_func] using names

/-- An edit of the lines of a file edits the body of one function, and fails without it. -/
structure ActsOn (lineEdit : List Line → Option (List Line)) (func : Line)
    (edit : List Line → Option (List Line)) : Prop where
  found : ∀ front f back, Generated (front ++ .func f :: back) → f.name = func →
    lineEdit (render (front ++ .func f :: back)) =
      (edit f.body).map (fun body => render (front ++ .func { f with body := body } :: back))
  missing : ∀ file, Generated file → (∀ g ∈ funcs file, g.name ≠ func) →
    lineEdit (render file) = none

/-- The lines of a body at the anchor become the given lines, when there are as many as
expected. -/
def anchored (anchor : Line) (expect : Nat) (become : Line → List Line) (body : List Line) :
    Option (List Line) :=
  if body.countP (fun line => chomp line = anchor) = expect then some (atAnchor anchor become body)
    else none

/-- An edit of a function's range is an edit of its body; no header is an anchor, since an anchor
is indented. -/
theorem editRange_actsOn (func anchor : Line) (expect : Nat) (become : Line → List Line)
    (plainName : '(' ∉ func) (indented : anchor.head? = some ' ') :
    ActsOn (editRange func anchor expect become) func (anchored anchor expect become) where
  found := by
    intro front f back generated named
    have first : ∀ g ∈ funcs front, g.name ≠ func := named ▸ generated.others.1
    have notAnchor : chomp (header f) ≠ anchor := by
      intro same
      obtain ⟨tail, shape⟩ := same ▸ chomp_prefix (header f)
      cases anchor with
      | nil => simp at indented
      | cons c anchor =>
        obtain rfl : c = ' ' := by simpa using indented
        simp [header, headerText] at shape
    rw [editRange, bodyRange_found func plainName front back f generated.shaped named first]
    simp only [Option.bind_eq_bind, Option.bind_some, anchored,
      List.countP_cons_of_neg (p := fun line => chomp line = anchor)
      (a := header f) (by simpa using notAnchor)]
    have range : atAnchor anchor become (header f :: f.body) =
        header f :: atAnchor anchor become f.body := by
      simp [atAnchor, notAnchor]
    rw [range]
    by_cases count : f.body.countP (fun line => chomp line = anchor) = expect
    · simp [count, Piece.lines, GenFunc.lines, header]
    · simp [count]
  missing := by
    intro file generated absent
    simp [editRange, bodyRange_missing func plainName file generated.shaped absent]

/-- The body edit of `widescreen_cull_edit`. -/
def cullBody (body : List Line) : Option (List Line) :=
  match body.span (fun line => chomp line != wcwCullXLoad) with
  | (_, []) => none
  | (above, load :: below) =>
    if below.countP (fun line => chomp line = wcwCullXLoad) = 0 ∧
        below.countP (fun line => chomp line = wcwCullCompare) = 2 then
      some (above ++ load :: replaceFirstLine wcwCullCompare wcwCullEdit below)
    else none

/-- The culling edit changes the body of its function and nothing else: what it searches is the
function's slice of the file, which is the body. -/
theorem widescreenCullEdit_actsOn : ActsOn widescreenCullEdit (str "func_800024F8") cullBody where
  found := by
    intro front f back generated named
    have first : ∀ g ∈ funcs front, g.name ≠ str "func_800024F8" := named ▸ generated.others.1
    have notLoad : (chomp (header f) != wcwCullXLoad) = true := by
      rw [bne_iff_ne]
      intro same
      have starts := chomp_head (header f) ' ' (wcwCullXLoad.drop 1) (same.trans (by decide))
      simp [header, headerText] at starts
    rw [widescreenCullEdit, bodyRange_found _ (by decide) front back f generated.shaped named first]
    have above : (header f :: f.body).takeWhile (fun line => chomp line != wcwCullXLoad) =
        header f :: f.body.takeWhile (fun line => chomp line != wcwCullXLoad) :=
          List.takeWhile_cons_of_pos notLoad
    have below : (header f :: f.body).dropWhile (fun line => chomp line != wcwCullXLoad) =
        f.body.dropWhile (fun line => chomp line != wcwCullXLoad) :=
          List.dropWhile_cons_of_pos notLoad
    simp only [Option.bind_eq_bind, Option.bind_some, cullBody, List.span_eq_takeWhile_dropWhile,
      above, below]
    cases f.body.dropWhile (fun line => chomp line != wcwCullXLoad) with
    | nil => rfl
    | cons load below =>
      dsimp only
      split
      · simp [Piece.lines, GenFunc.lines, header]
      · rfl
  missing := by
    intro file generated absent
    simp [widescreenCullEdit, bodyRange_missing _ (by decide) file generated.shaped absent]

/-! ## Adding lines outside functions -/

/-- The file with lines of text added between two of its pieces. -/
def Adds (texts : List Line) (before after : List Piece) : Prop :=
  ∃ front back, before = front ++ back ∧ after = front ++ (texts.map Piece.text ++ back)

/-- Lines outside functions hold none. -/
theorem funcs_text (texts : List Line) : funcs (texts.map Piece.text) = [] := by
  simp [funcs, Piece.func?]

/-- Lines outside functions are rendered as they are. -/
theorem render_text (texts : List Line) : render (texts.map Piece.text) = texts := by
  simp [render, Piece.lines, List.flatMap_map]

/-- Added text adds no function. -/
theorem Adds.funcs {texts : List Line} {before after : List Piece}
    (adds : Adds texts before after) :
    funcs after = funcs before := by
  obtain ⟨front, back, rfl, rfl⟩ := adds
  simp [funcs_append, funcs_text]

/-- A generated file stays one when lines are added that open no function. -/
theorem Adds.generated {texts : List Line} {before after : List Piece}
    (adds : Adds texts before after)
    (opens : ∀ line ∈ texts, startsWith head line = false) (generated : Generated before) :
    Generated after := by
  refine ⟨?_, adds.funcs ▸ generated.names⟩
  obtain ⟨front, back, rfl, rfl⟩ := adds
  intro piece member
  rcases List.mem_append.mp member with inFront | behind
  · exact generated.shaped piece (List.mem_append_left _ inFront)
  rcases List.mem_append.mp behind with added | inBack
  · obtain ⟨line, inTexts, rfl⟩ := List.mem_map.mp added
    exact opens line inTexts
  · exact generated.shaped piece (List.mem_append_right _ inBack)

/-- The lines of the file with text added. -/
theorem Adds.mem_render {texts : List Line} {before after : List Piece}
    (adds : Adds texts before after) (line : Line) :
    line ∈ render after ↔ line ∈ render before ∨ line ∈ texts := by
  obtain ⟨front, back, rfl, rfl⟩ := adds
  simp only [render_append, render_text, List.mem_append]
  tauto

/-- No line of a function includes a file: a header starts otherwise, and the lines of a body are
indented, labels or blank. -/
theorem Shaped.noInclude {f : GenFunc} (shaped : Shaped (.func f)) :
    ∀ line ∈ f.lines, (!startsWith (str "#include") line) = true := by
  have other (line : Line) (first : Char) (starts : line.head? = some first)
    (different : first ≠ '#') :
      (!startsWith (str "#include") line) = true := by
    cases line with
    | nil => rfl
    | cons c line =>
      obtain rfl : c = first := by simpa using starts
      simp [startsWith, str, lit, Ne.symm different]
  obtain ⟨_, inside, closing⟩ := shaped
  intro line member
  have cases : line = header f ∨ line ∈ f.body ∨ line = f.close := by
    simpa [GenFunc.lines, header] using member
  rcases cases with rfl | inBody | rfl
  · exact other _ 'R' (by simp [header, headerText]) (by decide)
  · have isPlain := inside line inBody
    simp only [plain, Bool.and_eq_true] at isPlain
    exact isPlain.2
  · exact other _ ';' (chomp_head _ _ _ closing) (by decide)

/-- Lines behind the last include stay behind what is added. -/
theorem insertAfterIncludes_behind (texts lines behind : List Line)
    (plain : ∀ line ∈ behind, (!startsWith (str "#include") line) = true) :
    insertAfterIncludes texts (lines ++ behind) = insertAfterIncludes texts lines ++ behind := by
  have reversed : ∀ line ∈ behind.reverse,
      (!startsWith (str "#include") line) = true := fun line member =>
    plain line (List.mem_reverse.mp member)
  simp only [insertAfterIncludes, List.rdropWhile, List.rtakeWhile, List.reverse_append,
    List.dropWhile_append_of_pos reversed, List.takeWhile_append_of_pos reversed,
    List.reverse_reverse, List.append_assoc]

/-- Lines added behind the last include lie between two pieces of the file: an include is a line
of text, and the pieces behind the last one hold none. -/
theorem insertAfterIncludes_adds (texts : List Line) (file : List Piece)
    (shaped : ∀ piece ∈ file, Shaped piece) :
    ∃ after, Adds texts file after ∧ insertAfterIncludes texts (render file) = render after := by
  induction file using List.reverseRecOn with
  | nil =>
    exact ⟨texts.map Piece.text, ⟨[], [], rfl, by simp⟩, by simp [insertAfterIncludes, render_text]⟩
  | append_singleton file piece inductionHypothesis =>
    have lines : render (file ++ [piece]) = render file ++ piece.lines := by simp
    by_cases included : ∀ line ∈ piece.lines, (!startsWith (str "#include") line) = true
    · obtain ⟨_, ⟨front, back, rfl, rfl⟩, same⟩ :=
        inductionHypothesis (fun other member => shaped other (List.mem_append_left _ member))
      refine ⟨front ++ (texts.map Piece.text ++ (back ++ [piece])),
        ⟨front, back ++ [piece], by simp, rfl⟩, ?_⟩
      rw [lines, insertAfterIncludes_behind texts _ _ included, same]
      simp
    · cases piece with
      | func f => exact absurd (shaped (.func f) (by simp)).noInclude included
      | text line =>
        have isInclude : (!startsWith (str "#include") line) = false := by
          simpa [Piece.lines] using included
        refine ⟨(file ++ [.text line]) ++ (texts.map Piece.text ++ []),
          ⟨file ++ [.text line], [], by simp, rfl⟩, ?_⟩
        rw [insertAfterIncludes, lines]
        simp only [Piece.lines]
        rw [List.rdropWhile_concat_neg _ _ _ (by simpa using isInclude),
          List.rtakeWhile_concat_neg _ _ _ (by simpa using isInclude)]
        simp [render_text, Piece.lines]

end NoMercyRecomp.GeneratedFile
