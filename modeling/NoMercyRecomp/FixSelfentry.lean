import NoMercyRecomp.Recompiled

/-!
# Labels of self-entry branches

Where a function branches to its own first instruction, N64Recomp puts the label behind
the entry instruction instead of before it, so that a looped iteration skips the
instruction. `fix_selfentry` moves the line of the label to the entry instruction's
decode comment.

The functions it looks at are those whose name ends in an address. The comment is
searched for in the text, so that the label is put into the middle of a line when the
comment is indented further than N64Recomp indents it.
-/

namespace NoMercyRecomp.FixSelfentry

open TextScan SymbolTable Recompiled

/-- Eight digits of an address, and nothing else. -/
def vramDigits (text : Line) : Option Line :=
  if text.length = 8 ∧ text.all isUpperHex then some text else none

/-- `(?:func_|static_\d+_)([0-9A-F]{8})` over a whole name: the digits of the entry. -/
def entryVram (name : Line) : Option Line :=
  match lit (str "func_") name with
  | some digits => vramDigits digits
  | none => (staticPrefix name).bind (fun found => vramDigits found.2)

/-- `^L_<vram>:\r?\n` -/
def isLabel (vram line : Line) : Bool :=
  line == 'L' :: '_' :: (vram ++ [':']) || line == 'L' :: '_' :: (vram ++ [':', '\r'])

/-- `goto L_<vram>;` -/
def gotoText (vram : Line) : Line := 'g' :: (str "oto L_" ++ (vram ++ [';']))

/-- `    // 0x<vram>:` -/
def entryText (vram : Line) : Line := ' ' :: (str "   // 0x" ++ (vram ++ [':']))

/-- Put the label in front of the first entry comment, as a line of its own when the
comment starts a line. -/
def putLabel (vram : Line) : Line → List Line → Line × List Line
  | line, rest =>
    match cut (entryText vram) line with
    | some (before, after) =>
      (before ++ 'L' :: '_' :: (vram ++ [':']), (entryText vram ++ after) :: rest)
    | none =>
      match rest with
      | [] => (line, [])
      | next :: rest => (line, (putLabel vram next rest).1 :: (putLabel vram next rest).2)

/-- The function with its self-entry label moved: the first label line is taken out when
a `goto` needs it and the entry comment stands above it. -/
def relocated (f : GenFunc) : GenFunc :=
  match entryVram f.name with
  | none => f
  | some vram =>
    match f.body.span (fun line => !isLabel vram line) with
    | (_, []) => f
    | (above, _ :: below) =>
      if (f.tail :: f.body).any (occurs (gotoText vram)) &&
        (f.tail :: above).any (occurs (entryText vram)) then
        { f with tail := (putLabel vram f.tail (above ++ below)).1, body := (putLabel vram f.tail
          (above ++ below)).2 }
      else f

/-- A piece with its label moved. -/
def relocatedPiece : Piece → Piece
  | .func f => .func (relocated f)
  | .text line => .text line

/-- One file with its functions rewritten. -/
def fixFile (file : List Line) : List Line :=
  (pieces file).flatMap (fun piece => (relocatedPiece piece).lines)

/-- The files that the pass writes; its exit status is zero. -/
def fixTree (files : List (List Line)) : List (List Line) := files.map fixFile

/-! ## Written functions -/

/-- The written file is the file with every function relocated. -/
theorem fixFile_change (file : List Line) : fixFile file = changeFuncs relocated file := by
  refine List.flatMap_congr (fun piece _ => ?_)
  cases piece <;> rfl

/-- Text in front of a label closes a function only where the line that it stood on did, since a
closing line is told by its first two characters, neither of which is an `L`. -/
theorem label_open (before label after : Line) (isOpen : isClose (before ++ after) = false) :
    isClose (before ++ 'L' :: label) = false := by
  match before with
  | [] => rfl
  | [c] => simp [isClose, lit]
  | c :: d :: before =>
    have same (rest : Line) : isClose (c :: d :: before ++ rest) = isClose [c, d] := by
      simp only [isClose, lit, List.cons_append]
      by_cases semicolon : ';' = c
      · by_cases brace : '\x7d' = d
        · simp only [if_pos semicolon, if_pos brace, Option.isSome_some]
        · simp only [if_pos semicolon, if_neg brace]
      · simp only [if_neg semicolon]
    rw [same] at isOpen ⊢
    exact isOpen

/-- Putting the label in closes no function: the entry comment starts with a blank, and the
text in front of the comment on its line was the start of that line. The induction follows
the search for the comment. -/
theorem putLabel_open (vram line : Line) (rest : List Line)
    (inside : ∀ other ∈ rest, isClose other = false) :
    (∀ other ∈ (putLabel vram line rest).2, isClose other = false) ∧
      (isClose line = false → isClose (putLabel vram line rest).1 = false) := by
  induction rest generalizing line with
  | nil =>
    unfold putLabel
    split
    · rename_i before after found
      have text := cut_eq _ _ _ _ found
      refine ⟨fun other among => ?_, fun isOpen => ?_⟩
      · obtain rfl := List.mem_singleton.mp among
        rfl
      · rw [text, List.append_assoc] at isOpen
        exact label_open before _ _ isOpen
    · exact ⟨by simp, id⟩
  | cons next rest inductionHypothesis =>
    obtain ⟨later, first⟩ := inductionHypothesis next
      (fun other among => inside other (List.mem_cons_of_mem next among))
    unfold putLabel
    split
    · rename_i before after found
      have text := cut_eq _ _ _ _ found
      refine ⟨fun other among => ?_, fun isOpen => ?_⟩
      · rcases List.mem_cons.mp among with rfl | old
        · rfl
        · exact inside other old
      · rw [text, List.append_assoc] at isOpen
        exact label_open before _ _ isOpen
    · refine ⟨fun other among => ?_, id⟩
      rcases List.mem_cons.mp among with rfl | behind
      · exact first (inside next List.mem_cons_self)
      · exact later other behind

/-- A relocated function is the function itself, or its label line is taken out and the label
put in front of the entry comment. -/
theorem relocated_cases (f : GenFunc) : relocated f = f ∨
    ∃ vram above label below, f.body = above ++ label :: below ∧
      relocated f = { f with
        tail := (putLabel vram f.tail (above ++ below)).1
        body := (putLabel vram f.tail (above ++ below)).2 } := by
  unfold relocated
  split
  · exact .inl rfl
  · rename_i vram _
    split
    · exact .inl rfl
    · rename_i above label below cutHere
      split
      · have parts :=
          List.span_eq_takeWhile_dropWhile (p := fun line => !isLabel vram line) (l := f.body)
        rw [cutHere] at parts
        obtain ⟨rfl, behind⟩ := Prod.mk.inj parts
        refine .inr ⟨vram, _, label, below, ?_, rfl⟩
        rw [behind, List.takeWhile_append_dropWhile]
      · exact .inl rfl

/-- A reader finds the relocated function where it found the function: its name and closing
line stay, and moving the label closes nothing. -/
theorem relocated_keeps (file : List Line) (f : GenFunc) (inFile : f ∈ functions file) :
    Keeps relocated f := by
  have old := functions_open file f inFile
  obtain same | ⟨vram, above, label, below, body, same⟩ := relocated_cases f
  · exact ⟨congrArg GenFunc.name same, congrArg GenFunc.close same, same.symm ▸ old⟩
  · refine ⟨by rw [same], by rw [same], ?_⟩
    rw [same]
    refine (putLabel_open vram f.tail (above ++ below) (fun other among => old other ?_)).1
    rw [body]
    rcases List.mem_append.mp among with front | back
    · exact List.mem_append_left _ front
    · exact List.mem_append_right _ (List.mem_cons_of_mem label back)

/-- In the files that the pass writes, the relocated function stands in the place of every
function. The run cannot fail, so this holds of every file of the tree. -/
theorem fixTree_inPlace (files : List (List Line)) (f g : GenFunc) :
    InPlace files (fixTree files) f g ↔ (∃ file ∈ files, f ∈ functions file) ∧ g = relocated f := by
  have written : fixTree files = files.map (changeFuncs relocated) :=
    List.map_congr_left (fun file _ => fixFile_change file)
  rw [written]
  exact inPlace_change relocated files (fun file _ h inFile => relocated_keeps file h inFile) f g

end NoMercyRecomp.FixSelfentry
