import NoMercyRecomp.Recompiled

/-!
# Chaining truncated functions

N64Recomp ends a function where the next symbol of its section starts and emits no
fall-through. `fix_stumps` looks for functions whose control can run off the closing
brace and appends a call of the function of the same section that starts behind the
last decoded address, followed by a return.

Whether the end is reachable is decided by a scan of the body's lines outside braces:
`return;` and `goto` end the flow, and a label of the form `after_<n>` or `L_<vram>`
resumes it.
-/

namespace NoMercyRecomp.FixStumps

open TextScan SymbolTable Recompiled

/-! ## The scan -/

/-- `(?:after_\d+|L_[0-9A-Fa-f]{8}):$` at the start of a stripped line. -/
def labelRe (s : Line) : Bool :=
  (match lit (str "after_") s with
    | some rest => rest.takeWhile Char.isDigit ≠ [] && rest.dropWhile Char.isDigit == [':']
    | none => false) ||
  (match lit (str "L_") s with
    | some rest => rest.length == 9 && (rest.take 8).all isHex && rest.drop 8 == [':']
    | none => false)

/-- A line that the scan passes over: blank, or the start or continuation of a comment. -/
def skipped (s : Line) : Bool :=
  s.isEmpty || (lit (str "//") s).isSome || (lit (str "/*") s).isSome || (lit (str "*") s).isSome

/-- An unconditional exit: `return;`, or a line that starts with `goto `. -/
def isExit (s : Line) : Bool := s == str "return;" || (lit (str "goto ") s).isSome

/-- `s.count('{') - s.count('}')` -/
def braces (s : Line) : Int := (s.count '\x7b' : Int) - (s.count '\x7d' : Int)

/-- One turn of the loop over the lines: whether the flow is alive, and the depth. -/
def scanLine (state : Bool × Int) (raw : Line) : Bool × Int :=
  let s := strip raw
  if skipped s then state
  else
    (if state.2 = 0 then (if labelRe s then true else if state.1 && isExit s then false
      else state.1) else state.1, state.2 + braces s)

/-- `end_reachable`: control can fall off the end of the body. -/
def endReachable (body : List Line) : Bool := (body.foldl scanLine (true, 0)).1

/-! ## Chaining -/

/-- The lines of a function's body, the rest of its header line first. -/
def wholeBody (f : GenFunc) : List Line := f.tail :: f.body

/-- The decoded addresses of a body. -/
def addresses (body : List Line) : List Nat := body.flatMap (findAll addrRe)

/-- `RECOMP_FUNC void (\w+)\(uint8_t\* rdram` at a position: the name. -/
def genNameRe (text : Line) : Option Line := do
  let rest ← lit ('R' :: str "ECOMP_FUNC void ") text
  let _ ← lit ('(' :: str "uint8_t* rdram") (rest.dropWhile isWord)
  if rest.takeWhile isWord = [] then none else some (rest.takeWhile isWord)

/-- `all_gen_names` -/
def allGenNames (files : List (List Line)) : List Line :=
  files.flatMap (fun file => file.flatMap (findAll genNameRe))

/-- What the pass does with one function, and what it prints: nothing, `SKIP`, `WARN`,
or `chained` with the successor. -/
inductive Report where
  | quiet
  | skip
  | warn
  | chained (succ : Line)
deriving DecidableEq, Repr

/-- The successor at an address: the function that the section lists there, or a static
of the section that was generated. -/
def successor (dump : Dump) (names : List Line) (sec : Line) (next : Nat) : Option Line :=
  match bySecVram dump sec next with
  | some succ => some succ
  | none =>
    match secName2idx dump sec with
    | some index =>
      if names.contains (staticName index next) then some (staticName index next) else none
    | none => none

/-- One turn of the loop over the functions. -/
def stump (dump : Dump) (names : List Line) (f : GenFunc) : Report :=
  if endReachable (wholeBody f) then
    match (addresses (wholeBody f)).getLast? with
    | none => .quiet
    | some last =>
      match sectionOf dump f.name with
      | none => .skip
      | some sec =>
        match successor dump names sec (last + 4) with
        | some succ => .chained succ
        | none => .warn
  else .quiet

/-- `    %s(rdram, ctx);` -/
def chainCall (succ : Line) : Line := str "    " ++ (succ ++ str "(rdram, ctx);")

/-- The lines appended to a chained body. -/
def patch (succ : Line) : List Line :=
  [[], str "    /* [nomercy fix_stumps] N64Recomp truncated this overlapping function at the next",
    str "       same-section symbol without the fall-through; chain it. */", chainCall succ,
    str "    return;"]

/-- The body that the pass writes. -/
def chainedBody (dump : Dump) (names : List Line) (f : GenFunc) : List Line :=
  match stump dump names f with
  | .chained succ => f.body ++ patch succ
  | _ => f.body

/-- The files that the pass writes. -/
def fixTree (dump : Dump) (files : List (List Line)) : List (List Line) :=
  files.map (rewrite (chainedBody dump (allGenNames files)))

/-! ## Written functions -/

/-- No line that is appended closes the function: they start with a blank or are empty. -/
theorem patch_open (succ : Line) : ∀ line ∈ patch succ, isClose line = false := by
  intro line among
  simp only [patch, List.mem_cons, List.not_mem_nil, or_false] at among
  rcases among with rfl | rfl | rfl | rfl | rfl <;> rfl

/-- A reader finds the chained function where it found the function: the body is extended in
front of the closing line, by lines that close nothing. -/
theorem chained_open (dump : Dump) (names : List Line) (file : List Line) (f : GenFunc)
    (inFile : f ∈ functions file) : ∀ line ∈ chainedBody dump names f, isClose line = false := by
  have old := functions_open file f inFile
  rw [chainedBody]
  split
  · intro line among
    rcases List.mem_append.mp among with own | new
    · exact old line own
    · exact patch_open _ line new
  · exact old

/-- In the files that the pass writes, the chained function stands in the place of every
function. The run cannot fail, so this holds of every file of the tree. -/
theorem fixTree_inPlace (dump : Dump) (files : List (List Line)) (f g : GenFunc) :
    InPlace files (fixTree dump files) f g ↔ (∃ file ∈ files, f ∈ functions file) ∧
      g = GenFunc.withBody (chainedBody dump (allGenNames files)) f := by
  have written : fixTree dump files =
      files.map (changeFuncs (GenFunc.withBody (chainedBody dump (allGenNames files)))) :=
    List.map_congr_left (fun file _ => rewrite_change _ file)
  have keeps (file : List Line) (_ : file ∈ files) (h : GenFunc) (inFile : h ∈ functions file) :
      Keeps (GenFunc.withBody (chainedBody dump (allGenNames files))) h :=
    ⟨rfl, rfl, chained_open dump _ file h inFile⟩
  rw [written]
  exact inPlace_change _ files keeps f g

/-! ## Reports -/

/-- A function whose end is reachable and that decodes an address is reported. -/
theorem stump_reported (dump : Dump) (names : List Line) (f : GenFunc)
    (ends : endReachable (wholeBody f) = true)
    (decodes : addresses (wholeBody f) ≠ []) : stump dump names f ≠ .quiet := by
  rw [stump, if_pos ends]
  cases last : (addresses (wholeBody f)).getLast? with
  | none => exact absurd (List.getLast?_eq_none_iff.mp last) decodes
  | some address =>
    cases known : sectionOf dump f.name with
    | none => simp
    | some sec => cases found : successor dump names sec (address + 4) <;> simp [found]

/-- A chained function decodes an address and is of a known section, and its successor is
found in that section. -/
theorem stump_chained (dump : Dump) (names : List Line) (f : GenFunc) (succ : Line)
    (chained : stump dump names f = .chained succ) :
    ∃ last sec, (addresses (wholeBody f)).getLast? = some last ∧ sectionOf dump f.name = some sec ∧
      successor dump names sec (last + 4) = some succ := by
  unfold stump at chained
  split at chained
  · cases decoded : (addresses (wholeBody f)).getLast? with
    | none => simp [decoded] at chained
    | some last =>
      cases known : sectionOf dump f.name with
      | none => simp [decoded, known] at chained
      | some sec =>
        refine ⟨last, sec, rfl, rfl, ?_⟩
        cases found : successor dump names sec (last + 4) with
        | none => simp [decoded, known, found] at chained
        | some other => simpa [decoded, known, found] using chained
  · simp at chained

/-- A successor is listed in the section, or is a static that was generated. The name of a static
is only taken when it is among the generated ones. -/
theorem successor_cases (dump : Dump) (names : List Line) (sec : Line) (next : Nat) (succ : Line)
    (found : successor dump names sec next = some succ) :
    bySecVram dump sec next = some succ ∨
      bySecVram dump sec next = none ∧ ∃ index, secName2idx dump sec = some index ∧
      succ = staticName index next := by
  rw [successor] at found
  cases listed : bySecVram dump sec next with
  | some name => exact Or.inl (by simpa [listed] using found)
  | none =>
    simp only [listed] at found
    cases position : secName2idx dump sec with
    | none => simp [position] at found
    | some index =>
      obtain ⟨_, named⟩ : staticName index next ∈ names ∧ staticName index next = succ := by
        simpa [position] using found
      exact Or.inr ⟨rfl, index, rfl, named.symm⟩

/-- The generated names only add to what is chained. -/
theorem stump_names (dump : Dump) (names : List Line) (f : GenFunc) (succ : Line)
    (chained : stump dump [] f = .chained succ) : stump dump names f = .chained succ := by
  obtain ⟨last, sec, decoded, known, found⟩ := stump_chained dump [] f succ chained
  have ends : endReachable (wholeBody f) = true := by
    by_contra dead
    simp [stump, dead] at chained
  have listed : bySecVram dump sec (last + 4) = some succ := by
    obtain listed | ⟨absent, index, position, _⟩ :=
      successor_cases dump [] sec (last + 4) succ found
    · exact listed
    · simp [successor, absent, position] at found
  simp [stump, ends, decoded, known, successor, listed]

end NoMercyRecomp.FixStumps
