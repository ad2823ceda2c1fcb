import NoMercyRecomp.FixStumps
import NoMercyRecomp.LabelledFlow

/-!
# Soundness of stump detection

A generated body is made of comment lines, labels, statements, `goto` and `return`
lines and balanced blocks. An execution starts at the opening brace, follows a `goto`
to its label, may or may not enter a conditional block, and leaves a switch through
one of its arms. A function whose execution can run off the closing brace must be
found by the scan.

The scan reads only labels that N64Recomp emits for addresses and call returns, and
only outside braces. N64Recomp also emits `skip_<n>` behind the delay slot of a
branch-likely; when a function is truncated there, the end is reached only through
that label.
-/

namespace NoMercyRecomp.StumpFlow

open TextScan SymbolTable Recompiled FixStumps LabelledFlow

/-! ## Lines of a body -/

/-- A C identifier. -/
def isIdentifier (name : Line) : Bool :=
  match name with
  | [] => false
  | first :: _ => name.all isWord && !first.isDigit

/-- The kinds of a line outside and inside blocks. A statement may be a block on one
line: it then names the labels it may jump to and says whether control may pass it. -/
inductive Kind where
  | comment
  | label (name : Line)
  | statement (jumps : List Line) (through : Bool)
  | goto (name : Line)
  | ret
deriving DecidableEq, Repr

/-- A stripped line of code that is neither a label nor an exit. -/
def plain (s : Line) : Bool := !skipped s && !labelRe s && !isExit s

/-- The text of a line has its kind. -/
def Kind.fits (s : Line) : Kind → Bool
  | .comment => skipped s
  | .label name => isIdentifier name && s == name ++ [':']
  | .statement _ _ => plain s && braces s == 0
  | .goto name => isIdentifier name && s == str "goto " ++ (name ++ [';'])
  | .ret => s == str "return;"

/-- A line with its kind. -/
structure Item where
  kind : Kind
  text : Line
  fits : kind.fits (strip text) = true

/-- The lines that open and close a block. -/
structure Frame where
  opening : Line
  closing : Line
  opens : (plain (strip opening) && braces (strip opening) == 1) = true
  closes : (plain (strip closing) && braces (strip closing) == -1) = true

/-- A line of a switch: the label it jumps to, if it is an arm that does; an arm that
returns or aborts, and a comment, jump nowhere. -/
structure ArmLine where
  jump : Option Line
  text : Line
  fits : (skipped (strip text) || braces (strip text) == 0) = true

/-- A generated body. -/
abbrev Body := Code Item Frame ArmLine

/-- The lines of a body. -/
def render : Body → List Line
  | .nil => []
  | .item a rest => a.text :: render rest
  | .branch frame inner rest => frame.opening :: (render inner ++ frame.closing :: render rest)
  | .choice frame arms rest =>
    frame.opening :: (arms.map ArmLine.text ++ frame.closing :: render rest)

/-- What the lines of a body do. -/
def meaning : Reading Item ArmLine Line where
  label a := match a.kind with
    | .label name => some name
    | _ => none
  jumps a := match a.kind with
    | .statement jumps _ => jumps
    | .goto name => [name]
    | _ => []
  falls a := match a.kind with
    | .statement _ through => through
    | .goto _ => false
    | .ret => false
    | _ => true
  armJumps arm := arm.jump.toList

/-- What the scan makes of a line outside blocks. -/
def lineScan : Scan Item where
  sees a := !skipped (strip a.text) && labelRe (strip a.text)
  kills a := !skipped (strip a.text) && isExit (strip a.text)

/-! ## The scan of a body -/

/-- A word holds no character outside its class. -/
theorem identifier_absent (name : Line) (c : Char) (word : isIdentifier name = true)
    (outside : isWord c = false) :
    c ∉ name := by
  intro member
  cases name with
  | nil => simp at member
  | cons first rest =>
    simp only [isIdentifier, Bool.and_eq_true, List.all_eq_true] at word
    simp [word.1 c member] at outside

/-- A label is no exit: a return ends in a semicolon and a goto holds a blank, neither of which is
in a name or its colon. -/
theorem label_notExit (name : Line) (word : isIdentifier name = true) :
    isExit (name ++ [':']) = false := by
  have noSemicolon : ';' ∉ name ++ [':'] := by
    simp [identifier_absent name ';' word (by decide)]
  have noSpace : ' ' ∉ name ++ [':'] := by
    simp [identifier_absent name ' ' word (by decide)]
  have notReturn : (name ++ [':'] == str "return;") = false := by
    rw [beq_eq_false_iff_ne]
    intro same
    exact noSemicolon (by rw [same]; decide)
  have notGoto : lit (str "goto ") (name ++ [':']) = none := by
    cases found : lit (str "goto ") (name ++ [':']) with
    | none => rfl
    | some rest =>
      refine absurd ?_ noSpace
      rw [(lit_eq_some _ _ _).mp found]
      exact List.mem_append_left _ (by decide)
  simp [isExit, notReturn, notGoto]

/-- Text without braces changes no depth. -/
theorem braces_absent (s : Line) (noOpen : '\x7b' ∉ s) (noClose : '\x7d' ∉ s) : braces s = 0 := by
  simp [braces, List.count_eq_zero_of_not_mem noOpen, List.count_eq_zero_of_not_mem noClose]

/-- A line outside blocks leaves the depth as it is: it is skipped, or has as many opening braces
as closing ones. What a label or a goto names is an identifier, which holds no brace. -/
theorem item_flat (a : Item) : skipped (strip a.text) = true ∨ braces (strip a.text) = 0 := by
  have fits := a.fits
  cases kind : a.kind with
  | comment =>
    rw [kind] at fits
    exact Or.inl fits
  | label name =>
    simp only [kind, Kind.fits, Bool.and_eq_true, beq_iff_eq] at fits
    right
    rw [fits.2]
    refine braces_absent _ ?_ ?_
    · simp [identifier_absent name '\x7b' fits.1 (by decide)]
    · simp [identifier_absent name '\x7d' fits.1 (by decide)]
  | statement jumps through =>
    simp only [kind, Kind.fits, Bool.and_eq_true, beq_iff_eq] at fits
    exact Or.inr fits.2
  | goto name =>
    simp only [kind, Kind.fits, Bool.and_eq_true, beq_iff_eq] at fits
    right
    rw [fits.2]
    refine braces_absent _ ?_ ?_
    · simp [str, identifier_absent name '\x7b' fits.1 (by decide)]
    · simp [str, identifier_absent name '\x7d' fits.1 (by decide)]
  | ret =>
    simp only [kind, Kind.fits, beq_iff_eq] at fits
    right
    rw [fits]
    decide

/-- The scan does not take a label or a statement for an exit. An exit is a return or a goto by
its text, which a comment, a label or a plain statement does not have. -/
theorem lineScan_fits : lineScan.Fits meaning := by
  constructor
  · intro a killed
    have fits := a.fits
    cases kind : a.kind with
    | comment =>
      simp only [kind, Kind.fits] at fits
      simp [lineScan, fits] at killed
    | label name =>
      simp only [kind, Kind.fits, Bool.and_eq_true, beq_iff_eq] at fits
      simp [lineScan, fits.2, label_notExit name fits.1] at killed
    | statement jumps through =>
      simp only [kind, Kind.fits, plain, Bool.and_eq_true, Bool.not_eq_true'] at fits
      simp [lineScan, fits.1.2] at killed
    | goto name => simp [meaning, kind]
    | ret => simp [meaning, kind]
  · intro a label isLabel
    have fits := a.fits
    cases kind : a.kind with
    | label name =>
      simp only [kind, Kind.fits, Bool.and_eq_true, beq_iff_eq] at fits
      simp [lineScan, fits.2, label_notExit name fits.1]
    | comment => simp [meaning, kind] at isLabel
    | statement jumps through => simp [meaning, kind] at isLabel
    | goto name => simp [meaning, kind] at isLabel
    | ret => simp [meaning, kind] at isLabel

/-- One line outside blocks. -/
theorem scanLine_item (a : Item) (alive : Bool) :
    scanLine (alive, 0) a.text = (lineScan.step alive a, 0) := by
  have flat := item_flat a
  cases skips : skipped (strip a.text) with
  | true => simp [scanLine, lineScan, Scan.step, skips]
  | false =>
    have level : braces (strip a.text) = 0 := by simpa [skips] using flat
    cases alive <;> simp [scanLine, lineScan, Scan.step, skips, level]

/-- A line inside a block leaves the bit as it is. -/
theorem scanLine_inside (raw : Line) (alive : Bool) (depth : Int) (inside : depth ≠ 0) :
    scanLine (alive, depth) raw =
      (alive, if skipped (strip raw) = true then depth else depth + braces (strip raw)) := by
  cases skips : skipped (strip raw) <;> simp [scanLine, skips, inside]

/-- A line of plain code changes the depth only. -/
theorem scanLine_plain (raw : Line) (alive : Bool) (depth change : Int)
    (shape : (plain (strip raw) && braces (strip raw) == change) = true) :
    scanLine (alive, depth) raw = (alive, depth + change) := by
  simp only [plain, Bool.and_eq_true, Bool.not_eq_true', beq_iff_eq] at shape
  obtain ⟨⟨⟨skips, notLabel⟩, notExit⟩, change⟩ := shape
  simp [scanLine, skips, notLabel, notExit, change]

/-- The lines of a switch leave the bit and the depth as they are: the depth is not zero, so none
of them is looked at, and their braces are even. -/
theorem scan_arms (arms : List ArmLine) (alive : Bool) (depth : Int) (inside : 0 < depth) :
    (arms.map ArmLine.text).foldl scanLine (alive, depth) = (alive, depth) := by
  induction arms with
  | nil => rfl
  | cons arm rest inductionHypothesis =>
    have line : scanLine (alive, depth) arm.text = (alive, depth) := by
      have fits := arm.fits
      rw [scanLine_inside _ _ _ (by omega)]
      cases skips : skipped (strip arm.text) with
      | true => simp
      | false =>
        have level : braces (strip arm.text) = 0 := by simpa [skips] using fits
        simp [level]
    rw [List.map_cons, List.foldl_cons, line]
    exact inductionHypothesis

/-- Lines inside a block leave the bit and the depth as they are. The bit is looked at on the
outside only, and the block's own braces cancel; by induction on the body, with its blocks and
arms. -/
theorem scan_inside (body : Body) (alive : Bool) (depth : Int) (inside : 0 < depth) :
    (render body).foldl scanLine (alive, depth) = (alive, depth) := by
  induction body generalizing depth with
  | nil => rfl
  | item a rest inductionHypothesis =>
    have line : scanLine (alive, depth) a.text = (alive, depth) := by
      rw [scanLine_inside _ _ _ (by omega)]
      obtain skips | level := item_flat a
      · simp [skips]
      · simp [level]
    rw [render, List.foldl_cons, line]
    exact inductionHypothesis depth inside
  | branch frame inner rest innerHypothesis inductionHypothesis =>
    rw [render, List.foldl_cons, List.foldl_append, List.foldl_cons,
      scanLine_plain _ _ _ 1 frame.opens,
      innerHypothesis (depth + 1) (by omega), scanLine_plain _ _ _ (-1) frame.closes,
      Int.add_neg_cancel_right]
    exact inductionHypothesis depth inside
  | choice frame arms rest inductionHypothesis =>
    rw [render, List.foldl_cons, List.foldl_append, List.foldl_cons,
      scanLine_plain _ _ _ 1 frame.opens,
      scan_arms arms alive (depth + 1) (by omega), scanLine_plain _ _ _ (-1) frame.closes,
      Int.add_neg_cancel_right]
    exact inductionHypothesis depth inside

/-- The scan of the lines is the scan of the body. By induction on the body: items are scanned,
and what is between braces is passed over. -/
theorem scan_render (body : Body) (alive : Bool) :
    (render body).foldl scanLine (alive, 0) = (lineScan.run alive body, 0) := by
  induction body generalizing alive with
  | nil => rfl
  | item a rest inductionHypothesis =>
    rw [render, List.foldl_cons, scanLine_item, inductionHypothesis]
    rfl
  | branch frame inner rest _ inductionHypothesis =>
    rw [render, List.foldl_cons, List.foldl_append, List.foldl_cons,
      scanLine_plain _ _ _ 1 frame.opens,
      scan_inside inner alive (0 + 1) (by omega), scanLine_plain _ _ _ (-1) frame.closes,
      Int.add_neg_cancel_right, inductionHypothesis]
    rfl
  | choice frame arms rest inductionHypothesis =>
    rw [render, List.foldl_cons, List.foldl_append, List.foldl_cons,
      scanLine_plain _ _ _ 1 frame.opens,
      scan_arms arms alive (0 + 1) (by omega), scanLine_plain _ _ _ (-1) frame.closes,
      Int.add_neg_cancel_right, inductionHypothesis]
    rfl

/-- `end_reachable` is the scan of the body. -/
theorem endReachable_render (body : Body) :
    endReachable (render body) = lineScan.run true body := by
  rw [endReachable, scan_render]

/-! ## Soundness -/

/-- A generated function whose body has the generated shape: the header stands alone. -/
structure Generated where
  name : Line
  body : Body
  close : Line

/-- The function as its lines. -/
def Generated.func (g : Generated) : GenFunc := ⟨g.name, [], render g.body, g.close⟩

/-- When an execution runs off the closing brace, the scan says so; and when the body
decodes an address the function is reported, either with `SKIP` or `WARN` and left as
it is, or as chained, and then a call and a return follow the unchanged body. -/
def Detected (dump : Dump) (names : List Line) (g : Generated) : Prop :=
  FallsOff meaning g.body →
    endReachable (wholeBody g.func) = true ∧
      (addresses (wholeBody g.func) ≠ [] →
        (∃ succ, stump dump names g.func = .chained succ ∧
            chainedBody dump names g.func = render g.body ++ patch succ) ∨
          ((stump dump names g.func = .skip ∨ stump dump names g.func = .warn) ∧
            chainedBody dump names g.func = render g.body))

/-- Detection is sound exactly when no label that an execution jumps to is unseen: one
that stands where the flow was ended, inside a block or under a name that the scan does
not know, and from which control runs off the closing brace past no label it knows. -/
theorem detected_iff (dump : Dump) (names : List Line) (g : Generated) : Detected dump names g ↔
    ∀ label, Reaches meaning g.body (.enter label) →
    ¬ lineScan.Unseen meaning true g.body label := by
  have scanned : endReachable (wholeBody g.func) = lineScan.run true g.body := by
    have header : scanLine (true, 0) [] = (true, 0) := by decide
    rw [wholeBody, endReachable, List.foldl_cons]
    exact (congrArg (fun state => ((render g.body).foldl scanLine state).1) header).trans
      (endReachable_render g.body)
  rw [← sound_iff lineScan meaning lineScan_fits g.body]
  constructor
  · intro detected falls
    rw [← scanned]
    exact (detected falls).1
  · intro sound falls
    have ends := scanned.trans (sound falls)
    refine ⟨ends, fun decodes => ?_⟩
    have reported := stump_reported dump names g.func ends decodes
    cases report : stump dump names g.func with
    | quiet => exact absurd report reported
    | skip => exact Or.inr ⟨Or.inl rfl, by rw [chainedBody, report]; rfl⟩
    | warn => exact Or.inr ⟨Or.inr rfl, by rw [chainedBody, report]; rfl⟩
    | chained succ => exact Or.inl ⟨succ, rfl, by rw [chainedBody, report]; rfl⟩

/-- What a function is found to be is what stands in the file that the run writes: in the place
of a detected function that runs off its brace and decodes an address stands the function with
a call behind its body, or the function itself when it is reported as `SKIP` or `WARN`. The run
raises nothing on its way, so every file is written (`fixTree_inPlace`). -/
theorem detected_written (dump : Dump) (files : List (List Line)) (g : Generated) (h : GenFunc)
    (stands : InPlace files (fixTree dump files) g.func h)
    (detected : Detected dump (allGenNames files) g) (falls : FallsOff meaning g.body)
    (decodes : addresses (wholeBody g.func) ≠ []) :
    (∃ succ, stump dump (allGenNames files) g.func = .chained succ ∧
        h = { g.func with body := render g.body ++ patch succ }) ∨
      ((stump dump (allGenNames files) g.func = .skip ∨
        stump dump (allGenNames files) g.func = .warn) ∧ h = g.func) := by
  obtain ⟨_, rfl⟩ := (fixTree_inPlace dump files g.func h).mp stands
  obtain ⟨succ, chained, body⟩ | ⟨reported, body⟩ := (detected falls).2 decodes
  · exact .inl ⟨succ, chained, by rw [GenFunc.withBody, body]⟩
  · refine .inr ⟨reported, ?_⟩
    rw [GenFunc.withBody, body]
    rfl

/-- A function truncated behind the delay slot of a branch-likely. -/
def likelyBody : Body :=
  .item ⟨.comment, str "    // 0x80001000: beql        $v0, $zero, L_80000F00", by decide⟩
    (.branch ⟨str "    if (ctx->r2 == 0) \x7b", str "    \x7d", by decide, by decide⟩
      (.item ⟨.comment, str "        // 0x80001004: addiu       $v1, $v1, 0x1", by decide⟩
        (.item ⟨.statement [] true, str "        ctx->r3 = ADD32(ctx->r3, 0X1);", by decide⟩
          (.item ⟨.goto (str "L_80000F00"), str "        goto L_80000F00;", by decide⟩ .nil)))
      (.item ⟨.goto (str "skip_0"), str "    goto skip_0;", by decide⟩
        (.item ⟨.comment, str "    // 0x80001004: addiu       $v1, $v1, 0x1", by decide⟩
          (.item ⟨.statement [] true, str "    ctx->r3 = ADD32(ctx->r3, 0X1);", by decide⟩
            (.item ⟨.label (str "skip_0"), str "    skip_0:", by decide⟩ .nil)))))

/-- The function of that body. -/
def likelyFunction : Generated := ⟨str "func_80001000", likelyBody, str ";\x7d"⟩

/-- The section that lists the function and the one behind it. -/
def likelyDump : Dump :=
  [⟨str "ovl_c", 0, 0x80000000, 0x2000,
    [⟨str "func_80001000", 0x80001000, 8⟩, ⟨str "func_80001008", 0x80001008, 0x20⟩]⟩]

/-- Control runs off the end through the label behind the delay slot, and the scan does
not say so. -/
theorem likelyFunction_missed :
    ¬ Detected likelyDump [str "func_80001000", str "func_80001008"] likelyFunction := by
  intro detected
  have jumps : Passes meaning likelyBody .start (.jump (str "skip_0")) :=
    Or.inl ⟨rfl, Or.inl (Or.inr ⟨str "skip_0", List.mem_singleton_self _, rfl⟩)⟩
  have falls : Passes meaning likelyBody (.enter (str "skip_0")) .fall := by
    right
    right
    right
    right
    right
    right
    exact Or.inl ⟨rfl, trivial⟩
  have ends := (detected ⟨_, .jump .start _ .start jumps, falls⟩).1
  have dead : endReachable (wholeBody likelyFunction.func) = false := by decide +kernel
  exact absurd (dead.symm.trans ends) (by decide)

end NoMercyRecomp.StumpFlow
