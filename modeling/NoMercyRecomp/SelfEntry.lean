import NoMercyRecomp.TextReplace
import NoMercyRecomp.FixSelfentry

/-!
# Loops to a function's own entry

A branch to a function's first instruction re-executes it when its label stands before
the first decode line of the address. `fix_selfentry` recognises a function by a name that
ends in its address. A function of another name keeps its label where it is: the names that
the symbol table suffixes for colliding overlays, and the renamed ones.
-/

namespace NoMercyRecomp.SelfEntry

open TextScan Recompiled FixSelfentry

/-- The decoded addresses of a function, in order. -/
def addrs (f : GenFunc) : List Nat := (f.tail :: f.body).flatMap (findAll addrRe)

/-- The digits of the first decoded address. -/
def entry (f : GenFunc) : Line := ((addrs f).head?.map hex8).getD []

/-- `// 0x<vram>:`, the start of a decode comment. -/
def decodeText (vram : Line) : Line := '/' :: (str "/ 0x" ++ (vram ++ [':']))

/-- The body has a goto to the label of the first decoded address. -/
def HasGoto (f : GenFunc) : Prop :=
  ∃ line ∈ f.tail :: f.body, occurs (gotoText (entry f)) line = true

/-- A function as it is generated: the brace ends its line, some instruction is decoded, and
a name that ends in an address ends in the function's own. -/
structure Generated (f : GenFunc) : Prop where
  opens : f.tail = [] ∨ f.tail = ['\r']
  decoded : addrs f ≠ []
  named : entryVram f.name = none ∨ entryVram f.name = some (entry f)

/-- A label line stands before the first decode line of the address. -/
def LabelFirst (vram : Line) (lines : List Line) : Prop :=
  ∃ above label below, lines = above ++ label :: below ∧ isLabel vram label = true ∧
    ∀ line ∈ above, occurs (decodeText vram) line = false

/-- But for one label line the lines are the same, in the same order. -/
def SameLines (vram : Line) (before after : List Line) : Prop :=
  ∃ above label below above' label' below', before = above ++ label :: below ∧
    after = above' ++ label' :: below' ∧
    isLabel vram label = true ∧ isLabel vram label' = true ∧ above ++ below = above' ++ below'

/-- A looped iteration re-executes the entry: with a goto to the entry its label stands before
the entry, and but for the label the body is as it was; without one nothing changes. -/
structure Reenters (before after : GenFunc) : Prop where
  around : after = { before with body := after.body }
  moved : HasGoto before → LabelFirst (entry before) after.body ∧
    SameLines (entry before) before.body after.body
  unchanged : ¬HasGoto before → after = before

/-- The first decode line of the address is indented by four blanks. -/
def Indented (vram : Line) (lines : List Line) : Prop :=
  ∃ above rest below, lines = above ++ (entryText vram ++ rest) :: below ∧
    ∀ line ∈ above, occurs (decodeText vram) line = false

/-- The condition: the label stands first already, or else there is one, the function's name
ends in its address and its first decode line is indented as N64Recomp indents it. -/
def Ready (f : GenFunc) : Prop :=
  HasGoto f → LabelFirst (entry f) f.body ∨
    (entryVram f.name = some (entry f) ∧ (∃ label ∈ f.body, isLabel (entry f) label = true) ∧
      Indented (entry f) f.body)

/-! ## The texts -/

/-- The text in front of which the label is put is the decode comment behind four blanks. -/
theorem entryText_eq (vram : Line) : entryText vram = str "    " ++ decodeText vram := rfl

/-- Where the entry comment stands, the address is decoded. -/
theorem decode_of_entry (vram line : Line) (found : occurs (entryText vram) line = true) :
    occurs (decodeText vram) line = true := by
  cases held : occurs (decodeText vram) line with
  | true => rfl
  | false =>
    have none := occurs_part (str "    ") (decodeText vram) [] line (List.cons_ne_nil _ _) held
    rw [List.append_nil, ← entryText_eq] at none
    exact absurd (found.symm.trans none) (by decide)

/-- A line starting with the entry comment is cut there. -/
theorem cut_entry (vram rest : Line) :
    cut (entryText vram) (entryText vram ++ rest) = some ([], rest) := by
  have here : lit (entryText vram) (entryText vram ++ rest) = some rest := lit_append _ rest
  rw [cut, entryText, List.cons_append] at *
  rw [search, here]

/-- A literal that does not occur is not cut. -/
theorem cut_none (pattern line : Line) (absent : occurs pattern line = false) :
    cut pattern line = none := by
  rw [occurs] at absent
  exact Option.not_isSome_iff_eq_none.mp (by simp [absent])

/-- What stands in front of the first entry comment of the lines, and the comment's line cut
in two. -/
theorem putLabel_at (vram line before after : Line) (above below : List Line)
    (none : ∀ other ∈ line :: above, occurs (entryText vram) other = false) (d : Line)
    (here : cut (entryText vram) d = some (before, after)) :
    putLabel vram line (above ++ d :: below) =
      (line, above ++ (before ++ 'L' :: '_' :: (vram ++ [':'])) :: (entryText vram ++ after) ::
        below) := by
  induction above generalizing line with
  | nil =>
    have skip := cut_none _ line (none line List.mem_cons_self)
    have put : putLabel vram d below =
        (before ++ 'L' :: '_' :: (vram ++ [':']), (entryText vram ++ after) :: below) := by
      unfold putLabel
      rw [here]
    rw [List.nil_append, putLabel, skip]
    simp only [put]
    rfl
  | cons next above inductionHypothesis =>
    have skip := cut_none _ line (none line List.mem_cons_self)
    have later :=
      inductionHypothesis next (fun other among => none other (List.mem_cons_of_mem line among))
    rw [List.cons_append, putLabel, skip]
    simp only [later]
    rfl

/-- Lines are cut at the first of them that satisfies a condition. By induction on the lines; none
of those above it does. -/
theorem first_split (wanted : Line → Bool) (lines : List Line)
    (some : ∃ line ∈ lines, wanted line = true) :
    ∃ above line below, lines = above ++ line :: below ∧ wanted line = true ∧
    ∀ other ∈ above, wanted other = false := by
  induction lines with
  | nil =>
    obtain ⟨line, among, -⟩ := some
    cases among
  | cons first rest inductionHypothesis =>
    cases here : wanted first with
    | true => exact ⟨[], first, rest, rfl, here, fun other among => absurd among List.not_mem_nil⟩
    | false =>
      have later : ∃ line ∈ rest, wanted line = true := by
        obtain ⟨line, among, holds⟩ := some
        obtain rfl | among := List.mem_cons.mp among
        · exact absurd (here.symm.trans holds) (by decide)
        · exact ⟨line, among, holds⟩
      obtain ⟨above, line, below, rfl, holds, none⟩ := inductionHypothesis later
      refine ⟨first :: above, line, below, rfl, holds, ?_⟩
      intro other among
      obtain rfl | among := List.mem_cons.mp among
      · exact here
      · exact none other among

/-! ## What the pass does -/

/-- The function with the label taken out at `below` and put in front of the entry comment. -/
def moved (f : GenFunc) (vram : Line) (above below : List Line) : GenFunc :=
  { f with tail := (putLabel vram f.tail (above ++ below)).1, body := (putLabel vram f.tail
    (above ++ below)).2 }

/-- The cases of the pass: it leaves the function, or moves the first label line from below
the entry comment. -/
theorem relocated_cases (f : GenFunc) (vram : Line) (named : entryVram f.name = some vram) :
    (relocated f = f ∧ ∀ label ∈ f.body, isLabel vram label = false) ∨
      ∃ above label below, f.body = above ++ label :: below ∧ isLabel vram label = true ∧
        (∀ line ∈ above, isLabel vram line = false) ∧
        relocated f = if (f.tail :: f.body).any (occurs (gotoText vram)) &&
          (f.tail :: above).any (occurs (entryText vram))
          then moved f vram above below else f := by
  by_cases some : ∃ label ∈ f.body, isLabel vram label = true
  · obtain ⟨above, label, below, parts, isLabel', none⟩ := first_split (isLabel vram) f.body some
    refine .inr ⟨above, label, below, parts, isLabel', none, ?_⟩
    have span : f.body.span (fun line => !isLabel vram line) = (above, label :: below) := by
      rw [List.span_eq_takeWhile_dropWhile, parts,
        List.takeWhile_append_of_pos (fun line among => by simp [none line among]),
        List.dropWhile_append_of_pos (fun line among => by simp [none line among])]
      simp [isLabel']
    unfold relocated
    rw [named]
    simp only [span]
    rfl
  · have none : ∀ label ∈ f.body, isLabel vram label = false := by
      intro label among
      by_contra isLabel'
      exact some ⟨label, among, by simpa using isLabel'⟩
    have span : f.body.span (fun line => !isLabel vram line) = (f.body, []) := by
      rw [List.span_eq_takeWhile_dropWhile,
        List.takeWhile_eq_self_iff.mpr (fun line among => by simp [none line among]),
        List.dropWhile_eq_nil_iff.mpr (fun line among => by simp [none line among])]
    refine .inl ⟨?_, none⟩
    unfold relocated
    rw [named]
    simp only [span]

/-- No entry comment is on the line of the opening brace. -/
theorem Generated.tail_entry {f : GenFunc} (generated : Generated f) (vram : Line) :
    occurs (entryText vram) f.tail = false := by
  have visible : ' ' ≠ '\r' := by decide
  apply occurs_absent _ _ ' ' List.mem_cons_self
  obtain empty | carriage := generated.opens
  · rw [empty]
    exact List.not_mem_nil
  · rw [carriage]
    exact fun among => visible (List.mem_singleton.mp among)

/-- Lines without a decode comment have no entry comment. -/
theorem entry_absent (vram : Line) (lines : List Line)
    (none : ∀ line ∈ lines, occurs (decodeText vram) line = false) :
    ∀ line ∈ lines, occurs (entryText vram) line = false := by
  intro line among
  by_contra found
  have decoded := decode_of_entry vram line (by simpa using found)
  exact absurd (decoded.symm.trans (none line among)) (by decide)

/-- A function whose label stands first already is left as it is: the label is taken out and put
back in front of the line that follows it. -/
theorem relocated_first (f : GenFunc) (generated : Generated f)
    (first : LabelFirst (entry f) f.body) : relocated f = f := by
  obtain unnamed | named := generated.named
  · unfold relocated
    rw [unnamed]
  · obtain ⟨same, -⟩ | ⟨above, label, below, parts, isLabel', none, result⟩ :=
      relocated_cases f (entry f) named
    · exact same
    · obtain ⟨above', label', below', parts', isLabel'', noDecode⟩ := first
      have inside : ∀ line ∈ above, line ∈ above' := by
        obtain ⟨middle, rfl, -⟩ | ⟨middle, same, rest⟩ :=
          List.append_eq_append_iff.mp (parts.symm.trans parts')
        · exact fun line among => List.mem_append_left middle among
        · cases middle with
          | nil => exact fun line among => by simpa [same] using among
          | cons next middle =>
            have labelAbove : label' ∈ above := by
              rw [same, (List.cons.inj rest).1]
              exact List.mem_append_right _ List.mem_cons_self
            exact absurd ((none label' labelAbove).symm.trans isLabel'') (by decide)
      have quiet : (f.tail :: above).any (occurs (entryText (entry f))) = false := by
        rw [List.any_cons, generated.tail_entry, Bool.false_or, List.any_eq_false]
        intro line among
        rw [Bool.not_eq_true]
        exact entry_absent (entry f) above' noDecode line (inside line among)
      rw [result, quiet, Bool.and_false]
      rfl

/-- A function without a goto to its entry is left as it is. -/
theorem relocated_unused (f : GenFunc) (generated : Generated f) (unused : ¬HasGoto f) :
    relocated f = f := by
  obtain unnamed | named := generated.named
  · unfold relocated
    rw [unnamed]
  · obtain ⟨same, -⟩ | ⟨above, label, below, -, -, -, result⟩ := relocated_cases f (entry f) named
    · exact same
    · have quiet : (f.tail :: f.body).any (occurs (gotoText (entry f))) = false := by
        rw [List.any_eq_false]
        intro line among found
        exact unused ⟨line, among, found⟩
      rw [result, quiet, Bool.false_and]
      rfl

/-- The function whose label is moved, when the first entry comment is on the line `d`: the label
is put in front of the comment, on a line that it ends. -/
theorem moved_at (f : GenFunc) (generated : Generated f) (vram before after d : Line)
    (above between below : List Line) (none : ∀ line ∈ above, occurs (entryText vram) line = false)
    (here : cut (entryText vram) d = some (before, after)) :
    moved f vram (above ++ d :: between) below =
      { f with body := above ++ (before ++ 'L' :: '_' :: (vram ++ [':'])) :: (entryText vram ++
        after) :: (between ++ below) } := by
  have quiet : ∀ line ∈ f.tail :: above, occurs (entryText vram) line = false := by
    intro line among
    obtain rfl | among := List.mem_cons.mp among
    · exact generated.tail_entry vram
    · exact none line among
  unfold moved
  rw [List.append_assoc, List.cons_append,
    putLabel_at vram f.tail before after above (between ++ below) quiet d here]

/-- The label that the pass writes. -/
theorem isLabel_new (vram : Line) : isLabel vram ('L' :: '_' :: (vram ++ [':'])) = true := by
  simp [isLabel]

/-- A function that is ready re-executes its entry after the pass. If its label did not stand
first, it is taken out behind the first decode line and put in front of it. -/
theorem reenters_of_ready (f : GenFunc) (generated : Generated f) (ready : Ready f) :
    Reenters f (relocated f) := by
  by_cases used : HasGoto f
  · by_cases first : LabelFirst (entry f) f.body
    · have same := relocated_first f generated first
      have self : SameLines (entry f) f.body f.body := by
        obtain ⟨above, label, below, parts, isLabel', -⟩ := first
        exact ⟨above, label, below, above, label, below, parts, parts, isLabel', isLabel', rfl⟩
      rw [same]
      exact ⟨rfl, fun _ => ⟨first, self⟩, fun _ => rfl⟩
    · obtain wrong | ⟨named, ⟨someLabel, inBody, labelled⟩,
          ⟨above, rest, below, parts, noDecode⟩⟩ := ready used
      · exact absurd wrong first
      · obtain ⟨-, none⟩ | ⟨above', label, below', parts', isLabel', none, result⟩ :=
          relocated_cases f (entry f) named
        · exact absurd ((none someLabel inBody).symm.trans labelled) (by decide)
        · obtain ⟨between, cutAbove, cutBelow⟩ : ∃ between, above' = above ++
              (entryText (entry f) ++ rest) :: between ∧ below = between ++ label :: below' := by
            obtain ⟨middle, same, others⟩ | ⟨middle, same, others⟩ :=
              List.append_eq_append_iff.mp (parts'.symm.trans parts)
            · exfalso
              apply first
              refine ⟨above', label, below', parts', isLabel', ?_⟩
              exact fun line among => noDecode line (same ▸ List.mem_append_left middle among)
            · cases middle with
              | nil =>
                exfalso
                apply first
                refine ⟨above', label, below', parts', isLabel', ?_⟩
                exact fun line among => noDecode line (by simpa [same] using among)
              | cons next middle =>
                obtain ⟨rfl, behind⟩ := List.cons.inj others
                exact ⟨middle, same, behind⟩
          have goes : (f.tail :: f.body).any (occurs (gotoText (entry f))) = true := by
            obtain ⟨line, among, found⟩ := used
            exact List.any_eq_true.mpr ⟨line, among, found⟩
          have stands : (f.tail :: above').any (occurs (entryText (entry f))) = true := by
            refine List.any_eq_true.mpr ⟨entryText (entry f) ++ rest, ?_,
              occurs_front _ rest (List.cons_ne_nil _ _)⟩
            rw [cutAbove]
            exact List.mem_cons_of_mem _ (List.mem_append_right above List.mem_cons_self)
          have after := moved_at f generated (entry f) [] rest _ above between below'
            (entry_absent (entry f) above noDecode) (cut_entry (entry f) rest)
          rw [goes, stands, cutAbove, after] at result
          rw [result]
          refine ⟨rfl, fun _ => ⟨?_, ?_⟩, fun unused => absurd used unused⟩
          · exact ⟨above, _, _, rfl, isLabel_new (entry f), noDecode⟩
          · refine ⟨above', label, below', above, _, _, parts', rfl, isLabel',
              isLabel_new (entry f), ?_⟩
            rw [cutAbove, List.append_assoc, List.cons_append]
  · rw [relocated_unused f generated used]
    exact ⟨rfl, fun used' => absurd used' used, fun _ => rfl⟩

/-! ## When it does -/

/-- A label line is no decode line. -/
theorem label_decode (f : GenFunc) (label : Line) (isLabel' : isLabel (entry f) label = true) :
    occurs (decodeText (entry f)) label = false := by
  have digits : '/' ∉ entry f := by
    unfold entry
    cases (addrs f).head? with
    | none => exact List.not_mem_nil
    | some a => exact hex8_absent a '/' (by decide)
  apply occurs_absent _ _ '/' List.mem_cons_self
  rw [isLabel, Bool.or_eq_true, beq_iff_eq, beq_iff_eq] at isLabel'
  obtain rfl | rfl := isLabel'
  · simp [digits]
  · simp [digits]

/-- Lines that are the same but for a label have every other line equally often. -/
theorem sameLines_count (vram : Line) (before after : List Line)
    (same : SameLines vram before after) (line : Line)
    (noLabel : isLabel vram line = false) : before.count line = after.count line := by
  obtain ⟨above, label, below, above', label', below', rfl, rfl, isLabel', isLabel'', rest⟩ := same
  have other (l : Line) (labelled : isLabel vram l = true) : l ≠ line := by
    rintro rfl
    rw [noLabel] at labelled
    cases labelled
  have counts := congrArg (List.count line) rest
  rw [List.count_append, List.count_append] at counts
  rw [List.count_append, List.count_append, List.count_cons_of_ne (other label isLabel'),
    List.count_cons_of_ne (other label' isLabel''), counts]

/-- A comment that is indented further is split from its indentation, so that the lines are
no longer the same. -/
theorem split_differs (f : GenFunc) (above between below : List Line) (label before after d : Line)
    (first : Char) (cutHere : d = first :: before ++ entryText (entry f) ++ after)
    (labelled : isLabel (entry f) label = true) (decoded : occurs (decodeText (entry f)) d = true) :
    ¬SameLines (entry f) (above ++ d :: between ++ label :: below)
      (above ++ (first :: before ++ 'L' :: '_' :: (entry f ++ [':'])) ::
        (entryText (entry f) ++ after) ::
        (between ++ below)) := by
  intro same
  have noLabel : isLabel (entry f) d = false := by
    by_contra isLabel'
    have none := label_decode f d (by simpa using isLabel')
    exact absurd (decoded.symm.trans none) (by decide)
  have counts := sameLines_count _ _ _ same d noLabel
  have notLabel : label ≠ d := by
    rintro rfl
    exact absurd (noLabel.symm.trans labelled) (by decide)
  have notFront : first :: before ++ 'L' :: '_' :: (entry f ++ [':']) ≠ d := by
    intro equal
    rw [cutHere, List.append_assoc] at equal
    have ends := List.append_cancel_left equal
    exact absurd (List.cons.inj ends).1 (by decide)
  have notBack : entryText (entry f) ++ after ≠ d := by
    intro equal
    have lengths := congrArg List.length (equal.trans cutHere)
    simp only [List.length_append, List.length_cons] at lengths
    omega
  simp only [List.count_append, List.count_cons_self, List.count_cons_of_ne notLabel,
    List.count_cons_of_ne notFront, List.count_cons_of_ne notBack] at counts
  omega

/-- A label put in below the first decode line does not stand first, as none stood above that
line. -/
theorem late_label (f : GenFunc) (above rest : List Line) (d : Line)
    (decoded : occurs (decodeText (entry f)) d = true)
    (none : ∀ line ∈ above, isLabel (entry f) line = false) :
    ¬LabelFirst (entry f) (above ++ d :: rest) := by
  rintro ⟨above', label, below, parts, labelled, noDecode⟩
  have notLabel : label ≠ d := by
    rintro rfl
    exact absurd (decoded.symm.trans (label_decode f label labelled)) (by decide)
  obtain ⟨middle, same, others⟩ | ⟨middle, same, others⟩ := List.append_eq_append_iff.mp parts
  · cases middle with
    | nil => exact notLabel (List.cons.inj others).1.symm
    | cons next middle =>
      have among : d ∈ above' := by
        rw [same, (List.cons.inj others).1]
        exact List.mem_append_right _ List.mem_cons_self
      exact absurd (decoded.symm.trans (noDecode d among)) (by decide)
  · cases middle with
    | nil => exact notLabel (List.cons.inj others).1
    | cons next middle =>
      have among : label ∈ above := by
        rw [same, (List.cons.inj others).1]
        exact List.mem_append_right _ List.mem_cons_self
      exact absurd (labelled.symm.trans (none label among)) (by decide)

/-- A function that re-executes its entry after the pass was ready for it. By what the pass does:
a function that it leaves had its label first, and one that it changes has a name, a label and the
indentation that it looks for. -/
theorem ready_of_reenters (f : GenFunc) (generated : Generated f)
    (reenters : Reenters f (relocated f)) : Ready f := by
  intro used
  obtain ⟨first, same⟩ := reenters.moved used
  by_cases before : LabelFirst (entry f) f.body
  · exact .inl before
  have changed : relocated f ≠ f := by
    intro equal
    rw [equal] at first
    exact before first
  obtain unnamed | named := generated.named
  · exact absurd (by unfold relocated; rw [unnamed]) changed
  obtain ⟨equal, -⟩ | ⟨above, label, below, parts, labelled, none, result⟩ :=
    relocated_cases f (entry f) named
  · exact absurd equal changed
  have moves : relocated f = moved f (entry f) above below ∧
      (f.tail :: above).any (occurs (entryText (entry f))) = true := by
    split at result
    · rename_i both
      exact ⟨result, (Bool.and_eq_true_iff.mp both).2⟩
    · exact absurd result changed
  obtain ⟨result, stands⟩ := moves
  have commented : ∃ line ∈ above, occurs (entryText (entry f)) line = true := by
    rw [List.any_cons, generated.tail_entry, Bool.false_or] at stands
    exact List.any_eq_true.mp stands
  obtain ⟨comment, commentIn, isComment⟩ := commented
  obtain ⟨front, d, back, rfl, decoded, noDecode⟩ :=
    first_split (occurs (decodeText (entry f))) above
    ⟨comment, commentIn, decode_of_entry (entry f) comment isComment⟩
  have quiet := entry_absent (entry f) front noDecode
  have labelIn : label ∈ f.body := by
    rw [parts]
    exact List.mem_append_right _ List.mem_cons_self
  cases here : cut (entryText (entry f)) d with
  | some cutHere =>
    obtain ⟨start, rest⟩ := cutHere
    have whole := cut_eq _ d start rest here
    have after := moved_at f generated (entry f) start rest d front back below quiet here
    rw [result, after, parts] at same
    cases start with
    | nil =>
      refine .inr ⟨named, ⟨label, labelIn, labelled⟩, front, rest, back ++ label :: below, ?_,
        noDecode⟩
      rw [parts, whole, List.nil_append, List.append_assoc, List.cons_append]
    | cons c start =>
      exact absurd same
        (split_differs f front back below label start rest d c whole labelled decoded)
  | none =>
    have plain : occurs (entryText (entry f)) d = false := by rw [occurs, here]; rfl
    have commented : ∃ line ∈ back, occurs (entryText (entry f)) line = true := by
      obtain inFront | inBack := List.mem_append.mp commentIn
      · exact absurd (isComment.symm.trans (quiet comment inFront)) (by decide)
      · obtain rfl | inBack := List.mem_cons.mp inBack
        · exact absurd (isComment.symm.trans plain) (by decide)
        · exact ⟨comment, inBack, isComment⟩
    obtain ⟨between, e, behind, rfl, found, others⟩ :=
      first_split (occurs (entryText (entry f))) back commented
    obtain ⟨⟨start, rest⟩, cutE⟩ := Option.isSome_iff_exists.mp found
    have shape : front ++ d :: (between ++ e :: behind) = (front ++ d :: between) ++ e :: behind :=
      by simp
    have quieter : ∀ line ∈ front ++ d :: between, occurs (entryText (entry f)) line = false := by
      intro line among
      obtain inFront | inBack := List.mem_append.mp among
      · exact quiet line inFront
      · obtain rfl | inBack := List.mem_cons.mp inBack
        · exact plain
        · exact others line inBack
    have after :=
      moved_at f generated (entry f) start rest e (front ++ d :: between) behind below quieter cutE
    rw [result, shape, after] at first
    have late := late_label f front (between ++ (start ++ 'L' :: '_' :: (entry f ++ [':'])) ::
      (entryText (entry f) ++ rest) :: (behind ++ below)) d decoded
      (fun line among => none line (List.mem_append_left _ among))
    apply absurd first
    simpa using late

/-- After the pass a generated function re-executes its entry in every loop to it exactly when its
label stood first, or the function has a name that ends in its address, a label, and its first
decode line indented by four blanks. In the one direction the moved label stands in front of that
line; in the other each missing part leaves the label behind it. -/
theorem reenters_iff (f : GenFunc) (generated : Generated f) : Reenters f (relocated f) ↔ Ready f :=
  ⟨ready_of_reenters f generated, reenters_of_ready f generated⟩

/-- The same holds of the function that stands in its place in the file that the run writes: the
run raises nothing, and relocates every function of the tree (`fixTree_inPlace`). -/
theorem written_reenters (files : List (List Line)) (f g : GenFunc) (generated : Generated f)
    (stands : InPlace files (fixTree files) f g) : Reenters f g ↔ Ready f := by
  obtain ⟨_, rfl⟩ := (fixTree_inPlace files f g).mp stands
  exact ⟨ready_of_reenters f generated, reenters_of_ready f generated⟩

/-- An overlay's function that loops to its entry, under the name that the symbol table
suffixes. -/
def suffixed : GenFunc where
  name := str "func_800EE640_ovl_a"
  tail := []
  body := [str "    // 0x800EE640: addiu       $v0, $v0, -0x1",
    str "    ctx->r2 = ADD32(ctx->r2, -0X1);",
    str "L_800EE640:",
    str "    // 0x800EE644: bne         $v0, $zero, L_800EE640",
    str "    goto L_800EE640;"]
  close := str ";\x7d"

/-- The overlay function is one that the recompiler writes. -/
theorem suffixed_generated : Generated suffixed where
  opens := .inl rfl
  decoded := by decide +kernel
  named := .inl (by decide +kernel)

/-- Its label stays behind the entry. -/
theorem suffixed_reenters : Reenters suffixed (relocated suffixed) ↔ Ready suffixed :=
  reenters_iff suffixed suffixed_generated

/-- A looped iteration of it skips the entry after the pass: its name is none that the pattern
knows, so the label stays behind the entry instruction. -/
theorem suffixed_skips :
    Generated suffixed ∧ HasGoto suffixed ∧ ¬Reenters suffixed (relocated suffixed) := by
  have used : HasGoto suffixed := ⟨str "    goto L_800EE640;", by decide +kernel, by decide +kernel⟩
  refine ⟨suffixed_generated, used, ?_⟩
  intro reenters
  have same : relocated suffixed = suffixed := by decide +kernel
  obtain ⟨above, label, below, parts, labelled, noDecode⟩ := (reenters.moved used).1
  rw [same] at parts
  cases above with
  | nil =>
    have first :
        str "    // 0x800EE640: addiu       $v0, $v0, -0x1" = label := (List.cons.inj parts).1
    rw [← first] at labelled
    exact absurd labelled (by decide +kernel)
  | cons line above =>
    have first :
        str "    // 0x800EE640: addiu       $v0, $v0, -0x1" = line := (List.cons.inj parts).1
    have none := noDecode line List.mem_cons_self
    rw [← first] at none
    exact absurd none (by decide +kernel)

end NoMercyRecomp.SelfEntry
