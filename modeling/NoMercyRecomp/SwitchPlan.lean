import NoMercyRecomp.FixSwitches

/-!
# The plan of a completion

What `fix_switches` adds to a body is fixed by the body as it was read: the verdict on
a site, the arms of a completed one and the lines that get a label do not depend on
what earlier sites have added. The rewritten body is the original one grown by these
additions, and the failures are those of the verdicts.

The sites of a body are told apart by their text, as the address of the jump is part
of it.
-/

namespace NoMercyRecomp.SwitchPlan

open TextScan SymbolTable Recompiled Contexts Growth FixSwitches

/-! ## Verdicts -/

/-- An added arm: its index and the address it transfers to. -/
inductive Arm where
  | goto (index target : Nat)
  | call (index target : Nat)
deriving DecidableEq, Repr

def Arm.index : Arm → Nat
  | .goto index _ => index
  | .call index _ => index

def Arm.line : Arm → Line
  | .goto index target => gotoArm index target
  | .call index target => callArm index target

/-- The arm for one table entry. -/
def entry (rom : List UInt8) (dump : Dump) (body : List Line) (offset index : Nat) :
    Except Failure Arm :=
  match word rom (offset + 4 * index) with
  | none => .error .raised
  | some target =>
    if decoded body target then
      if labelled body target ∨ decodeLines body target = 1 then .ok (.goto index target)
        else .error .ambiguous
    else if funcAt dump target then .ok (.call index target)
    else .error .missing

/-- The arms for the entries in order, up to the first failure. -/
def entries (rom : List UInt8) (dump : Dump) (body : List Line) (offset : Nat) :
    List Nat → Except Failure (List Arm)
  | [] => .ok []
  | index :: rest =>
    match entry rom dump body offset index with
    | .error failure => .error failure
    | .ok arm => (entries rom dump body offset rest).map (arm :: ·)

/-- What becomes of a site. -/
inductive Verdict where
  | kept
  | unmapped
  | failed (failure : Failure)
  | completed (bound offset : Nat) (arms : List Arm)
deriving DecidableEq, Repr

/-- The verdict on a site of the body. -/
def verdict (rom : List UInt8) (dump : Dump) (body before : List Line) (site : Site) : Verdict :=
  match guard body before with
  | none => .kept
  | some bound =>
    if bound ≤ ncases before then .kept
    else match firstAddr body with
      | none => .failed .raised
      | some first =>
        match tableRomOffset dump (value 16 site.table) first with
        | none => .unmapped
        | some (_, offset) =>
          match entries rom dump body offset
            (List.range' (ncases before) (bound - ncases before)) with
          | .error failure => .failed failure
          | .ok arms => .completed bound offset arms

/-- The entries of a short site are read from this offset, up to this bound. -/
def Reads (dump : Dump) (body : List Line) (s : List Line × Site) (bound offset : Nat) : Prop :=
  guard body s.1 = some bound ∧ ncases s.1 < bound ∧
    ∃ first name, firstAddr body = some first ∧
    tableRomOffset dump (value 16 s.2.table) first = some (name, offset)

/-- The verdict ends the run. -/
def Verdict.raises : Verdict → Bool
  | .failed .raised => true
  | _ => false

/-- The verdict counts as a failure. -/
def Verdict.counts : Verdict → Bool
  | .unmapped => true
  | .failed .missing => true
  | _ => false

/-- The lines put before a default arm. -/
def Verdict.lines (site : Site) : Verdict → List Line
  | .completed bound offset arms => completion site bound offset (arms.map Arm.line)
  | _ => []

/-- The arms put before a default arm. -/
def Verdict.arms : Verdict → List Arm
  | .completed _ _ arms => arms
  | _ => []

/-! ## Additions -/

/-- A label put before a decode line, or the block put before a default arm. -/
inductive Addition where
  | label (target : Nat)
  | block (site : Site) (bound offset : Nat) (arms : List Arm)

/-- What an addition inserts, and before which line. -/
def Addition.mark : Addition → Mark Line
  | .label target => ((decodeText target).isPrefixOf, [FixSwitches.label target ++ [':']])
  | .block site bound offset arms =>
    (fun line => siteRe line == some site, completion site bound offset (arms.map Arm.line))

/-- The body with the additions made. -/
def grown (body : List Line) (additions : List Addition) : List Line :=
  lines (grow (additions.map Addition.mark) body)

/-- The targets that get a label. -/
def Addition.target? : Addition → Option Nat
  | .label target => some target
  | .block .. => none

/-- The targets of the arms that are not labelled yet. -/
def newLabels (body : List Line) (known : List Nat) : List Arm → List Nat → List Nat
  | [], labels => labels
  | .call _ _ :: rest, labels => newLabels body known rest labels
  | .goto _ target :: rest, labels =>
    if labelled body target || known.contains target || labels.contains target
    then newLabels body known rest labels
    else newLabels body known rest (labels ++ [target])

/-- The additions of one site after earlier ones. -/
def siteAdditions (body : List Line) (additions : List Addition) (site : Site) (bound offset : Nat)
    (arms : List Arm) : List Addition :=
  (newLabels body (additions.filterMap Addition.target?) arms []).map .label ++
    [.block site bound offset arms]

/-- The additions after the remaining sites. -/
def plan (rom : List UInt8) (dump : Dump) (body : List Line) :
    List (List Line × Site) → List Addition → List Addition
  | [], additions => additions
  | (before, site) :: rest, additions =>
    match verdict rom dump body before site with
    | .completed bound offset arms =>
      plan rom dump body rest (additions ++ siteAdditions body additions site bound offset arms)
    | _ => plan rom dump body rest additions

/-- An addition that has its place: a target decoded on one line, or a site of the body. -/
def Addition.Placed (body : List Line) : Addition → Prop
  | .label target => decodeLines body target = 1
  | .block site _ _ _ => ∃ line ∈ body, siteRe line = some site

/-! ## What readers see of a grown body -/

/-- An added arm is foreign and holds its own index. -/
theorem arm_foreign (indent : Line) (spaces : ∀ c ∈ indent, c = ' ') (arm : Arm) :
    Foreign (indent ++ arm.line) ∧ armsOn (indent ++ arm.line) = [decimal arm.index] := by
  cases arm with
  | goto index target => exact gotoArm_foreign indent spaces index target
  | call index target => exact callArm_foreign indent spaces index target

/-- A label line holds no space. -/
theorem isLabel_spaced (target : Nat) (line : Line) (spaced : ' ' ∈ line) :
    isLabel target line = false := by
  have absent := label_absent target ' ' (by decide) (by decide) (by decide)
  cases found : isLabel target line with
  | false => rfl
  | true =>
    have text : line = label target ++ [':'] ∨ line = label target ++ [':', '\r'] := by
      simpa [isLabel] using found
    rcases text with rfl | rfl
    · simp [absent] at spaced
    · simp [absent] at spaced

/-- A label line is the label of one target. -/
theorem isLabel_label (target other : Nat) :
    isLabel target (label other ++ [':']) = decide (other = target) := by
  by_cases same : other = target
  · simp [isLabel, same]
  · have plain : label other ≠ label target := by
      intro text
      exact same (hex8_injective other target (by simpa [label] using text))
    have carriage : label other ++ [':'] ≠ label target ++ [':', '\r'] := by
      intro text
      have lasts := congrArg List.getLast? text
      simp at lasts
    simp [isLabel, plain, carriage, same]

/-- A line that starts with a decode comment contains it. -/
theorem decodes_start (target : Nat) (line : Line)
    (absent : occurs (decodeText target) line = false) :
    (decodeText target).isPrefixOf line = false := by
  cases starts : (decodeText target).isPrefixOf line with
  | false => rfl
  | true =>
    obtain ⟨rest, rfl⟩ := List.isPrefixOf_iff_prefix.mp starts
    have found :=
      (occurs_iff (decodeText target) (decodeText target ++ rest) (by simp [decodeText])).mpr
      ⟨[], rest, by simp⟩
    exact absurd (found.symm.trans absent) (by decide)

/-- The lines of an addition are foreign: its label, its comments and its arms, each by its own
lemma. -/
theorem addition_foreign (body : List Line) (addition : Addition) (placed : addition.Placed body) :
    ∀ line ∈ addition.mark.2, Foreign line := by
  intro line member
  cases addition with
  | label target =>
    rw [List.mem_singleton.mp member]
    exact (label_foreign target).1
  | block site bound offset arms =>
    obtain ⟨own, _, found⟩ := placed
    have spaces := siteRe_indent own site found
    have comments := comment_foreign site.indent spaces bound offset
    simp only [Addition.mark, completion, List.mem_cons, List.mem_map] at member
    rcases member with rfl | rfl | ⟨text, ⟨arm, _, rfl⟩, rfl⟩
    · exact comments.1.1
    · exact comments.2.1
    · exact (arm_foreign site.indent spaces arm).1

/-- The lines of a block are no labels. -/
theorem block_unlabelled (site : Site) (bound offset : Nat) (arms : List Arm) (target : Nat) :
    ∀ line ∈ completion site bound offset (arms.map Arm.line), isLabel target line = false := by
  intro line member
  refine isLabel_spaced target line ?_
  simp only [completion, List.mem_cons, List.mem_map] at member
  rcases member with rfl | rfl | ⟨text, ⟨arm, _, rfl⟩, rfl⟩
  · exact List.mem_append_right _ (List.mem_append_left _ (by decide))
  · exact List.mem_append_right _ (List.mem_append_left _ (by decide))
  · cases arm with
    | goto index target =>
      exact List.mem_append_right _ (List.mem_cons_of_mem _ (List.mem_append_left _ (by decide)))
    | call index target =>
      exact List.mem_append_right _ (List.mem_cons_of_mem _ (List.mem_append_left _ (by decide)))

/-- What the loop reads of a body is what it reads of the original: the decode comments are
the same, and just the known targets are labelled in addition, each of them decoded on one
line. -/
structure Sees (body newbody : List Line) (known : List Nat) : Prop where
  decoded : ∀ target, decoded newbody target = decoded body target
  decodeLines : ∀ target, decodeLines newbody target = decodeLines body target
  labelled : ∀ target, labelled newbody target = (labelled body target || known.contains target)
  once : ∀ target ∈ known, FixSwitches.decodeLines body target = 1

/-- The entries are read as on the original body; only the labels still needed differ. The
induction is on the indices: a target that is labelled meanwhile was reachable before, as
only targets that are decoded on one line get labels. -/
theorem addEntries_sees {body newbody : List Line} {known : List Nat}
    (sees : Sees body newbody known)
    (rom : List UInt8) (dump : Dump) (offset : Nat) (indices : List Nat) (adds : List Line)
    (labels : List Nat) (once : ∀ target ∈ labels, decodeLines body target = 1) :
    addEntries rom dump newbody offset indices (adds, labels) =
      (entries rom dump body offset indices).map (fun arms => (adds ++ arms.map Arm.line,
        newLabels body known arms labels)) := by
  induction indices generalizing adds labels with
  | nil => simp [addEntries, entries, Except.map, newLabels]
  | cons index rest inductionHypothesis =>
    rw [addEntries, entries, entry]
    cases read : word rom (offset + 4 * index) with
    | none => rfl
    | some target =>
      simp only [sees.decoded, sees.labelled, sees.decodeLines]
      cases decodes : decoded body target with
      | false =>
        cases starts : funcAt dump target with
        | false => rfl
        | true =>
          simp only [Bool.false_eq_true, if_false, if_true, inductionHypothesis _ _ once]
          cases entries rom dump body offset rest <;> simp [Except.map, newLabels, Arm.line]
      | true =>
        by_cases present : (labelled body target || known.contains target ||
            labels.contains target) = true
        · have reachable : labelled body target = true ∨
              decodeLines body target = 1 := by
            simp only [Bool.or_eq_true, List.contains_iff_mem] at present
            obtain (old | earlier) | new := present
            · exact Or.inl old
            · exact Or.inr (sees.once target earlier)
            · exact Or.inr (once target new)
          rw [if_pos rfl, if_pos rfl, if_pos present, if_pos reachable,
            inductionHypothesis _ _ once]
          cases entries rom dump body offset rest with
          | error failure => rfl
          | ok arms =>
            simp only [Except.map, newLabels, if_pos present]
            simp [Arm.line]
        · have unlabelled : ¬ labelled body target = true := by
            simp only [Bool.or_eq_true, not_or] at present
            exact present.1.1
          rw [if_pos rfl, if_pos rfl, if_neg present]
          by_cases single : decodeLines body target = 1
          · have onceNow : ∀ other ∈ labels ++ [target], decodeLines body other = 1 := by
              intro other member
              rcases List.mem_append.mp member with earlier | last
              · exact once other earlier
              · rw [List.mem_singleton.mp last]
                exact single
            rw [if_pos single, if_pos (Or.inr single), inductionHypothesis _ _ onceNow]
            cases entries rom dump body offset rest with
            | error failure => rfl
            | ok arms =>
              simp only [Except.map, newLabels, if_neg present]
              simp [Arm.line]
          · rw [if_neg single, if_neg (by simp [unlabelled, single])]
            rfl

section Grown

variable (body : List Line) (additions : List Addition)
  (placed : ∀ addition ∈ additions, addition.Placed body)
include placed

/-- Every line inserted by placed additions is foreign. -/
theorem grown_foreign :
    ∀ pair ∈ grow (additions.map Addition.mark) body, ∀ line ∈ pair.1, Foreign line := by
  refine grow_foreign _ body Foreign (fun mark among => ?_)
  obtain ⟨addition, member, rfl⟩ := List.mem_map.mp among
  exact addition_foreign body addition (placed addition member)

/-- Additions decode nothing. -/
theorem decoded_grown (target : Nat) :
    decoded (grown body additions) target = decoded body target := by
  have foreign := grown_foreign body additions placed
  rw [decoded, grown, any_lines _ _
    (fun pair member line inside => (foreign pair member line inside).decodes target),
    original_grow]
  rfl

/-- Additions are no decode lines. -/
theorem decodeLines_grown (target : Nat) :
    decodeLines (grown body additions) target = decodeLines body target := by
  have foreign := grown_foreign body additions placed
  rw [decodeLines, grown, countP_lines _ _ (fun pair member line inside =>
    decodes_start target line ((foreign pair member line inside).decodes target)), original_grow]
  rfl

/-- A target is labelled when it was, or when one of the additions labels it, as a label goes in
front of a line that decodes its target and is read back from there. -/
theorem labelled_grown (target : Nat) : labelled (grown body additions) target =
    (labelled body target || (additions.filterMap Addition.target?).contains target) := by
  rw [Bool.eq_iff_iff, Bool.or_eq_true, List.contains_iff_mem, labelled, labelled, List.any_eq_true,
    List.any_eq_true]
  constructor
  · rintro ⟨line, member, isLabelled⟩
    rcases (mem_grow _ _ _).mp member with own | ⟨mark, among, x, _, _, inBlock⟩
    · exact Or.inl ⟨line, own, isLabelled⟩
    · obtain ⟨addition, inAdditions, rfl⟩ := List.mem_map.mp among
      refine Or.inr (List.mem_filterMap.mpr ⟨addition, inAdditions, ?_⟩)
      cases addition with
      | label other =>
        rw [List.mem_singleton.mp inBlock, isLabel_label] at isLabelled
        simpa [Addition.target?] using isLabelled
      | block site bound offset arms =>
        simp [block_unlabelled site bound offset arms target line inBlock] at isLabelled
  · rintro (⟨line, own, isLabelled⟩ | known)
    · exact ⟨line, (mem_grow _ _ _).mpr (Or.inl own), isLabelled⟩
    · obtain ⟨addition, inAdditions, same⟩ := List.mem_filterMap.mp known
      cases addition with
      | block site bound offset arms => simp [Addition.target?] at same
      | label other =>
        obtain rfl : other = target := by simpa [Addition.target?] using same
        have once : decodeLines body other = 1 := placed _ inAdditions
        have someLine : 0 < body.countP (decodeText other).isPrefixOf :=
          lt_of_lt_of_eq Nat.zero_lt_one once.symm
        obtain ⟨x, inBody, starts⟩ := List.countP_pos_iff.mp someLine
        refine ⟨label other ++ [':'],
          (mem_grow _ _ _).mpr (Or.inr ⟨_, List.mem_map_of_mem inAdditions, x, inBody,
          starts, List.mem_singleton_self _⟩), ?_⟩
        simp [isLabel_label]

/-- A block put before the only line that is wanted is one more addition. -/
theorem insertBefore_grown (addition : Addition) (once : body.countP addition.mark.1 = 1)
    (unwanted : ∀ line, Foreign line → addition.mark.1 line = false) :
    insertBefore addition.mark.1 addition.mark.2 (grown body additions) = grown body
      (additions ++ [addition]) := by
  have foreign := grown_foreign body additions placed
  rw [grown, insertBefore_lines _ _ _
    (fun pair member line inside => unwanted line (foreign pair member line inside)),
    put_grow _ _ _ once, grown, List.map_append, List.map_singleton]

/-- The targets that additions label are decoded on one line. -/
theorem known_once (target : Nat) (known : target ∈ additions.filterMap Addition.target?) :
    decodeLines body target = 1 := by
  obtain ⟨addition, inAdditions, same⟩ := List.mem_filterMap.mp known
  cases addition with
  | block site bound offset arms => simp [Addition.target?] at same
  | label other =>
    obtain rfl : other = target := by simpa [Addition.target?] using same
    exact placed _ inAdditions

/-- A grown body reads as the original. -/
theorem grown_sees : Sees body (grown body additions) (additions.filterMap Addition.target?) where
  decoded := decoded_grown body additions placed
  decodeLines := decodeLines_grown body additions placed
  labelled := labelled_grown body additions placed
  once := known_once body additions placed

/-- Labels are put before the decode lines of their targets. Each target has one such line, and
what has been put in decodes nothing, so each label finds the line of the original. -/
theorem addLabels_grown (labels : List Nat)
    (once : ∀ target ∈ labels, decodeLines body target = 1) :
    addLabels labels (grown body additions) = grown body (additions ++ labels.map .label) := by
  induction labels generalizing additions with
  | nil => simp [addLabels]
  | cons target rest inductionHypothesis =>
    have single := once target List.mem_cons_self
    have placedNow : ∀ addition ∈ additions ++ [.label target], addition.Placed body := by
      intro addition member
      rcases List.mem_append.mp member with earlier | last
      · exact placed addition earlier
      · rw [List.mem_singleton.mp last]
        exact single
    have step := insertBefore_grown body additions placed (.label target) single
      (fun line foreign => decodes_start target line (foreign.decodes target))
    have later := inductionHypothesis (additions ++ [.label target]) placedNow
      (fun other member => once other (List.mem_cons_of_mem target member))
    rw [addLabels, List.foldl_cons]
    simp only [Addition.mark] at step
    rw [step]
    simpa [addLabels] using later

end Grown

/-! ## Entries -/

section Entries

variable (rom : List UInt8) (dump : Dump) (body : List Line) (offset : Nat)

/-- The arms are those of the single entries, one an index, in order; reading stops at no
failure. -/
theorem entries_ok (indices : List Nat) (arms : List Arm) :
    entries rom dump body offset indices = .ok arms ↔
    List.Forall₂ (fun index arm => entry rom dump body offset index = .ok arm) indices arms := by
  induction indices generalizing arms with
  | nil => cases arms <;> simp [entries]
  | cons index rest inductionHypothesis =>
    rw [entries]
    cases first : entry rom dump body offset index with
    | error failure => cases arms <;> simp [first]
    | ok arm =>
      cases others : entries rom dump body offset rest with
      | error failure =>
        have impossible (arms : List Arm) : ¬ List.Forall₂ (fun index arm =>
            entry rom dump body offset index = .ok arm) rest arms := by
          intro listed
          simpa [others] using (inductionHypothesis arms).mpr listed
        cases arms <;> simp [Except.map, impossible]
      | ok found =>
        have listed (more : List Arm) : List.Forall₂ (fun index arm =>
            entry rom dump body offset index = .ok arm) rest more ↔ found = more := by
          rw [← inductionHypothesis more, others]
          exact Except.ok.injEq found more ▸ Iff.rfl
        cases arms <;> simp [Except.map, first, listed]

/-- What an entry's arm says: a decoded target is gone to, any other one called. An entry past the
ROM's end has no arm. -/
theorem entry_ok (index : Nat) (arm : Arm) : entry rom dump body offset index = .ok arm ↔
    ∃ target, word rom (offset + 4 * index) = some target ∧
      ((decoded body target = true ∧ (labelled body target = true ∨ decodeLines body target = 1) ∧
          arm = .goto index target) ∨
        (decoded body target = false ∧ funcAt dump target = true ∧ arm = .call index target)) := by
  rw [entry]
  cases word rom (offset + 4 * index) with
  | none => simp
  | some target =>
    cases decodes : decoded body target with
    | true =>
      by_cases reachable : labelled body target = true ∨ decodeLines body target = 1
      · simpa [decodes, reachable] using eq_comm
      · simp [decodes, reachable]
    | false =>
      cases starts : funcAt dump target with
      | true => simpa [decodes, starts] using eq_comm
      | false => simp [decodes, starts]

/-- The index of an arm is that of its entry. -/
theorem entry_index (index : Nat) (arm : Arm) (reads : entry rom dump body offset index = .ok arm) :
    arm.index = index := by
  obtain ⟨target, _, ⟨_, _, rfl⟩ | ⟨_, _, rfl⟩⟩ :=
    (entry_ok rom dump body offset index arm).mp reads
  · rfl
  · rfl

/-- The arms carry the indices that were read. -/
theorem entries_indices (indices : List Nat) (arms : List Arm)
    (read : entries rom dump body offset indices = .ok arms) : arms.map Arm.index = indices := by
  have listed := (entries_ok rom dump body offset indices arms).mp read
  clear read
  induction listed with
  | nil => rfl
  | cons first _ inductionHypothesis =>
    rw [List.map_cons, entry_index rom dump body offset _ _ first, inductionHypothesis]

/-- The arms are exactly those of the entries read. -/
theorem entries_member (indices : List Nat) (arms : List Arm)
    (read : entries rom dump body offset indices = .ok arms) (arm : Arm) :
    arm ∈ arms ↔ ∃ index ∈ indices, entry rom dump body offset index = .ok arm := by
  have listed := (entries_ok rom dump body offset indices arms).mp read
  clear read
  induction listed with
  | nil => simp
  | @cons index other _ _ first _ inductionHypothesis =>
    have here : arm = other ↔ entry rom dump body offset index = .ok arm := by
      rw [first, Except.ok.injEq, eq_comm]
    rw [List.mem_cons, List.exists_mem_cons_iff, here]
    exact or_congr_right inductionHypothesis

/-- An arm with a given index is that entry's. -/
theorem entries_at (indices : List Nat) (arms : List Arm)
    (read : entries rom dump body offset indices = .ok arms) (arm : Arm)
    (among : arm.index ∈ indices) :
    arm ∈ arms ↔ entry rom dump body offset arm.index = .ok arm := by
  rw [entries_member rom dump body offset indices arms read]
  constructor
  · rintro ⟨index, _, reads⟩
    rw [entry_index rom dump body offset index arm reads]
    exact reads
  · exact fun reads => ⟨arm.index, among, reads⟩

/-- The targets gone to are labelled or decoded on one line, as entries for other targets fail. By
induction on the arms that are read. -/
theorem entries_goto (indices : List Nat) (arms : List Arm)
    (read : entries rom dump body offset indices = .ok arms)
    (index target : Nat) (member : .goto index target ∈ arms) :
    labelled body target = true ∨ decodeLines body target = 1 := by
  have listed := (entries_ok rom dump body offset indices arms).mp read
  clear read
  induction listed with
  | nil => simp at member
  | cons first _ inductionHypothesis =>
    rcases List.mem_cons.mp member with rfl | later
    · obtain ⟨found, _, ⟨_, reachable, same⟩ | ⟨_, _, same⟩⟩ :=
        (entry_ok rom dump body offset _ _).mp first
      · obtain ⟨_, rfl⟩ := Arm.goto.inj same
        exact reachable
      · simp at same
    · exact inductionHypothesis later

/-- Reading a run of entries fails at its first failing entry, and with its failure. Those before
it have been read as arms. -/
theorem entries_error (start count : Nat) (failure : Failure) :
    entries rom dump body offset (List.range' start count) = .error failure ↔
      ∃ index, start ≤ index ∧ index < start + count ∧
        entry rom dump body offset index = .error failure ∧
        ∀ earlier, start ≤ earlier → earlier < index →
        ∃ arm, entry rom dump body offset earlier = .ok arm := by
  induction count generalizing start with
  | zero =>
    simp only [List.range'_zero, entries]
    constructor
    · simp
    · rintro ⟨index, _, _, _, _⟩
      omega
  | succ count inductionHypothesis =>
    rw [List.range'_succ, entries]
    cases first : entry rom dump body offset start with
    | error other =>
      constructor
      · rintro same
        obtain rfl : other = failure := by simpa using same
        exact ⟨start, by omega, by omega, first, fun earlier _ _ => by omega⟩
      · rintro ⟨index, lower, upper, fails, readable⟩
        by_cases here : index = start
        · rw [here, first] at fails
          simpa using fails
        · obtain ⟨arm, reads⟩ := readable start (by omega) (by omega)
          simp [first] at reads
    | ok arm =>
      have later := inductionHypothesis (start + 1)
      have mapped : (entries rom dump body offset (List.range' (start + 1) count)).map (arm :: ·) =
        .error failure ↔
          entries rom dump body offset (List.range' (start + 1) count) = .error failure := by
        cases entries rom dump body offset (List.range' (start + 1) count) <;> simp [Except.map]
      rw [mapped, later]
      constructor
      · rintro ⟨index, lower, upper, fails, readable⟩
        refine ⟨index, by omega, by omega, fails, fun earlier above below => ?_⟩
        by_cases here : earlier = start
        · exact ⟨arm, by rw [here, first]⟩
        · exact readable earlier (by omega) below
      · rintro ⟨index, lower, upper, fails, readable⟩
        have beyond : index ≠ start := by
          intro here
          simp [here, first] at fails
        exact ⟨index,
          by omega, by omega, fails, fun earlier above below => readable earlier (by omega) below⟩

end Entries

/-- The targets that get a label are gone to and not labelled yet, neither in the body nor by an
earlier addition. -/
theorem newLabels_spec (body : List Line) (known : List Nat) (arms : List Arm) (labels : List Nat)
    (target : Nat) (member : target ∈ newLabels body known arms labels) : target ∈ labels ∨
      (labelled body target = false ∧ target ∉ known ∧ ∃ index, .goto index target ∈ arms) := by
  induction arms generalizing labels with
  | nil => exact Or.inl member
  | cons arm rest inductionHypothesis =>
    cases arm with
    | call index other =>
      obtain old | ⟨unlabelled, unknown, later, among⟩ := inductionHypothesis labels member
      · exact Or.inl old
      · exact Or.inr ⟨unlabelled, unknown, later, List.mem_cons_of_mem _ among⟩
    | goto index other =>
      rw [newLabels] at member
      split at member
      · obtain old | ⟨unlabelled, unknown, later, among⟩ := inductionHypothesis labels member
        · exact Or.inl old
        · exact Or.inr ⟨unlabelled, unknown, later, List.mem_cons_of_mem _ among⟩
      · next fresh =>
        obtain old | ⟨unlabelled, unknown, later, among⟩ :=
          inductionHypothesis (labels ++ [other]) member
        · rcases List.mem_append.mp old with earlier | last
          · exact Or.inl earlier
          · obtain rfl := List.mem_singleton.mp last
            simp only [Bool.or_eq_true, not_or, Bool.not_eq_true] at fresh
            exact Or.inr ⟨fresh.1.1, by simpa using fresh.1.2, index, List.mem_cons_self⟩
        · exact Or.inr ⟨unlabelled, unknown, later, List.mem_cons_of_mem _ among⟩

/-- Labels that were collected stay. -/
theorem newLabels_keeps (body : List Line) (known : List Nat) (arms : List Arm)
    (labels : List Nat) :
    labels ⊆ newLabels body known arms labels := by
  induction arms generalizing labels with
  | nil => exact fun _ member => member
  | cons arm rest inductionHypothesis =>
    cases arm with
    | call index other => exact inductionHypothesis labels
    | goto index other =>
      rw [newLabels]
      split
      · exact inductionHypothesis labels
      · exact fun target member => inductionHypothesis _ (List.mem_append_left _ member)

/-- Every target gone to is labelled in the end: it was in the body, by an earlier addition, or is
among the new labels. -/
theorem newLabels_covers (body : List Line) (known : List Nat) (arms : List Arm) (labels : List Nat)
    (index target : Nat) (member : .goto index target ∈ arms) :
    labelled body target = true ∨ target ∈ known ∨ target ∈ newLabels body known arms labels := by
  induction arms generalizing labels with
  | nil => simp at member
  | cons arm rest inductionHypothesis =>
    cases arm with
    | call index other => exact inductionHypothesis labels (by simpa using member)
    | goto first other =>
      rw [newLabels]
      rcases List.mem_cons.mp member with same | later
      · obtain ⟨_, rfl⟩ := Arm.goto.inj same
        split
        · next present =>
          simp only [Bool.or_eq_true, List.contains_iff_mem] at present
          obtain (old | known) | new := present
          · exact Or.inl old
          · exact Or.inr (Or.inl known)
          · exact Or.inr (Or.inr (newLabels_keeps body known rest labels new))
        · exact Or.inr (Or.inr (newLabels_keeps body known rest _ (by simp)))
      · split
        · exact inductionHypothesis labels later
        · exact inductionHypothesis _ later

/-! ## Sites -/

section Sites

variable (rom : List UInt8) (dump : Dump) (body : List Line)

/-- A site is a default arm with what stands before it. -/
theorem mem_sites (before : List Line) (site : Site) : (before, site) ∈ sites body ↔
    ∃ line after, body = before ++ line :: after ∧ siteRe line = some site := by
  simp only [sites, List.mem_filterMap, Option.map_eq_some_iff, Prod.mk.injEq]
  constructor
  · rintro ⟨⟨front, line, after⟩, member, found, isSite, rfl, rfl⟩
    exact ⟨line, after, (mem_contexts _ _).mp member, isSite⟩
  · rintro ⟨line, after, split, isSite⟩
    exact ⟨(before, line, after), (mem_contexts _ _).mpr split, site, isSite, rfl, rfl⟩

/-- The sites of a body are its default arms, in order. -/
theorem sites_texts : (sites body).map Prod.snd = body.filterMap siteRe := by
  have elements := congrArg (List.filterMap siteRe) (contexts_elements body)
  rw [List.filterMap_map] at elements
  rw [← elements, sites, List.map_filterMap]
  refine List.filterMap_congr (fun c _ => ?_)
  simp [Option.map_map, Function.comp_def]

/-- What the verdict says of a short site whose table is found. -/
theorem verdict_reads (s : List Line × Site) (bound offset : Nat)
    (reads : Reads dump body s bound offset) :
    verdict rom dump body s.1 s.2 =
      match entries rom dump body offset (List.range' (ncases s.1) (bound - ncases s.1)) with
      | .error failure => .failed failure
      | .ok arms => .completed bound offset arms := by
  obtain ⟨guarded, short, first, name, start, mapped⟩ := reads
  have few : ¬ bound ≤ ncases s.1 := by omega
  simp only [verdict, guarded, few, if_false, start, mapped]

/-- A site is completed when its entries are read, from the number of arms up to the guard, and
its guard, its first address and its table are known. -/
theorem verdict_completed (s : List Line × Site) (bound offset : Nat) (arms : List Arm) :
    verdict rom dump body s.1 s.2 = .completed bound offset arms ↔ Reads dump body s bound offset ∧
      entries rom dump body offset (List.range' (ncases s.1) (bound - ncases s.1)) = .ok arms := by
  constructor
  · intro completed
    rw [verdict] at completed
    cases guarded : guard body s.1 with
    | none => simp [guarded] at completed
    | some limit =>
      by_cases enough : limit ≤ ncases s.1
      · simp [guarded, enough] at completed
      · simp only [guarded, enough, if_false] at completed
        cases start : firstAddr body with
        | none => simp [start] at completed
        | some first =>
          simp only [start] at completed
          cases mapped : tableRomOffset dump (value 16 s.2.table) first with
          | none => simp [mapped] at completed
          | some located =>
            obtain ⟨name, romOffset⟩ := located
            simp only [mapped] at completed
            cases read :
              entries rom dump body romOffset (List.range' (ncases s.1) (limit - ncases s.1)) with
            | error failure => simp [read] at completed
            | ok found =>
              simp only [read, Verdict.completed.injEq] at completed
              obtain ⟨rfl, rfl, rfl⟩ := completed
              exact ⟨⟨guarded, by omega, first, name, start, mapped⟩, read⟩
  · rintro ⟨reads, read⟩
    rw [verdict_reads rom dump body s bound offset reads, read]

/-- The targets that a completed site labels are decoded on one line: an arm that goes to a
target without a label needs that. -/
theorem newLabels_once (known : List Nat) (offset : Nat) (indices : List Nat) (arms : List Arm)
    (read : entries rom dump body offset indices = .ok arms) :
    ∀ target ∈ newLabels body known arms [], decodeLines body target = 1 := by
  intro target member
  obtain old | ⟨unlabelled, _, index, inArms⟩ := newLabels_spec _ _ _ _ _ member
  · cases old
  · obtain labelled | once :=
      entries_goto rom dump body offset indices arms read index target inArms
    · rw [unlabelled] at labelled
      cases labelled
    · exact once

/-- The additions of a completed site have their places. -/
theorem siteAdditions_placed (additions : List Addition) (before : List Line) (site : Site)
    (member : (before, site) ∈ sites body) (bound offset : Nat) (arms : List Arm)
    (indices : List Nat) (read : entries rom dump body offset indices = .ok arms) :
    ∀ addition ∈ siteAdditions body additions site bound offset arms, addition.Placed body := by
  intro addition among
  rcases List.mem_append.mp among with isLabel | isBlock
  · obtain ⟨target, inLabels, rfl⟩ := List.mem_map.mp isLabel
    exact newLabels_once rom dump body _ offset indices arms read target inLabels
  · rw [List.mem_singleton.mp isBlock]
    obtain ⟨line, after, split, isSite⟩ := (mem_sites body before site).mp member
    exact ⟨line, by simp [split], isSite⟩

/-- The additions of the plan have their places: a label's target is on one decode line, and a
block goes in front of its own default arm. -/
theorem plan_placed (rest : List (List Line × Site)) (among : rest ⊆ sites body)
    (additions : List Addition) (placed : ∀ addition ∈ additions, addition.Placed body) :
    ∀ addition ∈ plan rom dump body rest additions, addition.Placed body := by
  induction rest generalizing additions with
  | nil => exact placed
  | cons first rest inductionHypothesis =>
    obtain ⟨before, site⟩ := first
    have later := fun additions =>
      inductionHypothesis (fun s member => among (List.mem_cons_of_mem _ member)) additions
    rw [plan]
    split
    · next bound offset arms completed =>
      refine later _ (fun addition member => ?_)
      rcases List.mem_append.mp member with earlier | new
      · exact placed addition earlier
      · obtain ⟨_, read⟩ :=
          (verdict_completed rom dump body (before, site) bound offset arms).mp completed
        exact siteAdditions_placed rom dump body additions before site
          (among List.mem_cons_self) bound
          offset arms _ read addition new
    · exact later additions placed

/-- The plan keeps what was added before. -/
theorem plan_keeps (rest : List (List Line × Site)) (additions : List Addition) :
    additions ⊆ plan rom dump body rest additions := by
  induction rest generalizing additions with
  | nil => exact fun _ member => member
  | cons first rest inductionHypothesis =>
    rw [plan]
    split
    · exact fun addition member => inductionHypothesis _ (List.mem_append_left _ member)
    · exact inductionHypothesis additions

/-- Only targets without a label get one. By induction on the sites, since a site only adds labels
for targets that are not labelled in the body. -/
theorem plan_unlabelled (rest : List (List Line × Site)) (additions : List Addition) (target : Nat)
    (member : .label target ∈ plan rom dump body rest additions) :
    .label target ∈ additions ∨ labelled body target = false := by
  induction rest generalizing additions with
  | nil => exact Or.inl member
  | cons first rest inductionHypothesis =>
    rw [plan] at member
    split at member
    · obtain added | unlabelled := inductionHypothesis _ member
      · simp only [siteAdditions, List.mem_append, List.mem_map, Addition.label.injEq,
          exists_eq_right, List.mem_singleton, reduceCtorEq, or_false] at added
        obtain old | new := added
        · exact Or.inl old
        · obtain impossible | ⟨unlabelled, _⟩ := newLabels_spec _ _ _ _ _ new
          · simp at impossible
          · exact Or.inr unlabelled
      · exact Or.inr unlabelled
    · exact inductionHypothesis additions member

/-- Every target that a planned arm goes to is labelled in the end, at its own site or at an
earlier one; later sites add to the plan only. -/
theorem plan_covers (rest : List (List Line × Site)) (additions : List Addition)
    (s : List Line × Site) (among : s ∈ rest) (bound offset : Nat) (arms : List Arm)
    (completed : verdict rom dump body s.1 s.2 = .completed bound offset arms) (index target : Nat)
    (goes : .goto index target ∈ arms) :
    labelled body target = true ∨ .label target ∈ plan rom dump body rest additions := by
  induction rest generalizing additions with
  | nil => simp at among
  | cons first rest inductionHypothesis =>
    rcases List.mem_cons.mp among with rfl | later
    · obtain ⟨before, site⟩ := s
      simp only [plan, completed]
      obtain old | known | new :=
        newLabels_covers body (additions.filterMap Addition.target?) arms [] index target goes
      · exact Or.inl old
      · right
        obtain ⟨addition, inAdditions, same⟩ := List.mem_filterMap.mp known
        cases addition with
        | block site bound offset arms => simp [Addition.target?] at same
        | label other =>
          obtain rfl : other = target := by simpa [Addition.target?] using same
          exact plan_keeps rom dump body rest _ (List.mem_append_left _ inAdditions)
      · right
        exact plan_keeps rom dump body rest _
          (List.mem_append_right _ (List.mem_append_left _ (List.mem_map_of_mem new)))
    · rw [plan]
      split
      · exact inductionHypothesis _ later
      · exact inductionHypothesis additions later

variable (distinct : ((sites body).map Prod.snd).Nodup)
include distinct

/-- A site stands on one line. -/
theorem site_once (before : List Line) (site : Site) (member : (before, site) ∈ sites body) :
    body.countP (fun line => siteRe line == some site) = 1 := by
  have counted : (body.filterMap siteRe).count site = 1 := by
    rw [← sites_texts]
    exact List.count_eq_one_of_mem distinct (List.mem_map.mpr ⟨_, member, rfl⟩)
  rw [List.count_filterMap] at counted
  exact counted

/-- One turn of the loop follows the verdict. The body so far is the original with the additions
of the plan, which decode nothing, close nothing and open no switch, so the turn reads what the
original says. -/
theorem fixSite_grown (additions : List Addition)
    (placed : ∀ addition ∈ additions, addition.Placed body)
    (before : List Line) (site : Site) (member : (before, site) ∈ sites body) :
    fixSite rom dump body (grown body additions) before site =
      match verdict rom dump body before site with
      | .kept => .kept
      | .unmapped => .unmapped
      | .failed failure => .failed failure
      | .completed bound offset arms =>
        .completed (grown body (additions ++
            siteAdditions body additions site bound offset arms)) := by
  rw [fixSite, verdict]
  cases guard body before with
  | none => rfl
  | some bound =>
    by_cases enough : bound ≤ ncases before
    · simp [enough]
    · simp only [enough, if_false]
      cases firstAddr body with
      | none => rfl
      | some first =>
        cases mapped : tableRomOffset dump (value 16 site.table) first with
        | none => simp only [mapped]
        | some located =>
          obtain ⟨name, offset⟩ := located
          simp only [mapped,
            addEntries_sees (grown_sees body additions placed) rom dump offset _ [] [] (by simp)]
          cases read :
            entries rom dump body offset (List.range' (ncases before) (bound - ncases before)) with
          | error failure => simp only [Except.map]
          | ok arms =>
            have placedNow :=
              siteAdditions_placed rom dump body additions before site member bound offset
              arms _ read
            have labelsPlaced : ∀ addition ∈ additions ++
              (newLabels body (additions.filterMap Addition.target?) arms
                []).map .label, addition.Placed body := by
              intro addition among
              rcases List.mem_append.mp among with earlier | new
              · exact placed addition earlier
              · exact placedNow addition (List.mem_append_left _ new)
            have labels := addLabels_grown body additions placed
              (newLabels body (additions.filterMap Addition.target?) arms [])
              (fun target inLabels =>
                placedNow (.label target) (List.mem_append_left _ (List.mem_map_of_mem inLabels)))
            have block := insertBefore_grown body _ labelsPlaced (.block site bound offset arms)
              (site_once body distinct before site member)
                (fun line foreign => by simp [Addition.mark, foreign.site])
            simp only [Addition.mark] at block
            simp only [Except.map, List.nil_append, labels, block, siteAdditions, List.append_assoc]

/-- The loop ends the run when a verdict raises. Otherwise it makes the planned
additions and counts the failures. -/
theorem fixSites_grown (rest : List (List Line × Site)) (among : rest ⊆ sites body)
    (additions : List Addition)
    (placed : ∀ addition ∈ additions, addition.Placed body) (failed : Nat) :
    fixSites rom dump body rest (grown body additions) failed =
      if rest.any (fun s => (verdict rom dump body s.1 s.2).raises) then none
      else some (grown body (plan rom dump body rest additions),
        failed + rest.countP (fun s => (verdict rom dump body s.1 s.2).counts)) := by
  induction rest generalizing additions failed with
  | nil => simp [fixSites, plan]
  | cons first rest inductionHypothesis =>
    obtain ⟨before, site⟩ := first
    have later := fun additions =>
      inductionHypothesis (fun s member => among (List.mem_cons_of_mem _ member)) additions
    have placedNext := plan_placed rom dump body [(before, site)]
      (fun s member =>
        among (by simpa using Or.inl (List.mem_singleton.mp member))) additions placed
    have passes (silent : (verdict rom dump body before site).raises = false)
        (passed : (verdict rom dump body before site).counts = false) :
        fixSites rom dump body rest (grown body additions) failed =
          if ((before, site) :: rest).any (fun s => (verdict rom dump body s.1 s.2).raises) then
            none
          else some (grown body (plan rom dump body rest additions),
            failed + ((before, site) :: rest).countP
              (fun s => (verdict rom dump body s.1 s.2).counts)) := by
      rw [List.any_cons, silent, Bool.false_or, List.countP_cons, passed]
      exact later additions placed failed
    have counts (silent : (verdict rom dump body before site).raises = false)
        (counted : (verdict rom dump body before site).counts = true) :
        fixSites rom dump body rest (grown body additions) (failed + 1) =
          if ((before, site) :: rest).any (fun s => (verdict rom dump body s.1 s.2).raises) then
            none
          else some (grown body (plan rom dump body rest additions),
            failed + ((before, site) :: rest).countP
              (fun s => (verdict rom dump body s.1 s.2).counts)) := by
      rw [List.any_cons, silent, Bool.false_or, List.countP_cons, counted, if_pos rfl,
        ← Nat.add_assoc, Nat.add_right_comm]
      exact later additions placed (failed + 1)
    rw [fixSites, fixSite_grown rom dump body distinct additions placed before site
      (among List.mem_cons_self), plan]
    cases outcome : verdict rom dump body before site with
    | kept => exact passes (by rw [outcome]; rfl) (by rw [outcome]; rfl)
    | unmapped => exact counts (by rw [outcome]; rfl) (by rw [outcome]; rfl)
    | failed failure =>
      cases failure with
      | ambiguous => exact passes (by rw [outcome]; rfl) (by rw [outcome]; rfl)
      | missing => exact counts (by rw [outcome]; rfl) (by rw [outcome]; rfl)
      | raised =>
        have raises : (verdict rom dump body before site).raises = true := by rw [outcome]; rfl
        simp [raises]
    | completed bound offset arms =>
      have silent : (verdict rom dump body before site).raises = false := by rw [outcome]; rfl
      have passed : (verdict rom dump body before site).counts = false := by rw [outcome]; rfl
      simp only [plan, outcome] at placedNext
      rw [List.any_cons, silent, Bool.false_or, List.countP_cons, passed]
      exact later _ placedNext failed

/-- A body is grown by its plan, unless a verdict raises. -/
theorem fixBody_plan : fixBody rom dump body =
    if (sites body).any (fun s => (verdict rom dump body s.1 s.2).raises) then none
    else some (grown body (plan rom dump body (sites body) []),
      (sites body).countP (fun s => (verdict rom dump body s.1 s.2).counts)) := by
  have run := fixSites_grown rom dump body distinct (sites body) (List.Subset.refl _) [] (by simp) 0
  simpa [fixBody, grown] using run

end Sites

end NoMercyRecomp.SwitchPlan
