import NoMercyRecomp.TextReplace
import NoMercyRecomp.Findings

/-!
# Gotos out of the decoded span

The decoded instructions of a function end four bytes behind the last address. The pass
lets a span end eight bytes behind it. A branch to the address between the two is neither
rewritten nor reported; every other branch out of the span is one or the other, and the
rest of the file stays.

The promise is about the files that are written, piece by piece, text outside functions
included, and about the lines that are printed for each function.
-/

namespace NoMercyRecomp.BranchSpan

open TextScan SymbolTable Recompiled FixBackbranches Findings

/-- A branch target outside the decoded instructions, which end four bytes behind the last
address. -/
structure Outside (f : GenFunc) (target : Nat) : Prop where
  branch : target ∈ branchTargets f
  decoded : addrs f ≠ []
  outside : ¬((∃ a ∈ addrs f, a ≤ target) ∧ ∃ a ∈ addrs f, target < a + 4)

/-- The line is the label of a target. -/
def IsLabel (target : Nat) (line : Line) : Prop :=
  line = str "L_" ++ (hex8 target ++ [':']) ∨ line = str "L_" ++ (hex8 target ++ [':']) ++ ['\r']

/-- The comment in place of a label. -/
def comment (target : Nat) : Line :=
  str "/* [nomercy fix_backbranches] bogus label L_" ++ (hex8 target ++ str " removed */")

/-- Some gotos to targets of a set are calls now, and nothing else of the line is new. -/
inductive Calls (targets : Nat → Prop) : Line → Line → Prop where
  | nil : Calls targets [] []
  | keep (c : Char) (line after : Line) (rest : Calls targets line after) :
    Calls targets (c :: line) (c :: after)
  | call (target : Nat) (line after : Line) (among : targets target)
    (rest : Calls targets line after) :
      Calls targets (gotoText target ++ line) (callText target ++ after)

/-- A line mended: gotos to targets of the set have become calls, or the line was the label
of such a target and is a comment now. -/
def Mends (targets : Nat → Prop) (line after : Line) : Prop :=
  Calls targets line after ∨ ∃ target, targets target ∧ IsLabel target line ∧ after = comment target

/-- A function mended: nothing but gotos to the targets and their labels has changed, and
none of these is left. -/
structure Mended (targets : Nat → Prop) (before after : GenFunc) : Prop where
  name : after.name = before.name
  close : after.close = before.close
  tail : Mends targets before.tail after.tail
  body : List.Forall₂ (Mends targets) before.body after.body
  gone : ∀ target, targets target → ∀ line ∈ after.tail :: after.body,
    occurs (gotoText target) line = false ∧ ¬IsLabel target line

/-- What the pass makes of a piece of a file: text outside functions stays as it is, and a
function is mended for its targets outside. -/
inductive PieceMends : Piece → Piece → Prop where
  | text (line : Line) : PieceMends (.text line) (.text line)
  | func (before after : GenFunc) (mended : Mended (Outside before) before after) :
      PieceMends (.func before) (.func after)

/-- A written file against the file that was read, piece by piece. The pieces of a file hold
all its lines. -/
def FileMends (before after : List Line) : Prop :=
  List.Forall₂ PieceMends (pieces before) (pieces after)

/-- What the pass prints for a function, in the order of its targets. -/
def printed (dump : Dump) (f : GenFunc) : List Line := (badTargets f).map (branchReport dump f)

/-- What the pass promises of the tree. When it exits with zero, every written file is the
file that was read with its functions mended for all their targets outside. Every such
target that the section does not start a function at is reported as missing, and the exit
status is not zero. -/
structure Meets (dump : Dump) (files : List (List Line)) : Prop where
  mended : (fixTree dump files).2 = 0 → List.Forall₂ FileMends files (fixTree dump files).1
  reported : ∀ file ∈ files, ∀ f ∈ functions file, ∀ target, Outside f target →
    starts dump f target = false →
      (∃ lo hi, missingLine f.name (funcSec dump f.name) target lo hi ∈ printed dump f) ∧
        (fixTree dump files).2 ≠ 0

/-- A target outside that the pass takes to be inside, four bytes behind the last address. -/
def AtEnd (f : GenFunc) (target : Nat) : Prop := Outside f target ∧ inSpan (addrs f) target = true

/-- The sections start functions at all targets that the pass takes to be outside. -/
def Complete (dump : Dump) (files : List (List Line)) : Prop :=
  ∀ file ∈ files, ∀ f ∈ functions file, ∀ target ∈ badTargets f, starts dump f target = true

/-- The condition: a target at the end starts a function of the section, and unless the
run fails anyway, the function has no goto to it and no label for it. -/
def EndsClear (dump : Dump) (files : List (List Line)) : Prop :=
  ∀ file ∈ files, ∀ f ∈ functions file, ∀ target, AtEnd f target →
    starts dump f target = true ∧
      (Complete dump files → ∀ line ∈ f.tail :: f.body, occurs (gotoText target) line = false ∧
        ¬IsLabel target line)

/-! ## The texts -/

/-- What follows the first character of a goto. -/
def gotoRest (target : Nat) : Line := str "oto L_" ++ (hex8 target ++ [';'])

/-- A goto is spelled by some text. -/
theorem gotoText_ne_nil (target : Nat) : gotoText target ≠ [] := List.cons_ne_nil _ _

/-- A character that is no digit and none of a goto's letters does not occur in one. -/
theorem gotoText_absent (target : Nat) (c : Char) (letter : c ∉ str "goto L_;")
    (noDigit : isUpperHex c = false) :
    c ∉ gotoText target := by
  rw [gotoText, List.mem_cons, List.mem_append, List.mem_append]
  rintro (rfl | text | digit | semicolon)
  · exact letter (by decide)
  · exact letter (List.mem_cons_of_mem 'g' (List.mem_append_left [';'] text))
  · exact hex8_absent target c noDigit digit
  · rw [List.mem_singleton.mp semicolon] at letter
    exact letter (by decide)

/-- The letter of a goto's label does not occur in a call. -/
theorem callText_letter (target : Nat) : 'L' ∉ callText target := by
  rw [callText, funcName, List.mem_append, List.mem_append, List.mem_append]
  rintro (text | (text | digit) | text)
  · exact absurd text (by decide)
  · exact absurd text (by decide)
  · exact hex8_absent target 'L' (by decide) digit
  · exact absurd text (by decide)

/-- A call is fenced off from every goto. -/
theorem callText_fenced (target other : Nat) : Fenced (gotoText target) (callText other) where
  opens := ⟨'\x7b', _, rfl, gotoText_absent target '\x7b' (by decide) (by decide)⟩
  closes :=
    ⟨str "\x7b /* [nomercy fix_backbranches] out-of-span branch target */ " ++ (funcName other ++
    str "(rdram, ctx); return; "), '\x7d', by simp [callText,
    str], gotoText_absent target '\x7d' (by decide) (by decide)⟩
  absent := occurs_absent _ _ 'L' (by simp [gotoText, str]) (callText_letter other)

/-- A comment holds no goto. -/
theorem comment_goto (target other : Nat) : occurs (gotoText target) (comment other) = false := by
  apply occurs_absent _ _ ';' (by simp [gotoText])
  rw [comment, List.mem_append, List.mem_append]
  rintro (text | digit | text)
  · exact absurd text (by decide)
  · exact hex8_absent other ';' (by decide) digit
  · exact absurd text (by decide)

/-- A comment is no label. -/
theorem comment_label (target other : Nat) : ¬IsLabel target (comment other) := by
  rintro (same | same)
  · exact absurd (List.cons.inj same).1 (by decide)
  · exact absurd (List.cons.inj same).1 (by decide)

/-- A label's line holds no goto: no `g` is in `L_`, nor in eight digits, nor in the blanks before
or behind them. -/
theorem label_goto (target other : Nat) (line : Line) (label : IsLabel target line) :
    occurs (gotoText other) line = false := by
  have none : 'g' ∉ line := by
    have text : 'g' ∉ str "L_" ++ (hex8 target ++ [':']) := by
      rw [List.mem_append, List.mem_append]
      rintro (text | digit | text)
      · exact absurd text (by decide)
      · exact hex8_absent target 'g' (by decide) digit
      · exact absurd text (by decide)
    obtain rfl | rfl := label
    · exact text
    · rw [List.mem_append]
      rintro (before | text')
      · exact text before
      · exact absurd text' (by decide)
  exact occurs_absent _ line 'g' List.mem_cons_self none

/-- A line is the label of one target only: what follows its `L_` is eight digits and a colon, and
the digits of a target determine it. -/
theorem label_unique (target other : Nat) (line : Line) (label : IsLabel target line)
    (another : IsLabel other line) :
    target = other := by
  have colon (n : Nat) : ':' ∉ str "L_" ++ hex8 n := by
    rw [List.mem_append]
    rintro (text | digit)
    · exact absurd text (by decide)
    · exact hex8_absent n ':' (by decide) digit
  have read (n : Nat) (isLabel : IsLabel n line) : line.takeWhile (· != ':') = str "L_" ++
      hex8 n := by
    have run (ending : Line) :
        (str "L_" ++ hex8 n ++ ':' :: ending).takeWhile (· != ':') = str "L_" ++ hex8 n :=
      takeWhile_run _ _ ending ':' (fun c among =>
        bne_iff_ne.mpr (fun same => colon n (same ▸ among))) (by decide)
    obtain rfl | rfl := isLabel
    · simpa using run []
    · simpa using run ['\r']
  have digits : hex8 target = hex8 other :=
    List.append_cancel_left ((read target label).symm.trans (read other another))
  exact hex8_injective target other digits

/-! ## Rewriting one target -/

section Rewriting

variable {targets : Nat → Prop}

/-- A line is itself with no goto rewritten. -/
theorem calls_refl (line : Line) : Calls targets line line := by
  induction line with
  | nil => exact .nil
  | cons c line inductionHypothesis => exact .keep c line line inductionHypothesis

/-- What is rewritten for some targets is rewritten for more. -/
theorem Calls.mono {more : Nat → Prop} (wider : ∀ target, targets target → more target)
    {line after : Line} (calls : Calls targets line after) : Calls more line after := by
  induction calls with
  | nil => exact .nil
  | keep c line after _ inductionHypothesis => exact .keep c line after inductionHypothesis
  | call target line after among _ inductionHypothesis =>
    exact .call target line after (wider target among) inductionHypothesis

/-- A line that is mended for some targets is mended for more of them. -/
theorem Mends.mono {more : Nat → Prop} (wider : ∀ target, targets target → more target)
    {line after : Line} (mends : Mends targets line after) : Mends more line after := by
  obtain calls | ⟨target, among, label, same⟩ := mends
  · exact .inl (calls.mono wider)
  · exact .inr ⟨target, wider target among, label, same⟩

/-- What the rewritten line starts with, up to the first call, the line started with. A call opens
with a brace, so that a front without one ends before it. -/
theorem Calls.front {line after : Line} (calls : Calls targets line after) (front back : Line)
    (parts : after = front ++ back)
    (outside : '\x7b' ∉ front) : ∃ rest, line = front ++ rest ∧ Calls targets rest back := by
  induction calls generalizing front with
  | nil =>
    obtain ⟨rfl, rfl⟩ := List.append_eq_nil_iff.mp parts.symm
    exact ⟨[], rfl, .nil⟩
  | keep c line after rest inductionHypothesis =>
    cases front with
    | nil =>
      have same : c :: after = back := parts
      exact ⟨c :: line, rfl, same ▸ .keep c line after rest⟩
    | cons d front =>
      obtain ⟨rfl, later⟩ := List.cons.inj parts
      obtain ⟨remaining, rfl, done⟩ :=
        inductionHypothesis front later (fun among => outside (List.mem_cons_of_mem _ among))
      exact ⟨remaining, rfl, done⟩
  | call target line after among rest inductionHypothesis =>
    cases front with
    | nil =>
      have same : callText target ++ after = back := parts
      exact ⟨gotoText target ++ line, rfl, same ▸ .call target line after among rest⟩
    | cons d front =>
      have brace : '\x7b' = d := (List.cons.inj parts).1
      exact absurd (brace ▸ List.mem_cons_self) outside

/-- Rewriting one more target. The calls that are there already hold no goto, so the search passes
over them, and what it finds was in the line. -/
theorem Calls.replace {line after : Line} (calls : Calls targets line after) (target : Nat) :
    Calls (fun other => targets other ∨ other = target) line
      (replaceAll (gotoText target) (callText target) after) := by
  induction size : after.length using Nat.strong_induction_on generalizing line after with
  | _ size inductionHypothesis =>
    subst size
    cases calls with
    | nil => exact .nil
    | keep c line after rest =>
      cases found : lit (gotoText target) (c :: after) with
      | none =>
        rw [replaceAll_skip _ _ after c (gotoText_ne_nil target) found]
        exact .keep c line _ (inductionHypothesis after.length (by simp) rest rfl)
      | some behind =>
        have whole := (lit_eq_some _ _ behind).mp found
        obtain ⟨remaining, same, others⟩ :=
          (Calls.keep c line after rest).front (gotoText target) behind whole
          (gotoText_absent target '\x7b' (by decide) (by decide))
        have shorter : behind.length < (c :: after).length := by
          rw [whole, List.length_append]
          have some : 0 < (gotoText target).length :=
            List.length_pos_iff.mpr (gotoText_ne_nil target)
          omega
        rw [same, whole, replaceAll_here _ _ behind (gotoText_ne_nil target)]
        exact .call target remaining _ (.inr rfl)
          (inductionHypothesis behind.length shorter others rfl)
    | call other line after among rest =>
      have some : 0 < (callText other).length := List.length_pos_iff.mpr (by simp [callText, str])
      rw [(callText_fenced target other).replaceAll_behind _ after (gotoText_ne_nil target)]
      exact .call other line _ (.inl among)
        (inductionHypothesis after.length (by rw [List.length_append]; omega) rest rfl)

/-- A line without a call is the line it was. -/
theorem Calls.unchanged {line after : Line} (calls : Calls targets line after)
    (outside : '\x7b' ∉ after) : line = after := by
  obtain ⟨rest, same, done⟩ := calls.front after [] (List.append_nil after).symm outside
  cases done with
  | nil => rw [same, List.append_nil]

/-- No brace occurs in a label's line. -/
theorem label_brace (target : Nat) (line : Line) (label : IsLabel target line) : '\x7b' ∉ line := by
  have text : '\x7b' ∉ str "L_" ++ (hex8 target ++ [':']) := by
    rw [List.mem_append, List.mem_append]
    rintro (text | digit | text)
    · exact absurd text (by decide)
    · exact hex8_absent target '\x7b' (by decide) digit
    · exact absurd text (by decide)
  obtain rfl | rfl := label
  · exact text
  · rw [List.mem_append]
    rintro (before | ending)
    · exact text before
    · exact absurd ending (by decide)

/-- A label's line is turned into the comment, any other line is left. -/
theorem removeLabel_cases (target : Nat) (line : Line) :
    (IsLabel target line ∧ removeLabel target line = comment target) ∨
    (¬IsLabel target line ∧ removeLabel target line = line) := by
  by_cases label : IsLabel target line
  · exact .inl ⟨label, if_pos label⟩
  · exact .inr ⟨label, if_neg label⟩

/-- Mending a line for one more target: gotos that are left in it are turned into calls, a label
that comes to be of this target is commented out, and a comment stays. -/
theorem Mends.fixLine {line after : Line} (mends : Mends targets line after) (target : Nat) :
    Mends (fun other => targets other ∨ other = target) line
      (FixBackbranches.fixLine after target) := by
  unfold FixBackbranches.fixLine
  obtain calls | ⟨other, among, label, rfl⟩ := mends
  · have replaced := calls.replace target
    obtain ⟨label, removed⟩ | ⟨noLabel, kept⟩ :=
        removeLabel_cases target (replaceAll (gotoText target) (callText target) after)
    · have same := replaced.unchanged (label_brace target _ label)
      rw [removed]
      exact .inr ⟨target, .inr rfl, same ▸ label, rfl⟩
    · rw [kept]
      exact .inl replaced
  · rw [replaceAll_absent _ _ _ (comment_goto target other)]
    obtain ⟨wrong, -⟩ | ⟨-, kept⟩ := removeLabel_cases target (comment other)
    · exact absurd wrong (comment_label target other)
    · rw [kept]
      exact .inr ⟨other, .inl among, label, rfl⟩

/-- A target without a goto and without the label of the line. -/
def Absent (target : Nat) (line : Line) : Prop :=
  occurs (gotoText target) line = false ∧ ¬IsLabel target line

/-- The rewritten target is gone from the line. -/
theorem fixLine_absent (line : Line) (target : Nat) : Absent target (fixLine line target) := by
  unfold fixLine
  obtain ⟨-, removed⟩ | ⟨noLabel, kept⟩ :=
    removeLabel_cases target (replaceAll (gotoText target) (callText target) line)
  · rw [removed]
    exact ⟨comment_goto target target, comment_label target target⟩
  · rw [kept]
    exact ⟨(callText_fenced target target).gone line (gotoText_ne_nil target), noLabel⟩

/-- A target that is absent stays absent: neither its goto nor its label comes to be in a line
when another target is rewritten. -/
theorem fixLine_keeps (line : Line) (target other : Nat) (absent : Absent target line) :
    Absent target (fixLine line other) := by
  unfold fixLine
  obtain ⟨-, removed⟩ | ⟨-, kept⟩ :=
    removeLabel_cases other (replaceAll (gotoText other) (callText other) line)
  · rw [removed]
    exact ⟨comment_goto target other, comment_label target other⟩
  · rw [kept]
    constructor
    · by_contra held
      rw [Bool.not_eq_false] at held
      have before := (callText_fenced target other).occurs_replaceAll (gotoText other) line
        (gotoText_ne_nil other) held
      rw [absent.1] at before
      cases before
    · intro label
      have unlinked : Calls (fun _ => False) line line := calls_refl line
      have replaced := unlinked.replace other
      have same := replaced.unchanged (label_brace target _ label)
      exact absent.2 (same ▸ label)

end Rewriting

/-! ## All targets -/

/-- A line mended for some targets, one after the other. -/
theorem foldl_mends (list : List Nat) (line : Line) :
    Mends (· ∈ list) line (list.foldl fixLine line) := by
  induction list using List.reverseRecOn with
  | nil => exact .inl (calls_refl line)
  | append_singleton list target inductionHypothesis =>
    rw [List.foldl_append]
    apply (inductionHypothesis.fixLine target).mono
    rintro other (among | rfl)
    · exact List.mem_append_left [target] among
    · exact List.mem_append_right list List.mem_cons_self

/-- An absent target stays absent over all targets. -/
theorem foldl_keeps (list : List Nat) (line : Line) (target : Nat) (absent : Absent target line) :
    Absent target (list.foldl fixLine line) := by
  induction list generalizing line with
  | nil => exact absent
  | cons other list inductionHypothesis =>
    exact inductionHypothesis (fixLine line other) (fixLine_keeps line target other absent)

/-- All the targets are gone from the line. -/
theorem foldl_absent (list : List Nat) (line : Line) (target : Nat) (among : target ∈ list) :
    Absent target (list.foldl fixLine line) := by
  obtain ⟨before, after, rfl⟩ := List.append_of_mem among
  rw [List.foldl_append, List.foldl_cons]
  exact foldl_keeps after _ target (fixLine_absent _ target)

/-- A target of eight digits stays where another one is rewritten, since the gotos of two such
targets differ within their length, and a label line is only removed for its own. -/
theorem fixLine_present (line : Line) (target other : Nat) (different : target ≠ other)
    (bounded : target < 2 ^ 32) (otherBounded : other < 2 ^ 32) (present : ¬Absent target line) :
    ¬Absent target (fixLine line other) := by
  unfold fixLine
  by_cases held : occurs (gotoText target) line = true
  · have length : (gotoRest target).length = (gotoRest other).length := by
      simp [gotoRest, hex8_length target bounded, hex8_length other otherBounded]
    have unequal : gotoRest target ≠ gotoRest other := by
      intro same
      have digits := List.append_cancel_right (List.append_cancel_left same)
      exact different (hex8_injective target other digits)
    have outside (n : Nat) : 'g' ∉ gotoRest n := by
      rw [gotoRest, List.mem_append, List.mem_append]
      rintro (text | digit | text)
      · exact absurd text (by decide)
      · exact hex8_absent n 'g' (by decide) digit
      · exact absurd text (by decide)
    have stays := occurs_replaceAll_other 'g' (gotoRest target) (gotoRest other)
      (callText other) line (outside target)
      (outside other) length unequal held
    obtain ⟨label, -⟩ | ⟨-, kept⟩ :=
      removeLabel_cases other (replaceAll (gotoText other) (callText other) line)
    · have none := label_goto other target _ label
      exact absurd (stays.symm.trans none) (by decide)
    · rw [kept]
      intro absent
      exact absurd (stays.symm.trans absent.1) (by decide)
  · rw [Bool.not_eq_true] at held
    have label : IsLabel target line := by
      by_contra noLabel
      exact present ⟨held, noLabel⟩
    rw [replaceAll_absent _ _ _ (label_goto target other line label)]
    obtain ⟨another, -⟩ | ⟨-, kept⟩ := removeLabel_cases other line
    · exact absurd (label_unique target other line label another) different
    · rw [kept]
      exact fun absent => absent.2 label

/-- A target that is not rewritten stays. -/
theorem foldl_present (list : List Nat) (line : Line) (target : Nat) (others : target ∉ list)
    (bounded : target < 2 ^ 32)
    (allBounded : ∀ other ∈ list, other < 2 ^ 32) (present : ¬Absent target line) :
    ¬Absent target (list.foldl fixLine line) := by
  induction list generalizing line with
  | nil => exact present
  | cons other list inductionHypothesis =>
    apply inductionHypothesis (fixLine line other)
      (fun among => others (List.mem_cons_of_mem other among))
      (fun next among => allBounded next (List.mem_cons_of_mem other among))
    apply fixLine_present line target other _ bounded (allBounded other List.mem_cons_self) present
    exact fun same => others (same ▸ List.mem_cons_self)

/-! ## The targets of a function -/

/-- A target outside is one that the pass takes to be outside, or one at the end: the pass's span
reaches two instructions behind the last, which the decoded one does not. -/
theorem outside_cases (f : GenFunc) (target : Nat) :
    Outside f target ↔ target ∈ badTargets f ∨ AtEnd f target := by
  rw [mem_badTargets]
  constructor
  · intro outside
    cases span : inSpan (addrs f) target with
    | false => exact .inl ⟨outside.decoded, outside.branch, rfl⟩
    | true => exact .inr ⟨outside, span⟩
  · rintro (⟨decoded, branch, span⟩ | atEnd)
    · refine ⟨branch, decoded, ?_⟩
      rintro ⟨⟨low, lowIn, above⟩, high, highIn, below⟩
      have wrong : inSpan (addrs f) target = true := by
        rw [inSpan, Bool.and_eq_true, List.any_eq_true, List.any_eq_true]
        exact ⟨⟨low, lowIn, decide_eq_true above⟩, high, highIn, decide_eq_true (by omega)⟩
      rw [span] at wrong
      cases wrong
    · exact atEnd.1

/-- The run exits with zero exactly when every target that the pass takes to be outside
starts a function. -/
theorem exit_iff (dump : Dump) (files : List (List Line)) :
    (fixTree dump files).2 = 0 ↔ Complete dump files := by
  unfold fixTree Complete missingTargets
  simp only [List.sum_eq_zero_iff, List.mem_map, forall_exists_index, and_imp,
    forall_apply_eq_imp_iff₂,
    List.length_eq_zero_iff, List.filter_eq_nil_iff, Bool.not_eq_true', Bool.not_eq_false]

/-! ## The files -/

/-- The lines of a function that the pass writes. -/
theorem fixFunc_lines (dump : Dump) (f : GenFunc) :
    (fixFunc dump f).tail :: (fixFunc dump f).body =
      (f.tail :: f.body).map (fun line => (fixedTargets dump f).foldl fixLine line) := rfl

/-- A function is mended for every target outside when these start functions, and the
targets at its end occur in none of its lines. -/
theorem fixFunc_mended (dump : Dump) (f : GenFunc)
    (starting : ∀ target ∈ badTargets f, starts dump f target = true)
    (clear : ∀ target, AtEnd f target → ∀ line ∈ f.tail :: f.body, Absent target line) :
    Mended (Outside f) f (fixFunc dump f) := by
  have wider (target : Nat) (fixed : target ∈ fixedTargets dump f) : Outside f target :=
    (outside_cases f target).mpr (.inl (List.mem_filter.mp fixed).1)
  refine ⟨rfl, rfl, (foldl_mends _ f.tail).mono wider, ?_, ?_⟩
  · apply List.forall₂_map_right_iff.mpr
    apply List.forall₂_same.mpr
    exact fun line _ => (foldl_mends _ line).mono wider
  · intro target outside line among
    rw [fixFunc_lines] at among
    obtain ⟨before, inBody, rfl⟩ := List.mem_map.mp among
    obtain bad | atEnd := (outside_cases f target).mp outside
    · exact foldl_absent _ before target (List.mem_filter.mpr ⟨bad, starting target bad⟩)
    · exact foldl_keeps _ before target (clear target atEnd before inBody)

/-- A mended line closes a function only where the line did. A call that was put in is no
part of the two characters that close, so these stood in the line before; a comment starts
with a slash. -/
theorem Mends.isOpen {targets : Nat → Prop} {line after : Line} (mends : Mends targets line after)
    (isOpen : isClose line = false) : isClose after = false := by
  obtain calls | ⟨target, -, -, rfl⟩ := mends
  · cases found : lit [';', '\x7d'] after with
    | none => simp [isClose, found]
    | some rest =>
      have opening := (lit_eq_some _ _ _).mp found
      obtain ⟨before, rfl, -⟩ := calls.front [';', '\x7d'] rest opening (by decide)
      simp [isClose, lit] at isOpen
  · rfl

/-- The pass keeps what a reader of the file finds a function by. -/
theorem fixFunc_keeps (dump : Dump) (file : List Line) (f : GenFunc) (inFile : f ∈ functions file) :
    Keeps (fixFunc dump) f where
  name := rfl
  close := rfl
  inside := by
    intro line among
    obtain ⟨before, inBody, rfl⟩ := List.mem_map.mp among
    exact (foldl_mends (fixedTargets dump f) before).isOpen
      (functions_open file f inFile before inBody)

/-- The written files are mended exactly when every function that the pass writes is. The
pieces of a written file are those of the file that was read, with the functions changed. -/
theorem written_iff (dump : Dump) (files : List (List Line)) :
    List.Forall₂ FileMends files (fixTree dump files).1 ↔
      ∀ file ∈ files, ∀ f ∈ functions file, Mended (Outside f) f (fixFunc dump f) := by
  have here (file : List Line) : FileMends file (changeFuncs (fixFunc dump) file) ↔
      ∀ f ∈ functions file, Mended (Outside f) f (fixFunc dump f) := by
    rw [FileMends, pieces_change _ file (fixFunc_keeps dump file), List.forall₂_map_right_iff,
      List.forall₂_same]
    constructor
    · intro mends f inFile
      cases mends (.func f) ((mem_functions file f).mp inFile) with
      | func _ _ mended => exact mended
    · intro mended piece among
      cases piece with
      | func f => exact .func f _ (mended f ((mem_functions file f).mpr among))
      | text line => exact .text line
  rw [fixTree, List.forall₂_map_right_iff, List.forall₂_same]
  exact forall₂_congr (fun file _ => here file)

/-- The report of a target as missing names that target: a report of a fixed target starts
with another letter, and the eight digits behind the section are the target's own. -/
theorem printed_missing (dump : Dump) (f : GenFunc) (target lo hi : Nat) (bounded : target < 2 ^ 32)
    (reported : missingLine f.name (funcSec dump f.name) target lo hi ∈ printed dump f) :
    target ∈ missingTargets dump f := by
  obtain ⟨other, bad, same⟩ := List.mem_map.mp reported
  rw [branchReport] at same
  cases starting : starts dump f other with
  | true =>
    rw [starting] at same
    exact absurd (List.cons.inj same).1 (by decide)
  | false =>
    rw [starting] at same
    have otherBounded := branchTargets_bounded f other ((mem_badTargets f other).mp bad).2.1
    have behind := List.append_cancel_left (List.cons.inj (List.append_cancel_left same)).2
    have digits := List.append_cancel_left
      (List.cons.inj (List.append_cancel_left (List.cons.inj behind).2)).2
    have lengths := (hex8_length other otherBounded).trans (hex8_length target bounded).symm
    obtain rfl : other = target :=
      hex8_injective other target (List.append_inj digits lengths).1
    exact List.mem_filter.mpr ⟨bad, by simp [starting]⟩

/-- What is printed for a function of the tree stands in the output of the run. -/
theorem printed_output (dump : Dump) (files : List (List Line)) (file : List Line)
    (inFiles : file ∈ files) (f : GenFunc) (inFile : f ∈ functions file) :
    printed dump f ⊆ branchOutput dump files := by
  intro line isPrinted
  have inTree : f ∈ files.flatMap functions := List.mem_flatMap.mpr ⟨file, inFiles, inFile⟩
  exact List.mem_append_left _ (List.mem_flatMap.mpr ⟨f, inTree, isPrinted⟩)

/-- The pass keeps its promise of the written files exactly when the targets four bytes
behind the last addresses start functions of the sections, and none of them is used in a
run that exits with zero. A target at the end is the only one that the pass neither
rewrites nor reports; it stays in the written line, since rewriting other targets keeps it. -/
theorem meets_iff (dump : Dump) (files : List (List Line)) :
    Meets dump files ↔ EndsClear dump files := by
  constructor
  · intro meets file inFiles f inFile target atEnd
    have bounded := branchTargets_bounded f target atEnd.1.branch
    have spared : target ∉ badTargets f := by
      intro bad
      have span := ((mem_badTargets f target).mp bad).2.2
      rw [atEnd.2] at span
      cases span
    constructor
    · by_contra missing
      rw [Bool.not_eq_true] at missing
      obtain ⟨lo, hi, reported⟩ := (meets.reported file inFiles f inFile target atEnd.1 missing).1
      exact spared (List.mem_filter.mp (printed_missing dump f target lo hi bounded reported)).1
    · intro complete line inBody
      by_contra present
      have written := meets.mended ((exit_iff dump files).mpr complete)
      have mended := (written_iff dump files).mp written file inFiles f inFile
      have fixedBounded (other : Nat) (fixed : other ∈ fixedTargets dump f) : other < 2 ^ 32 :=
        branchTargets_bounded f other ((mem_badTargets f other).mp (List.mem_filter.mp fixed).1).2.1
      apply foldl_present (fixedTargets dump f) line target
        (fun fixed => spared (List.mem_filter.mp fixed).1) bounded fixedBounded present
      apply mended.gone target atEnd.1
      rw [fixFunc_lines]
      exact List.mem_map_of_mem inBody
  · intro clear
    constructor
    · intro exit
      have complete := (exit_iff dump files).mp exit
      refine (written_iff dump files).mpr (fun file inFiles f inFile => ?_)
      exact fixFunc_mended dump f (complete file inFiles f inFile)
        (fun target atEnd => (clear file inFiles f inFile target atEnd).2 complete)
    · intro file inFiles f inFile target outside missing
      obtain bad | atEnd := (outside_cases f target).mp outside
      · constructor
        · have report : branchReport dump f target = missingLine f.name (funcSec dump f.name) target
              ((addrs f).min?.getD 0) ((addrs f).max?.getD 0 + 8) := by
            rw [branchReport, missing]
            rfl
          exact ⟨_, _, List.mem_map.mpr ⟨target, bad, report⟩⟩
        · intro exit
          have starting := (exit_iff dump files).mp exit file inFiles f inFile target bad
          rw [missing] at starting
          cases starting
      · have starting := (clear file inFiles f inFile target atEnd).1
        rw [missing] at starting
        cases starting

/-- A function cut off before the target of its branch, and the function there. -/
def cutOff : List Line :=
  [str "RECOMP_FUNC void func_80005000(uint8_t* rdram, recomp_context* ctx) \x7b",
    str "    // 0x80005000: b           L_80005008",
    str "    // 0x80005004: nop",
    str "",
    str "    goto L_80005008;",
    str ";\x7d"]

/-- The section starts a function at the target. -/
def cutOffDump : Dump :=
  [⟨str "entry", 0x1000, 0x80000400, 0x10000,
    [⟨str "func_80005000", 0x80005000, 0x8⟩, ⟨str "func_80005008", 0x80005008, 0x8⟩]⟩]

/-- The function of that file. -/
def cutOffFunc : GenFunc where
  name := str "func_80005000"
  tail := []
  body := (cutOff.drop 1).take 4
  close := str ";\x7d"

/-- The run exits with zero and leaves the goto. -/
theorem cutOff_stays : ¬Meets cutOffDump [cutOff] := by
  intro meets
  have exit : (fixTree cutOffDump [cutOff]).2 = 0 := by decide +kernel
  have read : cutOffFunc ∈ functions cutOff := by decide +kernel
  have outside : Outside cutOffFunc 0x80005008 := by
    refine ⟨by decide +kernel, by decide +kernel, ?_⟩
    have decoded : addrs cutOffFunc = [0x80005000, 0x80005004] := by decide +kernel
    rw [decoded]
    decide
  have written := (written_iff cutOffDump [cutOff]).mp (meets.mended exit)
  have mended := written cutOff List.mem_cons_self cutOffFunc read
  have gone := (mended.gone 0x80005008 outside (str "    goto L_80005008;") (by decide +kernel)).1
  exact absurd gone (by decide +kernel)

end NoMercyRecomp.BranchSpan
