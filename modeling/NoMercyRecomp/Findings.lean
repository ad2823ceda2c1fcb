import NoMercyRecomp.AuditCoresidency
import NoMercyRecomp.FixBackbranches
import NoMercyRecomp.ExtraFuncs

/-!
# Findings in printed reports

`nm_sweep` reads the findings of two tools out of what they print: the section and the
target of each `VIOLATION` line of `audit_coresidency`, and of each `MISSING` line of
`fix_backbranches`. It searches the whole output; neither pattern reaches over the end of
a line.

A printed finding is read back as itself, and no other line of the output is taken for
one. What `nm_sweep` finds is therefore a section and a target at which that section starts
no function; only a function without a section is reported under the section `None`.
-/

namespace NoMercyRecomp.Findings

open TextScan SymbolTable SymbolReaders Recompiled ExtraFuncs

/-! ## Words in patterns -/

variable {α : Type}

/-- A matcher that reads a word first: it finds nothing where it does not find the word
followed by text that it can go on with. -/
structure WordFirst (match? : Line → Option α) (first : Line) (goesOn : Line → Prop) : Prop where
  spaceless : ' ' ∉ first
  blank : ∀ rest, match? (' ' :: rest) = none
  only : ∀ word rest, ' ' ∉ word → (word = first → ¬ goesOn rest) →
    match? (word ++ ' ' :: rest) = none

/-- A word that does not end in the matcher's first word, or before text it cannot go on
with, is passed over. -/
theorem WordFirst.findAll_word {match? : Line → Option α} {first : Line} {goesOn : Line → Prop}
    (reads : WordFirst match? first goesOn) (word rest : Line) (solid : ' ' ∉ word)
    (other : first <:+ word → ¬ goesOn rest) :
    findAll match? (word ++ ' ' :: rest) = findAll match? rest := by
  induction word with
  | nil => simp [findAll, reads.blank rest]
  | cons c word inductionHypothesis =>
    have later := inductionHypothesis (fun member => solid (List.mem_cons_of_mem c member))
      (fun ends => other (ends.trans (List.suffix_cons c word)))
    have here : match? (c :: word ++ ' ' :: rest) = none :=
      reads.only (c :: word) rest solid (fun same => other (same ▸ List.suffix_refl _))
    rw [List.cons_append] at here ⊢
    simp [findAll, here, later]

/-- A word with another last character does not end in the literal. -/
theorem not_suffix (literal word : Line) (last : Char) (other : literal.getLast? ≠ some last)
    (nonempty : literal ≠ []) : ¬ literal <:+ word ++ [last] := by
  rintro ⟨front, same⟩
  have ends := congrArg List.getLast? same
  rw [List.getLast?_append_of_ne_nil _ nonempty] at ends
  simp at ends
  exact other ends

/-- Words hold no space. -/
theorem word_space (word : Line) (isName : WordName word) : ' ' ∉ word :=
  word_absent word isName ' ' (by decide)

/-! ## Violations -/

/-- `calls 0x([0-9A-Fa-f]{8}): co-loadable (\w+) has no` at a position: the section and the
target. -/
def violRe (text : Line) : Option (Line × Nat) := do
  let digits ← lit (str "calls" ++ ' ' :: str "0x") text
  let sec ← lit (str ": co-loadable ") (digits.drop 8)
  let _ ← lit (str " has no") (sec.dropWhile isWord)
  if (digits.take 8).length = 8 ∧ (digits.take 8).all isHex ∧ sec.takeWhile isWord ≠ [] then
    some (sec.takeWhile isWord, value 16 (digits.take 8))
  else none

/-- `'VIOLATION %s (%s) calls 0x%08X: co-loadable %s has no function start there (add a
mid-entry to extra_funcs.txt)'` -/
def violationLine (caller csec : Line) (target : Nat) (osec : Line) : Line :=
  str "VIOLATION" ++ ' ' ::
    (caller ++ ' ' :: (('(' :: csec ++ [')']) ++ ' ' :: (str "calls" ++ ' ' ::
    (str "0x" ++ (hex8 target ++ (str ": co-loadable " ++ (osec ++ ' ' ::
      str "has no function start there (add a mid-entry to extra_funcs.txt)")))))))

/-- What the audit prints for one function. -/
def auditReport (dump : Dump) (f : GenFunc) : List Line :=
  match sectionOf dump f.name with
  | some csec => (AuditCoresidency.seenCalls f).flatMap (fun target =>
      (AuditCoresidency.violations dump csec target).map (violationLine f.name csec target))
  | none => []

/-- What `audit_coresidency` prints. -/
def auditOutput (dump : Dump) (files : List (List Line)) : List Line :=
  let reports := files.flatMap (fun file => (functions file).flatMap (auditReport dump))
  reports ++ [decimal reports.length ++ str " violations"]

/-- The pattern reads the word `calls` first, and then a `0`; a word without a blank that is
another one is not taken for it. -/
theorem violRe_first : WordFirst violRe (str "calls") (fun rest => rest.head? = some '0') where
  spaceless := by decide
  blank := fun rest => by simp [violRe, str, lit]
  only := by
    intro word rest solid other
    rw [violRe, lit_until ' ' _ _ _ _ (by decide) solid]
    by_cases same : word = str "calls"
    · have closed : lit (str "0x") rest = none := by
        cases rest with
        | nil => rfl
        | cons c rest =>
          have different : '0' ≠ c := fun zero => other same (by rw [← zero]; rfl)
          simp [str, lit, different]
      simp [same, closed]
    · simp [same]

/-- Hexadecimal digits of eight. -/
theorem hex8_cut (target : Nat) (bounded : target < 2 ^ 32) (rest : Line) :
    (hex8 target ++ rest).take 8 = hex8 target ∧ (hex8 target ++ rest).drop 8 = rest ∧
      (hex8 target).all isHex = true := by
  have length := hex8_length target bounded
  refine ⟨List.take_left' length, List.drop_left' length, List.all_eq_true.mpr ?_⟩
  intro c member
  exact isHex_of_upper c (hex8_upper target c member)

/-- A printed violation is found as its section and target, once. The pattern starts with a blank
and a fixed word, which the words in the line do not hold. -/
theorem findAll_violationLine (caller csec osec : Line) (target : Nat)
    (callerWord : WordName caller)
    (csecWord : WordName csec) (osecWord : WordName osec) (bounded : target < 2 ^ 32) :
    findAll violRe (violationLine caller csec target osec) = [(osec, target)] := by
  obtain ⟨digits, behind, all⟩ := hex8_cut target bounded (str ": co-loadable " ++ (osec ++ ' ' ::
    str "has no function start there (add a mid-entry to extra_funcs.txt)"))
  have sec : ∀ rest, (osec ++ ' ' :: rest).takeWhile isWord = osec := fun rest =>
    takeWhile_run isWord osec rest ' ' osecWord.2 (by decide)
  have afterSec : ∀ rest, (osec ++ ' ' :: rest).dropWhile isWord = ' ' :: rest := fun rest =>
    dropWhile_run isWord osec rest ' ' osecWord.2 (by decide)
  have closing : lit (str " has no")
    (' ' :: str "has no function start there (add a mid-entry to extra_funcs.txt)") =
      some (str " function start there (add a mid-entry to extra_funcs.txt)") := by decide
  have here : violRe (str "calls" ++ ' ' ::
    (str "0x" ++ (hex8 target ++ (str ": co-loadable " ++ (osec ++ ' ' ::
      str "has no function start there (add a mid-entry to extra_funcs.txt)"))))) = some (osec,
      target) := by
    rw [violRe, lit_until ' ' _ _ _ _ (by decide) (by decide), if_pos rfl, lit_append]
    simp only [Option.bind_eq_bind, Option.bind_some, digits, behind, lit_append, sec, afterSec,
      closing]
    rw [if_pos ⟨hex8_length target bounded, all, osecWord.1⟩, value_hex8]
  have colon : str "0x" ++ (hex8 target ++ (str ": co-loadable " ++ (osec ++ ' ' ::
      str "has no function start there (add a mid-entry to extra_funcs.txt)"))) =
      ((str "0x" ++ hex8 target) ++ [':']) ++ ' ' :: (str "co-loadable" ++ ' ' :: (osec ++ ' ' ::
        str "has no function start there (add a mid-entry to extra_funcs.txt)")) := by simp [str]
  have csecSpace : ' ' ∉ '(' :: csec ++ [')'] := by simp [word_space csec csecWord]
  have colonSpace : ' ' ∉ (str "0x" ++ hex8 target) ++ [':'] := by
    simp [str, hex8_absent target ' ' (by decide)]
  rw [violationLine, violRe_first.findAll_word _ _ (by decide)
    (fun ends => absurd ends (by decide)),
    violRe_first.findAll_word _ _ (word_space caller callerWord) (by simp),
    violRe_first.findAll_word _ _ csecSpace
      (fun ends => absurd ends (not_suffix _ _ ')' (by decide) (by decide)))]
  have rest : findAll violRe
    (str "alls" ++ ' ' :: (str "0x" ++ (hex8 target ++ (str ": co-loadable " ++ (osec ++ ' ' ::
      str "has no function start there (add a mid-entry to extra_funcs.txt)"))))) = [] := by
    rw [violRe_first.findAll_word _ _ (by decide) (fun ends => absurd ends (by decide)), colon,
      violRe_first.findAll_word _ _ colonSpace
        (fun ends => absurd ends (not_suffix _ _ ':' (by decide) (by decide))),
      violRe_first.findAll_word _ _ (by decide) (fun ends => absurd ends (by decide)),
      violRe_first.findAll_word _ _ (word_space osec osecWord) (by simp [str])]
    decide +kernel
  change (violRe _).toList ++ findAll violRe _ = _
  erw [here, rest]
  rfl

/-! ## Missing entries -/

/-- The class `\S`. -/
def solid (c : Char) : Bool := !isSpace c

/-- `MISSING \S+ \((\w+)\): branch to 0x([0-9A-Fa-f]{8})` at a position: the section and the
target. -/
def missingRe (text : Line) : Option (Line × Nat) := do
  let name ← lit (str "MISSING" ++ ' ' :: []) text
  let sec ← lit (str " (") (name.dropWhile solid)
  let digits ← lit (str "): branch to 0x") (sec.dropWhile isWord)
  if name.takeWhile solid ≠ [] ∧ sec.takeWhile isWord ≠ [] ∧
      (digits.take 8).length = 8 ∧ (digits.take 8).all isHex then
    some (sec.takeWhile isWord, value 16 (digits.take 8))
  else none

/-- What `%s` prints for a section. -/
def secText (sec : Option Line) : Line := sec.getD (str "None")

/-- `'MISSING %s (%s): branch to 0x%08X outside [0x%08X,0x%08X) has no function at the target.
Add "%s func_%08X 0x%08X <size>" to syms/extra_funcs.txt and regenerate.'` -/
def missingLine (name : Line) (sec : Option Line) (target lo hi : Nat) : Line :=
  str "MISSING" ++ ' ' ::
    (name ++ ' ' :: (('(' :: secText sec ++ [')', ':']) ++ ' ' :: (str "branch to 0x" ++
    (hex8 target ++ (str " outside [0x" ++ hex8 lo ++ str ",0x" ++ hex8 hi ++
      str ") has no function at the target. Add \"" ++
        (secText sec ++ ' ' :: (funcName target ++ str " 0x" ++
        hex8 target ++ str " <size>\" to syms/extra_funcs.txt and regenerate.")))))))

/-- `'fixed %s (%s): %d goto(s) -> tail call %s'` -/
def fixedLine (name : Line) (sec : Option Line) (count target : Nat) : Line :=
  str "fixed" ++ ' ' ::
    (name ++ ' ' :: (('(' :: secText sec ++ [')', ':']) ++ ' ' :: (decimal count ++
    str " goto(s) -> tail call " ++ funcName target)))

/-- `newbody.count`: the gotos to a target that are left when the smaller targets are done. -/
def gotoCount (dump : Dump) (f : GenFunc) (target : Nat) : Nat :=
  ((f.tail :: f.body).map (fun line => (findAll (lit (FixBackbranches.gotoText target))
    (((FixBackbranches.fixedTargets dump f).filter
      (· < target)).foldl FixBackbranches.fixLine line)).length)).sum

/-- What is printed for one target of a function. -/
def branchReport (dump : Dump) (f : GenFunc) (target : Nat) : Line :=
  let sec := FixBackbranches.funcSec dump f.name
  let addrs := FixBackbranches.addrs f
  if FixBackbranches.starts dump f target then fixedLine f.name sec (gotoCount dump f target) target
  else missingLine f.name sec target (addrs.min?.getD 0) (addrs.max?.getD 0 + 8)

/-- What `fix_backbranches` prints. -/
def branchOutput (dump : Dump) (files : List (List Line)) : List Line :=
  let funcs := files.flatMap functions
  let fixed :=
    (funcs.map (fun f => ((FixBackbranches.fixedTargets dump f).map (gotoCount dump f)).sum)).sum
  let missing := (funcs.map (fun f => (FixBackbranches.missingTargets dump f).length)).sum
  funcs.flatMap (fun f => (FixBackbranches.badTargets f).map (branchReport dump f)) ++
    [decimal fixed ++ str " gotos fixed, " ++ decimal missing ++ str " missing mid-entries"]

/-- The pattern reads the word `MISSING` first, and then a name before a parenthesis. -/
theorem missingRe_first :
    WordFirst missingRe (str "MISSING")
      (fun rest => (lit (str " (") (rest.dropWhile solid)).isSome = true) where
  spaceless := by decide
  blank := fun rest => by simp [missingRe, str, lit]
  only := by
    intro word rest plain other
    rw [missingRe, lit_until ' ' _ _ _ _ (by decide) plain]
    by_cases same : word = str "MISSING"
    · have closed : lit (str " (") (rest.dropWhile solid) = none := by
        simpa using other same
      simp [same, lit, closed]
    · simp [same]

/-- The pattern starts with a capital. -/
theorem missingRe_startsWith : StartsWith missingRe 'M' := by
  intro c rest different
  simp [missingRe, str, lit, Ne.symm different]

/-- A word is solid text. -/
theorem word_solid (word : Line) (isName : WordName word) : ∀ c ∈ word, solid c = true := by
  intro c member
  simp [solid, isSpace_word c (isName.2 c member)]

/-- Digits hold no capital `M`. -/
theorem hex8_capital (n : Nat) : 'M' ∉ hex8 n := hex8_absent n 'M' (by decide)

/-- Behind a name, the section in parentheses is one word, and the pattern cannot go on
from the name. -/
theorem findAll_section (name sec rest : Line) (nameWord : WordName name) (secWord : WordName sec)
    (other : ∀ next, rest.head? = some next → next ≠ '(') :
    findAll missingRe (name ++ ' ' :: (('(' :: sec ++ [')', ':']) ++ ' ' :: rest)) =
      findAll missingRe rest := by
  have parens : '(' :: sec ++ [')', ':'] = ('(' :: sec ++ [')']) ++ [':'] := by simp
  have space : ' ' ∉ '(' :: sec ++ [')', ':'] := by simp [word_space sec secWord]
  have inside : ∀ c ∈ '(' :: sec ++ [')', ':'], solid c = true := by
    intro c member
    have cases : c = '(' ∨ c ∈ sec ∨ c = ')' ∨ c = ':' := by simpa using member
    rcases cases with rfl | inSec | rfl | rfl
    · decide
    · exact word_solid sec secWord c inSec
    · decide
    · decide
  have closed : lit (str " (") (' ' :: rest) = none := by
    cases rest with
    | nil => rfl
    | cons c rest =>
      have different : '(' ≠ c := fun same => other c rfl same.symm
      simp [str, lit, different]
  rw [missingRe_first.findAll_word name _ (word_space name nameWord) (fun _ => by
      rw [dropWhile_run solid _ rest ' ' inside (by decide), closed]
      simp),
    missingRe_first.findAll_word _ rest space (fun ends => absurd ends (by
      rw [parens]
      exact not_suffix _ _ ':' (by decide) (by decide)))]

/-- A printed missing entry is found as its section and target, once. What the pattern takes for
the name is one run of characters without a blank, so it reads the line from its start. -/
theorem findAll_missingLine (name : Line) (sec : Option Line) (target lo hi : Nat)
    (nameWord : WordName name) (secWord : WordName (secText sec)) (bounded : target < 2 ^ 32) :
    findAll missingRe (missingLine name sec target lo hi) = [(secText sec, target)] := by
  unfold missingLine
  generalize secText sec = shown at secWord ⊢
  generalize behind : str " outside [0x" ++ hex8 lo ++ str ",0x" ++ hex8 hi ++
    str ") has no function at the target. Add \"" ++
      (shown ++ ' ' :: (funcName target ++ str " 0x" ++
      hex8 target ++ str " <size>\" to syms/extra_funcs.txt and regenerate.")) = after
  obtain ⟨digits, rest, all⟩ := hex8_cut target bounded after
  have afterName : (name ++ ' ' :: (('(' :: shown ++ [')', ':']) ++ ' ' ::
    (str "branch to 0x" ++ (hex8 target ++ after)))).dropWhile
      solid = str " (" ++ (shown ++ ')' :: (str ": branch to 0x" ++ (hex8 target ++ after))) := by
    rw [dropWhile_run solid name _ ' ' (word_solid name nameWord) (by decide)]
    simp [str]
  have isName : ∀ text, (name ++ ' ' :: text).takeWhile solid = name := fun text =>
    takeWhile_run solid name text ' ' (word_solid name nameWord) (by decide)
  have isSec : ∀ text, (shown ++ ')' :: text).takeWhile isWord = shown := fun text =>
    takeWhile_run isWord shown text ')' secWord.2 (by decide)
  have afterSec : ∀ text, (shown ++ ')' :: text).dropWhile isWord = ')' :: text := fun text =>
    dropWhile_run isWord shown text ')' secWord.2 (by decide)
  have branch :
    lit (str "): branch to 0x") (')' :: (str ": branch to 0x" ++ (hex8 target ++ after))) =
      some (hex8 target ++ after) := lit_append (str "): branch to 0x") _
  have here :
    missingRe (str "MISSING" ++ ' ' :: (name ++ ' ' :: (('(' :: shown ++ [')', ':']) ++ ' ' ::
      (str "branch to 0x" ++ (hex8 target ++ after))))) = some (shown, target) := by
    rw [missingRe, lit_until ' ' _ _ _ _ (by decide) (by decide), if_pos rfl, lit]
    simp only [Option.bind_eq_bind, Option.bind_some, afterName, isName, lit_append, isSec,
      afterSec, branch, digits]
    rw [if_pos ⟨nameWord.1, secWord.1, hex8_length target bounded, all⟩, value_hex8]
  have quoted : str "branch to 0x" ++ (hex8 target ++ after) = (str "branch to 0x" ++ hex8 target ++
      str " outside [0x" ++ hex8 lo ++ str ",0x" ++ hex8 hi ++
      str ") has no function at the target. Add \"") ++
      (shown ++ ' ' :: (funcName target ++ str " 0x" ++ hex8 target ++
        str " <size>\" to syms/extra_funcs.txt and regenerate.")) := by
    simp [← behind]
  have none : findAll missingRe (str "branch to 0x" ++ (hex8 target ++ after)) = [] := by
    rw [quoted, findAll_skip missingRe 'M' missingRe_startsWith _ _ (by simp [str, hex8_capital]),
      missingRe_first.findAll_word shown _ (word_space shown secWord) (fun _ => by
        have name : ∀ c ∈ funcName target, solid c = true := word_solid _ (funcName_word target)
        rw [List.append_assoc, List.append_assoc, show str " 0x" = ' ' :: str "0x" from rfl,
          List.cons_append, dropWhile_run solid _ _ ' ' name (by decide)]
        simp [str, lit])]
    exact findAll_absent missingRe 'M' missingRe_startsWith _
      (by simp [str, funcName, hex8_capital])
  have skipped : findAll missingRe
    (str "ISSING" ++ ' ' :: (name ++ ' ' :: (('(' :: shown ++ [')', ':']) ++ ' ' ::
      (str "branch to 0x" ++ (hex8 target ++ after))))) = [] := by
    rw [missingRe_first.findAll_word _ _ (by decide) (fun ends => absurd ends (by decide)),
      findAll_section name shown _ nameWord secWord (by
        intro next starts
        obtain rfl : 'b' = next := by simpa [str] using starts
        decide), none]
  change (missingRe _).toList ++ findAll missingRe _ = _
  erw [here, skipped]
  rfl

/-- A fixed target is not found: its line begins otherwise, the word in it is followed by a count,
and no word in it starts as a missing entry does. -/
theorem findAll_fixedLine (name : Line) (sec : Option Line) (count target : Nat)
    (nameWord : WordName name) (secWord : WordName (secText sec)) :
    findAll missingRe (fixedLine name sec count target) = [] := by
  have digits : ∀ c ∈ decimal count, c.isDigit = true := decimal_isDigit count
  rw [fixedLine, missingRe_first.findAll_word _ _ (by decide) (fun ends => absurd ends (by decide)),
    findAll_section name _ _ nameWord secWord (by
      intro next starts same
      obtain ⟨first, more, shape⟩ := List.exists_cons_of_ne_nil (number_ne_nil 10 count)
      have isFirst : first = next := by
        rw [decimal, shape] at starts
        simpa using starts
      have digit := digits first (by rw [decimal, shape]; exact List.mem_cons_self)
      rw [isFirst, same] at digit
      exact absurd digit (by decide))]
  refine findAll_absent missingRe 'M' missingRe_startsWith _ ?_
  simp [str, funcName, hex8_capital, decimal_absent count 'M' (by decide)]

/-! ## What is found -/

/-- `{(sec, target) for m in RE.finditer(out)}` -/
def found (re : Line → Option (Line × Nat)) (output : List Line) : Finset (Line ×ₗ Nat) :=
  ((output.flatMap (findAll re)).map toLex).toFinset

/-- A finding is one that the pattern finds in a line of the output. -/
theorem mem_found (re : Line → Option (Line × Nat)) (output : List Line) (sec : Line)
    (target : Nat) :
    toLex (sec, target) ∈ found re output ↔ ∃ line ∈ output, (sec, target) ∈ findAll re line := by
  simp [found]

/-- A call is found at an address. -/
theorem callRe_bound (text : Line) (target : Nat)
    (isCall : AuditCoresidency.callRe text = some target) :
    target < 2 ^ 32 := by
  simp only [AuditCoresidency.callRe, Option.bind_eq_bind, Option.bind_eq_some_iff] at isCall
  obtain ⟨rest, _, _, _, kept⟩ := isCall
  split at kept
  · rename_i eight
    obtain rfl := Option.some.inj kept
    exact value_eight _ eight.1 eight.2
  · cases kept

/-- Every target of a function's calls is an address. -/
theorem seenCalls_bound (f : GenFunc) (target : Nat)
    (seen : target ∈ AuditCoresidency.seenCalls f) :
    target < 2 ^ 32 := by
  obtain ⟨text, _, isCall⟩ := List.mem_filterMap.mp seen
  rw [AuditCoresidency.seenAt] at isCall
  split at isCall
  · exact callRe_bound _ target isCall
  · cases isCall

/-- The pattern for violations starts with a `c`. -/
theorem violRe_startsWith : StartsWith violRe 'c' := by
  intro c rest different
  simp [violRe, str, lit, Ne.symm different]

section Words

variable (dump : Dump) (words : ∀ sec ∈ secPositions dump, WordName sec)

include words

/-- What the sweep finds in the audit's output starts no function of its section: a finding is of
one printed line, and that line was printed for such a target. -/
theorem found_violation (files : List (List Line)) (sec : Line) (target : Nat)
    (isFound : toLex (sec, target) ∈ found violRe (auditOutput dump files)) :
    startsAt dump sec target = false := by
  obtain ⟨line, printed, here⟩ := (mem_found violRe _ sec target).mp isFound
  rcases List.mem_append.mp printed with report | total
  · obtain ⟨file, inFiles, inFile⟩ := List.mem_flatMap.mp report
    obtain ⟨f, isFunc, inReport⟩ := List.mem_flatMap.mp inFile
    rw [auditReport] at inReport
    cases known : sectionOf dump f.name with
    | none => simp [known] at inReport
    | some csec =>
      rw [known] at inReport
      obtain ⟨t, seen, among⟩ := List.mem_flatMap.mp inReport
      obtain ⟨osec, violated, rfl⟩ := List.mem_map.mp among
      obtain ⟨inDump, rule⟩ := List.mem_filter.mp violated
      have osecWord : WordName osec := words osec ((List.filter_sublist.map _).subset inDump)
      have csecWord : WordName csec := words csec (sectionOf_known dump f.name csec known)
      have callerWord : WordName f.name := functions_word file f isFunc
      rw [findAll_violationLine f.name csec osec t callerWord csecWord osecWord
        (seenCalls_bound f t seen)] at here
      obtain ⟨rfl, rfl⟩ := Prod.mk.inj (List.mem_singleton.mp here)
      rw [Bool.and_eq_true, Bool.not_eq_true'] at rule
      exact rule.2
  · rw [List.mem_singleton.mp total, findAll_absent violRe 'c' violRe_startsWith _
      (by simp [str, decimal_absent _ 'c' (by decide)])] at here
    cases here

/-- The section that is printed for a function is a word: the table's, the suffix of the
function's name, or `None`. -/
theorem secText_word (name : Line) : WordName (secText (FixBackbranches.funcSec dump name)) := by
  rw [FixBackbranches.funcSec]
  cases listed : name2sec dump name with
  | some sec =>
    obtain ⟨f, member, _⟩ := name2sec_listed dump name sec listed
    obtain ⟨s, inDump, same, _⟩ := entries_section dump sec f member
    exact words sec (List.mem_map.mpr ⟨s, inDump, same⟩)
  | none =>
    cases static : (staticPrefix name).bind (fun place => (secPositions dump)[place.1]?) with
    | some sec =>
      obtain ⟨place, _, here⟩ := Option.bind_eq_some_iff.mp static
      exact words sec (List.mem_of_getElem? here)
    | none =>
      cases suffix : FixBackbranches.suffixRe name with
      | none =>
        change WordName (str "None")
        decide
      | some sec =>
        simp only [FixBackbranches.suffixRe, Option.bind_eq_bind, Option.bind_eq_some_iff] at suffix
        obtain ⟨_, _, text, _, kept⟩ := suffix
        split at kept
        · rename_i shape
          obtain rfl := Option.some.inj kept
          exact ⟨shape.2.2.1, List.all_eq_true.mp shape.2.2.2⟩
        · cases kept

/-- What the sweep finds in the output of `fix_backbranches` starts no function of its
section, or has no section. -/
theorem found_missing (files : List (List Line)) (sec : Line) (target : Nat)
    (isFound : toLex (sec, target) ∈ found missingRe (branchOutput dump files)) :
    startsAt dump sec target = false ∨ sec = str "None" := by
  obtain ⟨line, printed, here⟩ := (mem_found missingRe _ sec target).mp isFound
  rcases List.mem_append.mp printed with report | total
  · obtain ⟨f, isFunc, inReport⟩ := List.mem_flatMap.mp report
    obtain ⟨file, _, inFile⟩ := List.mem_flatMap.mp isFunc
    obtain ⟨t, bad, rfl⟩ := List.mem_map.mp inReport
    have nameWord : WordName f.name := functions_word file f inFile
    have secWord := secText_word dump words f.name
    have bounded : t < 2 ^ 32 := FixBackbranches.branchTargets_bounded f t
      ((FixBackbranches.mem_badTargets f t).mp bad).2.1
    rw [branchReport] at here
    cases starting : FixBackbranches.starts dump f t with
    | true =>
      rw [starting] at here
      simp [findAll_fixedLine f.name _ _ t nameWord secWord] at here
    | false =>
      rw [starting] at here
      simp only [Bool.false_eq_true, if_false,
        findAll_missingLine f.name _ t _ _ nameWord secWord bounded,
        List.mem_singleton, Prod.mk.injEq] at here
      obtain ⟨rfl, rfl⟩ := here
      rw [FixBackbranches.starts] at starting
      cases known : FixBackbranches.funcSec dump f.name with
      | none => exact Or.inr rfl
      | some sec =>
        rw [known] at starting
        exact Or.inl starting
  · rw [List.mem_singleton.mp total, findAll_absent missingRe 'M' missingRe_startsWith _
      (by simp [str, decimal_absent _ 'M' (by decide)])] at here
    cases here

end Words

end NoMercyRecomp.Findings
