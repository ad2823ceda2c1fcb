import NoMercyRecomp.Recompiled

/-!
# Branches out of a function's span

A mid-entry function may contain a branch to an address outside its own decoded span.
N64Recomp makes a local label for it. `fix_backbranches` replaces every `goto` to such
a label by a call of the function at the address and a return, in braces, and turns the
label into a comment. The function's own section must start a function at the address;
otherwise the branch is reported and the run does not exit with zero.
-/

namespace NoMercyRecomp.FixBackbranches

open TextScan SymbolTable Recompiled

/-! ## Targets -/

/-- `L_([0-9A-F]{8})` at a position: the address. -/
def labelAt (text : Line) : Option Nat := do
  let digits ← lit ('L' :: str "_") text
  if (digits.take 8).length = 8 ∧
    (digits.take 8).all isUpperHex then some (value 16 (digits.take 8)) else none

/-- `// 0x([0-9A-F]{8}): b\w*\s+.*?L_([0-9A-F]{8})` at a position: the branch target. The
white space may end the line; what follows it does not. -/
def brRe (text : Line) : Option Nat := do
  let digits ← lit ('/' :: str "/ 0x") text
  let mnemonic ← lit (str ": b") (digits.drop 8)
  let operands := mnemonic.dropWhile isWord
  if (digits.take 8).length = 8 ∧ (digits.take 8).all isUpperHex ∧
    operands.takeWhile isSpace ≠ [] then
    (search labelAt ((operands.dropWhile isSpace).takeWhile (· != '\n'))).map Prod.snd
  else none

/-- The decoded addresses of a body. -/
def addrs (f : GenFunc) : List Nat := (f.tail :: f.body).flatMap (findAll addrRe)

/-- A target lies in the decoded span, which ends eight bytes behind the last address. -/
def inSpan (addrs : List Nat) (target : Nat) : Bool :=
  addrs.any (· ≤ target) && addrs.any (target < · + 8)

/-- `bad_targets`, in ascending order. -/
def badTargets (f : GenFunc) : List Nat :=
  if addrs f = [] then [] else
  ((findAll brRe (joined ['\n'] (f.tail :: f.body))).filter
    (fun target => !inSpan (addrs f) target)).dedup.mergeSort

/-- `func_[0-9A-Fa-f]{8}_(\w+)$` over a whole name: the suffix. -/
def suffixRe (name : Line) : Option Line := do
  let digits ← lit (str "func_") name
  let sec ← lit ['_'] (digits.drop 8)
  if (digits.take 8).length = 8 ∧ (digits.take 8).all isHex ∧ sec ≠ [] ∧
    sec.all isWord then some sec else none

/-- `func_sec`: the section of a function. -/
def funcSec (dump : Dump) (name : Line) : Option Line :=
  match name2sec dump name with
  | some sec => some sec
  | none =>
    match (staticPrefix name).bind (fun found => (secPositions dump)[found.1]?) with
    | some sec => some sec
    | none => suffixRe name

/-- The function's section starts a function at the target. -/
def starts (dump : Dump) (f : GenFunc) (target : Nat) : Bool :=
  match funcSec dump f.name with
  | some sec => startsAt dump sec target
  | none => false

/-! ## Rewriting -/

/-- `goto L_%08X;` -/
def gotoText (target : Nat) : Line := 'g' :: (str "oto L_" ++ (hex8 target ++ [';']))

/-- `{ /* [nomercy fix_backbranches] out-of-span branch target */ func_%08X(rdram, ctx); return;
}` -/
def callText (target : Nat) : Line :=
  str "\x7b /* [nomercy fix_backbranches] out-of-span branch target */ " ++ (funcName target ++
    str "(rdram, ctx); return; \x7d")

/-- `^L_%08X:\r?$` becomes a comment. -/
def removeLabel (target : Nat) (line : Line) : Line :=
  let text := str "L_" ++ (hex8 target ++ [':'])
  if line = text ∨ line = text ++ ['\r'] then
    str "/* [nomercy fix_backbranches] bogus label L_" ++ (hex8 target ++ str " removed */")
  else line

/-- One target on one line: its gotos become calls, its label a comment. -/
def fixLine (line : Line) (target : Nat) : Line :=
  removeLabel target (replaceAll (gotoText target) (callText target) line)

/-- The targets that are rewritten, and those that are missing. -/
def fixedTargets (dump : Dump) (f : GenFunc) : List Nat := (badTargets f).filter (starts dump f)

def missingTargets (dump : Dump) (f : GenFunc) : List Nat :=
  (badTargets f).filter (fun target => !starts dump f target)

/-- The function that the pass writes, target after target. What follows the opening brace
on its line is part of the body; neither pattern reaches over the end of a line. -/
def fixFunc (dump : Dump) (f : GenFunc) : GenFunc :=
  { f with
    tail := (fixedTargets dump f).foldl fixLine f.tail
    body := f.body.map (fun line => (fixedTargets dump f).foldl fixLine line) }

/-- The files that the pass writes, and the number of missing entries. The exit status
is zero when there are none. -/
def fixTree (dump : Dump) (files : List (List Line)) : List (List Line) × Nat :=
  (files.map (changeFuncs (fixFunc dump)),
    (files.map (fun file =>
      ((functions file).map (fun f => (missingTargets dump f).length)).sum)).sum)

/-! ## The targets of a function -/

/-- The targets of the branch comments of a function. -/
def branchTargets (f : GenFunc) : List Nat := findAll brRe (joined ['\n'] (f.tail :: f.body))

/-- A match is a match somewhere in the line. -/
theorem findAll_somewhere {α : Type} (match? : Line → Option α) (line : Line) (found : α)
    (among : found ∈ findAll match? line) : ∃ text, match? text = some found := by
  induction line with
  | nil => cases among
  | cons c rest inductionHypothesis =>
    rw [findAll, List.mem_append, Option.mem_toList] at among
    obtain here | later := among
    · exact ⟨c :: rest, here⟩
    · exact inductionHypothesis later

/-- A branch target has eight digits, since the pattern reads exactly eight of them. It is
therefore an address of 32 bits. -/
theorem branchTargets_bounded (f : GenFunc) (target : Nat) (branch : target ∈ branchTargets f) :
    target < 2 ^ 32 := by
  obtain ⟨text, read⟩ := findAll_somewhere brRe _ target branch
  simp only [brRe, Option.bind_eq_bind, Option.bind_eq_some_iff] at read
  obtain ⟨digits, -, mnemonic, -, kept⟩ := read
  split at kept
  · obtain ⟨⟨before, found⟩, searched, rfl⟩ := Option.map_eq_some_iff.mp kept
    obtain ⟨rest, -, label⟩ := search_some labelAt _ before found searched
    simp only [labelAt, Option.bind_eq_bind, Option.bind_eq_some_iff] at label
    obtain ⟨number, -, kept⟩ := label
    split at kept
    · rename_i eight
      obtain rfl := Option.some.inj kept
      exact value_eight (number.take 8) eight.1 (all_isHex _ eight.2)
    · cases kept
  · cases kept

/-- The targets that the pass takes to be outside: those of a function with decoded
addresses whose branch comments name them and which the pass's span leaves out. -/
theorem mem_badTargets (f : GenFunc) (target : Nat) :
    target ∈ badTargets f ↔
      addrs f ≠ [] ∧ target ∈ branchTargets f ∧ inSpan (addrs f) target = false := by
  unfold badTargets
  split
  · rename_i empty
    simp [empty]
  · rename_i some
    rw [List.mem_mergeSort, List.mem_dedup, List.mem_filter, Bool.not_eq_true']
    exact (and_iff_right some).symm

end NoMercyRecomp.FixBackbranches
