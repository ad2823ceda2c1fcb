import NoMercyRecomp.FixStumps

/-!
# The stack-balance audit

A function that N64Recomp truncated may take room on the stack and never give it back.
`audit_sp_balance` looks for functions that decrement `$sp` by an amount which the body never
adds back, and that do not end with a tail call.

Whether a body ends with a tail call is decided by a window: a call among the last six code
lines excuses the function. A call is followed by the jump over its delay slot, the delay slot
and a label, so a function that was cut off a line or two behind an ordinary call is excused as
well. The pattern for a call knows neither a call through `LOOKUP_FUNC` nor one in braces, so a
function that ends with such a tail call is reported.
-/

namespace NoMercyRecomp.AuditSpBalance

open TextScan Recompiled FixStumps

/-! ## The patterns -/

/-- `func_re`: the name of the function whose header the line is. -/
def funcRe (line : Line) : Option Line := do
  let rest ← lit (str "void ") ((lit (str "RECOMP_FUNC ") line).getD line)
  let _ ← lit (str "(uint8_t* rdram, recomp_context* ctx)") (rest.dropWhile isWord)
  if rest.takeWhile isWord = [] then none else some (rest.takeWhile isWord)

/-- `sp_re` at a position: the amount added to `$sp`. -/
def spRe (text : Line) : Option Int := do
  let rest ← lit ('c' :: str "tx->r29 = ADD32(ctx->r29, ") text
  let digits ← lit (str "0X") ((lit ['-'] rest).getD rest)
  let _ ← lit [')'] (digits.dropWhile isUpperHex)
  let amount : Int := value 16 (digits.takeWhile isUpperHex)
  if digits.takeWhile isUpperHex = [] then none
    else some (if (lit ['-'] rest).isSome then -amount else amount)

/-- `call_re`: the function that the line calls. -/
def callRe (line : Line) : Option Line := do
  let rest := line.dropWhile isSpace
  let _ ← lit (str "(rdram, ctx);") (rest.dropWhile isWord)
  if rest.takeWhile isWord = [] then none else some (rest.takeWhile isWord)

/-- `BENIGN` -/
def benign : List Line :=
  [str "func_80000EDC", str "func_80001024", str "func_80001180", str "func_800033D4",
    str "func_80026F18", str "func_800222D8", str "func_80006668"]

/-! ## The audit -/

/-- `re.split` before each header line: the lines before the first header, then the parts. -/
def parts : List Line → List (List Line)
  | [] => [[]]
  | line :: rest =>
    match parts rest with
    | [] => [[line]]
    | part :: later =>
      if (funcRe line).isSome then [] :: (line :: part) :: later else (line :: part) :: later

/-- The amounts that a part adds to `$sp`. -/
def amounts (part : List Line) : List Int := part.flatMap (findAll spRe)

/-- `decs` -/
def decs (part : List Line) : List Nat := ((amounts part).filter (· < 0)).map Int.natAbs

/-- `incs` -/
def incs (part : List Line) : List Nat := ((amounts part).filter (0 ≤ ·)).map Int.natAbs

/-- `lines`: the lines that are neither blank nor `//` comments. -/
def codeLines (part : List Line) : List Line :=
  (splitlines (strip (joined ['\n'] part))).filter
    (fun line => strip line ≠ [] && (lit (str "//") (strip line)).isNone)

/-- `tail_call`: the last call among the last six code lines. -/
def tailCall (part : List Line) : Option Line := ((codeLines part).reverse.take 6).findSome? callRe

/-- A counter: each amount once, with its count. -/
def counter (found : List Nat) : List (Nat × Nat) :=
  found.eraseDups.map (fun amount => (amount, found.count amount))

/-- One entry of `leaks`. -/
structure Finding where
  file : Line
  name : Line
  decs : List (Nat × Nat)
  incs : List (Nat × Nat)
deriving DecidableEq, Repr

/-- One turn of the loop over the parts. -/
def report (file : Line) (part : List Line) : Option Finding := do
  let name ← funcRe (part.headD [])
  if (decs part).isEmpty || (decs part).all (fun amount => (incs part).contains amount) then none
  else if (tailCall part).isSome then none
  else some ⟨file, name, counter (decs part), counter (incs part)⟩

/-- `leaks`, for the files with their texts. -/
def leaks (files : List (Line × Line)) : List Finding :=
  files.flatMap (fun file => (parts (file.2.splitOn '\n')).filterMap (report file.1))

/-- The exit status: one when a finding is not known as benign. -/
def exitStatus (files : List (Line × Line)) : Nat :=
  if (leaks files).all (fun finding => benign.contains finding.name) then 0 else 1

/-! ## Tail calls -/

/-- `L:`, on a stripped line: the label. -/
def labelName (s : Line) : Option Line :=
  if s.takeWhile isWord ≠ [] ∧ s.dropWhile isWord = [':'] then some (s.takeWhile isWord) else none

/-- `goto L;`, on a stripped line: the label. -/
def gotoLabel (s : Line) : Option Line := do
  let rest ← lit (str "goto ") s
  if rest.takeWhile isWord ≠ [] ∧ rest.dropWhile isWord = [';'] then some (rest.takeWhile isWord)
    else none

/-- Where the flow is: at the line, out of the function, or on its way to a label. -/
inductive Flow where
  | here
  | left
  | bound (label : Line)
deriving DecidableEq, Repr

/-- The flow leaves the function in these lines without another statement, and no other flow
joins it: a label that it does not jump to would end the body in another way. Lines that the
flow passes over, such as the second copy of a delay slot, are dead. -/
def leaves : Flow → List Line → Bool
  | flow, [] => flow = .here ∨ flow = .left
  | flow, line :: rest =>
    if skipped (strip line) then leaves flow rest
    else if isClose (strip line) then flow = .here ∨ flow = .left
    else
      match flow, labelName (strip line) with
      | .here, some _ => leaves .here rest
      | .left, some _ => false
      | .bound label, some name => name == label && leaves .here rest
      | .here, none =>
        if strip line = str "return;" then leaves .left rest
        else match gotoLabel (strip line) with
          | some label => leaves (.bound label) rest
          | none => false
      | flow, none =>
        !(strip line).contains '\x7b' && !(strip line).contains '\x7d' && leaves flow rest

/-- Nothing, or only a comment. -/
def blankText (s : Line) : Bool := skipped (strip s)

/-- The text behind an opening brace and a comment, and whether there was a brace. -/
def opened (s : Line) : Bool × Line :=
  match s with
  | '\x7b' :: rest =>
    match lit (str "/*") (rest.dropWhile isSpace) with
    | some comment =>
      (true, ((cut (str "*/") comment).map (fun found => found.2.dropWhile isSpace)).getD [])
    | none => (true, rest.dropWhile isSpace)
  | s => (false, s)

/-- `return;`, and the closing brace of a call in braces, with nothing else but a comment. -/
def returnsOn (braced : Bool) (behind : Line) : Bool :=
  match lit (str "return;") (strip behind) with
  | none => false
  | some rest =>
    if braced then
      match lit ['\x7d'] (strip rest) with
      | some ending => blankText ending
      | none => false
    else blankText rest

/-- Where the flow is behind a call on the line: at the next line, or out of the function when
the line returns. A call is a callee and `(rdram, ctx);`; the callee is a name, or an
expression without blanks such as `LOOKUP_FUNC(ctx->r25)`. A call in braces returns in them. -/
def callFlow (line : Line) : Option Flow :=
  let start := opened (strip line)
  match cut (str "(rdram, ctx);") start.2 with
  | none => none
  | some (callee, behind) =>
    if callee = [] ∨ callee.any (fun c => isSpace c || c == ';' || c == '\x7b' || c == '\x7d') then
      none
    else if !start.1 && blankText behind then some .here
    else if returnsOn start.1 behind then some .left
    else none

/-- The body ends with a tail call: a call behind which the flow only leaves. -/
def EndsWithTailCall (lines : List Line) : Prop :=
  ∃ before call after flow, lines = before ++ call :: after ∧ callFlow call = some flow ∧
    leaves flow after = true

instance : DecidablePred EndsWithTailCall := fun lines =>
  decidable_of_iff (∃ suffix ∈ lines.tails,
      ((suffix.head?.bind callFlow).any (fun flow => leaves flow suffix.tail)) = true) (by
    simp only [List.mem_tails, Option.any_eq_true]
    constructor
    · rintro ⟨suffix, ⟨before, rfl⟩, flow, calls, follows⟩
      cases suffix with
      | nil => cases calls
      | cons call after => exact ⟨before, call, after, flow, rfl, calls, follows⟩
    · rintro ⟨before, call, after, flow, rfl, calls, follows⟩
      exact ⟨call :: after, ⟨before, rfl⟩, flow, calls, follows⟩)

/-- Some amount by which the body decrements `$sp` is never added back. -/
def Unbalanced (part : List Line) : Prop :=
  ∃ amount ∈ amounts part, amount < 0 ∧ -amount ∉ amounts part

instance : DecidablePred Unbalanced := fun part =>
  inferInstanceAs (Decidable (∃ amount ∈ amounts part, amount < 0 ∧ -amount ∉ amounts part))

/-- At most five lines stand behind a call. -/
def Near (lines : List Line) : Prop :=
  ∃ before call after, lines = before ++ call :: after ∧ (callRe call).isSome = true ∧
    after.length ≤ 5

/-- The flow at the start of the lines reaches the function's return or closing brace without
another statement. -/
inductive Out : List Line → Prop
  | over : Out []
  | comment (line : Line) (rest : List Line) : skipped (strip line) = true → Out rest →
    Out (line :: rest)
  | brace (line : Line) (rest : List Line) : isClose (strip line) = true → Out (line :: rest)
  | label (line name : Line) (rest : List Line) : labelName (strip line) = some name → Out rest →
    Out (line :: rest)
  | ret (line : Line) (rest : List Line) : strip line = str "return;" → Out (line :: rest)
  | goto (line label target : Line) (passed behind : List Line) :
    gotoLabel (strip line) = some label →
      labelName (strip target) = some label → Out behind →
      Out (line :: (passed ++ target :: behind))

/-- Behind a call the flow is not on its way to a label. -/
theorem callFlow_unbound (line label : Line) : callFlow line ≠ some (.bound label) := by
  unfold callFlow
  dsimp only
  split
  · simp
  · split
    · simp
    · split
      · simp
      · split
        · simp
        · simp

/-- The flow that the scan follows leaves the function, a bound one from its label. By induction
on the lines: a goto binds the flow to a label further down, and all lines up to it are passed
by. -/
theorem leaves_out (lines : List Line) : (leaves .here lines = true → Out lines) ∧
    ∀ label, leaves (.bound label) lines = true →
      ∃ passed target behind, lines = passed ++ target :: behind ∧
      labelName (strip target) = some label ∧ Out behind := by
  induction lines with
  | nil => exact ⟨fun _ => Out.over, fun label bound => by simp [leaves] at bound⟩
  | cons line rest inductionHypothesis =>
    obtain ⟨here, bound⟩ := inductionHypothesis
    have later (label : Line) (awaits : leaves (.bound label) rest = true) : ∃ passed target behind,
        line :: rest = passed ++ target :: behind ∧ labelName (strip target) = some label ∧
        Out behind := by
      obtain ⟨passed, target, behind, split, named, out⟩ := bound label awaits
      exact ⟨line :: passed, target, behind, by rw [split, List.cons_append], named, out⟩
    by_cases comment : skipped (strip line) = true
    · simp only [leaves, comment, if_true]
      exact ⟨fun follows => Out.comment line rest comment (here follows), later⟩
    · by_cases closing : isClose (strip line) = true
      · simp only [leaves, comment, closing, if_true]
        exact ⟨fun _ => Out.brace line rest closing, fun label impossible => by simp at impossible⟩
      · cases named : labelName (strip line) with
        | some name =>
          simp only [leaves, comment, closing, named, Bool.false_eq_true, if_false,
            Bool.and_eq_true, beq_iff_eq]
          refine ⟨fun follows => Out.label line name rest named (here follows), ?_⟩
          rintro label ⟨rfl, follows⟩
          exact ⟨[], line, rest, rfl, named, here follows⟩
        | none =>
          simp only [leaves, comment, closing, named, Bool.false_eq_true, if_false,
            Bool.and_eq_true]
          refine ⟨?_, fun label follows => later label follows.2⟩
          intro follows
          by_cases returns : strip line = str "return;"
          · exact Out.ret line rest returns
          · cases jumps : gotoLabel (strip line) with
            | none => simp [returns, jumps] at follows
            | some label =>
              obtain ⟨passed, target, behind, rfl, known, out⟩ :=
                bound label (by simpa [returns, jumps] using follows)
              exact Out.goto line label target passed behind jumps known out

/-- A tail call is a call whose only successor is the function's return or closing brace: the
line itself returns behind it, or the flow from the next line on leaves. -/
theorem tailCall_out (lines : List Line) (ends : EndsWithTailCall lines) :
    ∃ before call after, lines = before ++ call :: after ∧
      (callFlow call = some .left ∨ callFlow call = some .here ∧ Out after) := by
  obtain ⟨before, call, after, flow, split, calls, follows⟩ := ends
  refine ⟨before, call, after, split, ?_⟩
  cases flow with
  | here => exact .inr ⟨calls, (leaves_out after).1 follows⟩
  | left => exact .inl calls
  | bound label => exact absurd calls (callFlow_unbound call label)

/-! ## The window -/

/-- The last lines are those with few lines behind them: taking from the reversed list keeps a
line exactly when fewer than so many come after it. -/
theorem mem_window (n : Nat) (lines : List Line) (line : Line) :
    line ∈ lines.reverse.take n ↔ ∃ before after, lines = before ++ line :: after ∧
    after.length < n := by
  constructor
  · intro member
    obtain ⟨later, earlier, split⟩ := List.append_of_mem member
    have bound : (lines.reverse.take n).length ≤ n := List.length_take_le n _
    refine ⟨(earlier ++ lines.reverse.drop n).reverse, later.reverse, ?_, ?_⟩
    · calc lines = (lines.reverse.take n ++ lines.reverse.drop n).reverse := by
            rw [List.take_append_drop, List.reverse_reverse]
        _ = (earlier ++ lines.reverse.drop n).reverse ++ line :: later.reverse := by
            rw [split]
            simp
    · rw [split, List.length_append, List.length_cons] at bound
      rw [List.length_reverse]
      omega
  · rintro ⟨before, after, rfl, few⟩
    have reversed : (before ++ line :: after).reverse = (after.reverse ++ [line]) ++
        before.reverse := by simp
    have length : (after.reverse ++ [line]).length ≤ n := by
      rw [List.length_append, List.length_reverse, List.length_singleton]
      omega
    rw [reversed, List.take_append, List.take_of_length_le length]
    simp

/-- The window finds a call exactly when at most five code lines stand behind one. -/
theorem tailCall_near (part : List Line) :
    (tailCall part).isSome = true ↔ Near (codeLines part) := by
  rw [tailCall, List.isSome_findSome?, List.any_eq_true]
  constructor
  · rintro ⟨call, member, named⟩
    obtain ⟨before, after, split, few⟩ := (mem_window 6 _ call).mp member
    exact ⟨before, call, after, split, named, by omega⟩
  · rintro ⟨before, call, after, split, named, few⟩
    exact ⟨call, (mem_window 6 _ call).mpr ⟨before, after, split, by omega⟩, named⟩

/-- Only the number of lines behind the last call decides. -/
theorem near_last (before after : List Line) (call : Line) (named : (callRe call).isSome = true)
    (last : ∀ line ∈ after, callRe line = none) :
    Near (before ++ call :: after) ↔ after.length ≤ 5 := by
  constructor
  · rintro ⟨earlier, other, rest, split, otherNamed, few⟩
    by_contra far
    have suffix : after <:+ before ++ call :: after := ⟨before ++ [call], by simp⟩
    have inner : other :: rest <:+ before ++ call :: after := ⟨earlier, split.symm⟩
    have within : other :: rest <:+ after :=
      List.suffix_of_suffix_length_le inner suffix (by rw [List.length_cons]; omega)
    rw [last other (within.subset List.mem_cons_self)] at otherNamed
    cases otherNamed
  · exact fun few => ⟨before, call, after, rfl, named, few⟩

/-! ## The balance -/

/-- The decrements are the negative amounts, without their signs. -/
theorem mem_decs (part : List Line) (amount : Nat) :
    amount ∈ decs part ↔ 0 < amount ∧ -(amount : Int) ∈ amounts part := by
  simp only [decs, List.mem_map, List.mem_filter, decide_eq_true_eq]
  constructor
  · rintro ⟨added, ⟨member, negative⟩, rfl⟩
    have opposite : -(added.natAbs : Int) = added := by omega
    exact ⟨by omega, opposite.symm ▸ member⟩
  · rintro ⟨positive, member⟩
    exact ⟨-(amount : Int), ⟨member, by omega⟩, by omega⟩

/-- The increments are the amounts that are not negative. -/
theorem mem_incs (part : List Line) (amount : Nat) :
    amount ∈ incs part ↔ (amount : Int) ∈ amounts part := by
  simp only [incs, List.mem_map, List.mem_filter, decide_eq_true_eq]
  constructor
  · rintro ⟨added, ⟨member, positive⟩, rfl⟩
    have same : (added.natAbs : Int) = added := by omega
    exact same.symm ▸ member
  · exact fun member => ⟨(amount : Int), ⟨member, by omega⟩, by omega⟩

/-- The counters find the amounts that are never added back. They are sets of amounts, so one that
is taken off twice and added back once is not found, by the definition of `Unbalanced` as well. -/
theorem unbalanced_iff (part : List Line) :
    ((decs part).isEmpty || (decs part).all (fun amount => (incs part).contains amount)) = false ↔
    Unbalanced part := by
  have some :
    ((decs part).isEmpty || (decs part).all (fun amount => (incs part).contains amount)) = false ↔
      ∃ amount ∈ decs part, amount ∉ incs part := by
    cases decs part <;> simp [imp_iff_not_or]
  rw [some]
  constructor
  · rintro ⟨amount, decremented, never⟩
    rw [mem_decs] at decremented
    rw [mem_incs] at never
    exact ⟨-(amount : Int), decremented.2, by omega, by rwa [Int.neg_neg]⟩
  · rintro ⟨added, member, negative, never⟩
    have opposite : -(added.natAbs : Int) = added := by omega
    have size : (added.natAbs : Int) = -added := by omega
    refine ⟨added.natAbs, (mem_decs part _).mpr ⟨by omega, opposite.symm ▸ member⟩, ?_⟩
    rw [mem_incs, size]
    exact never

/-- The audit reports a function whose decrements are not matched and that has no call in the
window. -/
theorem report_isSome (file name : Line) (part : List Line)
    (function : funcRe (part.headD []) = some name) :
    (report file part).isSome = true ↔ Unbalanced part ∧ ¬ Near (codeLines part) := by
  rw [report, function, Option.bind_eq_bind, Option.bind_some, ← unbalanced_iff, ← tailCall_near]
  cases (decs part).isEmpty || (decs part).all (fun amount => (incs part).contains amount) with
  | true => simp
  | false =>
    cases (tailCall part).isSome with
    | true => simp
    | false => simp

/-- Whatever follows its last call, a function is not reported while that is at most five lines. -/
theorem report_last (file name : Line) (part before after : List Line) (call : Line)
    (function : funcRe (part.headD []) = some name)
    (split : codeLines part = before ++ call :: after)
    (named : (callRe call).isSome = true) (last : ∀ line ∈ after, callRe line = none) :
    (report file part).isSome = true ↔ Unbalanced part ∧ 5 < after.length := by
  rw [report_isSome file name part function, split, near_last before after call named last, not_le]

/-- A function that gives its room back. -/
def leafFunction : List Line :=
  [str "RECOMP_FUNC void func_80001000(uint8_t* rdram, recomp_context* ctx) \x7b",
    str "    ctx->r29 = ADD32(ctx->r29, -0X18);", str "    ctx->r29 = ADD32(ctx->r29, 0X18);",
    str "    return;", str ";\x7d"]

/-- A function that ends with a call through a register's address, and leaves the stack to the
function it calls. -/
def lookupTail : List Line :=
  [str "RECOMP_FUNC void func_80006668(uint8_t* rdram, recomp_context* ctx) \x7b",
    str "    ctx->r29 = ADD32(ctx->r29, -0X18);", str "    LOOKUP_FUNC(ctx->r25)(rdram, ctx);",
    str "    return;", str ";\x7d"]

-- its tail call is none that the window knows
example : EndsWithTailCall (codeLines lookupTail) ∧ ¬ Near (codeLines lookupTail) ∧
    (report (str "funcs_0.c") lookupTail).isSome = true := by
  have near := (tailCall_near lookupTail).not
  rw [← near]
  simp only [lookupTail]
  repeat rw [str_ofList]
  decide +kernel

/-- A function that was cut off one statement behind an ordinary call. -/
def cutFunction : List Line :=
  [str "RECOMP_FUNC void func_80001000(uint8_t* rdram, recomp_context* ctx) \x7b",
    str "    ctx->r29 = ADD32(ctx->r29, -0X18);", str "    func_80002000(rdram, ctx);",
    str "        goto after_0;",
    str "    // 0x80001008: nop", str "    after_0:", str "    ctx->r2 = ADD32(0, 0X1);",
    str ";\x7d"]

end NoMercyRecomp.AuditSpBalance
