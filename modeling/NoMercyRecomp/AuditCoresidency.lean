import NoMercyRecomp.Recompiled

/-!
# The co-residency audit

A direct call is bound to one overlay when the program is linked. It is harmless only
if every overlay that may be loaded together with the caller and covers the target
starts a function there. `audit_coresidency` looks for calls that break this rule and
exits with zero when it finds none.

It looks for calls by their indentation: four to eight white-space characters between
the start of a line and the call. The calls that `fix_switches` puts into switch arms
and those that `fix_backbranches` puts into braces are not written so, and neither are
calls nested more deeply.
-/

namespace NoMercyRecomp.AuditCoresidency

open TextScan SymbolTable Recompiled

/-! ## Co-residency -/

/-- `OVERLAYS` -/
def overlays : List Line := [str "ovl_a", str "ovl_b", str "ovl_c", str "ovl_d", str "ovl_e"]

/-- The pairs of overlays that may be resident together. -/
def pairs : List (Line × Line) :=
  [(str "ovl_a", str "ovl_b"), (str "ovl_a", str "ovl_c"), (str "ovl_a", str "ovl_d")]

/-- `coloadable`: two sections may be resident together. No aliases are defined. -/
def coloadable (a b : Line) : Bool :=
  if a = b then true
  else if !overlays.contains a || !overlays.contains b then true
  else pairs.contains (a, b) || pairs.contains (b, a)

/-- The memory slots an overlay occupies: `ovl_a` one, `ovl_b`, `ovl_c` and `ovl_d` the
other, `ovl_e` both. A main section occupies none. -/
def slots (sec : Line) : List Nat :=
  if sec = str "ovl_a" then [0x800D9960]
  else if sec = str "ovl_e" then [0x800D9960, 0x80106760]
  else if overlays.contains sec then [0x80106760]
  else []

/-- Two sections may be resident together when they share no slot. -/
def CoResident (a b : Line) : Prop := ∀ slot ∈ slots a, slot ∉ slots b

instance (a b : Line) : Decidable (CoResident a b) :=
  inferInstanceAs (Decidable (∀ slot ∈ slots a, slot ∉ slots b))

/-- Only overlays occupy slots. -/
theorem slots_main (sec : Line) (main : sec ∉ overlays) : slots sec = [] := by
  have notA : sec ≠ str "ovl_a" := fun same => main (by rw [same]; decide)
  have notE : sec ≠ str "ovl_e" := fun same => main (by rw [same]; decide)
  simp [slots, notA, notE, main]

/-- `coloadable` is the slot model. -/
theorem coloadable_iff (a b : Line) (different : a ≠ b) :
    coloadable a b = true ↔ CoResident a b := by
  by_cases overlayA : a ∈ overlays
  · by_cases overlayB : b ∈ overlays
    · have table : ∀ x ∈ overlays, ∀ y ∈ overlays, x ≠ y →
          (coloadable x y = true ↔ CoResident x y) := by
        decide +kernel
      exact table a overlayA b overlayB different
    · simp [coloadable, different, overlayB, CoResident, slots_main b overlayB]
  · simp [coloadable, different, overlayA, CoResident, slots_main a overlayA]

/-! ## Calls -/

/-- `func_([0-9A-Fa-f]{8})\w*\(rdram, ctx\);` at a position: the target. -/
def callRe (text : Line) : Option Nat := do
  let rest ← lit ('f' :: str "unc_") text
  let _ ← lit ('(' :: str "rdram, ctx);") ((rest.drop 8).dropWhile isWord)
  if (rest.take 8).length = 8 ∧ (rest.take 8).all isHex then some (value 16 (rest.take 8)) else none

/-- `call_re` at the start of a line. -/
def seenAt (text : Line) : Option Nat :=
  let spaces := (text.takeWhile isSpace).length
  if 4 ≤ spaces ∧ spaces ≤ 8 then callRe (text.dropWhile isSpace) else none

/-- The text of a body from each start of a line on. -/
def lineStarts (lines : List Line) : List Line := lines.tails.map (joined ['\n'])

/-- The targets of the calls that the audit finds in a body. White space may run over
several lines, and then a call is found from the start of each of them. -/
def seenCalls (f : GenFunc) : List Nat := (lineStarts (f.tail :: f.body)).filterMap seenAt

/-- A call in a switch arm, as `fix_switches` writes it. -/
def armCall (text : Line) : Option Nat := do
  let number ← lit (str "case ") text
  let rest ← lit (str ": ") (number.dropWhile Char.isDigit)
  if number.takeWhile Char.isDigit = [] then none else callRe rest

/-- A call in braces, as `fix_backbranches` writes it. -/
def wrappedCall (text : Line) : Option Nat :=
  (lit (str "\x7b /* [nomercy fix_backbranches] out-of-span branch target */ ") text).bind callRe

/-- The targets of the calls at the statement positions of a line: at its start behind
any white space, in a switch arm, or in braces anywhere. -/
def lineCalls (line : Line) : List Nat :=
  (callRe (line.dropWhile isSpace)).toList ++ (armCall (line.dropWhile isSpace)).toList ++
    findAll wrappedCall line

/-- The targets of the direct calls of a function. -/
def calls (f : GenFunc) : List Nat := (f.tail :: f.body).flatMap lineCalls

/-! ## The audit -/

/-- The overlays that a call from a section is reported for. -/
def violations (dump : Dump) (csec : Line) (target : Nat) : List Line :=
  ((dump.filter (fun sec => sec.covers target)).map Section.name).filter (fun osec =>
    !decide (osec = csec) && overlays.contains osec && coloadable csec osec &&
    !startsAt dump osec target)

/-- The reports for one function; a caller of unknown section is passed over. -/
def auditFunc (dump : Dump) (f : GenFunc) : List Line :=
  match sectionOf dump f.name with
  | some csec => (seenCalls f).flatMap (violations dump csec)
  | none => []

/-- The audit exits with zero. -/
def passes (dump : Dump) (files : List (List Line)) : Bool :=
  files.all (fun file => (functions file).all (fun f => (auditFunc dump f).isEmpty))

/-! ## Seen calls are calls -/

/-- A literal without line feeds is found within a line: where the line ends early it meets the
line feed, which it does not hold. -/
theorem lit_line (pattern line rest : Line) (unbroken : '\n' ∉ pattern) :
    lit pattern (line ++ '\n' :: rest) = (lit pattern line).map (· ++ '\n' :: rest) := by
  induction pattern generalizing line with
  | nil => simp [lit]
  | cons p pattern inductionHypothesis =>
    have later := inductionHypothesis
    cases line with
    | nil =>
      have different : p ≠ '\n' := fun same => unbroken (same ▸ List.mem_cons_self)
      simp [lit, different]
    | cons c line =>
      have tail := inductionHypothesis line (fun member => unbroken (List.mem_cons_of_mem p member))
      by_cases same : p = c
      · simp [lit, same, tail]
      · simp [lit, same]

/-- A class without the line feed ends within a line. -/
theorem dropWhile_line (class? : Char → Bool) (line rest : Line) (outside : class? '\n' = false) :
    (line ++ '\n' :: rest).dropWhile class? = line.dropWhile class? ++ '\n' :: rest := by
  induction line with
  | nil => simp [outside]
  | cons c line inductionHypothesis =>
    cases inside : class? c with
    | true => simpa [inside] using inductionHypothesis
    | false => simp [inside]

/-- A call is found within a line: what the pattern takes behind the blanks are a fixed word,
digits and an argument list, none of which holds a break. -/
theorem callRe_line (line rest : Line) : callRe (line ++ '\n' :: rest) = callRe line := by
  rw [callRe, callRe, lit_line _ _ _ (by decide)]
  cases lit ('f' :: str "unc_") line with
  | none => rfl
  | some name =>
    simp only [Option.map_some, Option.bind_eq_bind, Option.bind_some]
    by_cases long : 8 ≤ name.length
    · have digits : (name ++ '\n' :: rest).take 8 = name.take 8 :=
        List.take_append_of_le_length long
      have behind : (name ++ '\n' :: rest).drop 8 = name.drop 8 ++ '\n' :: rest :=
        List.drop_append_of_le_length long
      rw [digits, behind, dropWhile_line isWord _ _ (by decide), lit_line _ _ _ (by decide)]
      cases lit ('(' :: str "rdram, ctx);") ((name.drop 8).dropWhile isWord) <;> rfl
    · have broken : ((name ++ '\n' :: rest).take 8).all isHex = false := by
        rw [List.all_eq_false]
        refine ⟨'\n', ?_, by decide⟩
        obtain ⟨more, room⟩ : ∃ more, 8 - name.length = more + 1 := ⟨7 - name.length, by omega⟩
        rw [List.take_append, room]
        simp
      simp [long, broken]

/-- White space before a call ends in the line of the call. Lines of blanks alone are passed over,
as the white space may go on over their ends. -/
theorem callRe_joined (lines : List Line) (target : Nat)
    (found : callRe ((joined ['\n'] lines).dropWhile isSpace) = some target) :
    ∃ line ∈ lines, callRe (line.dropWhile isSpace) = some target := by
  induction lines with
  | nil => simp [joined, callRe, lit] at found
  | cons line rest inductionHypothesis =>
    have text : joined ['\n'] (line :: rest) = line ++ '\n' :: joined ['\n'] rest := by
      simp [joined]
    rw [text] at found
    by_cases blank : ∀ c ∈ line, isSpace c = true
    · rw [List.dropWhile_append_of_pos blank, List.dropWhile_cons_of_pos (by decide)] at found
      obtain ⟨other, member, isCall⟩ := inductionHypothesis found
      exact ⟨other, List.mem_cons_of_mem line member, isCall⟩
    · have solid : line.dropWhile isSpace ≠ [] := by
        simpa [List.dropWhile_eq_nil_iff] using blank
      obtain ⟨first, more, split⟩ := List.exists_cons_of_ne_nil solid
      have ended : isSpace first = false := by
        have head := List.head?_dropWhile_not isSpace line
        simpa [split] using head
      have parts : line = line.takeWhile isSpace ++ first :: more := by
        rw [← split, List.takeWhile_append_dropWhile]
      have spaces : ∀ c ∈ line.takeWhile isSpace, isSpace c = true := fun c member =>
        List.mem_takeWhile_imp member
      refine ⟨line, List.mem_cons_self, ?_⟩
      rw [parts, List.append_assoc, List.cons_append, dropWhile_run isSpace _ _ first spaces ended,
        ← List.cons_append, callRe_line] at found
      rw [split]
      exact found

/-- Every call that the audit finds is a call of the function. -/
theorem seenCalls_calls (f : GenFunc) : seenCalls f ⊆ calls f := by
  intro target member
  obtain ⟨text, among, found⟩ := List.mem_filterMap.mp member
  obtain ⟨lines, isTail, rfl⟩ := List.mem_map.mp among
  have isCall : callRe ((joined ['\n'] lines).dropWhile isSpace) = some target := by
    rw [seenAt] at found
    split at found
    · exact found
    · simp at found
  obtain ⟨line, inLines, here⟩ := callRe_joined lines target isCall
  have inBody : line ∈ f.tail :: f.body := ((List.mem_tails _ _).mp isTail).subset inLines
  exact List.mem_flatMap.mpr ⟨line, inBody, by simp [lineCalls, here]⟩

/-! ## Completeness -/

section Completeness

variable (dump : Dump) (files : List (List Line))

/-- A call from a section breaks the rule: some other overlay that may be resident with
the caller covers the target and starts no function there. -/
def Breaks (csec : Line) (target : Nat) : Prop :=
  ∃ sec ∈ dump, sec.name ∈ overlays ∧ sec.name ≠ csec ∧ CoResident csec sec.name ∧
    sec.covers target = true ∧ startsAt dump sec.name target = false

/-- A call of a function of the files, from a known section. -/
def CallsFrom (csec : Line) (f : GenFunc) : Prop :=
  ∃ file ∈ files, f ∈ functions file ∧ sectionOf dump f.name = some csec

/-- The audit passes exactly when no direct call breaks the rule. -/
def Complete : Prop :=
  passes dump files = true ↔
    ∀ csec f, CallsFrom dump files csec f → ∀ target ∈ calls f, ¬ Breaks dump csec target

/-- The audit reports a target exactly when a call of it breaks the rule. -/
theorem violations_iff (csec : Line) (target : Nat) :
    violations dump csec target ≠ [] ↔ Breaks dump csec target := by
  rw [← List.length_pos_iff, List.length_pos_iff_exists_mem]
  simp only [violations, List.mem_filter, List.mem_map, Bool.and_eq_true, Bool.not_eq_true',
    decide_eq_false_iff_not, List.contains_iff_mem]
  constructor
  · rintro ⟨osec, ⟨sec, ⟨inDump, covers⟩, rfl⟩, ⟨⟨different, overlay⟩, loadable⟩, absent⟩
    exact ⟨sec, inDump, overlay, different,
      (coloadable_iff csec sec.name (Ne.symm different)).mp loadable, covers, absent⟩
  · rintro ⟨sec, inDump, overlay, different, resident, covers, absent⟩
    exact ⟨sec.name, ⟨sec, ⟨inDump, covers⟩, rfl⟩, ⟨⟨different, overlay⟩,
      (coloadable_iff csec sec.name (Ne.symm different)).mpr resident⟩, absent⟩

/-- The audit passes exactly when no call that it finds breaks the rule: it reports every such
call of every function whose section is known, and nothing else. -/
theorem passes_iff : passes dump files = true ↔
    ∀ csec f, CallsFrom dump files csec f → ∀ target ∈ seenCalls f, ¬ Breaks dump csec target := by
  simp only [passes, List.all_eq_true, List.isEmpty_iff]
  constructor
  · rintro silent csec f ⟨file, inFiles, inFile, known⟩ target seen breaks
    have quiet := silent file inFiles f inFile
    rw [auditFunc, known] at quiet
    exact (violations_iff dump csec target).mpr breaks
      (List.flatMap_eq_nil_iff.mp quiet target seen)
  · intro clean file inFiles f inFile
    cases known : sectionOf dump f.name with
    | none => simp [auditFunc, known]
    | some csec =>
      rw [auditFunc, known]
      refine List.flatMap_eq_nil_iff.mpr (fun target seen => ?_)
      by_contra reported
      exact clean csec f ⟨file, inFiles, inFile, known⟩ target seen
        ((violations_iff dump csec target).mp reported)

/-- The audit is complete exactly when a call that it does not find breaks the rule only if some
call that it finds does. The exit status tells of the found calls and they are calls, so only the
calls that the pattern overlooks can part the two. -/
theorem complete_iff : Complete dump files ↔
    ((∃ csec f, CallsFrom dump files csec f ∧ ∃ target ∈ calls f, target ∉ seenCalls f ∧
      Breaks dump csec target) →
      ∃ csec f, CallsFrom dump files csec f ∧ ∃ target ∈ seenCalls f, Breaks dump csec target) := by
  rw [Complete, passes_iff]
  constructor
  · rintro complete ⟨csec, f, from_, target, isCall, unseen, breaks⟩
    by_contra hidden
    refine complete.mp (fun csec f from_ target seen breaks => ?_) csec f from_ target isCall breaks
    exact hidden ⟨csec, f, from_, target, seen, breaks⟩
  · intro visible
    constructor
    · intro clean csec f from_ target isCall breaks
      by_cases seen : target ∈ seenCalls f
      · exact clean csec f from_ target seen breaks
      · obtain ⟨csec', f', from', target', seen', breaks'⟩ :=
          visible ⟨csec, f, from_, target, isCall, seen, breaks⟩
        exact clean csec' f' from' target' seen' breaks'
    · intro clean csec f from_ target seen
      exact clean csec f from_ target (seenCalls_calls f seen)

end Completeness

/-- A function of `ovl_a` whose switch calls a function of `ovl_b` from an arm. -/
def armFile : List Line :=
  [str "RECOMP_FUNC void func_800D9960(uint8_t* rdram, recomp_context* ctx) \x7b",
    str "    // 0x800D9960: jr          $v0",
    str "    switch (jr_addend_800D9960 >> 2) \x7b",
    str "        case 0: goto L_800D9970; break;",
    str "        case 1: func_80106800(rdram, ctx); return; " ++
      str "/* [nomercy fix_switches] out-of-body (island) entry */",
    str "        default: switch_error(__func__, 0x800D9960, 0x800D9980);",
    str "    \x7d",
    str ";\x7d"]

/-- The three overlays: only one of the two that cover the target starts a function there. -/
def armDump : Dump :=
  [⟨str "ovl_a", 0, 0x800D9960, 0x100, [⟨str "func_800D9960", 0x800D9960, 0x20⟩]⟩,
    ⟨str "ovl_b", 0x1000, 0x80106760, 0x200, [⟨str "func_80106800", 0x80106800, 0x20⟩]⟩,
    ⟨str "ovl_c", 0x2000, 0x80106760, 0x200, []⟩]

/-- The audit passes although the arm's call breaks the rule. -/
theorem armFile_passes : ¬ Complete armDump [armFile] := by
  intro complete
  have zero : passes armDump [armFile] = true := by decide +kernel
  have found : ∃ f ∈ functions armFile, sectionOf armDump f.name = some (str "ovl_a") ∧
      0x80106800 ∈ calls f := by
    decide +kernel
  obtain ⟨f, inFile, known, isCall⟩ := found
  refine complete.mp zero (str "ovl_a") f
    ⟨armFile, List.mem_singleton_self _, inFile, known⟩ _ isCall ?_
  exact ⟨⟨str "ovl_c", 0x2000, 0x80106760, 0x200, []⟩,
    by decide, by decide, by decide, by decide, by decide, by decide +kernel⟩

end NoMercyRecomp.AuditCoresidency
