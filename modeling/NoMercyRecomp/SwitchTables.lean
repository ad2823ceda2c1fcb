import NoMercyRecomp.SwitchLoop
import NoMercyRecomp.SwitchReading

/-!
# Whose jump table a completion reads

The swap-slot overlays overlap in vram, so the address of a jump table does not say
where in the ROM it lies. A function's own section does: its data follows its text at
the same distance between ROM and vram. `fix_switches` does not look at the function's
section. It takes the section whose text range covers the table, preferring one that
covers the first decoded address too, and the ranges hold text sizes only. A table
behind the text of one overlay is covered by the text of a longer one.

A completion is right when the switch gets exactly the arms below its guard and each
new arm transfers to the word in the table of the function's own section.
-/

namespace NoMercyRecomp.SwitchTables

open TextScan SymbolTable Recompiled Contexts Growth FixSwitches SwitchPlan SwitchReading

open SwitchLoop (QuietTo newBody onDisk_inPlace fixTree_quiet)

/-- A switch that a run completes: a function with its section, the run's result on it,
and a site whose arms are numbered from zero on and whose entries are all read. -/
structure Completion (rom : List UInt8) (dump : Dump) where
  f : GenFunc
  bare : f.tail = []
  wellFormed : WellFormed f.body
  own : Section
  listed : own ∈ dump
  known : sectionOf dump f.name = some own.name
  after : List Line
  failed : Nat
  ran : fixBody rom dump f.body = some (after, failed)
  site : List Line × Site
  member : site ∈ sites f.body
  contiguous : (switchLines site.1).flatMap armsOn = (List.range (ncases site.1)).map decimal
  bound : Nat
  offset : Nat
  reads : Reads dump f.body site bound offset
  added : List Arm
  read : SwitchPlan.entries rom dump f.body offset
    (List.range' (ncases site.1) (bound - ncases site.1)) = .ok added

/-- A label of the target stands directly before a line that decodes it. -/
def StandsBefore (body : List Line) (target : Nat) : Prop :=
  ∃ front labelLine line back, body = front ++ labelLine :: line :: back ∧
    isLabel target labelLine = true ∧ (decodeText target).isPrefixOf line = true

/-- Some section lists the function named after the target at the target. -/
def Listed (dump : Dump) (target : Nat) : Prop :=
  ∃ sec ∈ dump, ∃ f ∈ sec.funcs, f.name = funcName target ∧ f.vram = target

/-- One of the switch's lines is an arm that transfers to the target: a jump to a label
before its decode line, or a call of the function that starts there. -/
def Transfers (dump : Dump) (body switch : List Line) (indent : Line) (index target : Nat) : Prop :=
  (indent ++ gotoArm index target ∈ switch ∧ StandsBefore body target) ∨
    (indent ++ callArm index target ∈ switch ∧ Listed dump target)

namespace Completion

variable {rom : List UInt8} {dump : Dump} (c : Completion rom dump)

/-- The table entry as the function's own section has it in the ROM. -/
def ownWord (index : Nat) : Option Nat :=
  word rom (c.own.rom + value 16 c.site.2.table + 4 * index - c.own.vram)

/-- The completed switch reads the table of the function's own section. -/
structure Right : Prop where
  switch : ∃ s ∈ sites c.after, s.2 = c.site.2 ∧
    (switchLines s.1).flatMap armsOn = (List.range c.bound).map decimal ∧
    ∀ index, ncases c.site.1 ≤ index → index < c.bound → ∃ target, c.ownWord index = some target ∧
      Transfers dump c.after (switchLines s.1) c.site.2.indent index target
  unchanged : ∃ grown : Grown Line, original grown = c.f.body ∧ lines grown = c.after ∧
    ∀ pair ∈ grown, ∀ line ∈ pair.1, (∃ target, line = label target ++ [':']) ∨
    (siteRe pair.2).isSome = true

/-- An entry of the table that is read where the function's own section has it, and
whose target can be transferred to. -/
def Agrees (index : Nat) : Prop :=
  ∃ target, c.ownWord index = some target ∧ word rom (c.offset + 4 * index) = some target ∧
    if decoded c.f.body target = true
      then labelled c.f.body target = true → StandsBefore c.f.body target
      else Listed dump target

end Completion

/-! ## Arms on lines -/

/-- Added arms differ when their lines do: the index is read off the line, a goto is no call, and
an address is read off its eight digits. -/
theorem line_injective (arm other : Arm) (same : arm.line = other.line) : arm = other := by
  have noIndent : ∀ c ∈ ([] : Line), c = ' ' := by simp
  have first := (arm_foreign [] noIndent arm).2
  have second := (arm_foreign [] noIndent other).2
  rw [List.nil_append, same] at first
  rw [List.nil_append, first] at second
  have index : arm.index = other.index := by
    rw [← value_decimal arm.index, (List.cons.inj second).1, value_decimal]
  cases arm with
  | goto i target =>
    cases other with
    | goto j reached =>
      obtain rfl : i = j := index
      have texts : label target = label reached := by
        simpa [Arm.line, gotoArm] using same
      rw [hex8_injective target reached (by simpa [label] using texts)]
    | call j reached =>
      obtain rfl : i = j := index
      simp [Arm.line, gotoArm, callArm, funcName, str] at same
  | call i target =>
    cases other with
    | goto j reached =>
      obtain rfl : i = j := index
      simp [Arm.line, gotoArm, callArm, funcName, str] at same
    | call j reached =>
      obtain rfl : i = j := index
      have texts : funcName target = funcName reached := by
        simpa [Arm.line, callArm] using same
      rw [hex8_injective target reached (by simpa [funcName] using texts)]

/-- A line decodes one target at its start. -/
theorem decodes_unique (target other : Nat) (line : Line)
    (first : (decodeText target).isPrefixOf line = true)
    (second : (decodeText other).isPrefixOf line = true) : target = other := by
  obtain ⟨rest, rfl⟩ := List.isPrefixOf_iff_prefix.mp first
  obtain ⟨rest', same⟩ := List.isPrefixOf_iff_prefix.mp second
  have tails : hex8 other ++ ':' :: rest' = hex8 target ++ ':' :: rest := by
    simpa [decodeText] using same
  have digits := congrArg (List.takeWhile isUpperHex) tails
  rw [takeWhile_run isUpperHex _ _ ':' (hex8_upper other) (by decide),
    takeWhile_run isUpperHex _ _ ':' (hex8_upper target) (by decide)] at digits
  exact hex8_injective target other digits.symm

/-- A decode line is no default arm. -/
theorem decodes_plain (target : Nat) (line : Line)
    (starts : (decodeText target).isPrefixOf line = true) :
    siteRe line = none := by
  cases isSite : siteRe line with
  | none => rfl
  | some site => simp [site_no_decode line site isSite target] at starts

/-! ## Labels before decode lines -/

section Labels

variable (rom : List UInt8) (dump : Dump) (body : List Line)

/-- Before a decode line stand only labels of its own target. -/
theorem marked_decodes (target : Nat) (line : Line)
    (starts : (decodeText target).isPrefixOf line = true)
    (inserted : Line) (member : inserted ∈ marked (marks rom dump body) line) :
    inserted = label target ++ [':'] ∧ .label target ∈ plan rom dump body (sites body) [] := by
  obtain ⟨other, planned, rfl, decodes⟩ :=
    marked_plain rom dump body line (decodes_plain target line starts) inserted member
  obtain rfl := decodes_unique target other line starts decodes
  exact ⟨rfl, planned⟩

/-- A planned label is put before a decode line. Its target is on one such line, and among what is
put before that line, the label comes last. -/
theorem planned_stands (target : Nat)
    (planned : .label target ∈ plan rom dump body (sites body) []) :
    StandsBefore (completed rom dump body) target := by
  have once : decodeLines body target = 1 :=
    plan_placed rom dump body (sites body) (List.Subset.refl _) []
      (fun _ absent => by simp at absent) _ planned
  have someLine : 0 < body.countP (decodeText target).isPrefixOf :=
    lt_of_lt_of_eq Nat.zero_lt_one once.symm
  obtain ⟨line, inBody, starts⟩ := List.countP_pos_iff.mp someLine
  obtain ⟨earlier, later, split⟩ := List.append_of_mem inBody
  have inserted : label target ++ [':'] ∈ marked (marks rom dump body) line :=
    List.mem_flatMap.mpr ⟨_, List.mem_map_of_mem planned, by simp [Addition.mark, starts]⟩
  have whole : completed rom dump body = lines (grow (marks rom dump body) earlier) ++
      marked (marks rom dump body) line ++ line :: lines (grow (marks rom dump body) later) := by
    rw [← lines_around, ← split]
    rfl
  obtain absent | ⟨before, last, shape⟩ := List.eq_nil_or_concat (marked (marks rom dump body) line)
  · simp [absent] at inserted
  · obtain ⟨same, _⟩ := marked_decodes rom dump body target line starts last (by simp [shape])
    refine ⟨lines (grow (marks rom dump body) earlier) ++ before, last, line,
      lines (grow (marks rom dump body) later), ?_, ?_, starts⟩
    · rw [whole, shape]
      simp
    · simp [same, isLabel_label]

/-- In a completed body a label stands before a decode line when it did, or when it was
planned. -/
theorem stands_completed (target : Nat) : StandsBefore (completed rom dump body) target ↔
    StandsBefore body target ∨ .label target ∈ plan rom dump body (sites body) [] := by
  constructor
  · rintro ⟨front, labelLine, line, back, split, isLabelled, starts⟩
    have own : ∀ mark ∈ marks rom dump body, line ∉ mark.2 := by
      intro mark among inBlock
      obtain ⟨addition, planned, rfl⟩ := List.mem_map.mp among
      have placed :=
        plan_placed rom dump body (sites body) (List.Subset.refl _) [] (by simp) addition planned
      have foreign := addition_foreign body addition placed line inBlock
      simp [decodes_start target line (foreign.decodes target)] at starts
    have member := (mem_contexts (completed rom dump body) (front ++ [labelLine], line, back)).mpr
      (by simp [split])
    obtain ⟨⟨earlier, line', later⟩, inBody, same⟩ :=
      (contexts_grow (marks rom dump body) body _ own).mp member
    obtain ⟨before, rest⟩ := Prod.mk.inj same
    obtain ⟨rfl, _⟩ := Prod.mk.inj rest
    obtain absent | ⟨inserted, last, shape⟩ :=
      List.eq_nil_or_concat (marked (marks rom dump body) line)
    · left
      rw [absent, List.append_nil] at before
      obtain rfl | ⟨earlier, previous, rfl⟩ := List.eq_nil_or_concat earlier
      · simp [lines, grow] at before
      · have ends : front ++ [labelLine] = lines (grow (marks rom dump body) earlier) ++
            marked (marks rom dump body) previous ++ [previous] := by
          rw [before, List.concat_eq_append, lines_around]
          rfl
        obtain ⟨_, lasts⟩ := List.append_inj' ends rfl
        obtain rfl : labelLine = previous := by simpa using lasts
        have whole := (mem_contexts _ _).mp inBody
        exact ⟨earlier, labelLine, line, later, by simpa using whole, isLabelled, starts⟩
    · right
      exact (marked_decodes rom dump body target line starts last (by simp [shape])).2
  · rintro (⟨front, labelLine, line, back, split, isLabelled, starts⟩ | planned)
    · by_cases planned : .label target ∈ plan rom dump body (sites body) []
      · exact planned_stands rom dump body target planned
      · have absent : marked (marks rom dump body) line = [] := by
          refine List.eq_nil_iff_forall_not_mem.mpr (fun inserted member => ?_)
          exact planned (marked_decodes rom dump body target line starts inserted member).2
        refine ⟨lines (grow (marks rom dump body) front) ++ marked (marks rom dump body) labelLine,
          labelLine, line, lines (grow (marks rom dump body) back), ?_, isLabelled, starts⟩
        have whole : completed rom dump body =
            lines (grow (marks rom dump body) (front ++ labelLine :: line :: back)) := by
          rw [← split]
          rfl
        rw [whole, lines_around, grow_cons, absent]
        simp [lines]
    · exact planned_stands rom dump body target planned

end Labels

/-! ## Completions -/

namespace Completion

variable {rom : List UInt8} {dump : Dump} (c : Completion rom dump)

/-- The run completed the body. -/
theorem after_completed : c.after = completed rom dump c.f.body := by
  have ran := c.ran
  rw [fixBody_plan rom dump c.f.body c.wellFormed.distinct] at ran
  split at ran
  · simp at ran
  · exact (Prod.mk.inj (Option.some.inj ran)).1.symm

/-- The verdict on the site. -/
theorem verdict_site :
    verdict rom dump c.f.body c.site.1 c.site.2 = .completed c.bound c.offset c.added := by
  rw [verdict_reads rom dump c.f.body c.site c.bound c.offset c.reads, c.read]

/-- The site's indentation is blank. -/
theorem spaces : ∀ x ∈ c.site.2.indent, x = ' ' := by
  obtain ⟨line, _, _, isSite⟩ := (mem_sites c.f.body c.site.1 c.site.2).mp c.member
  exact siteRe_indent line c.site.2 isSite

/-- The arms of the completed switch are those below the guard: the ones that were there, from
zero on, and the added ones from their number up to the guard. -/
theorem arms_exact :
    (switchLines (completedBefore rom dump c.f.body c.site.1 c.site.2)).flatMap armsOn =
    (List.range c.bound).map decimal := by
  have short := c.reads.2.1
  have indices := entries_indices rom dump c.f.body c.offset _ c.added c.read
  have texts : c.added.map (fun arm => decimal arm.index) =
      (List.range' (ncases c.site.1) (c.bound - ncases c.site.1)).map decimal := by
    rw [← indices, List.map_map]
    rfl
  have joined : List.range (ncases c.site.1) ++
      List.range' (ncases c.site.1) (c.bound - ncases c.site.1) = List.range c.bound := by
    have parts : List.range' 0 (ncases c.site.1) ++
        List.range' (0 + ncases c.site.1) (c.bound - ncases c.site.1) =
        List.range' 0 (ncases c.site.1 + (c.bound - ncases c.site.1)) := List.range'_append_1
    rw [List.range_eq_range', List.range_eq_range']
    simpa [Nat.add_sub_cancel' (Nat.le_of_lt short)] using parts
  rw [completed_arms rom dump c.f.body c.wellFormed c.site.1 c.site.2 c.member, c.verdict_site,
    Verdict.arms, texts, c.contiguous, ← List.map_append, joined]

/-- A line of the switch is one of the added arms when it is an arm with an added index: the arms
that were there have the smaller indices, and the comments of the block hold none. -/
theorem switch_arm (arm : Arm) (added : ncases c.site.1 ≤ arm.index) :
    c.site.2.indent ++ arm.line ∈
      switchLines (completedBefore rom dump c.f.body c.site.1 c.site.2) ↔ arm ∈ c.added := by
  obtain ⟨_, kept, shape, same⟩ :=
    completed_reading rom dump c.f.body c.wellFormed c.site.1 c.site.2 c.member
  have holds := (arm_foreign c.site.2.indent c.spaces arm).2
  have comments := comment_foreign c.site.2.indent c.spaces c.bound c.offset
  rw [shape, c.verdict_site, Verdict.lines, completion, List.mem_append]
  constructor
  · rintro (inKept | inBlock)
    · have number : decimal arm.index ∈ kept.flatMap armsOn :=
        List.mem_flatMap.mpr ⟨_, inKept, by simp [holds]⟩
      rw [same, c.contiguous] at number
      obtain ⟨index, inRange, text⟩ := List.mem_map.mp number
      have index_eq : index = arm.index := by rw [← value_decimal index, text, value_decimal]
      have below := List.mem_range.mp inRange
      omega
    · rcases List.mem_cons.mp inBlock with first | more
      · rw [first, comments.1.2] at holds
        simp at holds
      · rcases List.mem_cons.mp more with second | inArms
        · rw [second, comments.2.2] at holds
          simp at holds
        · simp only [List.map_map, List.mem_map, Function.comp_apply,
            List.append_cancel_left_eq] at inArms
          obtain ⟨other, member, text⟩ := inArms
          rwa [← line_injective other arm text]
  · intro member
    right
    refine List.mem_cons_of_mem _ (List.mem_cons_of_mem _ ?_)
    simp only [List.map_map, List.mem_map, Function.comp_apply, List.append_cancel_left_eq]
    exact ⟨arm, member, rfl⟩

/-- A site with the same text in the completed body is the completed site. -/
theorem site_completed (s : List Line × Site) : s ∈ sites c.after ∧ s.2 = c.site.2 ↔
    s = (completedBefore rom dump c.f.body c.site.1 c.site.2, c.site.2) := by
  rw [c.after_completed, sites_completed rom dump c.f.body c.wellFormed]
  constructor
  · rintro ⟨⟨before, member, same⟩, text⟩
    rw [text] at member same
    have unique : (before, c.site.2) = c.site :=
      List.inj_on_of_nodup_map c.wellFormed.distinct member c.member rfl
    have first : before = c.site.1 := by rw [← unique]
    exact Prod.ext (by rw [same, first]) text
  · rintro rfl
    exact ⟨⟨c.site.1, c.member, rfl⟩, rfl⟩

/-- Every added index has an entry that was read. -/
theorem entry_total (index : Nat) (lower : ncases c.site.1 ≤ index) (upper : index < c.bound) :
    ∃ arm, entry rom dump c.f.body c.offset index = .ok arm := by
  have inRange : index ∈ List.range' (ncases c.site.1) (c.bound - ncases c.site.1) := by
    rw [List.mem_range'_1]
    omega
  rw [← entries_indices rom dump c.f.body c.offset _ c.added c.read] at inRange
  obtain ⟨arm, member, rfl⟩ := List.mem_map.mp inRange
  obtain ⟨index, _, reads⟩ :=
    (entries_member rom dump c.f.body c.offset _ c.added c.read arm).mp member
  rw [entry_index rom dump c.f.body c.offset index arm reads]
  exact ⟨arm, reads⟩

/-- An added arm transfers to a target exactly when the entry read is that target and
it can be transferred to. -/
theorem transfers_iff (index target : Nat) (lower : ncases c.site.1 ≤ index)
    (upper : index < c.bound) :
    Transfers dump c.after
      (switchLines (completedBefore rom dump c.f.body c.site.1 c.site.2)) c.site.2.indent
        index target ↔
      word rom (c.offset + 4 * index) = some target ∧
        if decoded c.f.body target = true
          then labelled c.f.body target = true → StandsBefore c.f.body target
          else Listed dump target := by
  have inRange : index ∈ List.range' (ncases c.site.1) (c.bound - ncases c.site.1) := by
    rw [List.mem_range'_1]
    omega
  have goes : c.site.2.indent ++ gotoArm index target ∈
      switchLines (completedBefore rom dump c.f.body c.site.1 c.site.2) ↔
          .goto index target ∈ c.added :=
    c.switch_arm (.goto index target) lower
  have calls : c.site.2.indent ++ callArm index target ∈
      switchLines (completedBefore rom dump c.f.body c.site.1 c.site.2) ↔
          .call index target ∈ c.added :=
    c.switch_arm (.call index target) lower
  have goesRead :=
    (entries_at rom dump c.f.body c.offset _ c.added c.read (.goto index target) inRange).trans
    (entry_ok rom dump c.f.body c.offset index _)
  have callsRead :=
    (entries_at rom dump c.f.body c.offset _ c.added c.read (.call index target) inRange).trans
    (entry_ok rom dump c.f.body c.offset index _)
  have stands := stands_completed rom dump c.f.body target
  rw [Transfers, goes, calls, c.after_completed, stands]
  constructor
  · rintro (⟨member, standing⟩ | ⟨member, listed⟩)
    · obtain ⟨read, reached, ⟨decodes, _, same⟩ | ⟨_, _, impossible⟩⟩ := goesRead.mp member
      · obtain ⟨_, rfl⟩ := Arm.goto.inj same
        refine ⟨reached, ?_⟩
        rw [if_pos decodes]
        intro already
        obtain old | planned := standing
        · exact old
        · obtain impossible | unlabelled := plan_unlabelled rom dump c.f.body _ [] target planned
          · simp at impossible
          · simp [unlabelled] at already
      · simp at impossible
    · obtain ⟨read, reached, ⟨_, _, impossible⟩ | ⟨elsewhere, _, same⟩⟩ := callsRead.mp member
      · simp at impossible
      · obtain ⟨_, rfl⟩ := Arm.call.inj same
        refine ⟨reached, ?_⟩
        rw [if_neg (by simp [elsewhere])]
        exact listed
  · rintro ⟨reached, reachable⟩
    obtain ⟨arm, reads⟩ := c.entry_total index lower upper
    obtain ⟨read, same, kind⟩ := (entry_ok rom dump c.f.body c.offset index arm).mp reads
    obtain rfl : target = read := Option.some.inj (reached.symm.trans same)
    obtain ⟨decodes, ready, rfl⟩ | ⟨elsewhere, starts, rfl⟩ := kind
    · have member : .goto index target ∈ c.added :=
        goesRead.mpr ⟨target, reached, Or.inl ⟨decodes, ready, rfl⟩⟩
      left
      refine ⟨member, ?_⟩
      rw [if_pos decodes] at reachable
      obtain already | planned :=
        plan_covers rom dump c.f.body _ [] c.site c.member c.bound c.offset c.added c.verdict_site
          index target member
      · exact Or.inl (reachable already)
      · exact Or.inr planned
    · right
      rw [if_neg (by simp [elsewhere])] at reachable
      exact ⟨callsRead.mpr ⟨target, reached, Or.inr ⟨elsewhere, starts, rfl⟩⟩, reachable⟩

/-- When the function's own table is read, every entry agrees. -/
theorem right_agrees (right : c.Right) (index : Nat) (lower : ncases c.site.1 ≤ index)
    (upper : index < c.bound) :
    c.Agrees index := by
  obtain ⟨⟨s, inAfter, text, _, transfers⟩, _⟩ := right
  obtain rfl := (c.site_completed s).mp ⟨inAfter, text⟩
  obtain ⟨target, own, transfer⟩ := transfers index lower upper
  exact ⟨target, own, (c.transfers_iff index target lower upper).mp transfer⟩

/-- A completion reads the function's own table exactly when every entry agrees: for each index
the word that was read is the word of the own section, and the arm and the label that it leads to
stand as they should. Arms, labels and lines of the completed body are those of the plan, so the
body need not be searched. -/
theorem right_iff :
    c.Right ↔ ∀ index, ncases c.site.1 ≤ index → index < c.bound → c.Agrees index := by
  constructor
  · exact c.right_agrees
  · intro agrees
    constructor
    · have site := (c.site_completed _).mpr rfl
      refine ⟨_, site.1, site.2, c.arms_exact, fun index lower upper => ?_⟩
      obtain ⟨target, own, reachable⟩ := agrees index lower upper
      exact ⟨target, own, (c.transfers_iff index target lower upper).mpr reachable⟩
    · refine ⟨grow (marks rom dump c.f.body) c.f.body, original_grow _ _, c.after_completed.symm,
        ?_⟩
      intro pair member line inserted
      obtain ⟨x, _, rfl⟩ := List.mem_map.mp member
      cases isSite : siteRe x with
      | some site => exact Or.inr rfl
      | none =>
        left
        obtain ⟨target, _, same, _⟩ := marked_plain rom dump c.f.body x isSite line inserted
        exact ⟨target, same⟩

/-- What stands on disk in the place of the function after a run: the completed function, or the
function as it was, when an exception happened in its file or in one before it. The files are
written one by one (`onDisk_inPlace`), and the run's result on the body is the completion. -/
theorem completed_onDisk (files : List (List Line)) (g : GenFunc) :
    InPlace files (onDisk rom dump files) c.f g ↔ ∃ (n : Nat) (file : List Line),
      files[n]? = some file ∧ c.f ∈ functions file ∧
        ((QuietTo rom dump files n ∧ g = { c.f with body := c.after }) ∨
          (¬QuietTo rom dump files n ∧ g = c.f)) := by
  have body : newBody rom dump c.f = c.after := by
    rw [newBody, c.ran]
    rfl
  have whole : GenFunc.withBody (newBody rom dump) c.f = { c.f with body := c.after } := by
    rw [GenFunc.withBody, body]
  rw [onDisk_inPlace rom dump files c.f g, whole]

/-- In the files of a run that returns stands the completed function. -/
theorem completed_written (files after : List (List Line)) (failed : Nat)
    (run : fixTree rom dump files = some (after, failed)) (g : GenFunc)
    (stands : InPlace files after c.f g) : g = { c.f with body := c.after } := by
  rw [← fixTree_onDisk rom dump files after failed run] at stands
  obtain ⟨n, file, _, _, ⟨_, same⟩ | ⟨loud, _⟩⟩ := (c.completed_onDisk files g).mp stands
  · exact same
  · exact absurd (fixTree_quiet rom dump files after failed run n) loud

end Completion

/-! ## A table behind the text of its overlay -/

/-- Two overlays in one slot; the text of the longer one covers the other's data. -/
def slotDump : Dump :=
  [⟨str "ovl_e", 0, 0x800D9960, 0x400, [⟨str "func_800D9D00", 0x800D9D00, 0x10⟩]⟩,
    ⟨str "ovl_a", 0x400, 0x800D9960, 0x100, [⟨str "func_800D9960", 0x800D9960, 0x20⟩]⟩]

/-- The ROM: a word of the longer overlay, then the table of the other one. -/
def slotRom : List UInt8 :=
  List.replicate 0x204 0 ++
    ([0x80, 0x0D, 0x99, 0x70] ++ (List.replicate 0x3FC 0 ++ [0x80, 0x0D, 0x99, 0x78]))

/-- The body of a function of the shorter overlay; its table lies behind the text. -/
def slotBody : List Line :=
  [str "    // 0x800D9960: sltiu       $at, $v0, 0x2",
    str "    ctx->r1 = ctx->r2 < 0X2 ? 1 : 0;",
    str "    switch (jr_addend_800D9968 >> 2) \x7b",
    str "        case 0: goto L_800D9970; break;",
    str "        default: switch_error(__func__, 0x800D9968, 0x800D9B60);",
    str "    \x7d",
    str "L_800D9970:",
    str "    // 0x800D9970: jr          $ra",
    str "    return;",
    str "    // 0x800D9978: jr          $ra",
    str "    return;"]

/-- The completion of that switch. -/
def slotCompletion : Completion slotRom slotDump where
  f := ⟨str "func_800D9960", [], slotBody, str ";\x7d"⟩
  bare := rfl
  wellFormed := ⟨by decide +kernel, by decide +kernel, by decide +kernel⟩
  own := ⟨str "ovl_a", 0x400, 0x800D9960, 0x100, [⟨str "func_800D9960", 0x800D9960, 0x20⟩]⟩
  listed := by decide +kernel
  known := by decide +kernel
  after := ((fixBody slotRom slotDump slotBody).map Prod.fst).getD []
  failed := 0
  ran := by decide +kernel
  site := (slotBody.take 4, ⟨str "        ", str "800D9968", str "800D9B60"⟩)
  member := by decide +kernel
  contiguous := by decide +kernel
  bound := 2
  offset := 0x200
  reads :=
    ⟨by decide +kernel, by decide +kernel, 0x800D9960, str "ovl_e", by decide +kernel, by
      decide +kernel⟩
  added := [.goto 1 0x800D9970]
  read := by decide +kernel

/-- The switch of the shorter overlay is completed from the longer one's text. -/
theorem slotCompletion_wrong : ¬ slotCompletion.Right := by
  intro right
  obtain ⟨target, own, chosen, _⟩ :=
    slotCompletion.right_agrees right 1 (by decide +kernel) (by decide +kernel)
  have ownTarget : slotCompletion.ownWord 1 = some 0x800D9978 := by decide +kernel
  have chosenTarget : word slotRom (slotCompletion.offset + 4 * 1) = some 0x800D9970 := by
    decide +kernel
  rw [ownTarget] at own
  rw [chosenTarget, ← own] at chosen
  simp at chosen

end NoMercyRecomp.SwitchTables
