import NoMercyRecomp.SwitchLoop
import NoMercyRecomp.FixStumps
import NoMercyRecomp.BranchSpan

/-!
# Calls in written functions

Three passes insert calls. What a pass has inserted is read off the files that it leaves:
the function that is written in the place of one that was read, the lines or the text in it
that are new, and the callee as it is spelled there. A run that an exception ends has
inserted nothing into the file in which it happens, nor into those behind it.

The address on whose behalf a call was inserted is the one behind the last decoded address
for a chained function, the ROM's word for a case of a switch, and the address in the
`goto` whose place the call has taken.

The other reading is of the input alone: the addresses at which the passes are asked for a
call. The two agree, and a call names what the pass that wrote it spells for its address.
-/

namespace NoMercyRecomp.InsertedCalls

open TextScan SymbolTable SymbolReaders ExtraFuncs Recompiled Contexts Growth FixSwitches SwitchPlan
  SwitchLoop BranchSpan

/-! ## Callees in text -/

/-- `(\w+)\(rdram, ctx\);` at a position: the callee. -/
def callAt (text : Line) : Option Line :=
  if text.takeWhile isWord = [] then none
  else (lit (str "(rdram, ctx);") (text.dropWhile isWord)).map (fun _ => text.takeWhile isWord)

/-- ` *case (\d+): (\w+)\(rdram, ctx\);`: the case and the callee. -/
def armRe (line : Line) : Option (Nat × Line) := do
  let number ← lit (str "case ") (line.dropWhile (· == ' '))
  let call ← lit (str ": ") (number.dropWhile Char.isDigit)
  let callee ← callAt call
  if number.takeWhile Char.isDigit = [] then none
    else some (value 10 (number.takeWhile Char.isDigit), callee)

/-- `{ /* [nomercy fix_backbranches] out-of-span branch target */ <name>(rdram, ctx); return; }` -/
def block (name : Line) : Line :=
  str "\x7b /* [nomercy fix_backbranches] out-of-span branch target */ " ++ (name ++
    str "(rdram, ctx); return; \x7d")

/-- A line and what is written in its place, read side by side: the characters are the same
but for `goto`s that have become blocks. One of these was a `goto` to the target, and the
block in its place calls the callee. -/
inductive Replaced : Line → Line → Nat → Line → Prop where
  | keep (c : Char) (line after : Line) (target : Nat) (callee : Line)
      (rest : Replaced line after target callee) : Replaced (c :: line) (c :: after) target callee
  | here (target : Nat) (callee line after : Line) (word : WordName callee) :
      Replaced (FixBackbranches.gotoText target ++ line) (block callee ++ after) target callee
  | behind (other : Nat) (name line after : Line) (target : Nat) (callee : Line)
      (word : WordName name) (rest : Replaced line after target callee) :
      Replaced (FixBackbranches.gotoText other ++ line) (block name ++ after) target callee

/-! ## Passes and programs -/

/-- The passes that insert calls. -/
inductive Pass where
  | stumps
  | switches
  | backbranches
deriving DecidableEq, Repr

section Passes

variable (rom : List UInt8) (dump : Dump) (files : List (List Line))

/-- The files that a pass leaves of a tree. -/
def written : Pass → List (List Line)
  | .stumps => FixStumps.fixTree dump files
  | .switches => onDisk rom dump files
  | .backbranches => (FixBackbranches.fixTree dump files).1

/-- In the place of the function a pass has written another, in which a call of the callee is
new, inserted on behalf of the target. For a chained function it is an appended line. For a
switch it is a line that the loop's turn for one of its sites adds, read as a case of the
site's table. For a `goto` it is the block in its place. -/
inductive Inserts : Pass → GenFunc → Nat → Line → Prop where
  | stump (f g : GenFunc) (last : Nat) (added : List Line) (callee : Line)
      (place : InPlace files (written rom dump files .stumps) f g)
      (decoded : (FixStumps.addresses (FixStumps.wholeBody f)).getLast? = some last)
      (appended : g.body = f.body ++ added) (calls : FixStumps.chainCall callee ∈ added) :
      Inserts .stumps f (last + 4) callee
  | switch (f g : GenFunc) (s : List Line × Site) (rest : List (List Line × Site))
      (newbody after : List Line)
        (line : Line) (index first offset target : Nat) (name callee : Line)
      (place : InPlace files (written rom dump files .switches) f g)
      (comes : Comes rom dump f.body (s :: rest) newbody)
      (turn : fixSite rom dump f.body newbody s.1 s.2 = .completed after)
      (added : newbody.count line < after.count line) (new : f.body.count line < g.body.count line)
      (calls : armRe line = some (index, callee)) (start : firstAddr f.body = some first)
      (located : tableRomOffset dump (value 16 s.2.table) first = some (name, offset))
      (entry : word rom (offset + 4 * index) = some target) :
      Inserts .switches f target callee
  | backbranch (f g : GenFunc) (k : Nat) (line after : Line) (target : Nat) (callee : Line)
      (place : InPlace files (written rom dump files .backbranches) f g)
      (here : (f.tail :: f.body)[k]? = some line) (there : (g.tail :: g.body)[k]? = some after)
      (replaced : Replaced line after target callee) :
      Inserts .backbranches f target callee

/-- A pass is asked for a call in a function on behalf of an address, read off the input
alone. `fix_stumps` is when control runs off the function's end and its section has a
successor; `fix_switches` when the guard of a switch allows an index whose entry is no code
of the function, the switch is completed, and no exception has ended the run up to the file;
`fix_backbranches` when a `goto` stands for a branch to a start outside the span. -/
inductive Asks : Pass → GenFunc → Nat → Prop where
  | stump (f : GenFunc) (last : Nat) (sec : Line) (inTree : ∃ file ∈ files, f ∈ functions file)
      (ends : FixStumps.endReachable (FixStumps.wholeBody f) = true)
      (decoded : (FixStumps.addresses (FixStumps.wholeBody f)).getLast? = some last)
      (known : sectionOf dump f.name = some sec)
      (listed : (bySecVram dump sec (last + 4)).isSome = true ∨
        ∃ index, secName2idx dump sec = some index ∧
          staticName index (last + 4) ∈ FixStumps.allGenNames files) :
      Asks .stumps f (last + 4)
  | switch (n : Nat) (file : List Line) (f : GenFunc) (s : List Line × Site) (bound offset : Nat)
      (arms : List Arm) (index target : Nat) (read : files[n]? = some file)
        (inFile : f ∈ functions file)
      (quiet : QuietTo rom dump files n) (site : s ∈ sites f.body)
      (completes : verdict rom dump f.body s.1 s.2 = .completed bound offset arms)
      (arm : .call index target ∈ arms) :
      Asks .switches f target
  | backbranch (f : GenFunc) (target : Nat) (line : Line) (inTree : ∃ file ∈ files,
    f ∈ functions file)
      (fixed : target ∈ FixBackbranches.fixedTargets dump f) (inBody : line ∈ f.tail :: f.body)
      (jumps : occurs (FixBackbranches.gotoText target) line = true) :
      Asks .backbranches f target

/-- The name under which a pass looks for the callee of an address, from a function of
the section. -/
def sought (sec : Line) (target : Nat) : Pass → Option Line
  | .stumps =>
    match bySecVram dump sec target with
    | some name => some name
    | none => (secName2idx dump sec).map (fun index => staticName index target)
  | .switches | .backbranches => some (funcName target)

end Passes

/-! ## Chained functions -/

/-- The calls on the lines that are appended name the successor. Only one of them ends as a
call does and is longer than a return. -/
theorem chainCall_patch (succ callee : Line)
    (among : FixStumps.chainCall callee ∈ FixStumps.patch succ) :
    callee = succ := by
  have ending : (FixStumps.chainCall callee).getLast? = some ';' := by
    rw [FixStumps.chainCall, ← List.append_assoc, List.getLast?_append_of_ne_nil _ (by decide)]
    rfl
  have long : 17 ≤ (FixStumps.chainCall callee).length := by
    simp [FixStumps.chainCall, str]
  simp only [FixStumps.patch, List.mem_cons, List.not_mem_nil, or_false] at among
  rcases among with same | same | same | same | same
  · rw [same] at long
    exact absurd long (by decide)
  · rw [same] at ending
    exact absurd ending (by decide)
  · rw [same] at ending
    exact absurd ending (by decide)
  · exact List.append_cancel_right (List.append_cancel_left same)
  · rw [same] at long
    exact absurd long (by decide)

section Stumps

variable (rom : List UInt8) (dump : Dump) (files : List (List Line))

/-- A call that a chained function has got names the successor that the scan finds, and the
pass was asked for it. -/
theorem stump_inserted (f : GenFunc) (target : Nat) (callee : Line)
    (inserts : Inserts rom dump files .stumps f target callee) :
    Asks rom dump files .stumps f target ∧ ∀ sec, sectionOf dump f.name = some sec →
      sought dump sec target .stumps = some callee := by
  cases inserts with
  | stump _ g last added _ place decoded appended calls =>
    obtain ⟨inTree, rfl⟩ := (FixStumps.fixTree_inPlace dump files f g).mp place
    have chained : FixStumps.stump dump (FixStumps.allGenNames files) f = .chained callee := by
      have body : FixStumps.chainedBody dump (FixStumps.allGenNames files) f = f.body ++ added :=
        appended
      rw [FixStumps.chainedBody] at body
      split at body
      · rename_i succ report
        obtain rfl := List.append_cancel_left body
        rw [report, chainCall_patch succ callee calls]
      · have none : added = [] := by simpa using body
        rw [none] at calls
        cases calls
    obtain ⟨address, sec, decoded', known, succeeds⟩ := FixStumps.stump_chained _ _ f callee chained
    obtain rfl : last = address := Option.some.inj (decoded.symm.trans decoded')
    have ends : FixStumps.endReachable (FixStumps.wholeBody f) = true := by
      by_contra dead
      simp [FixStumps.stump, dead] at chained
    obtain listed | ⟨absent, index, position, rfl⟩ :=
        FixStumps.successor_cases _ _ sec (last + 4) callee succeeds
    · refine ⟨.stump f last sec inTree ends decoded known (.inl (by rw [listed]; rfl)), ?_⟩
      intro other known'
      obtain rfl := Option.some.inj (known.symm.trans known')
      rw [sought, listed]
    · have generated : staticName index (last + 4) ∈ FixStumps.allGenNames files := by
        rw [FixStumps.successor, absent, position] at succeeds
        by_contra missing
        simp [missing] at succeeds
      refine ⟨.stump f last sec inTree ends decoded known (.inr ⟨index, position, generated⟩), ?_⟩
      intro other known'
      obtain rfl := Option.some.inj (known.symm.trans known')
      rw [sought, absent, position]
      rfl

/-- Where `fix_stumps` is asked for a call, the written function has one: its successor is found,
as a name of the table or as a generated static one, so the stump is chained to it. -/
theorem stump_asked (f : GenFunc) (target : Nat) (asks : Asks rom dump files .stumps f target) :
    ∃ callee, Inserts rom dump files .stumps f target callee := by
  cases asks with
  | stump _ last sec inTree ends decoded known listed =>
    obtain ⟨succ, succeeds⟩ : ∃ succ, FixStumps.successor dump (FixStumps.allGenNames files) sec
        (last + 4) = some succ := by
      rw [FixStumps.successor]
      cases here : bySecVram dump sec (last + 4) with
      | some succ => exact ⟨succ, rfl⟩
      | none =>
        obtain found | ⟨index, position, generated⟩ := listed
        · rw [here] at found
          cases found
        · exact ⟨staticName index (last + 4), by simp [position, generated]⟩
    have chained : FixStumps.stump dump (FixStumps.allGenNames files) f = .chained succ := by
      simp [FixStumps.stump, ends, decoded, known, succeeds]
    refine ⟨succ, .stump f _ last (FixStumps.patch succ) succ
      ((FixStumps.fixTree_inPlace dump files f _).mpr ⟨inTree, rfl⟩) decoded ?_
        (by simp [FixStumps.patch])⟩
    rw [GenFunc.withBody, FixStumps.chainedBody, chained]

end Stumps

/-! ## Completed switches -/

/-- The callee in front of the arguments is read as it stands there. -/
theorem callAt_name (callee rest : Line) (word : WordName callee) :
    callAt (callee ++ (str "(rdram, ctx);" ++ rest)) = some callee := by
  have shape : callee ++ (str "(rdram, ctx);" ++ rest) =
      callee ++ '(' :: (str "rdram, ctx);" ++ rest) := rfl
  rw [callAt, shape, takeWhile_run isWord callee _ '(' word.2 (by decide), if_neg word.1,
    dropWhile_run isWord callee _ '(' word.2 (by decide), ← List.cons_append]
  have closed : lit (str "(rdram, ctx);") ('(' :: str "rdram, ctx);" ++ rest) = some rest :=
    lit_append (str "(rdram, ctx);") rest
  rw [closed]
  rfl

section Indented

variable (indent : Line) (spaces : ∀ c ∈ indent, c = ' ')
include spaces

/-- A line whose text starts with another letter is no case. -/
theorem armRe_other (first : Char) (rest : Line) (solid : first ≠ ' ') (other : first ≠ 'c') :
    armRe (indent ++ first :: rest) = none := by
  rw [armRe, indented_text indent spaces first rest solid]
  simp [str, lit, Ne.symm other]

/-- What is read behind a case's number is a call or is not; the number itself is read up to the
colon. -/
theorem armRe_case (index : Nat) (rest : Line) :
    armRe (indent ++ 'c' :: (str "ase " ++ (decimal index ++ ':' :: (' ' :: rest)))) =
      (callAt rest).map (fun callee => (index, callee)) := by
  have digits := decimal_isDigit index
  have opening :
    lit (str "case ") ('c' :: (str "ase " ++ (decimal index ++ ':' :: (' ' :: rest)))) =
      some (decimal index ++ ':' :: (' ' :: rest)) := lit_append (str "case ") _
  have colon : lit (str ": ") (':' :: (' ' :: rest)) = some rest := rfl
  rw [armRe, indented_text indent spaces 'c' _ (by decide)]
  simp only [Option.bind_eq_bind, opening, Option.bind_some,
    takeWhile_run Char.isDigit _ _ ':' digits (by decide),
    dropWhile_run Char.isDigit _ _ ':' digits (by decide), colon, value_decimal]
  have nonempty : decimal index ≠ [] := number_ne_nil 10 index
  simp only [if_neg nonempty]
  cases callAt rest <;> rfl

/-- An arm is read as a call only when it is one, and then as a call of the plain name: an arm
that goes to a label has no argument list behind its number. -/
theorem armRe_arm (arm : Arm) (index : Nat) (callee : Line) :
    armRe (indent ++ arm.line) = some (index, callee) ↔
      ∃ target, arm = .call index target ∧ callee = funcName target := by
  cases arm with
  | goto other target =>
    have text : callAt (str "goto " ++ (label target ++
        str "; break; /* [nomercy fix_switches] rom table entry */")) = none := by
      simp [callAt, str, isWord, lit]
    have line := armRe_case indent spaces other (str "goto " ++ (label target ++
      str "; break; /* [nomercy fix_switches] rom table entry */"))
    rw [text] at line
    have shape : armRe (indent ++ (Arm.goto other target).line) = none := line
    simp [shape]
  | call other target =>
    have line := armRe_case indent spaces other (funcName target ++ (str "(rdram, ctx);" ++
      str " return; /* [nomercy fix_switches] out-of-body (island) entry */"))
    rw [callAt_name _ _ (funcName_word target)] at line
    have shape : armRe (indent ++ (Arm.call other target).line) = some (other, funcName target) :=
      line
    rw [shape]
    constructor
    · intro same
      obtain ⟨rfl, rfl⟩ := Prod.mk.inj (Option.some.inj same)
      exact ⟨target, rfl, rfl⟩
    · rintro ⟨own, same, rfl⟩
      obtain ⟨rfl, rfl⟩ := Arm.call.inj same
      rfl

end Indented

/-- The cases that call, read off the lines that a turn adds, are the call arms of the
verdict. The comment lines of the block, and the labels, start with other letters. -/
theorem armRe_added (site : Site) (spaces : ∀ c ∈ site.indent, c = ' ') (bound offset : Nat)
    (arms : List Arm) (line : Line) (index : Nat) (callee : Line)
    (added : line ∈ completion site bound offset (arms.map Arm.line) ∨
      ∃ target, line = label target ++ [':'])
    (calls : armRe line = some (index, callee)) :
    ∃ target, .call index target ∈ arms ∧ callee = funcName target := by
  rcases added with inBlock | ⟨target, rfl⟩
  · simp only [completion, List.mem_cons, List.mem_map] at inBlock
    rcases inBlock with rfl | rfl | ⟨text, ⟨arm, inArms, rfl⟩, rfl⟩
    · have none := armRe_other site.indent spaces '/' (str "* [nomercy fix_switches] table has " ++
        (decimal bound ++ str " entries per the sltiu guard; N64Recomp")) (by decide) (by decide)
      exact absurd (none.symm.trans calls) (by simp)
    · have deeper : ∀ c ∈ site.indent ++ str "   ", c = ' ' := by
        intro c among
        rcases List.mem_append.mp among with inIndent | blank
        · exact spaces c inIndent
        · simpa [str] using blank
      have none := armRe_other (site.indent ++ str "   ") deeper 's'
        (str "topped at the first out-of-function entry. Completed from rom 0x" ++
          (hex offset ++ str ". */"))
        (by decide) (by decide)
      rw [List.append_assoc] at none
      exact absurd (none.symm.trans calls) (by simp)
    · obtain ⟨target, rfl, rfl⟩ := (armRe_arm site.indent spaces arm index callee).mp calls
      exact ⟨target, inArms, rfl⟩
  · have none := armRe_other [] (by simp) 'L' ('_' :: hex8 target ++ [':']) (by decide) (by decide)
    exact absurd (none.symm.trans calls) (by simp)

section Switches

variable (rom : List UInt8) (dump : Dump) (files : List (List Line))

/-- A call arm stands for a word of the table. -/
theorem call_word (body : List Line) (offset : Nat) (indices : List Nat) (arms : List Arm)
    (read : entries rom dump body offset indices = .ok arms) (index target : Nat)
    (arm : .call index target ∈ arms) : word rom (offset + 4 * index) = some target := by
  obtain ⟨other, _, reads⟩ := (entries_member rom dump body offset indices arms read _).mp arm
  obtain ⟨own, found, ⟨_, _, wrong⟩ | ⟨_, _, same⟩⟩ :=
    (entry_ok rom dump body offset other _).mp reads
  · cases wrong
  · obtain ⟨rfl, rfl⟩ := Arm.call.inj same
    exact found

/-- A call that a completed switch has got names the plain name of the word in the table,
and the pass was asked for it. -/
theorem switch_inserted (f : GenFunc) (target : Nat) (callee : Line)
    (inserts : Inserts rom dump files .switches f target callee) :
    Asks rom dump files .switches f target ∧ callee = funcName target := by
  cases inserts with
  | switch _ g s rest newbody after line index first offset _ name _ place comes turn added new
    calls start
      located entry =>
    obtain ⟨n, file, read, inFile, ⟨quiet, _⟩ | ⟨_, rfl⟩⟩ :=
      (onDisk_inPlace rom dump files f g).mp place
    · obtain ⟨among, known, follows⟩ := comes.follows
      have site : s ∈ sites f.body := among List.mem_cons_self
      have verdicts := fixSite_turn rom dump f.body newbody known follows s site
      rw [turn] at verdicts
      cases completes : verdict rom dump f.body s.1 s.2 with
      | kept => simp [completes] at verdicts
      | unmapped => simp [completes] at verdicts
      | failed failure => simp [completes] at verdicts
      | completed bound own arms =>
        rw [completes] at verdicts
        obtain ⟨_, same, made⟩ := verdicts
        obtain rfl := Outcome.completed.inj same
        obtain ⟨⟨_, _, start', name', here, mapped⟩, entriesRead⟩ :=
          (verdict_completed rom dump f.body s bound own arms).mp completes
        obtain rfl := Option.some.inj (start.symm.trans here)
        obtain ⟨rfl, rfl⟩ := Prod.mk.inj (Option.some.inj (located.symm.trans mapped))
        obtain ⟨siteLine, _, _, isSite⟩ := (mem_sites f.body s.1 s.2).mp site
        obtain ⟨own, arm, rfl⟩ :=
          armRe_added s.2 (siteRe_indent siteLine s.2 isSite) bound offset arms line
          index callee (made.only line added) calls
        have found := call_word rom dump f.body offset _ arms entriesRead index own arm
        obtain rfl : target = own := Option.some.inj (entry.symm.trans found)
        exact ⟨.switch n file f s bound offset arms index target read inFile quiet site completes
          arm, rfl⟩
    · exact absurd new (Nat.lt_irrefl _)

/-- Where `fix_switches` is asked for a call, the written function has one. The loop comes to
the site, its turn adds the arm, and no later turn takes it out. -/
theorem switch_asked (f : GenFunc) (target : Nat) (asks : Asks rom dump files .switches f target) :
    Inserts rom dump files .switches f target (funcName target) := by
  cases asks with
  | switch n file _ s bound offset arms index _ read inFile quiet site completes arm =>
    have own : Quiet rom dump f.body := quiet n (Nat.le_refl n) file read f inFile
    obtain ⟨done, rest, split⟩ := List.append_of_mem site
    obtain ⟨newbody, comes⟩ := own.comes done (s :: rest) split
    obtain ⟨_, known, follows⟩ := comes.follows
    have verdicts := fixSite_turn rom dump f.body newbody known follows s site
    rw [completes] at verdicts
    obtain ⟨after, turn, made⟩ := verdicts
    obtain ⟨⟨_, _, first, name, start, located⟩, entriesRead⟩ :=
      (verdict_completed rom dump f.body s bound offset arms).mp completes
    obtain ⟨siteLine, _, _, isSite⟩ := (mem_sites f.body s.1 s.2).mp site
    have spaces := siteRe_indent siteLine s.2 isSite
    have inBlock : s.2.indent ++ (Arm.call index target).line ∈
        completion s.2 bound offset (arms.map Arm.line) :=
      List.mem_cons_of_mem _
        (List.mem_cons_of_mem _ (List.mem_map_of_mem (List.mem_map_of_mem arm)))
    have later : ∀ t ∈ rest, (verdict rom dump f.body t.1 t.2).raises = false := fun t among =>
      own t (split ▸ List.mem_append_right done (List.mem_cons_of_mem s among))
    obtain ⟨final, failed, run, _, keeps⟩ :=
      (comes.completed s rest newbody after turn).finishes later
    have written : newBody rom dump f = final := by
      rw [newBody, run]
      rfl
    refine .switch f _ s rest newbody after _ index first offset target name _
      ((onDisk_inPlace rom dump files f _).mpr ⟨n, file, read, inFile, .inl ⟨quiet, rfl⟩⟩) comes
        turn
      (made.adds _ inBlock) ?_
        ((armRe_arm s.2.indent spaces _ index _).mpr ⟨target, rfl, rfl⟩) start located
      (call_word rom dump f.body offset _ arms entriesRead index target arm)
    have more := made.adds _ inBlock
    have before := follows.keeps (s.2.indent ++ (Arm.call index target).line)
    have behind := keeps (s.2.indent ++ (Arm.call index target).line)
    simp only [GenFunc.withBody, written]
    omega

end Switches

/-! ## Replaced gotos -/

/-- The digits of a `goto` end at the semicolon, so its target and what follows are told by
the text. -/
theorem gotoText_cancel (target other : Nat) (line rest : Line)
    (same : FixBackbranches.gotoText target ++ line = FixBackbranches.gotoText other ++ rest) :
    target = other ∧ line = rest := by
  have digits (n : Nat) : ∀ c ∈ hex8 n, (c != ';') = true := by
    intro c among
    refine bne_iff_ne.mpr (fun semicolon => ?_)
    exact hex8_absent n ';' (by decide) (semicolon ▸ among)
  have read (n : Nat) (behind : Line) : (hex8 n ++ ';' :: behind).takeWhile (· != ';') = hex8 n :=
    takeWhile_run _ _ behind ';' (digits n) (by decide)
  have texts : hex8 target ++ ';' :: line = hex8 other ++ ';' :: rest := by
    simpa [FixBackbranches.gotoText, str] using same
  have equal : hex8 target = hex8 other := by
    rw [← read target line, texts, read]
  rw [equal] at texts
  exact ⟨hex8_injective target other equal, (List.cons.inj (List.append_cancel_left texts)).2⟩

/-- The callee of a block ends at the parenthesis. -/
theorem block_cancel (name other after rest : Line) (word : WordName name)
    (otherWord : WordName other)
    (same : block name ++ after = block other ++ rest) : name = other ∧ after = rest := by
  have texts : name ++ '(' :: (str "rdram, ctx); return; \x7d" ++ after) =
      other ++ '(' :: (str "rdram, ctx); return; \x7d" ++ rest) := by
    rw [block, block, List.append_assoc, List.append_assoc, List.append_assoc,
      List.append_assoc] at same
    exact List.append_cancel_left same
  have equal : name = other := by
    rw [← takeWhile_run isWord name _ '(' word.2 (by decide), texts,
      takeWhile_run isWord other _ '(' otherWord.2 (by decide)]
  rw [equal] at texts
  exact ⟨equal, List.append_cancel_left (List.cons.inj (List.append_cancel_left texts)).2⟩

/-- A replaced `goto` stood in the line. -/
theorem Replaced.occurs {line after : Line} {target : Nat} {callee : Line}
    (replaced : Replaced line after target callee) :
    TextScan.occurs (FixBackbranches.gotoText target) line = true := by
  rw [occurs_iff _ _ (gotoText_ne_nil target)]
  induction replaced with
  | keep c line after target callee _ inductionHypothesis =>
    obtain ⟨before, behind, rfl⟩ := inductionHypothesis
    exact ⟨c :: before, behind, rfl⟩
  | here target callee line after _ => exact ⟨[], line, rfl⟩
  | behind other name line after target callee _ _ inductionHypothesis =>
    obtain ⟨before, behind, rfl⟩ := inductionHypothesis
    exact ⟨FixBackbranches.gotoText other ++ before, behind, by simp⟩

/-- Read beside the line that the pass writes, a replaced `goto` is one to a target of the
set, and its block calls the plain name. A `goto` starts with another letter than a block,
so the two readings take the same steps. -/
theorem replaced_calls {targets : Nat → Prop} {line after : Line} {target : Nat} {callee : Line}
    (replaced : Replaced line after target callee) (calls : Calls targets line after) :
    targets target ∧ callee = funcName target := by
  induction replaced with
  | keep c line after target callee _ inductionHypothesis =>
    generalize whole : c :: line = read at calls
    generalize wrote : c :: after = write at calls
    cases calls with
    | nil => cases whole
    | keep d line' after' rest =>
      obtain ⟨rfl, rfl⟩ := List.cons.inj whole
      obtain ⟨_, rfl⟩ := List.cons.inj wrote
      exact inductionHypothesis rest
    | call other line' after' among rest =>
      have first : c = 'g' := (List.cons.inj whole).1
      have brace : c = '\x7b' := (List.cons.inj wrote).1
      exact absurd (first.symm.trans brace) (by decide)
  | here target callee line after word =>
    generalize whole : FixBackbranches.gotoText target ++ line = read at calls
    generalize wrote : block callee ++ after = write at calls
    cases calls with
    | nil => cases whole
    | keep d line' after' rest =>
      have first : 'g' = d := (List.cons.inj whole).1
      have brace : '\x7b' = d := (List.cons.inj wrote).1
      exact absurd (first.trans brace.symm) (by decide)
    | call other line' after' among rest =>
      obtain ⟨rfl, _⟩ := gotoText_cancel target other line line' whole
      obtain ⟨rfl, _⟩ :=
        block_cancel callee (funcName target) after after' word (funcName_word target) wrote
      exact ⟨among, rfl⟩
  | behind other name line after target callee word _ inductionHypothesis =>
    generalize whole : FixBackbranches.gotoText other ++ line = read at calls
    generalize wrote : block name ++ after = write at calls
    cases calls with
    | nil => cases whole
    | keep d line' after' rest =>
      have first : 'g' = d := (List.cons.inj whole).1
      have brace : '\x7b' = d := (List.cons.inj wrote).1
      exact absurd (first.trans brace.symm) (by decide)
    | call own line' after' among rest =>
      obtain ⟨rfl, rfl⟩ := gotoText_cancel other own line line' whole
      obtain ⟨_, rfl⟩ :=
        block_cancel name (funcName other) after after' word (funcName_word other) wrote
      exact inductionHypothesis rest

/-- What follows the first letter of a `goto` does not hold that letter. -/
theorem gotoRest_letter (target : Nat) : 'g' ∉ gotoRest target := by
  rw [gotoRest, List.mem_append, List.mem_append]
  rintro (text | digit | text)
  · exact absurd text (by decide)
  · exact hex8_absent target 'g' (by decide) digit
  · exact absurd text (by decide)

/-- Behind the text of a `goto` another one is found in the rest of the line only: the letter
it starts with does not come again in the text. -/
theorem goto_inside (target other : Nat) (line : Line)
    (held : occurs (FixBackbranches.gotoText target) (FixBackbranches.gotoText other ++ line) =
      true) :
    target = other ∨ occurs (FixBackbranches.gotoText target) line = true := by
  have shape : FixBackbranches.gotoText other ++ line = 'g' :: (gotoRest other ++ line) := rfl
  rw [shape, occurs_cons, Bool.or_eq_true] at held
  obtain here | later := held
  · obtain ⟨rest, same⟩ := Option.isSome_iff_exists.mp here
    exact .inl (gotoText_cancel target other rest line ((lit_eq_some _ _ _).mp same).symm).1
  · right
    rwa [FixBackbranches.gotoText, occurs_skip 'g' _ (gotoRest other) line (gotoRest_letter other),
      ← FixBackbranches.gotoText] at later

/-- Text without the letter that a `goto` starts with is kept. By induction on the text: a call
takes the place of text that starts with that letter. -/
theorem calls_kept {targets : Nat → Prop} (front line after : Line)
    (calls : Calls targets (front ++ line) after) (plain : 'g' ∉ front) :
    ∃ back, after = front ++ back := by
  induction front generalizing after with
  | nil => exact ⟨after, rfl⟩
  | cons c front inductionHypothesis =>
    generalize whole : c :: front ++ line = read at calls
    cases calls with
    | nil => cases whole
    | keep d line' after' rest =>
      obtain ⟨rfl, rfl⟩ := List.cons.inj whole
      obtain ⟨back, rfl⟩ :=
        inductionHypothesis after' rest (fun among => plain (List.mem_cons_of_mem c among))
      exact ⟨back, rfl⟩
    | call other line' after' among rest =>
      have first : c = 'g' := (List.cons.inj whole).1
      exact absurd (first ▸ List.mem_cons_self) plain

/-- A `goto` of the line that the written line lacks has been replaced. The induction follows
the rewriting; where its first character is kept, a `goto` would be kept whole. -/
theorem calls_replaced {targets : Nat → Prop} {line after : Line} (calls : Calls targets line after)
    (target : Nat) (gone : occurs (FixBackbranches.gotoText target) after = false)
    (held : occurs (FixBackbranches.gotoText target) line = true) :
    Replaced line after target (funcName target) := by
  have behind (front back : Line)
      (absent : occurs (FixBackbranches.gotoText target) (front ++ back) = false) :
      occurs (FixBackbranches.gotoText target) back = false := by
    by_contra found
    rw [occurs_append_right _ front back (by simpa using found)] at absent
    cases absent
  induction calls with
  | nil => cases held
  | keep c line after rest inductionHypothesis =>
    refine .keep c line after target _ (inductionHypothesis (behind [c] after gone) ?_)
    rw [occurs_cons, Bool.or_eq_true] at held
    obtain here | later := held
    · obtain ⟨more, same⟩ := Option.isSome_iff_exists.mp here
      obtain ⟨rfl, rfl⟩ := List.cons.inj ((lit_eq_some _ _ _).mp same)
      obtain ⟨back, rfl⟩ := calls_kept (gotoRest target) more after rest (gotoRest_letter target)
      have wrong :
          occurs (FixBackbranches.gotoText target) ('g' :: (gotoRest target ++ back)) = true :=
        occurs_front (FixBackbranches.gotoText target) back (gotoText_ne_nil target)
      rw [wrong] at gone
      cases gone
    · exact later
  | call other line after among rest inductionHypothesis =>
    obtain rfl | held := goto_inside target other line held
    · exact .here target _ line after (funcName_word target)
    · exact .behind other _ line after target _ (funcName_word other)
        (inductionHypothesis (behind (FixBackbranches.callText other) after gone) held)

section Branches

variable (rom : List UInt8) (dump : Dump) (files : List (List Line))

/-- In the files that `fix_backbranches` writes, the fixed function stands in the place of
every function. -/
theorem fixTree_inPlace (f g : GenFunc) :
    InPlace files (written rom dump files .backbranches) f g ↔
      (∃ file ∈ files, f ∈ functions file) ∧ g = FixBackbranches.fixFunc dump f :=
  inPlace_change _ files (fun file _ h inFile => fixFunc_keeps dump file h inFile) f g

/-- A call that has taken the place of a `goto` names the plain name, and the pass was asked
for it. -/
theorem backbranch_inserted (f : GenFunc) (target : Nat) (callee : Line)
    (inserts : Inserts rom dump files .backbranches f target callee) :
    Asks rom dump files .backbranches f target ∧ callee = funcName target := by
  cases inserts with
  | backbranch _ g k line after _ _ place here there replaced =>
    obtain ⟨inTree, rfl⟩ := (fixTree_inPlace rom dump files f g).mp place
    rw [fixFunc_lines, List.getElem?_map, here] at there
    obtain rfl := Option.some.inj there
    obtain calls | ⟨other, _, label, comments⟩ :=
      foldl_mends (FixBackbranches.fixedTargets dump f) line
    · obtain ⟨fixed, rfl⟩ := replaced_calls replaced calls
      exact ⟨.backbranch f target line inTree fixed (List.mem_of_getElem? here) replaced.occurs,
        rfl⟩
    · have none := label_goto other target line label
      rw [replaced.occurs] at none
      cases none

/-- Where `fix_backbranches` is asked for a call, the written function has one: the `goto` is
gone from the line that is written. -/
theorem backbranch_asked (f : GenFunc) (target : Nat)
    (asks : Asks rom dump files .backbranches f target) :
    Inserts rom dump files .backbranches f target (funcName target) := by
  cases asks with
  | backbranch _ _ line inTree fixed inBody jumps =>
    obtain ⟨k, here⟩ := List.getElem?_of_mem inBody
    refine .backbranch f _ k line _ target _
      ((fixTree_inPlace rom dump files f _).mpr ⟨inTree, rfl⟩) here
        (by rw [fixFunc_lines, List.getElem?_map, here]; rfl) ?_
    obtain calls | ⟨other, _, label, _⟩ := foldl_mends (FixBackbranches.fixedTargets dump f) line
    · exact calls_replaced calls target (foldl_absent _ line target fixed).1 jumps
    · have none := label_goto other target line label
      rw [jumps] at none
      cases none

end Branches

/-! ## All passes -/

section Agreement

variable (rom : List UInt8) (dump : Dump) (files : List (List Line))

/-- Every call that a pass has inserted was asked for, and names what the pass looks for. One case
a pass, each with the name that it writes. -/
theorem inserts_sought (pass : Pass) (f : GenFunc) (sec : Line) (target : Nat) (callee : Line)
    (known : sectionOf dump f.name = some sec)
    (inserts : Inserts rom dump files pass f target callee) :
    Asks rom dump files pass f target ∧ sought dump sec target pass = some callee := by
  cases pass with
  | stumps =>
    obtain ⟨asks, named⟩ := stump_inserted rom dump files f target callee inserts
    exact ⟨asks, named sec known⟩
  | switches =>
    obtain ⟨asks, rfl⟩ := switch_inserted rom dump files f target callee inserts
    exact ⟨asks, rfl⟩
  | backbranches =>
    obtain ⟨asks, rfl⟩ := backbranch_inserted rom dump files f target callee inserts
    exact ⟨asks, rfl⟩

/-- Wherever a pass is asked for a call, it has inserted one. -/
theorem asks_inserts (pass : Pass) (f : GenFunc) (target : Nat)
    (asks : Asks rom dump files pass f target) :
    ∃ callee, Inserts rom dump files pass f target callee := by
  cases pass with
  | stumps => exact stump_asked rom dump files f target asks
  | switches => exact ⟨_, switch_asked rom dump files f target asks⟩
  | backbranches => exact ⟨_, backbranch_asked rom dump files f target asks⟩

end Agreement

end NoMercyRecomp.InsertedCalls
