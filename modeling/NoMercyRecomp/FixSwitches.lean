import NoMercyRecomp.Recompiled
import NoMercyRecomp.Growth

/-!
# Completing truncated jump tables

`fix_switches` compares each switch of a function with the `sltiu` guard before it.
Where the guard allows more indices than the switch has arms, the missing entries
are read from the table in the ROM. An entry whose target is decoded in the body
becomes a `goto`, with a label put before the target's decode line; one that starts
a function becomes a call. The switch is completed in front of its default arm.

A site that cannot be completed is left as it is. Most such sites are counted as
failures; one whose target is decoded but not on exactly one top-level line is not.

The lines of a body are those after the header. Each token the pass looks for stands
on a line of its own, as N64Recomp writes it.
-/

namespace NoMercyRecomp.FixSwitches

open TextScan SymbolTable Recompiled Contexts Growth

/-! ## Patterns -/

/-- A default arm: its indentation and the digits of the jump's and the table's address. -/
structure Site where
  indent : Line
  pc : Line
  table : Line
deriving DecidableEq, Repr

/-- `( *)default: switch_error\(__func__, (0x[0-9A-Fa-f]+), (0x[0-9A-Fa-f]+)\);` -/
def siteRe (line : Line) : Option Site := do
  let pc ← lit ('d' :: str "efault: switch_error(__func__, 0x") (line.dropWhile (· == ' '))
  let table ← lit (',' :: str " 0x") (pc.dropWhile isHex)
  let _ ← lit (')' :: str ";") (table.dropWhile isHex)
  if pc.takeWhile isHex = [] ∨ table.takeWhile isHex = [] then none
    else some ⟨line.takeWhile (· == ' '), pc.takeWhile isHex, table.takeWhile isHex⟩

/-- `switch (` -/
def opensSwitch (line : Line) : Bool := occurs ('s' :: str "witch (") line

/-- `case (\d+): ` at a position. -/
def caseRe (text : Line) : Option Line := do
  let number ← lit ('c' :: str "ase ") text
  let _ ← lit (':' :: str " ") (number.dropWhile Char.isDigit)
  if number.takeWhile Char.isDigit = [] then none else some (number.takeWhile Char.isDigit)

/-- `< (0X[0-9A-F]+) \? 1 : 0` at a position. -/
def guardRe (text : Line) : Option Nat := do
  let bound ← lit ('<' :: str " 0X") text
  let _ ← lit (' ' :: str "? 1 : 0") (bound.dropWhile isUpperHex)
  if bound.takeWhile isUpperHex = [] then none else some (value 16 (bound.takeWhile isUpperHex))

/-- The arms on a line. -/
def armsOn (line : Line) : List Line := findAll caseRe line

/-- The guards on a line. -/
def guardsOn (line : Line) : List Nat := findAll guardRe line

/-! ## Sites -/

/-- The lines before the last line that opens a switch, and those from it on. -/
def lastSwitch : List Line → Option (List Line × List Line)
  | [] => none
  | line :: rest =>
    match lastSwitch rest with
    | some (before, since) => some (line :: before, since)
    | none => if opensSwitch line then some ([], line :: rest) else none

/-- The lines of a site's switch that stand before its default arm. -/
def switchLines (before : List Line) : List Line := ((lastSwitch before).map Prod.snd).getD []

/-- The distinct arms of the switch. -/
def arms (before : List Line) : List Line := ((switchLines before).flatMap armsOn).dedup

/-- `ncases` -/
def ncases (before : List Line) : Nat := (arms before).length

/-- The last guard before the switch. Without a switch the slice runs over the body. -/
def guard (body before : List Line) : Option Nat :=
  match lastSwitch before with
  | some (front, _) => (front.flatMap guardsOn).getLast?
  | none => (body.flatMap guardsOn).getLast?

/-- A site falls short of its guard. -/
def short (body before : List Line) : Bool :=
  match guard body before with
  | some bound => ncases before < bound
  | none => false

/-! ## The table in the ROM -/

/-- `first`: the first decoded address of the body. -/
def firstAddr (body : List Line) : Option Nat := (body.flatMap (findAll addrRe)).head?

/-- `table_rom_offset`: the section and ROM offset of a table. The candidates are the
sections covering both the table and the first decoded address, or else those
covering the table. -/
def tableRomOffset (dump : Dump) (table first : Nat) : Option (Line × Nat) :=
  let located := fun sec : Section => (sec.name, sec.rom + (table - sec.vram))
  let cands := dump.filter (fun sec => sec.covers table && sec.covers first)
  let cands2 := dump.filter (fun sec => sec.covers table)
  match cands with
  | [sec] => some (located sec)
  | _ =>
    match cands2 with
    | [sec] => some (located sec)
    | _ => cands.head?.map located

/-- `struct.unpack('>I', rom[offset: offset + 4])`; a short read raises. -/
def word (rom : List UInt8) (offset : Nat) : Option Nat :=
  match (rom.drop offset).take 4 with
  | [a, b, c, d] => some (((a.toNat * 256 + b.toNat) * 256 + c.toNat) * 256 + d.toNat)
  | _ => none

/-! ## Entries -/

/-- `    // 0x%08X:` -/
def decodeText (target : Nat) : Line := ' ' :: (str "   // 0x" ++ (hex8 target ++ [':']))

/-- `L_%08X` -/
def label (target : Nat) : Line := 'L' :: '_' :: hex8 target

/-- The body decodes the target. -/
def decoded (body : List Line) (target : Nat) : Bool := body.any (occurs (decodeText target))

/-- The number of lines that start with the target's decode comment. -/
def decodeLines (body : List Line) (target : Nat) : Nat :=
  body.countP (fun line => (decodeText target).isPrefixOf line)

/-- `^L_%08X:\r?$` -/
def isLabel (target : Nat) (line : Line) : Bool :=
  line == label target ++ [':'] || line == label target ++ [':', '\r']

def labelled (body : List Line) (target : Nat) : Bool := body.any (isLabel target)

/-- `case %d: goto %s; break; /* [nomercy fix_switches] rom table entry */` -/
def gotoArm (index target : Nat) : Line :=
  'c' :: (str "ase " ++ (decimal index ++ ':' :: (str " goto " ++ (label target ++
    str "; break; /* [nomercy fix_switches] rom table entry */"))))

/-- `case %d: func_%08X(rdram, ctx); return; /* [nomercy fix_switches] out-of-body … */` -/
def callArm (index target : Nat) : Line :=
  'c' :: (str "ase " ++ (decimal index ++ ':' :: (' ' :: (funcName target ++
    str "(rdram, ctx); return; /* [nomercy fix_switches] out-of-body (island) entry */"))))

/-- Why a site is not completed: a target decoded but not on exactly one top-level
line, a target neither decoded nor a function start, or an exception. -/
inductive Failure where
  | ambiguous
  | missing
  | raised
deriving DecidableEq, Repr

/-- The arms and the labels to be added. -/
abbrev Additions := List Line × List Nat

/-- The table entries from an index on, in order, up to the first failure. -/
def addEntries (rom : List UInt8) (dump : Dump) (body : List Line) (offset : Nat) :
    List Nat → Additions → Except Failure Additions
  | [], added => .ok added
  | index :: rest, (adds, labels) =>
    match word rom (offset + 4 * index) with
    | none => .error .raised
    | some target =>
      if decoded body target then
        if labelled body target || labels.contains target then
          addEntries rom dump body offset rest (adds ++ [gotoArm index target], labels)
        else if decodeLines body target = 1 then
          addEntries rom dump body offset rest (adds ++ [gotoArm index target], labels ++ [target])
        else .error .ambiguous
      else if funcAt dump target then
        addEntries rom dump body offset rest (adds ++ [callArm index target], labels)
      else .error .missing

/-! ## Rewriting -/

/-- The comment and the arms put in front of a default arm. -/
def completion (site : Site) (bound offset : Nat) (adds : List Line) : List Line :=
  (site.indent ++ (str "/* [nomercy fix_switches] table has " ++ (decimal bound ++
      str " entries per the sltiu guard; N64Recomp"))) ::
    (site.indent ++ (str "   stopped at the first out-of-function entry. Completed from rom 0x" ++
      (hex offset ++ str ". */"))) ::
    adds.map (site.indent ++ ·)

/-- Put the labels before the decode lines of their targets. -/
def addLabels (labels : List Nat) (body : List Line) : List Line :=
  labels.foldl (fun body target =>
    insertBefore (decodeText target).isPrefixOf [label target ++ [':']] body) body

/-- What becomes of one site: left alone, completed, or failed. -/
inductive Outcome where
  | kept
  | completed (body : List Line)
  | failed (failure : Failure)
  | unmapped

/-- One turn of the loop over the sites of `body`; `newbody` is the body so far. The default arm
is looked up by its text, which the addresses in it tell from the others. -/
def fixSite (rom : List UInt8) (dump : Dump) (body newbody before : List Line) (site : Site) :
    Outcome :=
  match guard body before with
  | none => .kept
  | some bound =>
    if bound ≤ ncases before then .kept
    else match firstAddr body with
      | none => .failed .raised
      | some first =>
        match tableRomOffset dump (value 16 site.table) first with
        | none => .unmapped
        | some (_, offset) =>
          match addEntries rom dump newbody offset
            (List.range' (ncases before) (bound - ncases before)) ([], []) with
          | .error failure => .failed failure
          | .ok (adds, labels) =>
            .completed (insertBefore (fun line => siteRe line == some site)
              (completion site bound offset adds) (addLabels labels newbody))

/-- The sites of a body with the lines before each. -/
def sites (body : List Line) : List (List Line × Site) :=
  (contexts body).filterMap (fun c => (siteRe c.2.1).map (fun site => (c.1, site)))

/-- The loop over the sites: the body so far and the failures counted. An exception
ends the run. -/
def fixSites (rom : List UInt8) (dump : Dump) (body : List Line) :
    List (List Line × Site) → List Line → Nat → Option (List Line × Nat)
  | [], newbody, failed => some (newbody, failed)
  | (before, site) :: rest, newbody, failed =>
    match fixSite rom dump body newbody before site with
    | .kept => fixSites rom dump body rest newbody failed
    | .completed after => fixSites rom dump body rest after failed
    | .failed .ambiguous => fixSites rom dump body rest newbody failed
    | .failed .missing => fixSites rom dump body rest newbody (failed + 1)
    | .unmapped => fixSites rom dump body rest newbody (failed + 1)
    | .failed .raised => none

/-- One function: its new body and its failures. -/
def fixBody (rom : List UInt8) (dump : Dump) (body : List Line) : Option (List Line × Nat) :=
  fixSites rom dump body (sites body) body 0

/-- The failures of the functions of a file, in order. -/
def failures (rom : List UInt8) (dump : Dump) : List GenFunc → Option Nat
  | [] => some 0
  | f :: rest => do
    let (_, failed) ← fixBody rom dump f.body
    let more ← failures rom dump rest
    some (failed + more)

/-- One file with its functions rewritten, and its failures. -/
def fixFile (rom : List UInt8) (dump : Dump) (file : List Line) : Option (List Line × Nat) :=
  (failures rom dump (functions file)).map (fun failed =>
    (rewrite (fun f => ((fixBody rom dump f.body).map Prod.fst).getD f.body) file, failed))

/-- The whole run: the files it writes and the failures it counts. The exit status is
zero when it counts none. -/
def fixTree (rom : List UInt8) (dump : Dump) : List (List Line) → Option (List (List Line) × Nat)
  | [] => some ([], 0)
  | file :: rest => do
    let (after, failed) ← fixFile rom dump file
    let (others, more) ← fixTree rom dump rest
    some (after :: others, failed + more)

/-- The files after a run. Each file is written before the next one is read, so a run that an
exception ends leaves the file in which it happens, and those behind it, as they were. -/
def onDisk (rom : List UInt8) (dump : Dump) : List (List Line) → List (List Line)
  | [] => []
  | file :: rest =>
    match fixFile rom dump file with
    | some (after, _) => after :: onDisk rom dump rest
    | none => file :: rest

/-- A run that no exception ends leaves the files that it returns. -/
theorem fixTree_onDisk (rom : List UInt8) (dump : Dump) (files after : List (List Line))
    (failed : Nat)
    (run : fixTree rom dump files = some (after, failed)) : onDisk rom dump files = after := by
  induction files generalizing after failed with
  | nil =>
    obtain ⟨rfl, rfl⟩ := Prod.mk.inj (Option.some.inj run)
    rfl
  | cons file rest inductionHypothesis =>
    simp only [fixTree, Option.bind_eq_bind, Option.bind_eq_some_iff] at run
    obtain ⟨⟨first, few⟩, fixed, ⟨others, more⟩, later, same⟩ := run
    obtain ⟨rfl, rfl⟩ := Prod.mk.inj (Option.some.inj same)
    rw [onDisk, fixed, inductionHypothesis others more later]

/-! ## What is inserted -/

/-- A line that the pass does not look at: no default arm, no opening of a switch,
no guard, no decode comment and no end of a function. -/
structure Foreign (line : Line) : Prop where
  site : siteRe line = none
  switch : opensSwitch line = false
  guards : guardsOn line = []
  decodes : ∀ target, occurs (decodeText target) line = false
  addrs : findAll addrRe line = []
  closes : isClose line = false

/-- A line whose text starts with another letter is no default arm. -/
theorem siteRe_other (line rest : Line) (first : Char)
    (text : line.dropWhile (· == ' ') = first :: rest)
    (other : first ≠ 'd') : siteRe line = none := by
  simp [siteRe, text, lit, Ne.symm other]

/-- A guard needs a comparison. -/
theorem guardsOn_absent (line : Line) (absent : '<' ∉ line) : guardsOn line = [] := by
  refine findAll_needs guardRe '<' (fun text result found => ?_) line absent
  obtain ⟨rest, opened, _⟩ := Option.bind_eq_some_iff.mp found
  rw [(lit_eq_some _ _ _).mp opened]
  exact List.mem_append_left _ List.mem_cons_self

/-- A decode comment needs two slashes. -/
theorem decodes_absent (line : Line) (absent : occurs (str "//") line = false) (target : Nat) :
    occurs (decodeText target) line = false := by
  have parts : decodeText target = str "    " ++ str "//" ++
      (str " 0x" ++ (hex8 target ++ [':'])) := by
    simp [decodeText, str]
  rw [parts]
  exact occurs_part _ _ _ line (by decide) absent

/-- An address pattern needs a colon. -/
theorem addrs_absent (line : Line) (absent : ':' ∉ line) : findAll addrRe line = [] := by
  refine findAll_needs addrRe ':' (fun text result found => ?_) line absent
  obtain ⟨rest, opened, ending⟩ := Option.bind_eq_some_iff.mp found
  obtain ⟨tail, closed, _⟩ := Option.bind_eq_some_iff.mp ending
  have colon : ':' ∈ rest.drop 8 := by
    rw [(lit_eq_some _ _ _).mp closed]
    exact List.mem_append_left _ List.mem_cons_self
  rw [(lit_eq_some _ _ _).mp opened]
  exact List.mem_append_right _ (List.mem_of_mem_drop colon)

/-- An arm needs a colon. -/
theorem armsOn_absent (line : Line) (absent : ':' ∉ line) : armsOn line = [] := by
  refine findAll_needs caseRe ':' (fun text result found => ?_) line absent
  obtain ⟨rest, opened, ending⟩ := Option.bind_eq_some_iff.mp found
  obtain ⟨tail, closed, _⟩ := Option.bind_eq_some_iff.mp ending
  have colon : ':' ∈ rest.dropWhile Char.isDigit := by
    rw [(lit_eq_some _ _ _).mp closed]
    exact List.mem_append_left _ List.mem_cons_self
  rw [(lit_eq_some _ _ _).mp opened]
  exact List.mem_append_right _ ((List.dropWhile_suffix _).subset colon)

/-- A line ends a function only from its first character. -/
theorem isClose_other (line rest : Line) (first : Char) (text : line = first :: rest)
    (other : first ≠ ';') :
    isClose line = false := by
  simp [isClose, text, lit, Ne.symm other]

/-- The characters of a label. -/
theorem label_absent (target : Nat) (c : Char) (outside : isUpperHex c = false) (notL : c ≠ 'L')
    (notBar : c ≠ '_') : c ∉ label target := by
  have inHex := hex8_absent target c outside
  simp [label, inHex, notL, notBar]

/-- A label line is foreign and holds no arm: it starts with another letter than the lines that
the patterns look for, and no comment, brace or call is in it. -/
theorem label_foreign (target : Nat) :
    Foreign (label target ++ [':']) ∧ armsOn (label target ++ [':']) = [] := by
  have absent (c : Char) (outside : isUpperHex c = false) (notL : c ≠ 'L') (notBar : c ≠ '_')
    (notColon : c ≠ ':') :
      c ∉ label target ++ [':'] := by
    simp [label_absent target c outside notL notBar, notColon]
  have text : (label target ++ [':']).dropWhile (· == ' ') = 'L' :: ('_' :: hex8 target ++ [':']) :=
    rfl
  have noSlash := absent '/' (by decide) (by decide) (by decide) (by decide)
  refine ⟨⟨siteRe_other _ _ 'L' text (by decide), ?_, ?_, ?_, ?_, ?_⟩, ?_⟩
  · exact occurs_absent _ _ 's' (by decide)
      (absent 's' (by decide) (by decide) (by decide) (by decide))
  · exact guardsOn_absent _ (absent '<' (by decide) (by decide) (by decide) (by decide))
  · exact decodes_absent _ (occurs_absent _ _ '/' (by decide) noSlash)
  · refine findAll_needs addrRe '/' (fun found result matched => ?_) _ noSlash
    obtain ⟨rest, opened, _⟩ := Option.bind_eq_some_iff.mp matched
    rw [(lit_eq_some _ _ _).mp opened]
    exact List.mem_append_left _ List.mem_cons_self
  · exact isClose_other _ _ 'L' rfl (by decide)
  · refine findAll_needs caseRe 'c' (fun found result matched => ?_) _
      (absent 'c' (by decide) (by decide) (by decide) (by decide))
    obtain ⟨rest, opened, _⟩ := Option.bind_eq_some_iff.mp matched
    rw [(lit_eq_some _ _ _).mp opened]
    exact List.mem_append_left _ List.mem_cons_self

/-- A default arm is indented by spaces. -/
theorem siteRe_indent (line : Line) (site : Site) (found : siteRe line = some site) :
    ∀ c ∈ site.indent, c = ' ' := by
  simp only [siteRe, Option.bind_eq_bind, Option.bind_eq_some_iff] at found
  obtain ⟨pc, _, table, _, tail, _, kept⟩ := found
  split at kept
  · simp at kept
  · obtain rfl : _ = site := by simpa using kept
    intro c member
    simpa using List.mem_takeWhile_imp member

/-- Arms are found only at their first characters. -/
theorem caseRe_startsWith : StartsWith caseRe 'c' := by
  intro c rest different
  simp [caseRe, lit, Ne.symm different]

/-- An arm's number is read back. -/
theorem caseRe_arm (index : Nat) (rest : Line) :
    caseRe ('c' :: (str "ase " ++ (decimal index ++ ':' :: (' ' :: rest)))) =
      some (decimal index) := by
  have digits := decimal_isDigit index
  have number := takeWhile_run Char.isDigit (decimal index) (' ' :: rest) ':' digits (by decide)
  have after := dropWhile_run Char.isDigit (decimal index) (' ' :: rest) ':' digits (by decide)
  have colon : lit (':' :: str " ") (':' :: ' ' :: rest) = some rest := rfl
  have nonempty : decimal index ≠ [] := number_ne_nil 10 index
  simp only [caseRe, lit_cons_append, Option.bind_eq_bind, Option.bind_some, after, colon, number,
    if_neg nonempty]

section Indented

variable (indent : Line) (spaces : ∀ c ∈ indent, c = ' ')
include spaces

/-- The text of an indented line starts after the spaces. -/
theorem indented_text (first : Char) (rest : Line) (solid : first ≠ ' ') :
    (indent ++ first :: rest).dropWhile (· == ' ') = first :: rest :=
  dropWhile_run _ indent rest first (fun c member => by simp [spaces c member])
    (by simpa using solid)

/-- No other character stands in the indentation. -/
theorem indent_absent (c : Char) (solid : c ≠ ' ') : c ∉ indent :=
  fun member => solid (spaces c member)

/-- An indented line does not end a function. -/
theorem indented_open (first : Char) (rest : Line) (other : first ≠ ';') :
    isClose (indent ++ first :: rest) = false := by
  cases indent with
  | nil => exact isClose_other _ _ first rfl other
  | cons c indent =>
    obtain rfl := spaces c List.mem_cons_self
    exact isClose_other _ _ ' ' rfl (by decide)

/-- The comment lines of a completion are foreign and hold no arm. They are comments of the other
kind, so they decode nothing, and their words are none that a pattern searches. -/
theorem comment_foreign (bound offset : Nat) :
    (Foreign (indent ++ (str "/* [nomercy fix_switches] table has " ++ (decimal bound ++
        str " entries per the sltiu guard; N64Recomp"))) ∧
      armsOn (indent ++ (str "/* [nomercy fix_switches] table has " ++ (decimal bound ++
        str " entries per the sltiu guard; N64Recomp"))) = []) ∧
    Foreign (indent ++
      (str "   stopped at the first out-of-function entry. Completed from rom 0x" ++
        (hex offset ++ str ". */"))) ∧
      armsOn (indent ++
        (str "   stopped at the first out-of-function entry. Completed from rom 0x" ++
        (hex offset ++ str ". */"))) = [] := by
  have inIndent (c : Char) (solid : c ≠ ' ') := indent_absent indent spaces c solid
  have first (c : Char) (solid : c ≠ ' ') (outside : c.isDigit = false)
      (notFront : c ∉ str "/* [nomercy fix_switches] table has ")
      (notBack : c ∉ str " entries per the sltiu guard; N64Recomp") :
      c ∉ indent ++ (str "/* [nomercy fix_switches] table has " ++ (decimal bound ++
        str " entries per the sltiu guard; N64Recomp")) := by
    simp only [List.mem_append, not_or]
    exact ⟨inIndent c solid, notFront, decimal_absent bound c outside, notBack⟩
  have second (c : Char) (solid : c ≠ ' ') (outside : isUpperHex c = false)
      (notFront : c ∉ str "   stopped at the first out-of-function entry. Completed from rom 0x")
      (notBack : c ∉ str ". */") :
      c ∉ indent ++ (str "   stopped at the first out-of-function entry. Completed from rom 0x" ++
        (hex offset ++ str ". */")) := by
    simp only [List.mem_append, not_or]
    exact ⟨inIndent c solid, notFront, hex_absent offset c outside, notBack⟩
  have slashes :
    occurs (str "//") (indent ++ (str "/* [nomercy fix_switches] table has " ++ (decimal bound ++
      str " entries per the sltiu guard; N64Recomp"))) = false := by
    have shape : indent ++ (str "/* [nomercy fix_switches] table has " ++ (decimal bound ++
        str " entries per the sltiu guard; N64Recomp")) =
        indent ++ '/' :: '*' :: (str " [nomercy fix_switches] table has " ++ (decimal bound ++
          str " entries per the sltiu guard; N64Recomp")) := by simp [str]
    have back : '/' ∉ str " [nomercy fix_switches] table has " ++ (decimal bound ++
        str " entries per the sltiu guard; N64Recomp") := by
      simp only [List.mem_append, not_or]
      exact ⟨by decide, decimal_absent bound '/' (by decide), by decide⟩
    rw [shape, show str "//" = '/' :: ['/'] from
      by decide, occurs_skip '/' ['/'] indent _ (inIndent '/' (by decide))]
    have later :
      occurs ['/', '/'] ('*' :: (str " [nomercy fix_switches] table has " ++ (decimal bound ++
        str " entries per the sltiu guard; N64Recomp"))) = false :=
      occurs_absent _ _ '/' (by decide) (by simpa using back)
    rw [occurs, cut] at later ⊢
    rw [search, show lit ['/', '/'] ('/' :: '*' ::
      (str " [nomercy fix_switches] table has " ++ (decimal bound ++
      str " entries per the sltiu guard; N64Recomp"))) = none from rfl]
    simpa using later
  refine ⟨⟨⟨?_, ?_, ?_, ?_, ?_, ?_⟩, ?_⟩, ⟨?_, ?_, ?_, ?_, ?_, ?_⟩, ?_⟩
  · exact siteRe_other _ _ '/' (indented_text indent spaces '/' _ (by decide)) (by decide)
  · exact occurs_absent _ _ '(' (by decide)
      (first '(' (by decide) (by decide) (by decide) (by decide))
  · exact guardsOn_absent _ (first '<' (by decide) (by decide) (by decide) (by decide))
  · exact decodes_absent _ slashes
  · exact addrs_absent _ (first ':' (by decide) (by decide) (by decide) (by decide))
  · exact indented_open indent spaces '/' _ (by decide)
  · exact armsOn_absent _ (first ':' (by decide) (by decide) (by decide) (by decide))
  · have shape :
      indent ++ (str "   stopped at the first out-of-function entry. Completed from rom 0x" ++
        (hex offset ++ str ". */")) = (indent ++ str "   ") ++
          's' :: (str "topped at the first out-of-function entry. Completed from rom 0x" ++
            (hex offset ++ str ". */")) := by
      simp [str]
    have wider : ∀ c ∈ indent ++ str "   ", c = ' ' := by
      intro c member
      rcases List.mem_append.mp member with inner | blank
      · exact spaces c inner
      · simpa [str] using blank
    rw [shape]
    exact siteRe_other _ _ 's' (indented_text _ wider 's' _ (by decide)) (by decide)
  · exact occurs_absent _ _ '(' (by decide)
      (second '(' (by decide) (by decide) (by decide) (by decide))
  · exact guardsOn_absent _ (second '<' (by decide) (by decide) (by decide) (by decide))
  · intro target
    have colon := second ':' (by decide) (by decide) (by decide) (by decide)
    exact occurs_absent _ _ ':' (by simp [decodeText]) colon
  · exact addrs_absent _ (second ':' (by decide) (by decide) (by decide) (by decide))
  · exact indented_open indent spaces ' ' _ (by decide)
  · exact armsOn_absent _ (second ':' (by decide) (by decide) (by decide) (by decide))

/-- A `goto` arm is foreign and holds its one arm. It goes to a label behind its number, where no
pattern for whole lines starts. -/
theorem gotoArm_foreign (index target : Nat) :
    Foreign (indent ++ gotoArm index target) ∧
    armsOn (indent ++ gotoArm index target) = [decimal index] := by
  have absent (c : Char) (solid : c ≠ ' ')
    (notDigit : c.isDigit = false) (outside : isUpperHex c = false)
      (notL : c ≠ 'L') (notBar : c ≠ '_') (notStart : c ∉ 'c' :: str "ase ")
        (notGoto : c ∉ ':' :: str " goto ")
      (notBack : c ∉ str "; break; /* [nomercy fix_switches] rom table entry */") :
      c ∉ indent ++ gotoArm index target := by
    simp only [gotoArm, List.mem_append, List.mem_cons, not_or] at notStart notGoto ⊢
    exact ⟨indent_absent indent spaces c solid, notStart.1, notStart.2,
      decimal_absent index c notDigit,
      notGoto.1, notGoto.2, label_absent target c outside notL notBar, notBack⟩
  have shape : indent ++ gotoArm index target = (indent ++ 'c' :: (str "ase " ++ (decimal index ++
      ':' :: (str " goto " ++ (label target ++ str "; break; "))))) ++
        str "/* [nomercy fix_switches] rom table entry */" := by
    simp [gotoArm, str]
  have front (c : Char) (solid : c ≠ ' ')
    (notDigit : c.isDigit = false) (outside : isUpperHex c = false)
      (notL : c ≠ 'L') (notBar : c ≠ '_') (notStart : c ∉ 'c' :: str "ase ")
        (notGoto : c ∉ ':' :: str " goto ")
      (notBack : c ∉ str "; break; ") : c ∉ indent ++ 'c' :: (str "ase " ++ (decimal index ++
        ':' :: (str " goto " ++ (label target ++ str "; break; ")))) := by
    simp only [List.mem_append, List.mem_cons, not_or] at notStart notGoto ⊢
    exact ⟨indent_absent indent spaces c solid, notStart.1, notStart.2,
      decimal_absent index c notDigit,
      notGoto.1, notGoto.2, label_absent target c outside notL notBar, notBack⟩
  have noSlash :=
    front '/' (by decide) (by decide) (by decide) (by decide) (by decide) (by decide) (by decide)
    (by decide)
  refine ⟨⟨?_, ?_, ?_, ?_, ?_, ?_⟩, ?_⟩
  · exact siteRe_other _ _ 'c' (indented_text indent spaces 'c' _ (by decide)) (by decide)
  · exact occurs_absent _ _ '(' (by decide)
      (absent '(' (by decide) (by decide) (by decide) (by decide) (by decide)
      (by decide) (by decide) (by decide))
  · exact guardsOn_absent _ (absent '<' (by decide) (by decide) (by decide) (by decide) (by decide)
      (by decide) (by decide) (by decide))
  · refine decodes_absent _ ?_
    rw [shape, show str "//" = '/' :: ['/'] from by decide, occurs_skip '/' ['/'] _ _ noSlash]
    decide
  · rw [shape, findAll_skip addrRe '/' addrRe_startsWith _ _ noSlash]
    decide
  · exact indented_open indent spaces 'c' _ (by decide)
  · have skipped : 'c' ∉ str "ase " ++ (decimal index ++ ':' :: (str " goto " ++ (label target ++
        str "; break; /* [nomer"))) := by
      simp only [List.mem_append, List.mem_cons, not_or]
      exact ⟨by decide, decimal_absent index 'c' (by decide), by decide, by decide,
        label_absent target 'c' (by decide) (by decide) (by decide), by decide⟩
    have parts : gotoArm index target =
        'c' :: ((str "ase " ++ (decimal index ++ ':' :: (str " goto " ++
          (label target ++ str "; break; /* [nomer")))) ++
          str "cy fix_switches] rom table entry */") := by
      simp [gotoArm, str]
    have first : caseRe (gotoArm index target) = some (decimal index) := caseRe_arm index _
    rw [armsOn, findAll_skip caseRe 'c' caseRe_startsWith _ _
      (indent_absent indent spaces 'c' (by decide))]
    rw [parts] at first ⊢
    rw [findAll, first, findAll_skip caseRe 'c' caseRe_startsWith _ _ skipped]
    rfl

/-- A call arm is foreign and holds its one arm. Its call stands behind the number, and the name
in it is spelled of digits. -/
theorem callArm_foreign (index target : Nat) :
    Foreign (indent ++ callArm index target) ∧
    armsOn (indent ++ callArm index target) = [decimal index] := by
  have front (c : Char) (solid : c ≠ ' ')
    (notDigit : c.isDigit = false) (outside : isUpperHex c = false)
      (notStart : c ∉ 'c' :: str "ase ") (notColon : c ≠ ':') (notName : c ∉ str "func_")
        (back : Line)
      (notBack : c ∉ back) : c ∉ indent ++ 'c' :: (str "ase " ++ (decimal index ++
        ':' :: (' ' :: (funcName target ++ back)))) := by
    simp only [funcName, List.mem_append, List.mem_cons, not_or] at notStart ⊢
    exact ⟨indent_absent indent spaces c solid, notStart.1, notStart.2,
      decimal_absent index c notDigit,
      notColon, solid, ⟨notName, hex8_absent target c outside⟩, notBack⟩
  have split (before after : Line)
      (parts : str "(rdram, ctx); return; /* [nomercy fix_switches] out-of-body (island) entry */" =
        before ++ after) :
      indent ++ callArm index target =
        (indent ++ 'c' :: (str "ase " ++ (decimal index ++
          ':' :: (' ' :: (funcName target ++ before))))) ++ after := by
    rw [callArm, parts]
    simp
  have noSlash := front '/' (by decide) (by decide) (by decide) (by decide) (by decide) (by decide)
    (str "(rdram, ctx); return; ") (by decide)
  have shape := split (str "(rdram, ctx); return; ")
    (str "/* [nomercy fix_switches] out-of-body (island) entry */")
    (by decide)
  refine ⟨⟨?_, ?_, ?_, ?_, ?_, ?_⟩, ?_⟩
  · exact siteRe_other _ _ 'c' (indented_text indent spaces 'c' _ (by decide)) (by decide)
  · have noH := front 'h' (by decide) (by decide) (by decide) (by decide) (by decide) (by decide)
      (str "(rdram, ctx); return; /* [nomercy fix_switc") (by decide)
    have ending := occurs_skip 'h' (str " (") _ (str "hes] out-of-body (island) entry */") noH
    rw [← split _ _ (by decide)] at ending
    exact occurs_part (str "switc") ('h' :: str " (") [] _ (by decide) (ending.trans (by decide))
  · exact guardsOn_absent _
      (front '<' (by decide) (by decide) (by decide) (by decide) (by decide) (by decide)
      _ (by decide))
  · refine decodes_absent _ ?_
    rw [shape, show str "//" = '/' :: ['/'] from by decide, occurs_skip '/' ['/'] _ _ noSlash]
    decide
  · rw [shape, findAll_skip addrRe '/' addrRe_startsWith _ _ noSlash]
    decide
  · exact indented_open indent spaces 'c' _ (by decide)
  · have toName : 'c' ∉ str "ase " ++ (decimal index ++ ':' :: (' ' :: str "fun")) := by
      simp only [List.mem_append, List.mem_cons, not_or]
      exact ⟨by decide, decimal_absent index 'c' (by decide), by decide, by decide, by decide⟩
    have toTail : 'c' ∉ '_' :: (hex8 target ++ str "(rdram, ") := by
      simp only [List.mem_append, List.mem_cons, not_or]
      exact ⟨by decide, hex8_absent target 'c' (by decide), by decide⟩
    have parts : callArm index target =
        'c' :: ((str "ase " ++ (decimal index ++ ':' :: (' ' :: str "fun"))) ++
        'c' :: (('_' :: (hex8 target ++ str "(rdram, ")) ++
          str "ctx); return; /* [nomercy fix_switches] out-of-body (island) entry */")) := by
      simp [callArm, funcName, str]
    have first : caseRe (callArm index target) = some (decimal index) := caseRe_arm index _
    have second (rest : Line) : caseRe ('c' :: '_' :: rest) = none := rfl
    rw [armsOn, findAll_skip caseRe 'c' caseRe_startsWith _ _
      (indent_absent indent spaces 'c' (by decide))]
    rw [parts] at first ⊢
    rw [findAll, first, findAll_skip caseRe 'c' caseRe_startsWith _ _ toName, findAll,
      List.cons_append, second,
      ← List.cons_append, findAll_skip caseRe 'c' caseRe_startsWith _ _ toTail]
    rfl

end Indented

end NoMercyRecomp.FixSwitches
