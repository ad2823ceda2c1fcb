import NoMercyRecomp.FixStumps
import NoMercyRecomp.FixSwitches
import NoMercyRecomp.FixJraddend
import NoMercyRecomp.FixBackbranches
import NoMercyRecomp.FixSelfentry
import NoMercyRecomp.HandEdits

/-!
# The repair pipeline

After every regeneration six scripts run over the generated files, each on what the one
before it has written: `fix_stumps`, `fix_switches`, `fix_jraddend`, `fix_backbranches`,
`fix_selfentry` and `readd_hand_edits`. The run counts when every script exits with zero.

A file is the list of its lines, each ended by a line feed; a carriage return stays at
the end of its line.
-/

namespace NoMercyRecomp.Pipeline

open TextScan SymbolTable Recompiled

/-- What the scripts read besides the files: the symbol table, the ROM and the names of
the files. -/
structure Project where
  dump : Dump
  rom : List UInt8
  names : List Line

abbrev Files := List (List Line)

/-- The lines of a text, each ended by a line feed. -/
def linesOf : Line → List Line
  | [] => []
  | c :: rest => if c = '\n' then [] :: linesOf rest else consFirst c (linesOf rest)

/-- The text of a file. -/
def text (file : List Line) : Line := joined ['\n'] file

/-! ## The steps -/

section Steps

variable (p : Project)

def stumps (files : Files) : Option Files := some (FixStumps.fixTree p.dump files)

def switches (files : Files) : Option Files :=
  match FixSwitches.fixTree p.rom p.dump files with
  | some (after, 0) => some after
  | _ => none

def jraddend (files : Files) : Option Files :=
  let run := FixJraddend.fixJraddend (files.map text)
  if run.2 then none else some (run.1.map linesOf)

def backbranches (files : Files) : Option Files :=
  let run := FixBackbranches.fixTree p.dump files
  if run.2 = 0 then some run.1 else none

def selfentry (files : Files) : Option Files := some (FixSelfentry.fixTree files)

def handEdits (files : Files) : Option Files := HandEdits.main p.names files

/-- The sequence of the six scripts: the files after it, when every script exits with
zero. -/
def run (files : Files) : Option Files := do
  let chained ← stumps p files
  let completed ← switches p chained
  let indexed ← jraddend completed
  let branched ← backbranches p indexed
  let relabelled ← selfentry branched
  handEdits p relabelled

/-- A second run leaves every file as the first one wrote it. -/
def Idempotent (files : Files) : Prop :=
  ∀ after, run p files = some after → run p after = some after

end Steps

/-! ## One file of a run -/

/-- Each file is completed by itself, in a run that returns. By induction on the files. -/
theorem fixTree_file (rom : List UInt8) (dump : Dump) (files after : Files) (failed : Nat)
    (ran : FixSwitches.fixTree rom dump files = some (after, failed)) (index : Nat)
    (file : List Line) (here : files[index]? = some file) :
    ∃ out count, FixSwitches.fixFile rom dump file = some (out, count) ∧
    after[index]? = some out := by
  induction files generalizing after failed index with
  | nil => simp at here
  | cons first rest inductionHypothesis =>
    simp only [FixSwitches.fixTree, Option.bind_eq_bind, Option.bind_eq_some_iff] at ran
    obtain ⟨⟨out, count⟩, fixed, ⟨others, more⟩, ranRest, same⟩ := ran
    obtain ⟨rfl, _⟩ : out :: others = after ∧ count + more = failed := by simpa using same
    cases index with
    | zero =>
      obtain rfl : first = file := by simpa using here
      exact ⟨out, count, fixed, rfl⟩
    | succ index => simpa using inductionHypothesis others more ranRest index (by simpa using here)

/-- An edit of one file leaves the others as they are. By induction on the names, along with the
files, up to the file that is edited. -/
theorem editFile_other (name : Line) (edit : List Line → Option (List Line)) (names : List Line)
    (files after : Files)
    (edited : HandEdits.editFile name edit names files = some after) (index : Nat) (own : Line)
    (named : names[index]? = some own) (other : own ≠ name) : after[index]? = files[index]? := by
  induction names generalizing files after index with
  | nil => simp at named
  | cons first names inductionHypothesis =>
    cases files with
    | nil => simp [HandEdits.editFile] at edited
    | cons file files =>
      by_cases here : first = name
      · obtain ⟨out, _, rfl⟩ : ∃ out, edit file = some out ∧ out :: files = after := by
          simpa [HandEdits.editFile, here] using edited
        cases index with
        | zero => exact absurd ((by simpa using named : first = own) ▸ here) other
        | succ index => rfl
      · obtain ⟨rest, later, rfl⟩ : ∃ rest, HandEdits.editFile name edit names files = some rest ∧
            file :: rest = after := by simpa [HandEdits.editFile, here] using edited
        cases index with
        | zero => rfl
        | succ index =>
          simpa using inductionHypothesis files rest later index (by simpa using named)

/-- The hand edits leave a file without an edit as it is: they are made one file after the other,
and each is for a file of the registry. -/
theorem handEdits_other (p : Project) (files after : Files)
    (edited : handEdits p files = some after) (index : Nat) (own : Line)
    (named : p.names[index]? = some own) (other : own ∉ HandEdits.registry.map Prod.fst) :
    after[index]? = files[index]? := by
  rw [handEdits, HandEdits.main] at edited
  generalize HandEdits.registry = entries at edited other
  induction entries generalizing files with
  | nil => simp_all
  | cons entry entries inductionHypothesis =>
    obtain ⟨next, first, rest⟩ : ∃ next,
        HandEdits.editFile entry.1 entry.2 p.names files = some next ∧
        entries.foldlM (fun files entry => HandEdits.editFile entry.1 entry.2 p.names files) next =
          some after := by
      rw [List.foldlM_cons] at edited
      exact Option.bind_eq_some_iff.mp edited
    simp only [List.map_cons, List.mem_cons, not_or] at other
    rw [inductionHypothesis next rest other.2]
    exact editFile_other entry.1 entry.2 p.names files next first index own named other.1

/-- What a run makes of a file that no hand edit is for: each pass rewrites it by itself, and the
passes come one after the other, so the file goes through all of them. -/
theorem run_file (p : Project) (files after : Files) (ran : run p files = some after) (index : Nat)
    (own file : List _) (named : p.names[index]? = some own)
    (other : own ∉ HandEdits.registry.map Prod.fst) (here : files[index]? = some file) :
    ∃ out count, FixSwitches.fixFile p.rom p.dump
        (rewrite (FixStumps.chainedBody p.dump (FixStumps.allGenNames files)) file) =
          some (out, count) ∧
      after[index]? = some (FixSelfentry.fixFile (changeFuncs (FixBackbranches.fixFunc p.dump)
        (linesOf (FixJraddend.fixFile (text out))))) := by
  simp only [run, stumps, selfentry, Option.bind_eq_bind, Option.bind_some,
    Option.bind_eq_some_iff] at ran
  obtain ⟨completed, switched, indexed, repaired, branched, rewritten, edited⟩ := ran
  obtain ⟨out, count, fixed, stands⟩ : ∃ out count, FixSwitches.fixFile p.rom p.dump
      (rewrite (FixStumps.chainedBody p.dump (FixStumps.allGenNames files)) file) =
        some (out, count) ∧ completed[index]? = some out := by
    rw [switches] at switched
    split at switched
    next done fixedTree =>
      obtain rfl : done = completed := by simpa using switched
      exact fixTree_file p.rom p.dump _ done 0 fixedTree index _ (by simp [FixStumps.fixTree, here])
    next => simp at switched
  refine ⟨out, count, fixed, ?_⟩
  have third : indexed[index]? = some (linesOf (FixJraddend.fixFile (text out))) := by
    rw [jraddend] at repaired
    split at repaired
    · simp at repaired
    · obtain rfl := Option.some.inj repaired
      simp [FixJraddend.fixJraddend, stands]
  have fourth : branched[index]? = some (changeFuncs (FixBackbranches.fixFunc p.dump)
      (linesOf (FixJraddend.fixFile (text out)))) := by
    rw [backbranches] at rewritten
    split at rewritten
    · obtain rfl := Option.some.inj rewritten
      simp [FixBackbranches.fixTree, third]
    · simp at rewritten
  rw [handEdits_other p _ after edited index own named other]
  simp [FixSelfentry.fixTree, fourth]

/-! ## A last goto -/

/-- A mid-entry function that ends in a branch to its parent, 8 bytes before the next
function of its section. -/
def lastGoto : List Line :=
  [str "RECOMP_FUNC void func_80005010(uint8_t* rdram, recomp_context* ctx) \x7b",
    str "    // 0x80005010: b           L_80005000",
    str "    // 0x80005014: nop",
    str "",
    str "    goto L_80005000;",
    str ";\x7d"]

/-- A generated function that holds the anchor lines of a hand edit. -/
def anchored (func : String) (anchors : List String) : List Line :=
  headerText (str func) :: (anchors.map str ++ [str "    return;", str ";\x7d"])

/-- A project in which the parent's address starts a function. -/
def gotoProject : Project where
  dump := [⟨str "entry", 0x1000, 0x80000400, 0x10000,
    [⟨str "func_80005000", 0x80005000, 0x10⟩, ⟨str "func_80005010", 0x80005010, 0x8⟩,
      ⟨str "func_80005018", 0x80005018, 0x8⟩]⟩]
  rom := []
  names := [str "funcs_0.c", str "funcs_1.c", str "funcs_2.c", str "funcs_10.c", str "funcs_16.c",
    str "funcs_55.c"]

def gotoFiles : Files :=
  [anchored "func_80001E08" ["    int c1cs = 0;"],
    anchored "func_80002FA4" ["    func_80002BB4(rdram, ctx);"] ++
      anchored "func_800024F8" ["    ctx->f12.u32l = MEM_W(ctx->r16, 0X18);",
        "    c1cs = ctx->f22.d < ctx->f0.d;", "    c1cs = ctx->f22.d < ctx->f0.d;"],
    lastGoto,
    anchored "func_80022CEC" ["    func_80021B10(rdram, ctx);"],
    anchored "func_80038880" ["    int c1cs = 0;"],
    anchored "func_8011DCC4" ["    int c1cs = 0;"]]

/-- The file of the function after a first run. -/
def bracedGoto : List Line :=
  lastGoto.take 4 ++
    [str "    \x7b /* [nomercy fix_backbranches] out-of-span branch target */ func" ++
      str "_80005000(rdram, ctx); return; \x7d",
    str ";\x7d"]

/-- What a run makes of the function's file when no other names are generated. -/
def settled (file : List Line) : Option (List Line) :=
  (FixSwitches.fixFile gotoProject.rom gotoProject.dump
    (rewrite (FixStumps.chainedBody gotoProject.dump []) file)).map
    (fun out => FixSelfentry.fixFile (changeFuncs (FixBackbranches.fixFunc gotoProject.dump)
      (linesOf (FixJraddend.fixFile (text out.1)))))

/-- The names do not matter to a file whose functions are chained without them or whose
ends are not reachable. -/
theorem run_settled (files after : Files) (ran : run gotoProject files = some after)
    (file : List Line) (here : files[2]? = some file) (decided : ∀ f ∈ functions file,
      FixStumps.endReachable (FixStumps.wholeBody f) = false ∨
        FixStumps.stump gotoProject.dump [] f = .chained
        (str "func_80005018")) : after[2]? = settled file := by
  have unnamed : str "funcs_2.c" ∉ HandEdits.registry.map Prod.fst := by
    simp only [HandEdits.registry, List.map_cons, List.map_nil]
    decide
  obtain ⟨out, count, fixed, stands⟩ :=
    run_file gotoProject files after ran 2 (str "funcs_2.c") file rfl unnamed here
  have names : rewrite (FixStumps.chainedBody gotoProject.dump (FixStumps.allGenNames files)) file =
      rewrite (FixStumps.chainedBody gotoProject.dump []) file := by
    refine rewrite_congr _ _ file (fun f inFile => ?_)
    obtain dead | chained := decided f inFile
    · simp [FixStumps.chainedBody, FixStumps.stump, dead]
    · have always :=
        FixStumps.stump_names gotoProject.dump (FixStumps.allGenNames files) f _ chained
      simp only [FixStumps.chainedBody, chained, always]
  rw [names] at fixed
  rw [stands, settled, fixed]
  rfl

/-- The first run braces the last `goto`; the second takes the end to be reachable and
chains the function. -/
theorem gotoFiles_change : ¬ Idempotent gotoProject gotoFiles := by
  intro idempotent
  have runs : (run gotoProject gotoFiles).isSome = true := by decide +kernel
  obtain ⟨after, done⟩ := Option.isSome_iff_exists.mp runs
  have dead : ∀ f ∈ functions lastGoto, FixStumps.endReachable (FixStumps.wholeBody f) = false ∨
      FixStumps.stump gotoProject.dump [] f = .chained (str "func_80005018") := by decide +kernel
  have revived : ∀ f ∈ functions bracedGoto,
      FixStumps.endReachable (FixStumps.wholeBody f) = false ∨
      FixStumps.stump gotoProject.dump [] f = .chained (str "func_80005018") := by decide +kernel
  have first : after[2]? = some bracedGoto :=
    (run_settled gotoFiles after done lastGoto rfl dead).trans (by decide +kernel)
  have second : after[2]? = settled bracedGoto :=
    run_settled after after (idempotent after done) bracedGoto first revived
  exact absurd (first.symm.trans second) (by decide +kernel)

end NoMercyRecomp.Pipeline
