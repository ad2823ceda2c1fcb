import NoMercyRecomp.ExtraFuncs

/-!
# The recompile loop

`recomp_loop` runs N64Recomp until it succeeds. When it dies of a branch from one function
into the middle of another, the target is injected as an entry of its own, the table is
regenerated and N64Recomp runs again; an unknown instruction stubs its function. Any other
failure ends the script.

The host of the target is the first function outside `entry` that holds it, whatever its
section, and without a host the nearest start above the target decides. Overlay sections
overlap, so neither need be the section of the branch. The loop does not look whether the
line is already there, and after 199 iterations it ends without an exit status of its own.

N64Recomp and the ROM are not part of the repository: what N64Recomp returns and prints,
and whether `gen_stubs` succeeds, is given for every iteration.
-/

namespace NoMercyRecomp.RecompLoop

open TextScan SymbolTable ExtraFuncs

/-! ## Reports -/

/-- `Unhandled branch in (\S+) at 0x[0-9A-Fa-f]+ to 0x([0-9A-Fa-f]+)` at a position: the
function and the target. -/
def branchRe (text : Line) : Option (Line × Nat) := do
  let name ← lit ('U' :: str "nhandled branch in ") text
  let source ← lit (str " at 0x") (name.dropWhile (fun c => !isSpace c))
  let target ← lit (str " to 0x") (source.dropWhile isHex)
  if name.takeWhile (fun c => !isSpace c) = [] ∨ source.takeWhile isHex = [] ∨
    target.takeWhile isHex = [] then none
    else some (name.takeWhile (fun c => !isSpace c), value 16 (target.takeWhile isHex))

/-- `Error recompiling (\S+)` at a position: the function. -/
def errorFuncRe (text : Line) : Option Line := do
  let name ← lit ('E' :: str "rror recompiling ") text
  if name.takeWhile (fun c => !isSpace c) = [] then none
    else some (name.takeWhile (fun c => !isSpace c))

/-- `Unhandled instruction|Unsupported instruction` -/
def insnRe (out : Line) : Bool :=
  occurs (str "Unhandled instruction") out || occurs (str "Unsupported instruction") out

/-- The branch that an output reports. -/
def reported (out : Line) : Option (Line × Nat) := (search branchRe out).map Prod.snd

/-! ## Placing a target -/

/-- The section that is never a host. -/
def entrySection : Line := str "entry"

/-- The host: the first function outside `entry` with the target behind its start and
before its end. -/
def host (dump : Dump) (target : Nat) : Option (Line × Func) :=
  (entries dump).find? (fun e =>
    decide (e.2.vram < target) && decide (target < e.2.vram + e.2.size) &&
    decide (e.1 ≠ entrySection))

/-- `(vram, sec, name)`, ordered as a tuple. -/
def key (e : Line × Func) : Nat ×ₗ (Line ×ₗ Line) := toLex (e.2.vram, toLex (e.1, e.2.name))

/-- `cands`: the functions outside `entry` that start above the target, sorted. -/
def cands (dump : Dump) (target : Nat) : List (Nat ×ₗ (Line ×ₗ Line)) :=
  (((entries dump).filter (fun e =>
    decide (target < e.2.vram) && decide (e.1 ≠ entrySection))).map key).mergeSort

/-- Whether `below` has an element: a function outside `entry` that ends at or below the
target. -/
def below (dump : Dump) (target : Nat) : Bool :=
  (entries dump).any (fun e => decide (e.2.vram + e.2.size ≤ target) && decide (e.1 ≠ entrySection))

/-- The section and the size of the entry that is injected for a target. -/
def placed (dump : Dump) (target : Nat) : Option (Line × Nat) :=
  match host dump target with
  | some (sec, f) => some (sec, f.vram + f.size - target)
  | none =>
    match cands dump target with
    | [] => none
    | first :: _ =>
      if below dump target then some ((ofLex (ofLex first).2).1, (ofLex first).1 - target) else none

/-! ## The loop -/

/-- What an iteration meets: N64Recomp's return code and output, and whether `gen_stubs`
succeeds. -/
structure Reply where
  returncode : Int
  out : Line
  stubs : Bool

/-- The table and the two files that the loop appends to. -/
structure State where
  dump : Dump
  extra : List Line
  manualStubs : List Line

/-- An iteration exits the script or continues the loop. -/
inductive Step where
  | exit (code : Int) (s : State)
  | next (s : State)

/-- The subprocesses after an appended line: `gen_symbols` and `gen_stubs`, both of which
must succeed. -/
def regenerate (disasm : Disassembly) (reply : Reply) (s : State) : Step :=
  match genSymbols disasm s.extra with
  | none => .exit 1 s
  | some dump =>
    if reply.stubs then .next { s with dump := dump } else .exit 1 { s with dump := dump }

/-- One iteration. -/
def iteration (disasm : Disassembly) (reply : Reply) (s : State) : Step :=
  if reply.returncode = 0 then .exit 0 s
  else match reported reply.out with
  | some (_, target) =>
    match placed s.dump target with
    | none => .exit 1 s
    | some (sec, size) =>
      regenerate disasm reply { s with extra := s.extra ++ [entryLine sec target size] }
  | none =>
    match search errorFuncRe reply.out, insnRe reply.out with
    | some (_, fn), true =>
      let s := { s with manualStubs := s.manualStubs ++ [fn] }
      if reply.stubs then .next s else .exit 1 s
    | _, _ => .exit 1 s

/-- The files that an iteration leaves. -/
def Step.files : Step → State
  | .exit _ s => s
  | .next s => s

/-- How the script ends: its exit status, its last iteration and the files. -/
structure Finish where
  code : Int
  last : Nat
  files : State

/-- The iterations from `it` on. -/
def loop (disasm : Disassembly) (replies : Nat → Reply) : Nat → Nat → State → Finish
  | 0, it, s => ⟨0, it - 1, s⟩
  | left + 1, it, s =>
    match iteration disasm (replies it) s with
    | .exit code s => ⟨code, it, s⟩
    | .next s => loop disasm replies left (it + 1) s

/-- The script: iterations 1 to 199. -/
def main (disasm : Disassembly) (replies : Nat → Reply) (s : State) : Finish :=
  loop disasm replies 199 1 s

variable (disasm : Disassembly) (replies : Nat → Reply)

/-- The states in which the iterations start. -/
inductive Reaches (s : State) : Nat → State → Prop
  | start : Reaches s 1 s
  | next (it : Nat) (here there : State) : Reaches s it here →
      iteration disasm (replies it) here = .next there → Reaches s (it + 1) there

/-! ## What the loop should do -/

/-- The target lies behind the start of the function and before its end. -/
def Inside (f : Func) (target : Nat) : Prop := f.vram < target ∧ target < f.vram + f.size

/-- An entry for the target ends at the end of a function of the section that contains it,
or, if none does, at the next start of the section. -/
def EndsRight (dump : Dump) (sec : Line) (target stop : Nat) : Prop :=
  (∃ f, (sec, f) ∈ entries dump ∧ f.vram ≤ target ∧ target < f.vram + f.size ∧
    stop = f.vram + f.size) ∨
    (∀ f, (sec, f) ∈ entries dump → f.vram ≤ target → f.vram + f.size ≤ target) ∧
      IsLeast {v | ∃ f, (sec, f) ∈ entries dump ∧ f.vram = v ∧ target < v} stop

/-- The entry injected for a reported branch is right: it is one of the function's section,
ends where it should, and its line is new. -/
structure Right (s : State) (fn : Line) (target : Nat) (sec : Line) (size : Nat) : Prop where
  own : sectionOf s.dump fn = some sec
  stop : EndsRight s.dump sec target (target + size)
  fresh : entryLine sec target size ∉ s.extra

/-- Every line that an iteration appends for a reported branch is a right entry, and the script
exits with zero only when its last run of N64Recomp succeeded. -/
structure Truthful (s : State) : Prop where
  injections : ∀ it here, it < 200 → Reaches disasm replies s it here →
    (replies it).returncode ≠ 0 → ∀ fn target line, reported (replies it).out = some (fn, target) →
      (iteration disasm (replies it) here).files.extra = here.extra ++ [line] →
        ∃ sec size, line = entryLine sec target size ∧ Right here fn target sec size
  exits : (main disasm replies s).code = 0 → (replies (main disasm replies s).last).returncode = 0

/-! ## When it does -/

/-- The first function outside `entry`, over all sections, that the target lies inside. -/
def FirstInside (dump : Dump) (target : Nat) (sec : Line) (f : Func) : Prop :=
  sec ≠ entrySection ∧ Inside f target ∧
    ∃ before after, entries dump = before ++ (sec, f) :: after ∧
      ∀ e ∈ before, e.1 ≠ entrySection → ¬ Inside e.2 target

/-- The nearest start above the target over all sections outside `entry`; of several, that
of the first section by name. -/
def Nearest (dump : Dump) (target : Nat) (sec : Line) (start : Nat) : Prop :=
  sec ≠ entrySection ∧ target < start ∧ (∃ f, (sec, f) ∈ entries dump ∧ f.vram = start) ∧
    ∀ e ∈ entries dump, e.1 ≠ entrySection → target < e.2.vram → start < e.2.vram ∨
    start = e.2.vram ∧ sec ≤ e.1

/-- The target lies inside no function outside `entry`, but above the end of one. -/
def InGap (dump : Dump) (target : Nat) : Prop :=
  (∀ e ∈ entries dump, e.1 ≠ entrySection → ¬ Inside e.2 target) ∧
    ∃ e ∈ entries dump, e.1 ≠ entrySection ∧ e.2.vram + e.2.size ≤ target

/-- The table favours the function's section: the first function that the target lies inside
is of that section. In a gap the nearest start is, and what the section starts at the target
itself reaches up to it. No line of that extent is in the file yet. -/
structure Favours (s : State) (fn : Line) (target : Nat) : Prop where
  inside : ∀ sec f, FirstInside s.dump target sec f →
    sectionOf s.dump fn = some sec ∧ entryLine sec target (f.vram + f.size - target) ∉ s.extra
  gap : InGap s.dump target → ∀ sec start, Nearest s.dump target sec start →
    sectionOf s.dump fn = some sec ∧ entryLine sec target (start - target) ∉ s.extra ∧
      ((∃ f, (sec, f) ∈ entries s.dump ∧ f.vram = target ∧ 0 < f.size) →
        ∃ f, (sec, f) ∈ entries s.dump ∧ f.vram = target ∧ target + f.size = start)

/-- Every reported branch meets a table that favours its section, and the script ends within
its 199 iterations. -/
structure Condition (s : State) : Prop where
  favoured : ∀ it here, it < 200 → Reaches disasm replies s it here → (replies it).returncode ≠ 0 →
    ∀ fn target, reported (replies it).out = some (fn, target) → Favours here fn target
  ends : ¬ ∃ here, Reaches disasm replies s 200 here

/-- The host is the first function that the target lies inside, in the order of the table, with
the entry section left out. -/
theorem host_iff (dump : Dump) (target : Nat) (sec : Line) (f : Func) :
    host dump target = some (sec, f) ↔ FirstInside dump target sec f := by
  simp only [host, List.find?_eq_some_iff_append, FirstInside, Inside, Bool.and_eq_true,
    decide_eq_true_eq]
  constructor
  · rintro ⟨⟨⟨low, high⟩, outside⟩, before, after, split, earlier⟩
    refine ⟨outside, ⟨low, high⟩, before, after, split, ?_⟩
    rintro e member other ⟨lower, higher⟩
    have passed := earlier e member
    simp [lower, higher, other] at passed
  · rintro ⟨outside, ⟨low, high⟩, before, after, split, earlier⟩
    refine ⟨⟨⟨low, high⟩, outside⟩, before, after, split, ?_⟩
    intro e member
    by_cases other : e.1 = entrySection
    · simp [other]
    · have passed := earlier e member other
      simp only [not_and, not_lt] at passed
      by_cases lower : e.2.vram < target
      · simp [Nat.not_lt.mpr (passed lower)]
      · simp [lower]

/-- There is no host exactly when the target lies inside no function outside `entry`. -/
theorem host_none (dump : Dump) (target : Nat) :
    host dump target = none ↔ ∀ e ∈ entries dump, e.1 ≠ entrySection → ¬ Inside e.2 target := by
  simp only [host, List.find?_eq_none, Inside, Bool.and_eq_true, decide_eq_true_eq]
  constructor
  · intro none e member other inside
    exact none e member ⟨inside, other⟩
  · rintro none e member ⟨inside, other⟩
    exact none e member other inside

/-- The order of the candidates, by address and then by section. -/
theorem key_le (a b : Line × Func) (le : key a ≤ key b) :
    a.2.vram < b.2.vram ∨ a.2.vram = b.2.vram ∧ a.1 ≤ b.1 := by
  rcases Prod.Lex.le_iff.mp le with less | ⟨same, rest⟩
  · exact Or.inl less
  · refine Or.inr ⟨same, ?_⟩
    rcases Prod.Lex.le_iff.mp rest with less | ⟨same, _⟩
    · exact le_of_lt less
    · exact le_of_eq same

/-- The first candidate is the least: the candidates are the functions behind the target outside
the entry section, sorted by address, section and name. -/
theorem cands_first (dump : Dump) (target : Nat) (first : Nat ×ₗ (Line ×ₗ Line))
    (rest : List (Nat ×ₗ (Line ×ₗ Line))) (sorted : cands dump target = first :: rest) :
    ∃ e ∈ entries dump, e.1 ≠ entrySection ∧ target < e.2.vram ∧ key e = first ∧
      ∀ other ∈ entries dump, other.1 ≠ entrySection → target < other.2.vram →
      key e ≤ key other := by
  have pairwise : (cands dump target).Pairwise (fun a b => decide (a ≤ b) = true) :=
    List.pairwise_mergeSort (fun a b c le le' =>
      by simpa using le_trans (of_decide_eq_true le) (of_decide_eq_true le'))
      (fun a b => by simpa using le_total a b) _
  have members (k : Nat ×ₗ (Line ×ₗ Line)) : k ∈ first :: rest ↔
      ∃ e ∈ entries dump, (target < e.2.vram ∧ e.1 ≠ entrySection) ∧ key e = k := by
    rw [← sorted, cands, List.mem_mergeSort, List.mem_map]
    simp only [List.mem_filter, Bool.and_eq_true, decide_eq_true_eq, and_assoc]
  obtain ⟨e, member, ⟨above, outside⟩, rfl⟩ := (members first).mp List.mem_cons_self
  refine ⟨e, member, outside, above, rfl, ?_⟩
  intro other inDump outside' above'
  have among : key other ∈ key e :: rest := (members _).mpr ⟨other, inDump, ⟨above', outside'⟩, rfl⟩
  rcases List.mem_cons.mp among with same | later
  · exact le_of_eq same.symm
  · rw [sorted] at pairwise
    exact of_decide_eq_true (List.rel_of_pairwise_cons pairwise later)

/-- A target is placed at the first function it lies inside, or in a gap before the nearest
start. -/
theorem placed_iff (dump : Dump) (target : Nat) (sec : Line) (size : Nat) :
    placed dump target = some (sec, size) ↔
    (∃ f, FirstInside dump target sec f ∧ f.vram + f.size - target = size) ∨
      InGap dump target ∧ ∃ start, Nearest dump target sec start ∧ start - target = size := by
  cases found : host dump target with
  | some e =>
    obtain ⟨sec', f⟩ := e
    have first := (host_iff dump target sec' f).mp found
    simp only [placed, found, Option.some.injEq, Prod.mk.injEq]
    constructor
    · rintro ⟨rfl, same⟩
      exact Or.inl ⟨f, first, same⟩
    · rintro (⟨g, first', same⟩ | ⟨gap, _⟩)
      · obtain ⟨rfl, rfl⟩ :=
          Prod.mk.inj (Option.some.inj (found.symm.trans ((host_iff dump target sec g).mpr first')))
        exact ⟨rfl, same⟩
      · exact absurd ((host_none dump target).mpr gap.1) (by simp [found])
  | none =>
    have outside := (host_none dump target).mp found
    have noneInside (f : Func) : ¬ FirstInside dump target sec f := fun first => by
      simp [(host_iff dump target sec f).mpr first] at found
    have gapIff : InGap dump target ↔ below dump target = true := by
      simp only [InGap, below, List.any_eq_true, Bool.and_eq_true, decide_eq_true_eq]
      constructor
      · rintro ⟨_, e, member, other, low⟩
        exact ⟨e, member, low, other⟩
      · rintro ⟨e, member, low, other⟩
        exact ⟨outside, e, member, other, low⟩
    rw [placed, found, gapIff]
    simp only [noneInside, false_and, exists_false, false_or]
    cases sorted : cands dump target with
    | nil =>
      simp only [reduceCtorEq, false_iff, not_and, not_exists]
      rintro _ start ⟨other, above, ⟨f, member, rfl⟩, _⟩ _
      have among : key (sec, f) ∈ cands dump target := by
        rw [cands, List.mem_mergeSort]
        exact List.mem_map_of_mem (List.mem_filter.mpr ⟨member, by simp [above, other]⟩)
      simp [sorted] at among
    | cons first rest =>
      obtain ⟨e, member, other, above, rfl, least⟩ := cands_first dump target first rest sorted
      have nearest : Nearest dump target e.1 e.2.vram :=
        ⟨other, above, ⟨e.2, member, rfl⟩, fun e' member' other' above' =>
          key_le e e' (least e' member' other' above')⟩
      have only (start : Nat) (also : Nearest dump target sec start) : sec = e.1 ∧
          start = e.2.vram := by
        obtain ⟨other', above', ⟨f, member', rfl⟩, least'⟩ := also
        have one : e.2.vram < f.vram ∨ e.2.vram = f.vram ∧ e.1 ≤ sec :=
          nearest.2.2.2 (sec, f) member' other' above'
        have two : f.vram < e.2.vram ∨ f.vram = e.2.vram ∧ sec ≤ e.1 := least' e member other above
        rcases one with less | ⟨same, le⟩ <;> rcases two with less' | ⟨same', le'⟩
        · omega
        · omega
        · omega
        · exact ⟨le_antisymm le' le, same'⟩
      simp only [key, ofLex_toLex, Option.ite_none_right_eq_some, Option.some.injEq, Prod.mk.injEq]
      constructor
      · rintro ⟨low, rfl, same⟩
        exact ⟨low, e.2.vram, nearest, same⟩
      · rintro ⟨low, start, also, same⟩
        obtain ⟨rfl, rfl⟩ := only start also
        exact ⟨low, rfl, same⟩

/-- The table favours the function's section exactly when any entry injected for the target
is right. -/
theorem favours_iff (s : State) (fn : Line) (target : Nat) : Favours s fn target ↔
    ∀ sec size, placed s.dump target = some (sec, size) → Right s fn target sec size := by
  constructor
  · intro favours sec size isPlaced
    rcases (placed_iff s.dump target sec size).mp isPlaced with ⟨f, first, rfl⟩ |
      ⟨gap, start, nearest, rfl⟩
    · obtain ⟨own, fresh⟩ := favours.inside sec f first
      obtain ⟨_, ⟨low, high⟩, before, after, split, _⟩ := first
      have member : (sec, f) ∈ entries s.dump := by simp [split]
      exact ⟨own, Or.inl ⟨f, member, by omega, high, by omega⟩, fresh⟩
    · obtain ⟨own, fresh, reaching⟩ := favours.gap gap sec start nearest
      obtain ⟨other, above, ⟨g, member, rfl⟩, least⟩ := nearest
      have stop : target + (g.vram - target) = g.vram := by omega
      refine ⟨own, ?_, fresh⟩
      rw [stop]
      by_cases starting : ∃ f, (sec, f) ∈ entries s.dump ∧ f.vram = target ∧ 0 < f.size
      · obtain ⟨f, member', rfl, reaches⟩ := reaching starting
        exact Or.inl ⟨f, member', by omega, by omega, by omega⟩
      · refine Or.inr ⟨?_, ⟨g, member, rfl, above⟩, ?_⟩
        · intro f member' low
          by_contra high
          have starts : f.vram = target := by
            by_contra different
            exact gap.1 (sec, f) member' other
              ⟨Nat.lt_of_le_of_ne low different, Nat.lt_of_not_le high⟩
          exact starting ⟨f, member', starts, by omega⟩
        · rintro v ⟨f, member', rfl, above'⟩
          rcases least (sec, f) member' other above' with less | ⟨same, _⟩
          · exact Nat.le_of_lt less
          · exact Nat.le_of_eq same
  · intro right
    constructor
    · intro sec f first
      obtain ⟨own, _, fresh⟩ :=
        right sec _ ((placed_iff s.dump target sec _).mpr (Or.inl ⟨f, first, rfl⟩))
      exact ⟨own, fresh⟩
    · intro gap sec start nearest
      obtain ⟨own, stop, fresh⟩ :=
        right sec _ ((placed_iff s.dump target sec _).mpr (Or.inr ⟨gap, start, nearest, rfl⟩))
      obtain ⟨other, above, _, _⟩ := nearest
      refine ⟨own, fresh, ?_⟩
      rintro ⟨f, member, starts, positive⟩
      rcases stop with ⟨g, member', low, high, ends⟩ | ⟨none, _⟩
      · have starts' : g.vram = target := by
          by_contra different
          exact gap.1 (sec, g) member' other ⟨Nat.lt_of_le_of_ne low different, high⟩
        exact ⟨g, member', starts', by omega⟩
      · have high := none f member (by omega)
        omega

/-! ## Runs -/

/-- The line that an iteration appends for a reported branch is the entry of where the target is
placed. The subprocesses behind it append nothing. -/
theorem iteration_appends (reply : Reply) (s : State) (failed : reply.returncode ≠ 0) (fn : Line)
    (target : Nat) (isReported : reported reply.out = some (fn, target)) (line : Line) :
    (iteration disasm reply s).files.extra = s.extra ++ [line] ↔
      ∃ sec size, placed s.dump target = some (sec, size) ∧ line = entryLine sec target size := by
  have regenerated (there : State) : (regenerate disasm reply there).files.extra = there.extra := by
    rw [regenerate]
    split
    · rfl
    · split <;> rfl
  simp only [iteration, if_neg failed, isReported]
  cases isPlaced : placed s.dump target with
  | none => simp [Step.files]
  | some place =>
    obtain ⟨sec, size⟩ := place
    simp only [regenerated, List.append_cancel_left_eq, List.cons.injEq, and_true,
      Option.some.injEq, Prod.mk.injEq]
    constructor
    · rintro rfl
      exact ⟨sec, size, ⟨rfl, rfl⟩, rfl⟩
    · rintro ⟨_, _, ⟨rfl, rfl⟩, rfl⟩
      rfl

/-- An iteration that goes on met a failing run of N64Recomp. -/
theorem iteration_next (reply : Reply) (s there : State)
    (goesOn : iteration disasm reply s = .next there) :
    reply.returncode ≠ 0 := by
  intro zero
  simp [iteration, zero] at goesOn

/-- An iteration exits with zero only when N64Recomp succeeded, and then changes no file. -/
theorem iteration_exit (reply : Reply) (s there : State)
    (exits : iteration disasm reply s = .exit 0 there) :
    reply.returncode = 0 ∧ there = s := by
  by_cases zero : reply.returncode = 0
  · obtain rfl : s = there := by simpa [iteration, zero] using exits
    exact ⟨zero, rfl⟩
  · simp only [iteration, zero, if_false, regenerate] at exits
    repeat' split at exits
    all_goals cases exits

/-- From a reached state the rest of the loop is the whole script. -/
theorem reaches_main (s : State) (it : Nat) (here : State)
    (reaches : Reaches disasm replies s it here)
    (bound : it ≤ 200) : loop disasm replies (200 - it) it here = main disasm replies s := by
  induction reaches with
  | start => rfl
  | next it here there _ goesOn inductionHypothesis =>
    have left : 200 - it = (200 - (it + 1)) + 1 := by omega
    rw [← inductionHypothesis (by omega), left, loop, goesOn]

/-- The loop either exits in an iteration or runs out of them, with the files that it has reached.
By induction on the iterations that are left. -/
theorem loop_finish (s : State) (left it : Nat) (here : State)
    (reaches : Reaches disasm replies s it here) :
    (∃ there, iteration disasm (replies (loop disasm replies left it here).last) there =
        .exit (loop disasm replies left it here).code (loop disasm replies left it here).files) ∨
      Reaches disasm replies s (it + left) (loop disasm replies left it here).files := by
  induction left generalizing it here with
  | zero => exact Or.inr reaches
  | succ left inductionHypothesis =>
    rw [loop]
    cases step : iteration disasm (replies it) here with
    | exit code there => exact Or.inl ⟨here, step⟩
    | next there =>
      have later := inductionHypothesis (it + 1) there (.next it here there reaches step)
      rwa [Nat.add_right_comm, Nat.add_assoc] at later

/-- The script reports success truthfully exactly when it does not run out of iterations: an exit
with zero in an iteration is one behind a successful run. -/
theorem exits_iff (s : State) :
    ((main disasm replies s).code = 0 → (replies (main disasm replies s).last).returncode = 0) ↔
      ¬ ∃ here, Reaches disasm replies s 200 here := by
  constructor
  · rintro truthful ⟨here, reaches⟩
    have ended : main disasm replies s = ⟨0, 199, here⟩ :=
      (reaches_main disasm replies s 200 here reaches (by omega)).symm
    rw [ended] at truthful
    cases reaches with
    | next it before there _ goesOn =>
      exact iteration_next disasm (replies 199) before here goesOn (truthful rfl)
  · intro ends zero
    rcases loop_finish disasm replies s 199 1 s .start with ⟨there, exits⟩ | reaches
    · change iteration disasm (replies (main disasm replies s).last) there =
        .exit (main disasm replies s).code (main disasm replies s).files at exits
      rw [zero] at exits
      exact (iteration_exit disasm _ there _ exits).1
    · exact absurd ⟨_, reaches⟩ ends

/-- The script is truthful exactly when every reported branch meets a table that favours its
section and the script ends within its iterations. The first half is about each iteration that a
run reaches, whatever N64Recomp has replied before it; the line is the one that the iteration
appends. -/
theorem truthful_iff (s : State) : Truthful disasm replies s ↔ Condition disasm replies s := by
  constructor
  · intro truthful
    refine ⟨?_, (exits_iff disasm replies s).mp truthful.exits⟩
    intro it here bound reaches failed fn target isReported
    apply (favours_iff here fn target).mpr
    intro sec size isPlaced
    have appended := (iteration_appends disasm (replies it) here failed fn target isReported
      (entryLine sec target size)).mpr ⟨sec, size, isPlaced, rfl⟩
    obtain ⟨sec', size', line, right⟩ :=
      truthful.injections it here bound reaches failed fn target _ isReported appended
    obtain ⟨rfl, rfl⟩ := entryLine_same _ _ _ _ _ line
    exact right
  · intro condition
    refine ⟨?_, (exits_iff disasm replies s).mpr condition.ends⟩
    intro it here bound reaches failed fn target line isReported appended
    obtain ⟨sec, size, isPlaced, same⟩ :=
      (iteration_appends disasm (replies it) here failed fn target isReported line).mp appended
    have favours := condition.favoured it here bound reaches failed fn target isReported
    exact ⟨sec, size, same, (favours_iff here fn target).mp favours sec size isPlaced⟩

/-! ## The files -/

/-- The table is the one that `gen_symbols` makes of the injected entries. -/
def Current (s : State) : Prop := genSymbols disasm s.extra = some s.dump

/-- An iteration that goes on leaves the table current, and only appends entries. It has appended
one and regenerated the table, or has changed the configuration, which the table does not come
from. -/
theorem iteration_current (reply : Reply) (s there : State) (current : Current disasm s)
    (goesOn : iteration disasm reply s = .next there) :
    Current disasm there ∧ s.extra ⊆ there.extra := by
  have failed := iteration_next disasm reply s there goesOn
  simp only [iteration, failed, if_false] at goesOn
  split at goesOn
  · split at goesOn
    · cases goesOn
    · rw [regenerate] at goesOn
      split at goesOn
      · cases goesOn
      · rename_i dump made
        split at goesOn
        · obtain rfl := Step.next.inj goesOn
          exact ⟨made, List.subset_append_left _ _⟩
        · cases goesOn
  · split at goesOn
    · split at goesOn
      · obtain rfl := Step.next.inj goesOn
        exact ⟨current, List.Subset.refl _⟩
      · cases goesOn
    · cases goesOn

/-- When the script exits with zero the table is current, and no entry is lost. By induction on
the iterations that are left: each that goes on keeps both, and one that exits with zero changes
nothing. -/
theorem main_current (s : State) (current : Current disasm s)
    (zero : (main disasm replies s).code = 0) :
    Current disasm (main disasm replies s).files ∧
    s.extra ⊆ (main disasm replies s).files.extra := by
  have run (left it : Nat) (here : State) (current : Current disasm here)
      (zero : (loop disasm replies left it here).code = 0) :
      Current disasm (loop disasm replies left it here).files ∧
        here.extra ⊆ (loop disasm replies left it here).files.extra := by
    induction left generalizing it here with
    | zero => exact ⟨current, List.Subset.refl _⟩
    | succ left inductionHypothesis =>
      rw [loop] at zero ⊢
      cases step : iteration disasm (replies it) here with
      | exit code there =>
        rw [step] at zero
        obtain rfl : code = 0 := zero
        obtain ⟨_, rfl⟩ := iteration_exit disasm (replies it) here there step
        exact ⟨current, List.Subset.refl _⟩
      | next there =>
        rw [step] at zero
        obtain ⟨currentThere, grown⟩ :=
          iteration_current disasm (replies it) here there current step
        obtain ⟨currentEnd, grownEnd⟩ := inductionHypothesis (it + 1) there currentThere zero
        exact ⟨currentEnd, List.Subset.trans grown grownEnd⟩
  exact run 199 1 s current zero

/-- A branch of `ovl_e` into the middle of one of its functions. A function of `ovl_a`, which
occupies the same memory, holds the target too. -/
def sharedSlot : State where
  dump := [⟨str "ovl_a", 0x57310, 0x800D9960, 0x29F00, [⟨str "func_800E4500", 0x800E4500, 0x1C⟩]⟩,
    ⟨str "ovl_e", 0x144BE0, 0x800D9960, 0x65000,
      [⟨str "func_800E4400", 0x800E4400, 0x738⟩, ⟨str "func_800E4B38", 0x800E4B38, 0x40⟩]⟩]
  extra := []
  manualStubs := []

/-- N64Recomp's report of the branch. -/
def sharedSlotReply : Reply :=
  ⟨1, str "Unhandled branch in func_800E4B38 at 0x800E4B40 to 0x800E4514
", true⟩

/-- The entry for the branch is injected into `ovl_a`, whose function is the first in the table
that the target lies inside, although the report names a function of `ovl_e`. -/
theorem sharedSlot_misplaced :
    ¬ Truthful ⟨sharedSlot.dump, [], [], by decide⟩ (fun _ => sharedSlotReply) sharedSlot := by
  intro truthful
  have isReported : reported sharedSlotReply.out = some (str "func_800E4B38", 0x800E4514) := by
    decide +kernel
  have isPlaced : placed sharedSlot.dump 0x800E4514 = some (str "ovl_a", 8) := by decide +kernel
  have appended :=
    (iteration_appends ⟨sharedSlot.dump, [], [], by decide⟩ sharedSlotReply sharedSlot
    (by decide) _ _ isReported _).mpr ⟨_, _, isPlaced, rfl⟩
  obtain ⟨sec, size, line, right⟩ :=
    truthful.injections 1 sharedSlot (by omega) .start (by decide) _ _ _ isReported appended
  obtain ⟨rfl, rfl⟩ := entryLine_same _ _ _ _ _ line
  have own : sectionOf sharedSlot.dump (str "func_800E4B38") = some (str "ovl_e") := by
    decide +kernel
  have same := own.symm.trans right.own
  simp [str] at same

end NoMercyRecomp.RecompLoop
