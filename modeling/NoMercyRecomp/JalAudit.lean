import NoMercyRecomp.Coverage
import NoMercyRecomp.ExtraFuncs
import NoMercyRecomp.SymbolReaders

/-!
# The jal targets of the ROM

`nm_coverage` decodes every jal of the sections that have functions. A target that is no known
entry is reported with its call sites: inside a function, in a gap of a section, or outside all
sections.

The swap-slot overlays share their addresses. The audit asks the first section whose range
contains the target and no other, so it does not see what another section holds there. A
section without functions is neither decoded nor asked.
-/

namespace NoMercyRecomp.JalAudit

open TextScan SymbolTable Coverage

/-! ## The sections that are walked -/

/-- `spans_by_sec[s["name"]] = …`: a later section of the same name takes the place of the
earlier one. -/
def listSection : List Section → Section → List Section
  | [], sec => [sec]
  | other :: rest, sec =>
    if other.name = sec.name then sec :: rest else other :: listSection rest sec

/-- `spans_by_sec`: the sections that have functions. -/
def spansBySec (dump : Dump) : List Section :=
  (dump.filter (fun sec => !sec.funcs.isEmpty)).foldl listSection []

/-- `extra_entries`, from the lines of `syms/extra_funcs.txt`. -/
def extraEntries : List Line → Option (List Nat)
  | [] => some []
  | line :: rest =>
    match ExtraFuncs.words line with
    | [_, _, vram, _] => do
      let vram ← ExtraFuncs.intHex vram
      let later ← extraEntries rest
      some (vram :: later)
    | _ => extraEntries rest

/-- `all_entries` -/
def allEntries (dump : Dump) (extra : List Nat) : List Nat :=
  extra ++ dump.flatMap (fun sec => sec.funcs.map Func.vram)

/-! ## The jals and where they lead -/

/-- A jal of a section: its offset and its target. -/
structure Jal where
  offset : Nat
  target : Nat
deriving DecidableEq, Repr

/-- `tgt`: the target of the jal `w` at the address. -/
def jalTarget (vram w : Nat) : Nat := (vram &&& 0xF0000000) ||| ((w &&& 0x03FFFFFF) <<< 2)

/-- The jals of a section, in the order of the ROM. -/
def jals (rom : List UInt8) (sec : Section) : List Jal :=
  (words ((rom.drop sec.rom).take sec.size)).zipIdx.filterMap (fun (w, index) =>
    if w >>> 26 = 3 then some ⟨4 * index, jalTarget (sec.vram + 4 * index) w⟩ else none)

/-- The two answers for a target that a section's range contains. -/
inductive Place where
  | mid
  | gap
deriving DecidableEq, Repr

/-- `located`: the answer of the first section whose range contains the target. -/
def located (listed : List Section) (tgt : Nat) : Option (Place × Line) :=
  (listed.find? (fun sec => sec.covers tgt)).map (fun sec =>
    let off := (tgt : Int) - sec.vram
    (if (merged sec).any (fun interval =>
      decide (interval.1 ≤ off) && decide (off < interval.2)) then .mid else .gap, sec.name))

/-! ## The reports -/

/-- `report.setdefault(key, []).append(src)` -/
def append {κ : Type} [DecidableEq κ] : List (κ × List Line) → κ → Line → List (κ × List Line)
  | [], key, src => [(key, [src])]
  | (other, srcs) :: rest, key, src =>
    if other = key then (other, srcs ++ [src]) :: rest else (other, srcs) :: append rest key src

/-- `missed_gap`, `missed_out` and `mid`. -/
structure Reports where
  missedGap : List ((Nat × Line) × List Line)
  missedOut : List (Nat × List Line)
  mid : List ((Nat × Line) × List Line)
deriving DecidableEq, Repr

/-- `src`: the section and the offset of a jal. -/
def src (name : Line) (offset : Nat) : Line := name ++ (str "+0x" ++ hex offset)

/-- The report of one jal whose target is no entry. -/
def Reports.add (listed : List Section) (reports : Reports) (site : Line × Jal) : Reports :=
  match located listed site.2.target with
  | none =>
    { reports with missedOut := append reports.missedOut site.2.target (src site.1 site.2.offset) }
  | some (.gap, sec) =>
    { reports with
      missedGap := append reports.missedGap (site.2.target, sec) (src site.1 site.2.offset) }
  | some (.mid, sec) =>
    { reports with mid := append reports.mid (site.2.target, sec) (src site.1 site.2.offset) }

/-- The jals of the sections with the names of the sections. -/
def sites (dump : Dump) (rom : List UInt8) : List (Line × Jal) :=
  (spansBySec dump).flatMap (fun sec => (jals rom sec).map (fun jal => (sec.name, jal)))

/-- The jals whose targets are no entries. -/
def unresolved (dump : Dump) (extra : List Nat) (rom : List UInt8) : List (Line × Jal) :=
  (sites dump rom).filter (fun site => decide (site.2.target ∉ allEntries dump extra))

/-- The jal-target audit. -/
def audit (dump : Dump) (extra : List Nat) (rom : List UInt8) : Reports :=
  (unresolved dump extra rom).foldl (Reports.add (spansBySec dump)) ⟨[], [], []⟩

/-- The verdict is CLEAN. -/
def Reports.clean (reports : Reports) : Bool :=
  reports.missedGap.isEmpty && reports.missedOut.isEmpty && reports.mid.isEmpty

/-- A section as the audit reads it from the table. A missing key is an uncaught `KeyError`,
unless the section has no functions. -/
def readSection (record : SymbolReaders.Record) : Option Section := do
  some ⟨← record.name, ← record.rom, ← record.vram, ← record.size, record.funcs⟩

/-- The audit over the lines of the two files. -/
def nmCoverage (table extraFuncs : List Line) (rom : List UInt8) : Option Reports := do
  let records ← SymbolReaders.coverageRead table
  let dump ← (records.filter (fun record => !record.funcs.isEmpty)).mapM readSection
  let extra ← extraEntries extraFuncs
  some (audit dump extra rom)

/-! ## What the reports should say -/

/-- The call sites of a report with their keys. -/
def calls {κ : Type} (report : List (κ × List Line)) : List (κ × Line) :=
  report.flatMap (fun entry => entry.2.map (fun src => (entry.1, src)))

/-- The call sites of all three reports with their targets. -/
def Reports.counted (reports : Reports) : List (Nat × Line) :=
  (calls reports.mid).map (fun call => (call.1.1, call.2)) ++
    ((calls reports.missedGap).map (fun call => (call.1.1, call.2)) ++ calls reports.missedOut)

/-- Some function of the section holds the address. -/
def Holds (sec : Section) (vram : Nat) : Prop :=
  ∃ f ∈ sec.funcs, f.vram ≤ vram ∧ vram < f.vram + f.size

/-- The reports classify a jal of a section by all sections of the table. -/
structure Classified (dump : Dump) (extra : List Nat) (rom : List UInt8) (sec : Section)
    (jal : Jal) : Prop where
  mid : (∃ other ∈ dump, Holds other jal.target) →
    ∃ name, ((jal.target, name), src sec.name jal.offset) ∈ calls (audit dump extra rom).mid
  gap :
    ∀ name, ((jal.target, name), src sec.name jal.offset) ∈ calls (audit dump extra rom).missedGap →
    (∃ other ∈ dump, other.covers jal.target = true) ∧ ∀ other ∈ dump, ¬ Holds other jal.target
  outside : (jal.target, src sec.name jal.offset) ∈ calls (audit dump extra rom).missedOut →
    ∀ other ∈ dump, other.covers jal.target = false
  once : (audit dump extra rom).counted.count (jal.target, src sec.name jal.offset) = 1

/-- The jal is walked, and the first walked section whose range contains its target knows as
much of it as all sections together. -/
structure Answered (dump : Dump) (rom : List UInt8) (sec : Section) (jal : Jal) : Prop where
  walked : ∃ other ∈ spansBySec dump, other.name = sec.name ∧ jal ∈ jals rom other
  held : (∃ other ∈ dump, Holds other jal.target) →
    ∃ first, (spansBySec dump).find? (fun other => other.covers jal.target) = some first ∧
    Holds first jal.target
  covered : (∃ other ∈ dump, other.covers jal.target = true) →
    ∃ other ∈ spansBySec dump, other.covers jal.target = true

/-! ## The walked sections -/

/-- A listed section is the new one or was listed before. -/
theorem mem_listSection (listed : List Section) (sec other : Section)
    (member : other ∈ listSection listed sec) :
    other = sec ∨ other ∈ listed := by
  induction listed with
  | nil => exact Or.inl (List.mem_singleton.mp member)
  | cons head rest inductionHypothesis =>
    rw [listSection] at member
    split at member
    · exact (List.mem_cons.mp member).imp id (fun old => List.mem_cons_of_mem _ old)
    · rcases List.mem_cons.mp member with rfl | inRest
      · exact Or.inr List.mem_cons_self
      · exact (inductionHypothesis inRest).imp id (fun old => List.mem_cons_of_mem _ old)

/-- Names of listed sections stay apart: a section takes the place of one of its name, and is
otherwise listed behind the others. -/
theorem listSection_names (listed : List Section) (sec : Section)
    (distinct : (listed.map Section.name).Nodup) :
    ((listSection listed sec).map Section.name).Nodup := by
  induction listed with
  | nil => simp [listSection]
  | cons head rest inductionHypothesis =>
    obtain ⟨fresh, distinctRest⟩ := List.nodup_cons.mp distinct
    rw [listSection]
    split
    · rename_i same
      exact List.nodup_cons.mpr ⟨same ▸ fresh, distinctRest⟩
    · rename_i differs
      refine List.nodup_cons.mpr ⟨?_, inductionHypothesis distinctRest⟩
      intro again
      obtain ⟨other, member, same⟩ := List.mem_map.mp again
      rcases mem_listSection rest sec other member with rfl | inRest
      · exact differs same.symm
      · exact fresh (List.mem_map.mpr ⟨other, inRest, same⟩)

/-- The walked sections are sections of the table, one to a name. By induction on the sections,
each of which is listed in turn. -/
theorem spansBySec_listed (dump : Dump) :
    (∀ sec ∈ spansBySec dump, sec ∈ dump) ∧ ((spansBySec dump).map Section.name).Nodup := by
  have fold (secs listed : List Section)
    (known : ∀ sec ∈ secs, sec ∈ dump) (old : ∀ sec ∈ listed, sec ∈ dump)
      (distinct : (listed.map Section.name).Nodup) :
      (∀ sec ∈ secs.foldl listSection listed, sec ∈ dump) ∧
      ((secs.foldl listSection listed).map Section.name).Nodup := by
    induction secs generalizing listed with
    | nil => exact ⟨old, distinct⟩
    | cons sec secs inductionHypothesis =>
      obtain ⟨here, later⟩ := List.forall_mem_cons.mp known
      refine inductionHypothesis (listSection listed sec) later ?_
        (listSection_names listed sec distinct)
      intro other member
      rcases mem_listSection listed sec other member with rfl | before
      · exact here
      · exact old other before
  exact fold _ [] (fun sec member => (List.mem_filter.mp member).1) (by simp) List.nodup_nil

/-! ## What the reports count -/

/-- A call that is appended to a report is one more, under its key: it goes to the end of the
key's calls, or opens a new key. -/
theorem calls_append {κ : Type} [DecidableEq κ] (report : List (κ × List Line)) (key : κ)
    (src : Line) :
    (calls (append report key src)).Perm ((key, src) :: calls report) := by
  induction report with
  | nil => exact List.Perm.refl _
  | cons entry rest inductionHypothesis =>
    obtain ⟨other, srcs⟩ := entry
    rw [append]
    split
    · rename_i same
      subst same
      simp only [calls, List.flatMap_cons, List.map_append, List.map_cons, List.map_nil,
        List.append_assoc]
      exact List.perm_middle
    · simp only [calls, List.flatMap_cons] at inductionHypothesis ⊢
      exact (inductionHypothesis.append_left _).trans List.perm_middle

/-- The answer for a jal with its target and its call site. -/
def answer (listed : List Section) (site : Line × Jal) : Option (Place × Line) × Nat × Line :=
  (located listed site.2.target, site.2.target, src site.1 site.2.offset)

/-- The call sites of the reports with the answers that the reports stand for. -/
def Reports.answers (reports : Reports) : List (Option (Place × Line) × Nat × Line) :=
  (calls reports.mid).map (fun call => (some (.mid, call.1.2), call.1.1, call.2)) ++
    ((calls reports.missedGap).map (fun call => (some (.gap, call.1.2), call.1.1, call.2)) ++
      (calls reports.missedOut).map (fun call => (none, call.1, call.2)))

/-- What is counted are the calls of all answers. -/
theorem Reports.counted_answers (reports : Reports) :
    reports.counted = reports.answers.map Prod.snd := by
  simp [counted, answers, Function.comp_def]

/-- The report of targets inside functions holds the answers of that place. -/
theorem Reports.mem_mid (reports : Reports) (target : Nat) (name src : Line) :
    ((target, name), src) ∈ calls reports.mid ↔
    (some (Place.mid, name), target, src) ∈ reports.answers := by
  simp [answers]

/-- The report of targets in gaps holds the answers of that place. -/
theorem Reports.mem_missedGap (reports : Reports) (target : Nat) (name src : Line) :
    ((target, name), src) ∈ calls reports.missedGap ↔
    (some (Place.gap, name), target, src) ∈ reports.answers := by
  simp [answers]

/-- The report of targets in no section holds the answers without a place. -/
theorem Reports.mem_missedOut (reports : Reports) (target : Nat) (src : Line) :
    (target, src) ∈ calls reports.missedOut ↔ (none, target, src) ∈ reports.answers := by
  simp [answers]

/-- A jal adds one call site under its answer, in one of the three reports; the reports group by
target, so that answers are only known up to their order. -/
theorem add_answers (listed : List Section) (reports : Reports) (site : Line × Jal) :
    (reports.add listed site).answers.Perm (answer listed site :: reports.answers) := by
  rw [answer, Reports.add]
  split
  · rename_i outside
    rw [outside]
    have grows := (calls_append reports.missedOut site.2.target (src site.1 site.2.offset)).map
      (fun call => ((none : Option (Place × Line)), call.1, call.2))
    exact ((grows.append_left _).trans List.perm_middle).append_left _ |>.trans List.perm_middle
  · rename_i sec inGap
    rw [inGap]
    have grows :=
      (calls_append reports.missedGap (site.2.target, sec) (src site.1 site.2.offset)).map
      (fun call => (some (Place.gap, call.1.2), call.1.1, call.2))
    exact ((grows.append_right _).append_left _).trans List.perm_middle
  · rename_i sec inFunction
    rw [inFunction]
    have grows := (calls_append reports.mid (site.2.target, sec) (src site.1 site.2.offset)).map
      (fun call => (some (Place.mid, call.1.2), call.1.1, call.2))
    exact grows.append_right _

/-- The audit counts every jal whose target is no entry once, under its answer. By induction on
these jals, from the empty reports. -/
theorem audit_answers (dump : Dump) (extra : List Nat) (rom : List UInt8) :
    (audit dump extra rom).answers.Perm
      ((unresolved dump extra rom).map (answer (spansBySec dump))) := by
  have fold (remaining : List (Line × Jal)) (reports : Reports) :
      (remaining.foldl (Reports.add (spansBySec dump)) reports).answers.Perm
        (remaining.map (answer (spansBySec dump)) ++ reports.answers) := by
    induction remaining generalizing reports with
    | nil => exact List.Perm.refl _
    | cons site remaining inductionHypothesis =>
      refine (inductionHypothesis (reports.add (spansBySec dump) site)).trans ?_
      exact ((add_answers (spansBySec dump) reports site).append_left _).trans List.perm_middle
  have nothing : (⟨[], [], []⟩ : Reports).answers = [] := rfl
  have all := fold (unresolved dump extra rom) ⟨[], [], []⟩
  rw [nothing, List.append_nil] at all
  exact all

/-! ## Call sites -/

/-- A call site names its section and its offset: the offset is what hexadecimal digits there are
at its end, and an `x` stands before them. -/
theorem src_injective (name other : Line) (offset place : Nat)
    (same : src name offset = src other place) :
    name = other ∧ offset = place := by
  have splits (name : Line) (offset : Nat) : (src name offset).rdropWhile isUpperHex = name ++
      str "+0x" := by
    have starts : src name offset = (name ++ ['+', '0']) ++ 'x' :: hex offset := by simp [src, str]
    have ends : name ++ str "+0x" = (name ++ ['+', '0']) ++ ['x'] := by simp [str]
    rw [starts, ends]
    exact rdropWhile_run isUpperHex _ _ 'x' (hex_upper offset) (by decide)
  have fronts : name ++ str "+0x" = other ++ str "+0x" := by rw [← splits name offset, same, splits]
  obtain rfl := List.append_cancel_right fronts
  refine ⟨rfl, ?_⟩
  rw [src, src, List.append_cancel_left_eq, List.append_cancel_left_eq] at same
  rw [← value_number 16 offset (by decide) (by decide),
    ← value_number 16 place (by decide) (by decide)]
  exact congrArg (value 16) same

/-- The jals of a section stand at offsets of their own, four times the indices of their words. -/
theorem jals_offsets (rom : List UInt8) (sec : Section) :
    (jals rom sec).Pairwise (fun jal other => jal.offset ≠ other.offset) := by
  have indices (ws : List Nat) : ws.zipIdx.Pairwise (fun earlier later => earlier.2 < later.2) := by
    rw [← List.pairwise_map, List.zipIdx_map_snd]
    exact List.pairwise_lt_range'
  refine (indices _).filterMap _ ?_
  rintro ⟨w, index⟩ ⟨v, later⟩ order jal found other again
  dsimp only at found again order
  split at found
  · split at again
    · cases found
      cases again
      dsimp only
      omega
    · cases again
  · cases found

/-- No two jals that are counted have one call site: within a section their offsets differ, and
sections that are walked have names of their own. -/
theorem unresolved_distinct (dump : Dump) (extra : List Nat) (rom : List UInt8) :
    ((unresolved dump extra rom).map
      (fun site => (site.2.target, src site.1 site.2.offset))).Nodup := by
  have apart : (sites dump rom).Pairwise
      (fun site other => site.1 = other.1 → site.2.offset ≠ other.2.offset) := by
    rw [sites, List.pairwise_flatMap]
    constructor
    · intro sec _
      rw [List.pairwise_map]
      refine (jals_offsets rom sec).imp ?_
      intro jal other differ _
      exact differ
    · have names := (spansBySec_listed dump).2
      rw [List.Nodup, List.pairwise_map] at names
      refine names.imp ?_
      intro sec other differ site member place among same
      obtain ⟨jal, _, rfl⟩ := List.mem_map.mp member
      obtain ⟨later, _, rfl⟩ := List.mem_map.mp among
      exact absurd same differ
  rw [List.Nodup, List.pairwise_map]
  refine (apart.filter _).imp ?_
  intro site other differ same
  obtain ⟨sameName, sameOffset⟩ := src_injective _ _ _ _ (congrArg Prod.snd same)
  exact differ sameName sameOffset

/-! ## Which jals are classified -/

/-- A section holds an address when a function covers its offset. -/
theorem holds_covered (sec : Section) (vram : Nat) :
    Holds sec vram ↔ Covered sec ((vram : Int) - sec.vram) := by
  refine exists_congr (fun f => and_congr_right (fun _ => ?_))
  dsimp only [span]
  omega

/-- The answer for a target is given by the first walked section whose range contains it: it is
inside a function, or in a gap, by the merged intervals of that section. -/
theorem located_some (listed : List Section) (target : Nat) (place : Place) (name : Line) :
    located listed target = some (place, name) ↔
      ∃ first, listed.find? (fun sec => sec.covers target) = some first ∧ first.name = name ∧
        (place = .mid ↔ Holds first target) := by
  rw [located, Option.map_eq_some_iff]
  refine exists_congr (fun first => and_congr_right (fun _ => ?_))
  have held : ((merged first).any (fun interval =>
      decide (interval.1 ≤ (target : Int) - first.vram) &&
      decide ((target : Int) - first.vram < interval.2))) = true ↔ Holds first target := by
    rw [holds_covered, ← merged_covers]
    simp
  by_cases inFunction : Holds first target
  · simp only [held.mpr inFunction, if_true, Prod.mk.injEq, inFunction, iff_true]
    exact ⟨fun same => ⟨same.2, same.1.symm⟩, fun same => ⟨same.2.symm, same.1⟩⟩
  · simp only [mt held.mp inFunction, Prod.mk.injEq, inFunction, iff_false]
    cases place with
    | mid => simp
    | gap => simp

/-- An address has no place exactly when no section covers it. -/
theorem located_none (listed : List Section) (target : Nat) :
    located listed target = none ↔ ∀ sec ∈ listed, sec.covers target = false := by
  rw [located, Option.map_eq_none_iff, List.find?_eq_none]
  simp

section Jals

variable (dump : Dump) (extra : List Nat) (rom : List UInt8)

/-- A call site stands under an answer exactly when a counted jal has both. -/
theorem mem_answers (place : Option (Place × Line)) (target : Nat) (name : Line) (offset : Nat) :
    (place, target, src name offset) ∈ (audit dump extra rom).answers ↔
      place = located (spansBySec dump) target ∧
      (name, ⟨offset, target⟩) ∈ unresolved dump extra rom := by
  rw [(audit_answers dump extra rom).mem_iff, List.mem_map]
  constructor
  · rintro ⟨⟨sec, jal⟩, member, same⟩
    simp only [answer, Prod.mk.injEq] at same
    obtain ⟨rfl, rfl, sameSite⟩ := same
    obtain ⟨rfl, rfl⟩ := src_injective _ _ _ _ sameSite
    exact ⟨rfl, member⟩
  · rintro ⟨rfl, member⟩
    exact ⟨_, member, rfl⟩

/-- The walked sections have the jal under the name of the section. -/
theorem mem_unresolved (name : Line) (jal : Jal) :
    (name, jal) ∈ unresolved dump extra rom ↔
      (∃ sec ∈ spansBySec dump, sec.name = name ∧ jal ∈ jals rom sec) ∧
      jal.target ∉ allEntries dump extra := by
  simp only [unresolved, sites, List.mem_filter, List.mem_flatMap, List.mem_map, Prod.mk.injEq,
    decide_eq_true_eq]
  refine and_congr_left (fun _ => exists_congr (fun sec => and_congr_right (fun _ => ?_)))
  constructor
  · rintro ⟨other, member, same, rfl⟩
    exact ⟨same, member⟩
  · rintro ⟨same, member⟩
    exact ⟨jal, member, same, rfl⟩

/-- A jal is counted once when it is walked, otherwise not at all, since call sites are distinct
and spelled injectively. -/
theorem counted_once (name : Line) (jal : Jal) :
    (audit dump extra rom).counted.count (jal.target, src name jal.offset) = 1 ↔
    (name, jal) ∈ unresolved dump extra rom := by
  have counts : (audit dump extra rom).counted.Perm
      ((unresolved dump extra rom).map
          (fun site => (site.2.target, src site.1 site.2.offset))) := by
    rw [Reports.counted_answers]
    simpa [answer, Function.comp_def] using (audit_answers dump extra rom).map Prod.snd
  have once := (counts.nodup_iff.mpr (unresolved_distinct dump extra rom)).count (a :=
    (jal.target, src name jal.offset))
  have member : (jal.target, src name jal.offset) ∈ (audit dump extra rom).counted ↔
      (name, jal) ∈ unresolved dump extra rom := by
    rw [Reports.counted_answers, List.mem_map]
    constructor
    · rintro ⟨⟨place, target, site⟩, among, same⟩
      obtain ⟨rfl, rfl⟩ := Prod.mk.inj same
      exact ((mem_answers dump extra rom place jal.target name jal.offset).mp among).2
    · intro walked
      exact ⟨_, (mem_answers dump extra rom _ jal.target name jal.offset).mpr ⟨rfl, walked⟩, rfl⟩
  rw [once, ← member]
  by_cases counted : (jal.target, src name jal.offset) ∈ (audit dump extra rom).counted
  · simp [counted]
  · simp [counted]

/-- The reports classify a jal by all sections exactly when the first walked section whose
range contains its target answers for all. -/
theorem classified_answered (sec : Section) (jal : Jal)
    (unknown : jal.target ∉ allEntries dump extra) :
    Classified dump extra rom sec jal ↔ Answered dump rom sec jal := by
  constructor
  · intro classified
    have counted := (counted_once dump extra rom sec.name jal).mp classified.once
    refine ⟨((mem_unresolved dump extra rom sec.name jal).mp counted).1, ?_, ?_⟩
    · intro held
      obtain ⟨name, reported⟩ := classified.mid held
      rw [Reports.mem_mid, mem_answers] at reported
      obtain ⟨first, found, _, answers⟩ := (located_some _ _ _ _).mp reported.1.symm
      exact ⟨first, found, answers.mp rfl⟩
    · rintro ⟨other, inDump, covers⟩
      by_contra uncovered
      have outside : located (spansBySec dump) jal.target = none := by
        rw [located_none]
        intro walked member
        by_contra inRange
        exact uncovered ⟨walked, member, by simpa using inRange⟩
      have reported :
          (jal.target, src sec.name jal.offset) ∈ calls (audit dump extra rom).missedOut := by
        rw [Reports.mem_missedOut, mem_answers]
        exact ⟨outside.symm, counted⟩
      rw [classified.outside reported other inDump] at covers
      cases covers
  · intro answered
    have counted := (mem_unresolved dump extra rom sec.name jal).mpr ⟨answered.walked, unknown⟩
    refine ⟨?_, ?_, ?_, (counted_once dump extra rom sec.name jal).mpr counted⟩
    · intro held
      obtain ⟨first, found, inFunction⟩ := answered.held held
      refine ⟨first.name, ?_⟩
      rw [Reports.mem_mid, mem_answers]
      exact ⟨((located_some _ _ _ _).mpr ⟨first, found, rfl, by simp [inFunction]⟩).symm, counted⟩
    · intro name reported
      rw [Reports.mem_missedGap, mem_answers] at reported
      obtain ⟨first, found, _, answers⟩ := (located_some _ _ _ _).mp reported.1.symm
      have free : ¬ Holds first jal.target := fun inFunction => nomatch answers.mpr inFunction
      have inRange : first.covers jal.target = true := by simpa using List.find?_some found
      refine ⟨⟨first, (spansBySec_listed dump).1 first (List.mem_of_find?_eq_some found), inRange⟩,
        ?_⟩
      intro other inDump inFunction
      obtain ⟨again, same, held⟩ := answered.held ⟨other, inDump, inFunction⟩
      obtain rfl := Option.some.inj (same.symm.trans found)
      exact free held
    · intro reported other inDump
      rw [Reports.mem_missedOut, mem_answers] at reported
      have uncovered := (located_none _ _).mp reported.1.symm
      by_contra covers
      obtain ⟨walked, member, inRange⟩ := answered.covered ⟨other, inDump, by simpa using covers⟩
      rw [uncovered walked member] at inRange
      cases inRange

/-- The audit classifies every jal of the table's sections by all sections exactly when the first
walked section whose range contains the target answers for all, jal by jal. Each jal without an
entry is reported once, in the place that this section gives, so the audit is right when that
place is. -/
theorem audit_iff :
    (∀ sec ∈ dump, ∀ jal ∈ jals rom sec, jal.target ∉ allEntries dump extra →
      Classified dump extra rom sec jal) ↔
      ∀ sec ∈ dump, ∀ jal ∈ jals rom sec, jal.target ∉ allEntries dump extra →
      Answered dump rom sec jal := by
  refine forall₂_congr (fun sec _ => forall₂_congr (fun jal _ => ?_))
  exact forall_congr' (fun unknown => classified_answered dump extra rom sec jal unknown)

end Jals

/-- Two overlays of one slot. The second has a function where the first has none. -/
def slotDump : Dump :=
  [⟨str "main", 0, 0x80000400, 8, [⟨str "func_80000400", 0x80000400, 8⟩]⟩,
    ⟨str "ovl_a", 8, 0x80001000, 0x10, [⟨str "func_80001000", 0x80001000, 8⟩]⟩,
    ⟨str "ovl_b", 0x18, 0x80001000, 0x10, [⟨str "func_80001008", 0x80001008, 8⟩]⟩]

/-- A jal to 0x8000100C. -/
def slotRom : List UInt8 := [0x0C, 0x00, 0x04, 0x03, 0, 0, 0, 0]

/-- The target inside a function of the second overlay is reported as a gap of the first, whose
range contains it as well. -/
theorem slotDump_misclassified :
    ∃ sec ∈ slotDump, ∃ jal ∈ jals slotRom sec, jal.target ∉ allEntries slotDump [] ∧
      ((jal.target, str "ovl_a"), src sec.name jal.offset) ∈
        calls (audit slotDump [] slotRom).missedGap ∧
      (∃ other ∈ slotDump, Holds other jal.target) ∧ ¬ Classified slotDump [] slotRom sec jal := by
  have unknown : 0x8000100C ∉ allEntries slotDump [] := by decide
  have first : (spansBySec slotDump).find? (fun sec => sec.covers 0x8000100C) =
      some ⟨str "ovl_a", 8, 0x80001000, 0x10, [⟨str "func_80001000", 0x80001000, 8⟩]⟩ := by
        decide +kernel
  have free : ¬ Holds ⟨str "ovl_a", 8, 0x80001000, 0x10,
      [⟨str "func_80001000", 0x80001000, 8⟩]⟩ 0x8000100C := by
    simp [Holds]
  have held : ∃ other ∈ slotDump, Holds other 0x8000100C := by simp [slotDump, Holds]
  have here : (⟨0, 0x8000100C⟩ : Jal) ∈ jals slotRom
      ⟨str "main", 0, 0x80000400, 8, [⟨str "func_80000400", 0x80000400, 8⟩]⟩ := by
    decide +kernel
  refine ⟨_, List.mem_cons_self, ⟨0, 0x8000100C⟩, here, unknown, ?_, held, ?_⟩
  · rw [Reports.mem_missedGap, mem_answers, mem_unresolved]
    refine ⟨((located_some _ _ _ _).mpr ⟨_, first, rfl, by simp [free]⟩).symm, ⟨_, ?_, rfl, here⟩,
      unknown⟩
    decide +kernel
  · rw [classified_answered slotDump [] slotRom _ _ unknown]
    intro answered
    obtain ⟨other, found, inFunction⟩ := answered.held held
    obtain rfl := Option.some.inj (first.symm.trans found)
    exact free inFunction

/-! ## Tables whose sections are apart -/

/-- With distinct names and functions everywhere every section is walked: each is listed at the
name's first function, and takes no other's place. -/
theorem spansBySec_all (dump : Dump) (distinct : (dump.map Section.name).Nodup)
    (functions : ∀ sec ∈ dump, sec.funcs ≠ []) :
    spansBySec dump = dump := by
  have lists (listed : List Section) (sec : Section) (fresh : sec.name ∉ listed.map Section.name) :
      listSection listed sec = listed ++ [sec] := by
    induction listed with
    | nil => rfl
    | cons other rest inductionHypothesis =>
      rw [List.map_cons, List.mem_cons, not_or] at fresh
      rw [listSection, if_neg (Ne.symm fresh.1), inductionHypothesis fresh.2, List.cons_append]
  have fold (listed remaining : List Section)
    (distinct : ((listed ++ remaining).map Section.name).Nodup) :
      remaining.foldl listSection listed = listed ++ remaining := by
    induction remaining generalizing listed with
    | nil => simp
    | cons sec remaining inductionHypothesis =>
      have fresh : sec.name ∉ listed.map Section.name := by
        rw [List.map_append, List.nodup_append] at distinct
        exact fun again => distinct.2.2 sec.name again sec.name (by simp) rfl
      rw [List.foldl_cons, lists listed sec fresh,
        inductionHypothesis (listed ++ [sec]) (by simpa using distinct)]
      simp
  have walked : dump.filter (fun sec => !sec.funcs.isEmpty) = dump := by
    rw [List.filter_eq_self]
    intro sec member
    simpa using functions sec member
  rw [spansBySec, walked]
  simpa using fold [] dump (by simpa using distinct)

/-- A table whose sections share no address, have distinct names and hold functions that lie
inside them is classified rightly. -/
theorem classified_apart (dump : Dump) (extra : List Nat) (rom : List UInt8)
    (distinct : (dump.map Section.name).Nodup)
    (functions : ∀ sec ∈ dump, sec.funcs ≠ []) (inside : ∀ sec ∈ dump, Inside sec)
    (apart : ∀ sec ∈ dump, ∀ other ∈ dump, ∀ vram, sec.covers vram = true →
      other.covers vram = true → sec = other)
    (sec : Section) (member : sec ∈ dump) (jal : Jal) (here : jal ∈ jals rom sec)
    (unknown : jal.target ∉ allEntries dump extra) : Classified dump extra rom sec jal := by
  have all := spansBySec_all dump distinct functions
  rw [classified_answered dump extra rom sec jal unknown]
  refine ⟨⟨sec, all.symm ▸ member, rfl, here⟩, ?_, ?_⟩
  · rintro ⟨other, inDump, f, inFuncs, first, last⟩
    have bounds := inside other inDump f inFuncs
    have inRange : other.covers jal.target = true := by
      simp only [Section.covers, Bool.and_eq_true, decide_eq_true_eq]
      omega
    have found : (dump.find? (fun other => other.covers jal.target)).isSome := by
      rw [List.find?_isSome]
      exact ⟨other, inDump, inRange⟩
    obtain ⟨asked, found⟩ := Option.isSome_iff_exists.mp found
    have covers : asked.covers jal.target = true := by simpa using List.find?_some found
    obtain rfl :=
      apart asked (List.mem_of_find?_eq_some found) other inDump jal.target covers inRange
    exact ⟨asked, all.symm ▸ found, f, inFuncs, first, last⟩
  · rw [all]
    exact id

/-! ## The audit of the files -/

/-- A section is read back from what the reader of the table keeps of it. -/
theorem readSection_record (sec : Section) : readSection (SymbolReaders.record sec) = some sec :=
  rfl

/-- Sections without functions do not matter to the audit: they are never listed, and have no
entries. -/
theorem audit_filter (dump : Dump) (extra : List Nat) (rom : List UInt8) :
    audit (dump.filter (fun sec => !sec.funcs.isEmpty)) extra rom = audit dump extra rom := by
  have walked : spansBySec (dump.filter (fun sec => !sec.funcs.isEmpty)) = spansBySec dump := by
    rw [spansBySec, spansBySec, List.filter_filter]
    simp only [Bool.and_self]
  have entries :
      allEntries (dump.filter (fun sec => !sec.funcs.isEmpty)) extra = allEntries dump extra := by
    have vrams (read : Dump) :
      (read.filter (fun sec => !sec.funcs.isEmpty)).flatMap (fun sec => sec.funcs.map Func.vram) =
        read.flatMap (fun sec => sec.funcs.map Func.vram) := by
      induction read with
      | nil => rfl
      | cons sec read inductionHypothesis =>
        rw [List.filter_cons, List.flatMap_cons, ← inductionHypothesis]
        split
        · rw [List.flatMap_cons]
        · rename_i empty
          have none : sec.funcs = [] := by simpa using empty
          rw [none, List.map_nil, List.nil_append]
    rw [allEntries, allEntries, vrams]
  simp only [audit, unresolved, sites, walked, entries]

/-- On a written table the audit reads the sections of the table, as the key/value machine
recovers each of them; sections without functions are dropped. -/
theorem nmCoverage_written (dump : Dump) (words : SymbolReaders.WordNames dump)
    (extraFuncs : List Line) (rom : List UInt8) :
    nmCoverage (SymbolReaders.tomlLines dump) extraFuncs rom =
      (extraEntries extraFuncs).map (fun extra => audit dump extra rom) := by
  have sections (read : Dump) : (read.map SymbolReaders.record).mapM readSection = some read := by
    induction read with
    | nil => rfl
    | cons sec read inductionHypothesis =>
      rw [List.map_cons, List.mapM_cons, inductionHypothesis, readSection_record]
      rfl
  have functions : (dump.map SymbolReaders.record).filter (fun record => !record.funcs.isEmpty) =
      (dump.filter (fun sec => !sec.funcs.isEmpty)).map SymbolReaders.record := by
    rw [List.filter_map]
    rfl
  rw [nmCoverage, SymbolReaders.coverageRead_written dump words, Option.bind_eq_bind,
    Option.bind_some, functions, sections]
  simp only [← audit_filter dump]
  exact Option.map_eq_bind.symm

end NoMercyRecomp.JalAudit
