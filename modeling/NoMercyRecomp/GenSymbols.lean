import NoMercyRecomp.SymbolTable
import Mathlib.Data.List.Sort

/-!
# Writing the symbol table

`gen_symbols.main` merges the functions that splat found in each section with the
injected entries of `syms/extra_funcs.txt`, sorts them by address, leaves out
suppressed names, applies the `RENAME` map and suffixes `_<section>` to a name
that an earlier entry holds at another place.

The suffixed name is not looked up again. Names nevertheless determine their
place when no entry name and no other section name ends in a section's suffix;
without that condition two suffixed names can meet.
-/

namespace NoMercyRecomp.GenSymbols

open TextScan SymbolTable

/-- What `main` reads: the parsed sections, `EXTRA_FUNCS`, `SKIP` and `RENAME`. -/
structure Inputs where
  sections : List Section
  extra : List (Line × Func)
  skip : List Line
  rename : List (Line × Line)

variable (inputs : Inputs)

/-- `RENAME.get(fn, fn)`. -/
def renamed (fn : Line) : Line := (inputs.rename.lookup fn).getD fn

/-- The functions of a section that are written, in ascending vram order. The
sort is stable. -/
def listed (sec : Section) : List Func :=
  ((sec.funcs ++ (inputs.extra.filter
    (fun entry => entry.1 == sec.name)).map Prod.snd).insertionSort
    (fun a b => a.vram ≤ b.vram)).filter (fun f => !inputs.skip.contains f.name)

/-- `seen`: the place of every name written so far, the latest first. -/
abbrev Seen := List (Line × Line × Nat)

/-- `f"{fn}_{name}"`. -/
def suffixed (fn sec : Line) : Line := fn ++ '_' :: sec

/-- The name under which one function is written. -/
def emittedName (seen : Seen) (sec : Line) (f : Func) : Line :=
  let fn := renamed inputs f.name
  match seen.lookup fn with
  | some place => if place = (sec, f.vram) then fn else suffixed fn sec
  | none => fn

/-- The functions of one section, and the names seen after it. -/
def emitFuncs (sec : Line) : Seen → List Func → List Func × Seen
  | seen, [] => ([], seen)
  | seen, f :: rest =>
    let name := emittedName inputs seen sec f
    let after := emitFuncs sec ((name, sec, f.vram) :: seen) rest
    ({ f with name := name } :: after.1, after.2)

/-- The sections in order; `seen` is carried from each to the next. -/
def emitSections : Seen → List Section → Dump
  | _, [] => []
  | seen, sec :: rest =>
    let emitted := emitFuncs inputs sec.name seen (listed inputs sec)
    { sec with funcs := emitted.1 } :: emitSections emitted.2 rest

/-- The table that `main` writes. -/
def main : Dump := emitSections inputs [] inputs.sections

/-! ## Names and places -/

/-- The functions that are written, before naming, each with its section. -/
def places : List (Line × Func) :=
  inputs.sections.flatMap (fun sec => (listed inputs sec).map (fun f => (sec.name, f)))

/-- The condition on names: inside one section a renamed name has one address, no
renamed name ends in a section's suffix, and no section name ends in another's. -/
structure Unambiguous : Prop where
  oneAddress : ∀ a ∈ places inputs, ∀ b ∈ places inputs, a.1 = b.1 →
    renamed inputs a.2.name = renamed inputs b.2.name → a.2.vram = b.2.vram
  plainNames : ∀ a ∈ places inputs, ∀ sec ∈ inputs.sections,
    ¬ ('_' :: sec.name) <:+ renamed inputs a.2.name
  plainSections : ∀ sec ∈ inputs.sections, ∀ other ∈ inputs.sections,
    ¬ ('_' :: sec.name) <:+ other.name

/-- Where a written name comes from: an entry keeps its renamed name or takes the
suffix of its own section. -/
def Origin (name : Line) (place : Line × Nat) : Prop :=
  ∃ a ∈ places inputs, place = (a.1, a.2.vram) ∧
    (name = renamed inputs a.2.name ∨ name = suffixed (renamed inputs a.2.name) a.1)

/-- Every seen name has an origin, and a name is never seen at two places. -/
def Determined (seen : Seen) : Prop :=
  (∀ named ∈ seen, Origin inputs named.1 named.2) ∧
    ∀ a ∈ seen, ∀ b ∈ seen, a.1 = b.1 → a.2 = b.2

/-- Two suffixed names agree only in both parts, when no section name ends in
another section's suffix. The shorter suffix would end the longer one, and so
end that section's name. -/
theorem suffixed_injective (fn fn' sec sec' : Line) (same : suffixed fn sec = suffixed fn' sec')
    (apart : ¬ ('_' :: sec) <:+ sec') (apart' : ¬ ('_' :: sec') <:+ sec) :
    fn = fn' ∧ sec = sec' := by
  rcases List.append_eq_append_iff.mp same with ⟨between, first, second⟩ | ⟨between, first, second⟩
  · cases between with
    | nil => exact ⟨by simpa using first.symm, (List.cons.inj second).2⟩
    | cons c between =>
      refine absurd ?_ apart'
      exact ⟨between, (List.cons.inj second).2.symm⟩
  · cases between with
    | nil => exact ⟨by simpa using first, ((List.cons.inj second).2).symm⟩
    | cons c between =>
      refine absurd ?_ apart
      exact ⟨between, (List.cons.inj second).2.symm⟩

/-- Looking a name up finds a pair that was recorded. -/
theorem lookup_member (seen : Seen) (name : Line) (place : Line × Nat)
    (found : seen.lookup name = some place) : (name, place) ∈ seen := by
  obtain ⟨_, _, rfl, _⟩ := List.lookup_eq_some_iff.mp found
  simp

/-- A name that lookup does not find was never recorded. -/
theorem lookup_absent (seen : Seen) (name : Line) (missing : seen.lookup name = none)
    (named : Line × Line × Nat) (member : named ∈ seen) : named.1 ≠ name := by
  rintro rfl
  have present : (seen.lookup named.1).isSome = true := by
    rw [List.lookup_isSome_iff]
    exact ⟨named, member, by simp⟩
  simp [missing] at present

/-- The name given to an entry has that entry as its origin. -/
theorem emittedName_origin (seen : Seen) (sec : Line) (f : Func)
    (member : (sec, f) ∈ places inputs) :
    Origin inputs (emittedName inputs seen sec f) (sec, f.vram) := by
  refine ⟨(sec, f), member, rfl, ?_⟩
  cases found : seen.lookup (renamed inputs f.name) with
  | none => exact Or.inl (by simp [emittedName, found])
  | some place =>
    by_cases same : place = (sec, f.vram)
    · exact Or.inl (by simp [emittedName, found, same])
    · exact Or.inr (by simp [emittedName, found, same])

/-- A name already seen at another place is given only if it is seen at the
entry's own place. The unseen and the repeated name follow from the lookup. A
suffixed name cannot equal an unsuffixed one, and equals another suffixed one
only for the same section and renamed name, which has one address there. -/
theorem emittedName_place (unambiguous : Unambiguous inputs) (seen : Seen) (sec : Line) (f : Func)
    (member : (sec, f) ∈ places inputs) (known : ∃ s ∈ inputs.sections, s.name = sec)
    (determined : Determined inputs seen) (named : Line × Line × Nat) (present : named ∈ seen)
    (same : named.1 = emittedName inputs seen sec f) : named.2 = (sec, f.vram) := by
  cases found : seen.lookup (renamed inputs f.name) with
  | none =>
    have fresh : named.1 ≠ renamed inputs f.name := lookup_absent seen _ found named present
    exact absurd (by simpa [emittedName, found] using same) fresh
  | some place =>
    by_cases here : place = (sec, f.vram)
    · have recorded : (renamed inputs f.name, place) ∈ seen := lookup_member seen _ place found
      have equal : named.1 = renamed inputs f.name := by simpa [emittedName, found, here] using same
      exact (determined.2 named present _ recorded equal).trans here
    · have equal : named.1 = suffixed (renamed inputs f.name) sec := by
        simpa [emittedName, found, here] using same
      obtain ⟨s, inSections, rfl⟩ := known
      obtain ⟨⟨other, g⟩, source, place', kept | added⟩ := determined.1 named present
      · have ends : ('_' :: s.name) <:+ renamed inputs g.name :=
          ⟨renamed inputs f.name, by rw [← kept, equal]; rfl⟩
        exact absurd ends (unambiguous.plainNames _ source s inSections)
      · obtain ⟨t, inSections', listed'⟩ := List.mem_flatMap.mp source
        obtain ⟨_, _, pair⟩ := List.mem_map.mp listed'
        obtain ⟨rfl, rfl⟩ := Prod.mk.inj pair
        obtain ⟨sameName, sameSection⟩ := suffixed_injective _ _ _ _ (added.symm.trans equal)
          (unambiguous.plainSections t inSections' s inSections)
          (unambiguous.plainSections s inSections t inSections')
        have address := unambiguous.oneAddress _ source _ member sameSection sameName
        rw [place']
        exact Prod.ext sameSection address

/-- Naming one entry keeps every name at one place: the name comes from an entry at that place,
and a name that was there is of the same one. -/
theorem determined_step (unambiguous : Unambiguous inputs) (seen : Seen) (sec : Line) (f : Func)
    (member : (sec, f) ∈ places inputs) (known : ∃ s ∈ inputs.sections, s.name = sec)
    (determined : Determined inputs seen) :
    Determined inputs ((emittedName inputs seen sec f, sec, f.vram) :: seen) := by
  constructor
  · intro named present
    rcases List.mem_cons.mp present with rfl | earlier
    · exact emittedName_origin inputs seen sec f member
    · exact determined.1 named earlier
  · intro a inA b inB same
    rcases List.mem_cons.mp inA with rfl | earlierA <;>
      rcases List.mem_cons.mp inB with rfl | earlierB
    · rfl
    · exact (emittedName_place inputs unambiguous seen sec f member known determined b earlierB
        same.symm).symm
    · exact emittedName_place inputs unambiguous seen sec f member known determined a earlierA same
    · exact determined.2 a earlierA b earlierB same

/-- A section's entries are all recorded, and the record stays determined. By induction on the
entries, each of which adds its own name to the record. -/
theorem emitFuncs_determined (unambiguous : Unambiguous inputs) (sec : Line) (seen : Seen)
    (funcs : List Func) (member : ∀ f ∈ funcs, (sec, f) ∈ places inputs)
    (known : ∃ s ∈ inputs.sections, s.name = sec) (determined : Determined inputs seen) :
    Determined inputs (emitFuncs inputs sec seen funcs).2 ∧
      seen ⊆ (emitFuncs inputs sec seen funcs).2 ∧
      ∀ g ∈ (emitFuncs inputs sec seen funcs).1,
        (g.name, sec, g.vram) ∈ (emitFuncs inputs sec seen funcs).2 := by
  induction funcs generalizing seen with
  | nil => exact ⟨determined, fun _ inSeen => inSeen, by simp [emitFuncs]⟩
  | cons f rest inductionHypothesis =>
    have next :=
      determined_step inputs unambiguous seen sec f (member f List.mem_cons_self) known determined
    obtain ⟨after, kept, recorded⟩ := inductionHypothesis _
      (fun g inRest => member g (List.mem_cons_of_mem f inRest)) next
    refine ⟨after, fun named inSeen => kept (List.mem_cons_of_mem _ inSeen), ?_⟩
    intro g written
    rcases List.mem_cons.mp written with rfl | later
    · exact kept List.mem_cons_self
    · exact recorded g later

/-- Every written entry is recorded in one determined record of the whole run. By induction on the
sections, each of which only adds to what the ones before have recorded. -/
theorem emitSections_determined (unambiguous : Unambiguous inputs) (seen : Seen)
    (sections : List Section) (among : sections ⊆ inputs.sections)
    (determined : Determined inputs seen) :
    ∃ final, Determined inputs final ∧ seen ⊆ final ∧
      ∀ entry ∈ entries (emitSections inputs seen sections),
      (entry.2.name, entry.1, entry.2.vram) ∈ final := by
  induction sections generalizing seen with
  | nil => exact ⟨seen, determined, fun _ inSeen => inSeen, by simp [emitSections, entries]⟩
  | cons sec rest inductionHypothesis =>
    have inSections : sec ∈ inputs.sections := among List.mem_cons_self
    have member : ∀ f ∈ listed inputs sec, (sec.name, f) ∈ places inputs := fun f inListed =>
      List.mem_flatMap.mpr ⟨sec, inSections, List.mem_map.mpr ⟨f, inListed, rfl⟩⟩
    obtain ⟨after, kept, recorded⟩ := emitFuncs_determined inputs unambiguous sec.name seen
      (listed inputs sec) member ⟨sec, inSections, rfl⟩ determined
    obtain ⟨final, finalDetermined, keptLater, recordedLater⟩ := inductionHypothesis _
      (fun s inRest => among (List.mem_cons_of_mem sec inRest)) after
    refine ⟨final, finalDetermined, fun named inSeen => keptLater (kept inSeen), ?_⟩
    intro entry written
    obtain ⟨s, inEmitted, inFuncs⟩ := List.mem_flatMap.mp written
    obtain ⟨g, inG, rfl⟩ := List.mem_map.mp inFuncs
    rcases List.mem_cons.mp inEmitted with rfl | later
    · exact keptLater (recorded g inG)
    · exact recordedLater (s.name, g) (List.mem_flatMap.mpr ⟨s, later, inFuncs⟩)

/-- A written name determines its section and address. -/
theorem main_names_unique (unambiguous : Unambiguous inputs) (a b : Line × Func)
    (inA : a ∈ entries (main inputs)) (inB : b ∈ entries (main inputs))
    (same : a.2.name = b.2.name) : a.1 = b.1 ∧ a.2.vram = b.2.vram := by
  obtain ⟨final, determined, _, recorded⟩ := emitSections_determined inputs unambiguous []
    inputs.sections (List.Subset.refl _) ⟨by simp, by simp⟩
  exact Prod.mk.inj (determined.2 _ (recorded a inA) _ (recorded b inB) same)

/-! ## Order -/

/-- Naming changes neither addresses nor sizes. -/
theorem emitFuncs_vrams (sec : Line) (seen : Seen) (funcs : List Func) :
    (emitFuncs inputs sec seen funcs).1.map Func.vram = funcs.map Func.vram := by
  induction funcs generalizing seen with
  | nil => rfl
  | cons f rest inductionHypothesis => simp [emitFuncs, inductionHypothesis]

/-- The functions of a section are sorted before they are named. -/
theorem listed_sorted (sec : Section) : ((listed inputs sec).map Func.vram).Pairwise (· ≤ ·) := by
  have total : Std.Total (fun a b : Func => a.vram ≤ b.vram) :=
    ⟨fun a b => Nat.le_total a.vram b.vram⟩
  have trans : IsTrans Func (fun a b => a.vram ≤ b.vram) := ⟨fun _ _ _ => Nat.le_trans⟩
  refine List.pairwise_map.mpr (List.Pairwise.filter _ ?_)
  exact List.pairwise_insertionSort (fun a b : Func => a.vram ≤ b.vram) _

/-- Inside each written section the entries ascend by address. -/
theorem emitSections_sorted (seen : Seen) (sections : List Section) (sec : Section)
    (written : sec ∈ emitSections inputs seen sections) :
    (sec.funcs.map Func.vram).Pairwise (· ≤ ·) := by
  induction sections generalizing seen with
  | nil => simp [emitSections] at written
  | cons first rest inductionHypothesis =>
    rcases List.mem_cons.mp written with rfl | later
    · simpa only [emitFuncs_vrams] using listed_sorted inputs first
    · exact inductionHypothesis _ later

/-- Sections are written in the order given, under their own names. -/
theorem emitSections_names (seen : Seen) (sections : List Section) :
    (emitSections inputs seen sections).map Section.name = sections.map Section.name := by
  induction sections generalizing seen with
  | nil => rfl
  | cons sec rest inductionHypothesis => simp [emitSections, inductionHypothesis]

/-- A section is written with the addresses of its listed functions. -/
theorem emitSections_vrams (seen : Seen) (sections : List Section) (sec : Section)
    (member : sec ∈ sections) :
    ∃ written ∈ emitSections inputs seen sections,
      written.name = sec.name ∧
      written.funcs.map Func.vram = (listed inputs sec).map Func.vram := by
  induction sections generalizing seen with
  | nil => simp at member
  | cons first rest inductionHypothesis =>
    rcases List.mem_cons.mp member with rfl | later
    · exact ⟨_, List.mem_cons_self, rfl, emitFuncs_vrams inputs sec.name seen (listed inputs sec)⟩
    · obtain ⟨written, inRest, same⟩ := inductionHypothesis _ later
      exact ⟨written, List.mem_cons_of_mem _ inRest, same⟩

/-- An injected entry of a known section is written there at its own address, unless its
name is suppressed. -/
theorem main_startsAt (sec : Line) (f : Func) (known : sec ∈ inputs.sections.map Section.name)
    (injected : (sec, f) ∈ inputs.extra) (kept : f.name ∉ inputs.skip) :
    startsAt (main inputs) sec f.vram = true := by
  obtain ⟨s, inSections, rfl⟩ := List.mem_map.mp known
  have isListed : f ∈ listed inputs s := by
    refine List.mem_filter.mpr ⟨(List.mem_insertionSort _).mpr (List.mem_append_right _ ?_),
      by simpa using kept⟩
    exact List.mem_map.mpr ⟨(s.name, f), List.mem_filter.mpr ⟨injected, by simp⟩, rfl⟩
  obtain ⟨written, inMain, sameName, sameVrams⟩ :=
    emitSections_vrams inputs [] inputs.sections s inSections
  have address : f.vram ∈ written.funcs.map Func.vram := sameVrams ▸ List.mem_map_of_mem isListed
  obtain ⟨g, inWritten, same⟩ := List.mem_map.mp address
  have entry : (s.name, g) ∈ entries (main inputs) :=
    List.mem_flatMap.mpr ⟨written, inMain, List.mem_map.mpr ⟨g, inWritten, by rw [sameName]⟩⟩
  exact List.any_eq_true.mpr ⟨(s.name, g), entry, by simp [same]⟩

end NoMercyRecomp.GenSymbols
