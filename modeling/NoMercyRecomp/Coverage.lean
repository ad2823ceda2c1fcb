import NoMercyRecomp.SpanUnion
import NoMercyRecomp.SymbolTable

/-!
# The coverage of a section

`nm_coverage` merges the function spans of a section, adds up their lengths and reports the
gaps of at least eight bytes between them. Functions may overlap, nest and touch, and a
function may be empty.

An empty function that touches no other one is merged into an empty interval. Where it lies
inside unclaimed bytes the walk over the intervals reports the bytes before and behind it on
their own, or not at all when each part is short. A section without functions is not walked.
-/

namespace NoMercyRecomp.Coverage

open TextScan SymbolTable SpanUnion

/-- The order of tuples in Python. -/
def tupleLe (a b : Int × Int) : Bool :=
  decide (a.1 < b.1) || (decide (a.1 = b.1) && decide (a.2 ≤ b.2))

/-- The span of a function, from the start of its section. -/
def span (sec : Section) (f : Func) : Int × Int :=
  ((f.vram : Int) - sec.vram, (f.vram : Int) - sec.vram + f.size)

/-- `spans`, sorted. -/
def spans (sec : Section) : List (Int × Int) := (sec.funcs.map (span sec)).mergeSort tupleLe

/-- `merged` -/
def merged (sec : Section) : List (Int × Int) := merge (spans sec)

/-- `claimed` -/
def claimed (sec : Section) : Int :=
  ((merged sec).map (fun interval => interval.2 - interval.1)).sum

/-- The gaps that are reported, from the start of the section. A section without functions is
left out. -/
def gaps (sec : Section) : List (Int × Int) :=
  if sec.funcs.isEmpty then [] else walk 8 0 (merged sec ++ [((sec.size : Int), (sec.size : Int))])

/-- The words of the ROM, in the byte order of the console. -/
def words : List UInt8 → List Nat
  | a :: b :: c :: d :: rest =>
    (((a.toNat * 256 + b.toNat) * 256 + c.toNat) * 256 + d.toNat) :: words rest
  | _ => []

/-- `okops` -/
def okops : List Nat :=
  [0, 1, 2, 3, 4, 5, 6, 7, 9, 10, 11, 12, 13, 14, 15, 16, 17, 20, 21, 32, 33, 34, 35, 36, 37, 38,
    39, 40, 41, 42, 43, 46, 47, 49, 53, 57, 61, 63]

/-- `cls`: what the words of a gap look like. -/
def gapClass (gap : List Nat) : Line :=
  if gap.countP (· == 0) = gap.length then str "ZEROS"
  else if 9 * gap.length < 10 * gap.countP (fun w => okops.contains (w / 2 ^ 26)) ∧
    0 < gap.count 0x03E00008 then
    str "code-like!"
  else str "data/junk"

/-- The words of a gap in the ROM. -/
def gapWords (rom : List UInt8) (sec : Section) (gap : Int × Int) : List Nat :=
  words ((rom.drop (sec.rom + gap.1.toNat)).take (gap.2 - gap.1).toNat)

/-- The gaps that are printed: their addresses and what they look like. -/
def gapReport (rom : List UInt8) (sec : Section) : List (Int × Int × Line) :=
  (gaps sec).map (fun gap => (sec.vram + gap.1, sec.vram + gap.2, gapClass (gapWords rom sec gap)))

/-! ## What the section should report -/

/-- Some function of the section holds the offset. -/
def Covered (sec : Section) (offset : Int) : Prop :=
  ∃ f ∈ sec.funcs, (span sec f).1 ≤ offset ∧ offset < (span sec f).2

instance (sec : Section) : DecidablePred (Covered sec) := fun offset =>
  inferInstanceAs (Decidable (∃ f ∈ sec.funcs, (span sec f).1 ≤ offset ∧ offset < (span sec f).2))

/-- The functions lie inside the section. -/
def Inside (sec : Section) : Prop :=
  ∀ f ∈ sec.funcs, sec.vram ≤ f.vram ∧ f.vram + f.size ≤ sec.vram + sec.size

instance : DecidablePred Inside := fun sec =>
  inferInstanceAs (Decidable (∀ f ∈ sec.funcs, sec.vram ≤ f.vram ∧
    f.vram + f.size ≤ sec.vram + sec.size))

/-- The merged intervals and the gaps tile the section. -/
structure Tiles (sec : Section) : Prop where
  proper : ∀ interval ∈ merged sec, interval.1 ≤ interval.2
  separated : (merged sec).Pairwise (fun earlier later => earlier.2 < later.1)
  covers : ∀ offset, (∃ interval ∈ merged sec, interval.1 ≤ offset ∧ offset < interval.2) ↔
    Covered sec offset
  claimed : claimed sec = (((Finset.Ico (0 : Int) sec.size).filter (Covered sec)).card : Int)
  gaps : ∀ lower upper, (lower, upper) ∈ gaps sec ↔ 8 ≤ upper - lower ∧
    Run (Covered sec) sec.size lower upper
  gapsInOrder : (Coverage.gaps sec).Pairwise (fun earlier later => earlier.2 ≤ later.1)

/-- An empty function strictly inside eight bytes that no function holds. -/
def Cut (sec : Section) : Prop :=
  ∃ f ∈ sec.funcs, f.size = 0 ∧ ∃ start : Int, 0 ≤ start ∧ start + 8 ≤ sec.size ∧
    start < (span sec f).1 ∧
    (span sec f).1 < start + 8 ∧ ∀ offset, start ≤ offset → offset < start + 8 →
    ¬ Covered sec offset

/-! ## The merge of a section -/

/-- The spans of a section are sorted by their starts. -/
theorem spans_sorted (sec : Section) : (spans sec).Pairwise (fun a b => a.1 ≤ b.1) := by
  have trans (a b c : Int × Int) (first : tupleLe a b = true) (second : tupleLe b c = true) :
      tupleLe a c = true := by
    simp only [tupleLe, Bool.or_eq_true, Bool.and_eq_true, decide_eq_true_eq] at first second ⊢
    omega
  have total (a b : Int × Int) : (tupleLe a b || tupleLe b a) = true := by
    simp only [tupleLe, Bool.or_eq_true, Bool.and_eq_true, decide_eq_true_eq]
    omega
  refine (List.pairwise_mergeSort trans total (sec.funcs.map (span sec))).imp ?_
  intro a b order
  simp only [tupleLe, Bool.or_eq_true, Bool.and_eq_true, decide_eq_true_eq] at order
  omega

/-- The spans are those of the section's functions. -/
theorem mem_spans (sec : Section) (interval : Int × Int) :
    interval ∈ spans sec ↔ ∃ f ∈ sec.funcs, span sec f = interval := by
  rw [spans, List.mem_mergeSort, List.mem_map]

/-- No span ends before it starts. -/
theorem spans_proper (sec : Section) : ∀ interval ∈ spans sec, interval.1 ≤ interval.2 := by
  intro interval member
  obtain ⟨f, _, rfl⟩ := (mem_spans sec interval).mp member
  dsimp only [span]
  omega

/-- The spans of a section with its functions inside lie in the section. -/
theorem spans_inside (sec : Section) (inside : Inside sec) :
    ∀ interval ∈ spans sec, 0 ≤ interval.1 ∧ interval.1 ≤ interval.2 ∧
    interval.2 ≤ (sec.size : Int) := by
  intro interval member
  obtain ⟨f, inFuncs, rfl⟩ := (mem_spans sec interval).mp member
  obtain ⟨first, last⟩ := inside f inFuncs
  dsimp only [span]
  omega

/-- A span holds an offset exactly when a function covers it. -/
theorem covered_spans (sec : Section) (offset : Int) :
    (∃ interval ∈ spans sec, interval.1 ≤ offset ∧ offset < interval.2) ↔ Covered sec offset := by
  constructor
  · rintro ⟨interval, member, held⟩
    obtain ⟨f, inFuncs, rfl⟩ := (mem_spans sec interval).mp member
    exact ⟨f, inFuncs, held⟩
  · rintro ⟨f, inFuncs, held⟩
    exact ⟨span sec f, (mem_spans sec _).mpr ⟨f, inFuncs, rfl⟩, held⟩

/-- The intervals cover what the functions hold. -/
theorem merged_covers (sec : Section) (offset : Int) :
    (∃ interval ∈ merged sec, interval.1 ≤ offset ∧ offset < interval.2) ↔ Covered sec offset :=
  (merge_covers (spans sec) (spans_sorted sec) (spans_proper sec) offset).trans
    (covered_spans sec offset)

/-- What is claimed counts the covered offsets: the merged spans are apart and hold the same
offsets. -/
theorem claimed_card (sec : Section) (inside : Inside sec) :
    claimed sec = (((Finset.Ico (0 : Int) sec.size).filter (Covered sec)).card : Int) := by
  obtain ⟨_, separated, proper, within⟩ :=
    merge_intervals sec.size (spans sec) (spans_sorted sec) (spans_inside sec inside)
  rw [claimed, merged, sum_lengths sec.size (merge (spans sec)) separated proper within]
  congr 2
  ext offset
  simp only [Finset.mem_filter]
  exact and_congr_right (fun _ => merged_covers sec offset)

/-- Where there are functions, the gaps are the long runs exactly when no empty function cuts
one. -/
theorem gaps_runs (sec : Section) (inside : Inside sec) (some : sec.funcs ≠ []) :
    (∀ lower upper, (lower, upper) ∈ gaps sec ↔ 8 ≤ upper - lower ∧
      Run (Covered sec) sec.size lower upper) ↔ ¬ Cut sec := by
  have runs := walk_runs 8 sec.size (spans sec) (spans_sorted sec) (spans_inside sec inside)
    (by omega) (by omega)
  simp only [covered_spans] at runs
  have walked : ¬ sec.funcs.isEmpty = true := by simpa using some
  rw [gaps, if_neg walked, merged, runs, not_iff_not]
  constructor
  · rintro ⟨interval, member, empty, known⟩
    obtain ⟨f, inFuncs, rfl⟩ := (mem_spans sec interval).mp member
    refine ⟨f, inFuncs, ?_, known⟩
    dsimp only [span] at empty
    omega
  · rintro ⟨f, inFuncs, empty, known⟩
    refine ⟨span sec f, (mem_spans sec _).mpr ⟨f, inFuncs, rfl⟩, ?_, known⟩
    dsimp only [span]
    omega

/-- A section without functions has no span that is cut. -/
theorem cut_none (sec : Section) (none : sec.funcs = []) : ¬ Cut sec := by
  rintro ⟨f, member, _⟩
  rw [none] at member
  cases member

/-- Where there are no functions, the whole section is a run that is not reported; so the report
is right only when the section is too short for a gap. -/
theorem gaps_none (sec : Section) (none : sec.funcs = []) :
    (∀ lower upper, (lower, upper) ∈ gaps sec ↔ 8 ≤ upper - lower ∧
      Run (Covered sec) sec.size lower upper) ↔ sec.size < 8 := by
  have free (offset : Int) : ¬ Covered sec offset := by
    rintro ⟨f, member, _⟩
    rw [none] at member
    cases member
  have unreported : gaps sec = [] := by
    rw [gaps, none]
    rfl
  simp only [unreported, List.not_mem_nil, false_iff, not_and]
  constructor
  · intro precise
    by_contra long
    refine precise 0 sec.size (by omega)
      ⟨le_refl _, by omega, le_refl _, fun offset _ _ => free offset, Or.inl rfl, Or.inl rfl⟩
  · intro short lower upper long run
    have first := run.first
    have last := run.last
    omega

/-- The gaps are in order and apart: the walk goes over separated intervals within the section,
and the end of the section is its last edge. -/
theorem gaps_sorted (sec : Section) (inside : Inside sec) :
    (gaps sec).Pairwise (fun earlier later => earlier.2 ≤ later.1) := by
  obtain ⟨_, separated, proper, within⟩ :=
    merge_intervals sec.size (spans sec) (spans_sorted sec) (spans_inside sec inside)
  rw [gaps]
  split
  · exact List.Pairwise.nil
  · refine (walk_sorted 8 0 _ ?_ ?_ ?_).1
    · rw [List.pairwise_append]
      refine ⟨separated.imp (fun order => order.le), List.pairwise_singleton _ _, ?_⟩
      intro interval member edge atEnd
      obtain rfl := List.mem_singleton.mp atEnd
      exact (within interval member).2
    · intro edge member
      rcases List.mem_append.mp member with among | atEnd
      · exact proper edge among
      · obtain rfl := List.mem_singleton.mp atEnd
        exact le_refl _
    · intro edge member
      rcases List.mem_append.mp member with among | atEnd
      · exact (within edge among).1
      · obtain rfl := List.mem_singleton.mp atEnd
        dsimp only
        omega

/-- The intervals and gaps tile the section exactly when no empty function lies strictly inside
eight unclaimed bytes and a section without functions is short. Intervals are always right, as
merging keeps the covered bytes; only a gap can go wrong, where an empty span cuts it or where the
loop over spans does not start. -/
theorem tiles_iff (sec : Section) (inside : Inside sec) :
    Tiles sec ↔ ¬ Cut sec ∧ (sec.funcs = [] → sec.size < 8) := by
  obtain ⟨_, separated, proper, _⟩ :=
    merge_intervals sec.size (spans sec) (spans_sorted sec) (spans_inside sec inside)
  have precise : (∀ lower upper, (lower, upper) ∈ gaps sec ↔ 8 ≤ upper - lower ∧
    Run (Covered sec) sec.size lower upper) ↔ ¬ Cut sec ∧ (sec.funcs = [] → sec.size < 8) := by
    by_cases none : sec.funcs = []
    · rw [gaps_none sec none]
      exact ⟨fun short => ⟨cut_none sec none, fun _ => short⟩, fun known => known.2 none⟩
    · rw [gaps_runs sec inside none]
      exact ⟨fun uncut => ⟨uncut, fun absent => absurd absent none⟩, fun known => known.1⟩
  constructor
  · exact fun tiles => precise.mp tiles.gaps
  · intro known
    exact ⟨proper, separated, merged_covers sec, claimed_card sec inside, precise.mpr known,
      gaps_sorted sec inside⟩

/-- A function that overlaps another, and a gap behind both. -/
def overlapSection : Section :=
  ⟨str "ovl_c", 0x40, 0x80001000, 0x20,
    [⟨str "func_80001004", 0x80001004, 8⟩, ⟨str "func_80001000", 0x80001000, 8⟩]⟩

/-- A section with spans that overlap: gaps and spans tile it. -/
theorem overlapSection_tiles : Tiles overlapSection := by
  refine (tiles_iff overlapSection (by decide)).mpr ⟨?_, by simp [overlapSection]⟩
  rintro ⟨f, member, empty, _⟩
  have sizes : ∀ f ∈ overlapSection.funcs, f.size ≠ 0 := by decide
  exact sizes f member empty

/-- An empty function in the middle of eight unclaimed bytes. -/
def cutSection : Section :=
  ⟨str "ovl_c", 0x40, 0x80001000, 0x10,
    [⟨str "func_80001000", 0x80001000, 4⟩, ⟨str "func_80001008", 0x80001008, 0⟩,
      ⟨str "func_8000100C", 0x8000100C, 4⟩]⟩

/-- The gap is not reported. -/
theorem cutSection_unreported : Inside cutSection ∧ ¬ Tiles cutSection := by
  have inside : Inside cutSection := by decide
  refine ⟨inside, fun tiles =>
    (gaps_runs cutSection inside (by simp [cutSection])).mp tiles.gaps ?_⟩
  refine ⟨⟨str "func_80001008", 0x80001008, 0⟩,
    by simp [cutSection], rfl, 4, by decide, by decide, by decide, by decide, ?_⟩
  rintro offset first last ⟨f, member, held⟩
  have others : ∀ f ∈ cutSection.funcs, (span cutSection f).2 ≤ 4 ∨ 12 ≤ (span cutSection f).1 ∨
      (span cutSection f).2 ≤ (span cutSection f).1 := by decide
  have apart := others f member
  omega

end NoMercyRecomp.Coverage
