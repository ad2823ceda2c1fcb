import NoMercyRecomp.SwitchReading

/-!
# The exit status as a gate for truncated switches

The build trusts the exit status of `fix_switches`: zero should mean that every switch
under a guard has as many arms as the guard allows. A run that meets an unmapped table,
an unreadable entry or a target that is neither decoded nor a function start does not
exit with zero. A target that is decoded but not on exactly one top-level line is
reported, and the site is left truncated, but it is not counted.

The second way to a truncated switch is one whose arms are not numbered from zero on:
an added index may then repeat an arm it already has.
-/

namespace NoMercyRecomp.SwitchGate

open TextScan SymbolTable Recompiled Growth FixSwitches SwitchPlan SwitchReading

/-- A tree of generated files: after each header a body follows on its own lines, and
its switches have the shape in which N64Recomp writes them. -/
structure Tree where
  files : List (List Line)
  bare : ∀ file ∈ files, ∀ f ∈ functions file, f.tail = []
  wellFormed : ∀ file ∈ files, ∀ f ∈ functions file, WellFormed f.body

/-- A function of the tree. -/
def Tree.Has (tree : Tree) (f : GenFunc) : Prop := ∃ file ∈ tree.files, f ∈ functions file

/-- When the run exits with zero, every site under a guard has its arms. -/
def Gated (rom : List UInt8) (dump : Dump) (tree : Tree) : Prop :=
  ∀ after, fixTree rom dump tree.files = some (after, 0) →
    ∀ file ∈ after, ∀ f ∈ functions file, ∀ s ∈ sites f.body, ∀ bound,
      guard f.body s.1 = some bound → bound ≤ ncases s.1

/-! ## Kinds of short sites -/

/-- Reading the entries of a short site stops at one that fails. -/
def Stops (rom : List UInt8) (dump : Dump) (body : List Line) (s : List Line × Site)
    (failure : Failure) : Prop :=
  ∃ bound offset index, Reads dump body s bound offset ∧ ncases s.1 ≤ index ∧ index < bound ∧
    entry rom dump body offset index = .error failure ∧
    ∀ earlier, ncases s.1 ≤ earlier → earlier < index →
    ∃ arm, entry rom dump body offset earlier = .ok arm

/-- The table of a short site is not found: no decoded address, or no section for it. -/
def Unlocated (dump : Dump) (body : List Line) (s : List Line × Site) : Prop :=
  ∃ bound, guard body s.1 = some bound ∧ ncases s.1 < bound ∧
    ∀ first, firstAddr body = some first → tableRomOffset dump (value 16 s.2.table) first = none

/-- The site makes the run exit with another status than zero. -/
def Loud (rom : List UInt8) (dump : Dump) (body : List Line) (s : List Line × Site) : Prop :=
  Unlocated dump body s ∨ Stops rom dump body s .raised ∨ Stops rom dump body s .missing

/-- An index that is to be added to a short site is the number of an arm it has. -/
def Repeats (body : List Line) (s : List Line × Site) : Prop :=
  ∃ bound index, guard body s.1 = some bound ∧ ncases s.1 ≤ index ∧ index < bound ∧
    decimal index ∈ arms s.1

section Kinds

variable (rom : List UInt8) (dump : Dump) (body : List Line) (s : List Line × Site)

/-- A site that is not short is kept. -/
theorem verdict_long (long : ∀ bound, guard body s.1 = some bound → bound ≤ ncases s.1) :
    verdict rom dump body s.1 s.2 = .kept := by
  cases guarded : guard body s.1 with
  | none => simp [verdict, guarded]
  | some bound => simp [verdict, guarded, long bound guarded]

/-- A short site whose table is not found is loud. -/
theorem verdict_unlocated (unlocated : Unlocated dump body s) :
    (verdict rom dump body s.1 s.2).raises = true ∨
    (verdict rom dump body s.1 s.2).counts = true := by
  obtain ⟨bound, guarded, short, unmapped⟩ := unlocated
  have few : ¬ bound ≤ ncases s.1 := by omega
  cases start : firstAddr body with
  | none =>
    left
    simp [verdict, guarded, few, start, Verdict.raises]
  | some first =>
    right
    simp [verdict, guarded, few, start, unmapped first start, Verdict.counts]

/-- A site is long, or its table is not found, or its entries are read: by its guard, its number
of arms, and whether its address is mapped. -/
theorem kinds :
    (∀ bound, guard body s.1 = some bound → bound ≤ ncases s.1) ∨ Unlocated dump body s ∨
    ∃ bound offset, Reads dump body s bound offset := by
  cases guarded : guard body s.1 with
  | none => exact Or.inl (by simp)
  | some bound =>
    by_cases enough : bound ≤ ncases s.1
    · left
      rintro other same
      obtain rfl : bound = other := by simpa using same
      exact enough
    · right
      by_cases located : ∃ first name offset, firstAddr body = some first ∧
          tableRomOffset dump (value 16 s.2.table) first = some (name, offset)
      · obtain ⟨first, name, offset, start, mapped⟩ := located
        exact Or.inr ⟨bound, offset, guarded, by omega, first, name, start, mapped⟩
      · left
        refine ⟨bound, guarded, by omega, fun first start => ?_⟩
        cases mapped : tableRomOffset dump (value 16 s.2.table) first with
        | none => rfl
        | some found => exact absurd ⟨first, found.1, found.2, start, mapped⟩ located

/-- The verdict names the failure at which reading stops: that of the first entry which fails, as
all before it are readable. -/
theorem stops_iff (bound offset : Nat) (reads : Reads dump body s bound offset)
    (failure : Failure) :
    Stops rom dump body s failure ↔
      entries rom dump body offset (List.range' (ncases s.1) (bound - ncases s.1)) =
        .error failure := by
  rw [entries_error]
  constructor
  · rintro ⟨bound', offset', index, reads', lower, upper, fails, readable⟩
    obtain ⟨guarded, short, first, name, start, mapped⟩ := reads
    obtain ⟨guarded', _, first', name', start', mapped'⟩ := reads'
    obtain rfl : bound = bound' := by simpa [guarded] using guarded'
    obtain rfl : first = first' := by simpa [start] using start'
    obtain ⟨rfl, rfl⟩ : name = name' ∧ offset = offset' := by simpa [mapped] using mapped'
    exact ⟨index, lower, by omega, fails, readable⟩
  · rintro ⟨index, lower, upper, fails, readable⟩
    have short := reads.2.1
    exact ⟨bound, offset, index, reads, lower, by omega, fails, readable⟩

/-- The loud sites are those whose verdict raises or counts. For each kind of site the verdict is
known; where entries are read, it is the first failing one that decides. -/
theorem loud_iff : Loud rom dump body s ↔
    (verdict rom dump body s.1 s.2).raises = true ∨
    (verdict rom dump body s.1 s.2).counts = true := by
  obtain long | unlocated | ⟨bound, offset, reads⟩ := kinds dump body s
  · have quiet := verdict_long rom dump body s long
    have notShort (bound : Nat) (guarded : guard body s.1 = some bound) : ¬ ncases s.1 < bound := by
      have enough := long bound guarded
      omega
    constructor
    · rintro (⟨bound, guarded, short, _⟩ | ⟨bound, _, _, ⟨guarded, short, _⟩, _⟩ | ⟨bound, _, _,
        ⟨guarded, short, _⟩, _⟩)
      · exact absurd short (notShort bound guarded)
      · exact absurd short (notShort bound guarded)
      · exact absurd short (notShort bound guarded)
    · rw [quiet]
      simp [Verdict.raises, Verdict.counts]
  · exact ⟨fun _ => verdict_unlocated rom dump body s unlocated, fun _ => Or.inl unlocated⟩
  · have located : ¬ Unlocated dump body s := by
      rintro ⟨_, _, _, unmapped⟩
      obtain ⟨_, _, first, name, start, mapped⟩ := reads
      simp [unmapped first start] at mapped
    rw [Loud, stops_iff rom dump body s bound offset reads,
      stops_iff rom dump body s bound offset reads,
      verdict_reads rom dump body s bound offset reads]
    cases entries rom dump body offset (List.range' (ncases s.1) (bound - ncases s.1)) with
    | ok arms => simp [located, Verdict.raises, Verdict.counts]
    | error failure => cases failure <;> simp [located, Verdict.raises, Verdict.counts]

end Kinds

/-- Adding distinct new elements to a list adds as many distinct ones exactly when none
of them was there. -/
theorem dedup_gain (old new : List Line) (nodup : new.Nodup) :
    old.dedup.length + new.length ≤ (old ++ new).dedup.length ↔ ∀ x ∈ new, x ∉ old := by
  have total := Finset.card_union_add_card_inter old.toFinset new.toFinset
  have oldCard : old.toFinset.card = old.dedup.length := rfl
  have newCard : new.toFinset.card = new.length := List.toFinset_card_of_nodup nodup
  have bothCard : (old.toFinset ∪ new.toFinset).card = (old ++ new).dedup.length := by
    rw [← List.toFinset_append]
    rfl
  have disjoint : (old.toFinset ∩ new.toFinset).card = 0 ↔ ∀ x ∈ new, x ∉ old := by
    rw [Finset.card_eq_zero, Finset.eq_empty_iff_forall_notMem]
    simp only [Finset.mem_inter, List.mem_toFinset, not_and]
    exact ⟨fun apart x inNew inOld => apart x inOld inNew, fun apart x inOld inNew =>
      apart x inNew inOld⟩
  rw [← disjoint]
  omega

section Gate

variable (rom : List UInt8) (dump : Dump)

/-- A body without loud sites is completed without counting a failure, and no other body is. The
pass over the body is its plan, which raises if a verdict does, and counts the verdicts that
count. -/
theorem fixBody_zero (body : List Line) (wellFormed : WellFormed body) (after : List Line) :
    fixBody rom dump body = some (after, 0) ↔
      (∀ s ∈ sites body, ¬ Loud rom dump body s) ∧ after = completed rom dump body := by
  have loud (s : List Line × Site) := loud_iff rom dump body s
  rw [fixBody_plan rom dump body wellFormed.distinct]
  by_cases raising : (sites body).any (fun s => (verdict rom dump body s.1 s.2).raises) = true
  · obtain ⟨s, member, raises⟩ := List.any_eq_true.mp raising
    rw [if_pos raising]
    constructor
    · simp
    · rintro ⟨quiet, _⟩
      exact absurd ((loud s).mpr (Or.inl raises)) (quiet s member)
  · rw [if_neg raising, Option.some.injEq, Prod.mk.injEq, List.countP_eq_zero]
    have silent : ∀ s ∈ sites body, (verdict rom dump body s.1 s.2).raises = false := by
      intro s member
      by_contra raises
      exact raising (List.any_eq_true.mpr ⟨s, member, by simpa using raises⟩)
    constructor
    · rintro ⟨rfl, uncounted⟩
      refine ⟨fun s member isLoud => ?_, rfl⟩
      obtain raises | counts := (loud s).mp isLoud
      · simp [silent s member] at raises
      · exact uncounted s member counts
    · rintro ⟨quiet, rfl⟩
      exact ⟨rfl, fun s member counts => quiet s member ((loud s).mpr (Or.inr counts))⟩

/-- No site fails exactly when every body is completed without a failure; failures are counted, so
their sum is zero when each is. -/
theorem failures_zero (list : List GenFunc) :
    failures rom dump list = some 0 ↔
    ∀ f ∈ list, ∃ after, fixBody rom dump f.body = some (after, 0) := by
  induction list with
  | nil => simp [failures]
  | cons f rest inductionHypothesis =>
    rw [List.forall_mem_cons, ← inductionHypothesis, failures]
    cases fixed : fixBody rom dump f.body with
    | none => simp
    | some result =>
      obtain ⟨after, failed⟩ := result
      cases others : failures rom dump rest with
      | none => simp
      | some more => simp

/-- The run exits with zero exactly when no site is loud, and then every body is
completed by its plan. -/
theorem fixTree_zero (files : List (List Line))
    (wellFormed : ∀ file ∈ files, ∀ f ∈ functions file, WellFormed f.body)
    (after : List (List Line)) : fixTree rom dump files = some (after, 0) ↔
      (∀ file ∈ files, ∀ f ∈ functions file, ∀ s ∈ sites f.body, ¬ Loud rom dump f.body s) ∧
        after = files.map (rewrite (fun f => completed rom dump f.body)) := by
  induction files generalizing after with
  | nil => simp [fixTree, eq_comm]
  | cons file rest inductionHypothesis =>
    have later :=
      inductionHypothesis (fun other member => wellFormed other (List.mem_cons_of_mem _ member))
    have zero (f : GenFunc) (member : f ∈ functions file) :=
      fixBody_zero rom dump f.body (wellFormed file List.mem_cons_self f member)
    have quietFile : failures rom dump (functions file) = some 0 ↔
        ∀ f ∈ functions file, ∀ s ∈ sites f.body, ¬ Loud rom dump f.body s := by
      rw [failures_zero]
      constructor
      · intro fixed f member
        obtain ⟨after, done⟩ := fixed f member
        exact ((zero f member after).mp done).1
      · intro quiet f member
        exact ⟨_, (zero f member _).mpr ⟨quiet f member, rfl⟩⟩
    have same (quiet : ∀ f ∈ functions file, ∀ s ∈ sites f.body, ¬ Loud rom dump f.body s) :
        rewrite (fun f => ((fixBody rom dump f.body).map Prod.fst).getD f.body) file =
          rewrite (fun f => completed rom dump f.body) file := by
      refine rewrite_congr _ _ file (fun f member => ?_)
      rw [(zero f member _).mpr ⟨quiet f member, rfl⟩]
      rfl
    rw [List.forall_mem_cons, ← quietFile, List.map_cons, fixTree, fixFile]
    cases failed : failures rom dump (functions file) with
    | none => simp
    | some count =>
      cases others : fixTree rom dump rest with
      | none =>
        constructor
        · simp
        · rintro ⟨⟨_, quiet⟩, _⟩
          have done := (later _).mpr ⟨quiet, rfl⟩
          simp [others] at done
      | some result =>
        obtain ⟨done, more⟩ := result
        constructor
        · intro run
          obtain ⟨rfl, noneHere, noMore⟩ : rewrite _ file :: done = after ∧ count = 0 ∧ more = 0 :=
            by simpa using run
          subst noneHere noMore
          obtain ⟨quiet, rfl⟩ := (later done).mp others
          exact ⟨⟨rfl, quiet⟩, by rw [same (quietFile.mp failed)]⟩
        · rintro ⟨⟨zeroCount, quiet⟩, rfl⟩
          obtain rfl : count = 0 := by simpa using zeroCount
          have rest' := (later _).mpr ⟨quiet, rfl⟩
          obtain ⟨rfl, rfl⟩ : done = _ ∧ more = 0 := by simpa [others] using rest'
          simp [same (quietFile.mp failed)]

/-- The arms of a completed switch. -/
theorem ncases_completed (body : List Line) (wellFormed : WellFormed body) (before : List Line)
    (site : Site)
    (member : (before, site) ∈ sites body) : ncases (completedBefore rom dump body before site) =
      ((switchLines before).flatMap armsOn ++
        (verdict rom dump body before site).arms.map
          (fun arm => decimal arm.index)).dedup.length := by
  rw [ncases, arms, completed_arms rom dump body wellFormed before site member]

/-- A quiet site has its arms in the completed body exactly when no entry stops it and
no index is repeated. -/
theorem site_gated (body : List Line) (wellFormed : WellFormed body) (s : List Line × Site)
    (member : s ∈ sites body) (quiet : ¬ Loud rom dump body s) :
    (∀ bound, guard (completed rom dump body) (completedBefore rom dump body s.1 s.2) = some bound →
      bound ≤ ncases (completedBefore rom dump body s.1 s.2)) ↔
      ¬ Stops rom dump body s .ambiguous ∧ ¬ Repeats body s := by
  rw [(completed_reading rom dump body wellFormed s.1 s.2 member).1,
    ncases_completed rom dump body wellFormed s.1 s.2 member]
  have own : ((switchLines s.1).flatMap armsOn).dedup.length = ncases s.1 := rfl
  obtain long | unlocated | ⟨bound, offset, reads⟩ := kinds dump body s
  · have notShort (bound : Nat) (guarded : guard body s.1 = some bound) : bound ≤ ncases s.1 :=
      long bound guarded
    constructor
    · intro _
      constructor
      · rintro ⟨bound, _, _, ⟨guarded, short, _⟩, _⟩
        have enough := notShort bound guarded
        omega
      · rintro ⟨bound, index, guarded, lower, upper, _⟩
        have enough := notShort bound guarded
        omega
    · intro _
      simpa [verdict_long rom dump body s long, Verdict.arms, own] using long
  · exact absurd (Or.inl unlocated) quiet
  · have guarded := reads.1
    have short := reads.2.1
    rw [stops_iff rom dump body s bound offset reads,
      verdict_reads rom dump body s bound offset reads]
    cases read :
      SwitchPlan.entries rom dump body offset (List.range' (ncases s.1) (bound - ncases s.1)) with
    | error failure =>
      have stops := (stops_iff rom dump body s bound offset reads failure).mpr read
      cases failure with
      | ambiguous =>
        constructor
        · intro enough
          have few := enough bound guarded
          simp only [Verdict.arms, List.map_nil, List.append_nil, own] at few
          omega
        · simp
      | missing => exact absurd (Or.inr (Or.inr stops)) quiet
      | raised => exact absurd (Or.inr (Or.inl stops)) quiet
    | ok added =>
      have indices := entries_indices rom dump body offset _ added read
      have texts : added.map (fun arm => decimal arm.index) =
          (List.range' (ncases s.1) (bound - ncases s.1)).map decimal := by
        rw [← indices, List.map_map]
        rfl
      have nodup : ((List.range' (ncases s.1) (bound - ncases s.1)).map decimal).Nodup := by
        refine List.Nodup.map (fun first second same => ?_) List.nodup_range'
        rw [← value_decimal first, same, value_decimal]
      have gain := dedup_gain ((switchLines s.1).flatMap armsOn) _ nodup
      rw [List.length_map, List.length_range', own,
        Nat.add_sub_cancel' (Nat.le_of_lt short)] at gain
      simp only [Verdict.arms, texts, guarded, Option.some.injEq, forall_eq', gain]
      constructor
      · intro apart
        refine ⟨by simp, ?_⟩
        rintro ⟨bound', index, guarded', lower, upper, repeated⟩
        obtain rfl : bound = bound' := by simpa [guarded] using guarded'
        refine apart (decimal index) (List.mem_map_of_mem ?_) (List.mem_dedup.mp repeated)
        rw [List.mem_range'_1]
        omega
      · rintro ⟨_, fresh⟩ text among inOld
        obtain ⟨index, inRange, rfl⟩ := List.mem_map.mp among
        rw [List.mem_range'_1] at inRange
        exact fresh ⟨bound, index, guarded, inRange.1, by omega, List.mem_dedup.mpr inOld⟩

/-- No line of a completed body closes the function. -/
theorem completed_open (body : List Line) (inside : ∀ line ∈ body, isClose line = false) :
    ∀ line ∈ completed rom dump body, isClose line = false := by
  intro line member
  obtain own | ⟨mark, among, x, _, isWanted, inBlock⟩ := (mem_grow _ _ _).mp member
  · exact inside line own
  · have inserted : line ∈ marked (marks rom dump body) x :=
      List.mem_flatMap.mpr ⟨mark, among, by simpa [isWanted] using inBlock⟩
    exact (marks_foreign rom dump body x line inserted).closes

/-- The gate holds exactly when some site is loud, or no site stops at an ambiguous target and
none repeats an arm. A loud site makes every run exit with a failure, so nothing is promised.
Otherwise the run exits with zero and writes the completed bodies, whose sites are those of the
old ones with more arms, and the rest is a fact about each site. -/
theorem gated_iff (tree : Tree) : Gated rom dump tree ↔
    (∃ f, tree.Has f ∧ ∃ s ∈ sites f.body, Loud rom dump f.body s) ∨
      ∀ f, tree.Has f → ∀ s ∈ sites f.body, ¬ Stops rom dump f.body s .ambiguous ∧
      ¬ Repeats f.body s := by
  by_cases loud : ∃ f, tree.Has f ∧ ∃ s ∈ sites f.body, Loud rom dump f.body s
  · obtain ⟨f, ⟨file, inTree, inFile⟩, s, member, isLoud⟩ := loud
    constructor
    · intro _
      exact Or.inl ⟨f, ⟨file, inTree, inFile⟩, s, member, isLoud⟩
    · intro _ after run
      have quiet := ((fixTree_zero rom dump tree.files tree.wellFormed after).mp run).1
      exact absurd isLoud (quiet file inTree f inFile s member)
  · have quiet : ∀ file ∈ tree.files, ∀ f ∈ functions file, ∀ s ∈ sites f.body,
        ¬ Loud rom dump f.body s :=
      fun file inTree f inFile s member isLoud =>
        loud ⟨f, ⟨file, inTree, inFile⟩, s, member, isLoud⟩
    have run := (fixTree_zero rom dump tree.files tree.wellFormed _).mpr ⟨quiet, rfl⟩
    have written (file : List Line) :
      functions (rewrite (fun f => completed rom dump f.body) file) =
        (functions file).map (fun f => { f with body := completed rom dump f.body }) :=
      functions_rewrite _ file (fun f inFile =>
        completed_open rom dump f.body (functions_open file f inFile))
    constructor
    · intro gated
      right
      rintro f ⟨file, inTree, inFile⟩ s member
      refine (site_gated rom dump f.body (tree.wellFormed file inTree f inFile) s member
        (quiet file inTree f inFile s member)).mp (fun bound guarded => ?_)
      refine gated _ run _ (List.mem_map_of_mem inTree) { f with
        body := completed rom dump f.body } ?_
        (completedBefore rom dump f.body s.1 s.2, s.2) ?_ bound guarded
      · rw [written]
        exact List.mem_map_of_mem inFile
      · exact (sites_completed rom dump f.body (tree.wellFormed file inTree f inFile) _).mpr
          ⟨s.1, member, rfl⟩
    · rintro (isLoud | complete)
      · exact absurd isLoud loud
      · intro after ran file' inAfter g inFile' s' member' bound guarded
        obtain ⟨_, rfl⟩ := (fixTree_zero rom dump tree.files tree.wellFormed after).mp ran
        obtain ⟨file, inTree, rfl⟩ := List.mem_map.mp inAfter
        rw [written] at inFile'
        obtain ⟨f, inFile, rfl⟩ := List.mem_map.mp inFile'
        have wellFormed := tree.wellFormed file inTree f inFile
        obtain ⟨before, member, same⟩ := (sites_completed rom dump f.body wellFormed s').mp member'
        rw [same] at guarded ⊢
        exact (site_gated rom dump f.body wellFormed (before, s'.2) member
          (quiet file inTree f inFile _ member)).mpr
          (complete f ⟨file, inTree, inFile⟩ _ member) bound guarded

end Gate

/-- A function with a two-entry guard and one arm, whose second target is decoded only
inside a block. -/
def nestedTarget : List Line :=
  [str "RECOMP_FUNC void func_80001000(uint8_t* rdram, recomp_context* ctx) \x7b",
    str "    // 0x80001000: sltiu       $at, $v0, 0x2",
    str "    ctx->r1 = ctx->r2 < 0X2 ? 1 : 0;",
    str "    switch (jr_addend_80001008 >> 2) \x7b",
    str "        case 0: goto L_80001010; break;",
    str "        default: switch_error(__func__, 0x80001008, 0x80001020);",
    str "    \x7d",
    str "L_80001010:",
    str "    // 0x80001010: beql        $v0, $zero, L_80001000",
    str "    if (ctx->r2 == 0) \x7b",
    str "        // 0x80001014: nop",
    str "    \x7d",
    str ";\x7d"]

/-- The tree of that one function. -/
def nestedTree : Tree where
  files := [nestedTarget]
  bare := by decide +kernel
  wellFormed := by
    intro file inTree f inFile
    obtain rfl := List.mem_singleton.mp inTree
    have only : functions nestedTarget =
        [⟨str "func_80001000", [], (nestedTarget.drop 1).dropLast, str ";\x7d"⟩] := by
      decide +kernel
    rw [only] at inFile
    obtain rfl := List.mem_singleton.mp inFile
    exact ⟨by decide +kernel, by decide +kernel, by decide +kernel⟩

/-- A section with the function's code and its table. -/
def nestedDump : Dump :=
  [⟨str "ovl_c", 0, 0x80001000, 0x100, [⟨str "func_80001000", 0x80001000, 0x18⟩]⟩]

/-- The ROM, whose second table entry is the nested target. -/
def nestedRom : List UInt8 := List.replicate 0x24 0 ++ [0x80, 0x00, 0x10, 0x14]

/-- The run exits with zero and leaves the switch with one arm of two. -/
theorem nestedTarget_truncated : ¬ Gated nestedRom nestedDump nestedTree := by
  intro gated
  have ran : fixTree nestedRom nestedDump nestedTree.files = some (nestedTree.files, 0) := by
    decide +kernel
  have short : ∃ file ∈ nestedTree.files, ∃ f ∈ functions file, ∃ s ∈ sites f.body,
      guard f.body s.1 = some 2 ∧ ncases s.1 = 1 := by decide +kernel
  obtain ⟨file, inTree, f, inFile, s, member, guarded, one⟩ := short
  have enough := gated _ ran file inTree f inFile s member 2 guarded
  omega

end NoMercyRecomp.SwitchGate
