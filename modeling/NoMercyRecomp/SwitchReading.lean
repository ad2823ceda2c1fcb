import NoMercyRecomp.SwitchPlan

/-!
# Reading a completed body

In a completed body the pass finds the sites of the original one. Labels stand before
decode lines and a block directly before its default arm, so the guard of a site is
unchanged and its switch has gained the arms of its block and no others. For this a
switch must have a single default arm, as N64Recomp writes it; otherwise the block of
one site would stand among the arms of the next.
-/

namespace NoMercyRecomp.SwitchReading

open TextScan SymbolTable Recompiled Contexts Growth FixSwitches SwitchPlan

/-! ## The planned lines -/

/-- The marks of a plan. -/
def marks (rom : List UInt8) (dump : Dump) (body : List Line) : List (Mark Line) :=
  (plan rom dump body (sites body) []).map Addition.mark

/-- A default arm is no decode line. -/
theorem site_no_decode (line : Line) (site : Site) (isSite : siteRe line = some site)
    (target : Nat) :
    (decodeText target).isPrefixOf line = false := by
  cases starts : (decodeText target).isPrefixOf line with
  | false => rfl
  | true =>
    obtain ⟨rest, rfl⟩ := List.isPrefixOf_iff_prefix.mp starts
    have text : (decodeText target ++ rest).dropWhile (· == ' ') =
        '/' :: (str "/ 0x" ++ (hex8 target ++ [':'] ++ rest)) := rfl
    simp [siteRe_other _ _ '/' text (by decide)] at isSite

section Planned

variable (rom : List UInt8) (dump : Dump) (body : List Line)

/-- Label marks put nothing before a default arm. -/
theorem marked_labels (line : Line) (site : Site) (isSite : siteRe line = some site)
    (labels : List Nat) :
    marked ((labels.map Addition.label).map Addition.mark) line = [] := by
  refine List.flatMap_eq_nil_iff.mpr (fun mark member => ?_)
  obtain ⟨addition, among, rfl⟩ := List.mem_map.mp member
  obtain ⟨target, _, rfl⟩ := List.mem_map.mp among
  simp [Addition.mark, site_no_decode line site isSite target]

/-- Before a default arm stand the blocks of its own verdicts. By induction on the sites: an
addition is put in at its own arm, and labels are not put before such lines. -/
theorem marked_plan (line : Line) (site : Site) (isSite : siteRe line = some site)
    (rest : List (List Line × Site)) (additions : List Addition) :
    marked ((plan rom dump body rest additions).map Addition.mark) line =
      marked (additions.map Addition.mark) line ++
        rest.flatMap (fun s => if s.2 = site then (verdict rom dump body s.1 s.2).lines s.2
          else []) := by
  induction rest generalizing additions with
  | nil => simp [plan]
  | cons first rest inductionHypothesis =>
    obtain ⟨before, other⟩ := first
    rw [plan, List.flatMap_cons]
    cases outcome : verdict rom dump body before other with
    | completed bound offset arms =>
      have added :
        marked ((siteAdditions body additions other bound offset arms).map Addition.mark) line =
          if other = site then completion other bound offset (arms.map Arm.line) else [] := by
        rw [siteAdditions, List.map_append, marked, List.flatMap_append]
        have labels := marked_labels line site isSite
          (newLabels body (additions.filterMap Addition.target?) arms [])
        rw [marked] at labels
        rw [labels]
        by_cases same : other = site
        · simp [Addition.mark, isSite, same]
        · simp [Addition.mark, isSite, same, Ne.symm same]
      simp only [inductionHypothesis, List.map_append, Verdict.lines]
      rw [marked, List.flatMap_append, ← marked, ← marked, added, List.append_assoc]
    | kept => simp [inductionHypothesis, Verdict.lines]
    | unmapped => simp [inductionHypothesis, Verdict.lines]
    | failed failure => simp [inductionHypothesis, Verdict.lines]

/-- Before another line stand labels of the target it decodes. -/
theorem marked_plain (line : Line) (plain : siteRe line = none) (inserted : Line)
    (member : inserted ∈ marked (marks rom dump body) line) :
    ∃ target, .label target ∈ plan rom dump body (sites body) [] ∧
      inserted = label target ++ [':'] ∧ (decodeText target).isPrefixOf line = true := by
  obtain ⟨mark, among, isWanted, inBlock⟩ := mem_marked _ _ _ member
  obtain ⟨addition, planned, rfl⟩ := List.mem_map.mp among
  cases addition with
  | label target => exact ⟨target, planned, List.mem_singleton.mp inBlock, isWanted⟩
  | block site bound offset arms => simp [Addition.mark, plain] at isWanted

/-- No planned line is a default arm, opens a switch or holds a guard. -/
theorem marks_foreign (line inserted : Line)
    (member : inserted ∈ marked (marks rom dump body) line) :
    Foreign inserted := by
  obtain ⟨mark, among, _, inBlock⟩ := mem_marked _ _ _ member
  obtain ⟨addition, planned, rfl⟩ := List.mem_map.mp among
  have placed :=
    plan_placed rom dump body (sites body) (List.Subset.refl _) [] (by simp) addition planned
  exact addition_foreign body addition placed inserted inBlock

variable (distinct : ((sites body).map Prod.snd).Nodup)
include distinct

/-- Before a default arm stands the block of its verdict and no other, as the addresses of sites
are distinct. -/
theorem marked_site (before : List Line) (site : Site) (member : (before, site) ∈ sites body)
    (line : Line) (isSite : siteRe line = some site) :
    marked (marks rom dump body) line = (verdict rom dump body before site).lines site := by
  rw [marks, marked_plan rom dump body line site isSite]
  obtain ⟨earlier, later, split⟩ := List.append_of_mem member
  rw [split] at distinct ⊢
  have others : ∀ s ∈ earlier ++ later, s.2 ≠ site := by
    intro s among same
    rw [List.map_append, List.map_cons, List.nodup_middle] at distinct
    exact (List.nodup_cons.mp distinct).1
      (by rw [← List.map_append]; exact List.mem_map.mpr ⟨s, among, same⟩)
  have silent (list : List (List Line × Site)) (inside : list ⊆ earlier ++ later) :
      list.flatMap (fun s => if s.2 = site then (verdict rom dump body s.1 s.2).lines s.2 else []) =
        [] := by
    refine List.flatMap_eq_nil_iff.mpr (fun s among => ?_)
    rw [if_neg (others s (inside among))]
  rw [List.flatMap_append, List.flatMap_cons, silent earlier (List.subset_append_left _ _),
    silent later (List.subset_append_right _ _)]
  simp [marked]

end Planned

/-- A verdict's lines hold its arms: the comments of a completion hold none, and each further line
one. -/
theorem block_arms (site : Site) (spaces : ∀ c ∈ site.indent, c = ' ') (outcome : Verdict) :
    (outcome.lines site).flatMap armsOn = outcome.arms.map (fun arm => decimal arm.index) := by
  cases outcome with
  | completed bound offset arms =>
    have comments := comment_foreign site.indent spaces bound offset
    have own : (arms.map (fun arm => site.indent ++ arm.line)).flatMap armsOn =
        arms.map (fun arm => decimal arm.index) := by
      rw [List.flatMap_map, List.map_eq_flatMap]
      exact List.flatMap_congr (fun arm _ => (arm_foreign site.indent spaces arm).2)
    rw [Verdict.lines, completion, List.flatMap_cons, List.flatMap_cons, comments.1.2, comments.2.2,
      List.map_map]
    exact own
  | kept => rfl
  | unmapped => rfl
  | failed failure => rfl

/-! ## Sites of a completed body -/

/-- There is no last switch exactly when no line opens one, by induction on the lines. -/
theorem lastSwitch_none (list : List Line) :
    lastSwitch list = none ↔ ∀ line ∈ list, opensSwitch line = false := by
  induction list with
  | nil => simp [lastSwitch]
  | cons line rest inductionHypothesis =>
    cases later : lastSwitch rest with
    | some found =>
      have opened := mt inductionHypothesis.mpr (by simp [later])
      simp only [lastSwitch, later, List.forall_mem_cons]
      constructor
      · simp
      · exact fun closed => absurd closed.2 opened
    | none =>
      have closed := inductionHypothesis.mp later
      cases here : opensSwitch line with
      | true => simp [lastSwitch, later, here]
      | false => simpa [lastSwitch, later, here] using closed

/-- The last line that opens a switch divides the lines. -/
theorem lastSwitch_append (front inner : List Line) (line : Line) (opens : opensSwitch line = true)
    (closed : ∀ other ∈ inner, opensSwitch other = false) :
    lastSwitch (front ++ line :: inner) = some (front, line :: inner) := by
  induction front with
  | nil => simp [lastSwitch, (lastSwitch_none inner).mpr closed, opens]
  | cons first front inductionHypothesis => simp [lastSwitch, inductionHypothesis]

/-- The last switch is a line that opens one, with no such line behind it. By induction on the
lines, from the end. -/
theorem lastSwitch_some (list front since : List Line)
    (found : lastSwitch list = some (front, since)) :
    ∃ line inner, since = line :: inner ∧ list = front ++ line :: inner ∧ opensSwitch line = true ∧
      ∀ other ∈ inner, opensSwitch other = false := by
  induction list generalizing front with
  | nil => simp [lastSwitch] at found
  | cons first rest inductionHypothesis =>
    cases later : lastSwitch rest with
    | some parts =>
      obtain ⟨before, rest'⟩ := parts
      have same : (first :: before, rest') = (front, since) := by
        simpa [lastSwitch, later] using found
      obtain ⟨rfl, rfl⟩ := Prod.mk.inj same
      obtain ⟨line, inner, rfl, rfl, opens, closed⟩ := inductionHypothesis before later
      exact ⟨line, inner, rfl, rfl, opens, closed⟩
    | none =>
      cases opens : opensSwitch first with
      | false => simp [lastSwitch, later, opens] at found
      | true =>
        have same : ([], first :: rest) = (front, since) := by
          simpa [lastSwitch, later, opens] using found
        obtain ⟨rfl, rfl⟩ := Prod.mk.inj same
        exact ⟨first, rest, rfl, rfl, opens, (lastSwitch_none rest).mp later⟩

/-- The shape in which N64Recomp writes the switches of a function: no two default arms name the
same addresses, each stands in a switch, and no other default arm stands between. The text of
one arm then occurs in no other, whatever their indentation. -/
structure WellFormed (body : List Line) : Prop where
  addresses : ((sites body).map (fun s => (s.2.pc, s.2.table))).Nodup
  opened : ∀ s ∈ sites body, (lastSwitch s.1).isSome
  oneDefault : ∀ s ∈ sites body, ∀ line ∈ switchLines s.1, siteRe line = none

/-- The sites of a well-formed body are apart, since their addresses are. -/
theorem WellFormed.distinct {body : List Line} (wellFormed : WellFormed body) :
    ((sites body).map Prod.snd).Nodup := by
  refine List.Nodup.of_map (fun site : Site => (site.pc, site.table)) ?_
  rw [List.map_map]
  exact wellFormed.addresses

section Completed

variable (rom : List UInt8) (dump : Dump) (body : List Line) (wellFormed : WellFormed body)

/-- A body with its planned additions. -/
def completed : List Line := grown body (plan rom dump body (sites body) [])

/-- The lines before a site once the plan is made. -/
def completedBefore (before : List Line) (site : Site) : List Line :=
  lines (grow (marks rom dump body) before) ++ (verdict rom dump body before site).lines site

include wellFormed

/-- The sites of a completed body are the original ones, each behind the completed lines of what
was before it. No added line is a site, and each line's own additions stand right before it. -/
theorem sites_completed (s : List Line × Site) : s ∈ sites (completed rom dump body) ↔
    ∃ before, (before, s.2) ∈ sites body ∧ s.1 = completedBefore rom dump body before s.2 := by
  obtain ⟨after, site⟩ := s
  have own (line : Line) (isSite : siteRe line = some site) : ∀ mark ∈ marks rom dump body,
      line ∉ mark.2 := by
    intro mark among inBlock
    obtain ⟨addition, planned, rfl⟩ := List.mem_map.mp among
    have placed :=
      plan_placed rom dump body (sites body) (List.Subset.refl _) [] (by simp) addition planned
    simp [(addition_foreign body addition placed line inBlock).site] at isSite
  rw [mem_sites]
  constructor
  · rintro ⟨line, behind, split, isSite⟩
    have member := (mem_contexts _ (after, line, behind)).mpr split
    obtain ⟨⟨before, own', behind'⟩, inBody, same⟩ :=
      (contexts_grow _ _ _ (own line isSite)).mp member
    obtain ⟨rfl, rfl, rfl⟩ : after = _ ∧ line = own' ∧ behind = _ := by simpa using same
    have isOld :=
      (mem_sites body before site).mpr ⟨line, behind', (mem_contexts _ _).mp inBody, isSite⟩
    refine ⟨before, isOld, ?_⟩
    rw [completedBefore,
      ← marked_site rom dump body wellFormed.distinct before site isOld line isSite]
    rfl
  · rintro ⟨before, isOld, same⟩
    obtain ⟨line, behind, split, isSite⟩ := (mem_sites body before site).mp isOld
    have inBody := (mem_contexts _ (before, line, behind)).mpr split
    have member :=
      (contexts_grow (marks rom dump body) body (_, line, _) (own line isSite)).mpr ⟨_, inBody, rfl⟩
    refine ⟨line, lines (grow (marks rom dump body) behind), ?_, isSite⟩
    obtain rfl : after = completedBefore rom dump body before site := same
    rw [completedBefore,
      ← marked_site rom dump body wellFormed.distinct before site isOld line isSite]
    exact (mem_contexts _ _).mp member

/-- The guard before a site is unchanged, and its switch has gained the planned lines;
what it had before holds the arms it had. -/
theorem completed_reading (before : List Line) (site : Site)
    (member : (before, site) ∈ sites body) :
    guard (completed rom dump body) (completedBefore rom dump body before site) =
      guard body before ∧ ∃ kept, switchLines (completedBefore rom dump body before site) =
          kept ++ (verdict rom dump body before site).lines site ∧
        kept.flatMap armsOn = (switchLines before).flatMap armsOn := by
  obtain ⟨⟨front, since⟩, found⟩ := Option.isSome_iff_exists.mp (wellFormed.opened _ member)
  obtain ⟨opening, inner, rfl, split, opens, closed⟩ := lastSwitch_some before front since found
  have foreign (list : List Line) : ∀ pair ∈ grow (marks rom dump body) list, ∀ line ∈ pair.1,
      Foreign line := by
    intro pair among line inside
    obtain ⟨x, _, rfl⟩ := List.mem_map.mp among
    exact marks_foreign rom dump body x line inside
  obtain ⟨line, _, _, isSite⟩ := (mem_sites body before site).mp member
  have block : ∀ inserted ∈ (verdict rom dump body before site).lines site, Foreign inserted := by
    rw [← marked_site rom dump body wellFormed.distinct before site member line isSite]
    exact marks_foreign rom dump body line
  have shape : completedBefore rom dump body before site =
      (lines (grow (marks rom dump body) front) ++ marked (marks rom dump body) opening) ++
        opening :: (lines (grow (marks rom dump body) inner) ++
          (verdict rom dump body before site).lines site) := by
    rw [completedBefore, split, grow_append, lines_append, grow_cons]
    simp [lines]
  have stillClosed : ∀ other ∈ lines (grow (marks rom dump body) inner) ++
      (verdict rom dump body before site).lines site, opensSwitch other = false := by
    intro other among
    rcases List.mem_append.mp among with inSwitch | inBlock
    · obtain ⟨pair, inGrown, inPair⟩ := List.mem_flatMap.mp inSwitch
      rcases List.mem_append.mp inPair with inserted | own
      · exact (foreign inner pair inGrown other inserted).switch
      · obtain ⟨x, inInner, rfl⟩ := List.mem_map.mp inGrown
        exact closed other (by simpa [List.mem_singleton.mp own] using inInner)
    · exact (block other inBlock).switch
  have reopened := lastSwitch_append
    (lines (grow (marks rom dump body) front) ++
      marked (marks rom dump body) opening) _ opening opens stillClosed
  rw [← shape] at reopened
  have guards : (lines (grow (marks rom dump body) front) ++
    marked (marks rom dump body) opening).flatMap guardsOn = front.flatMap guardsOn := by
    have silent : (marked (marks rom dump body) opening).flatMap guardsOn = [] :=
      List.flatMap_eq_nil_iff.mpr (fun inserted inside =>
        (marks_foreign rom dump body opening inserted inside).guards)
    rw [List.flatMap_append, silent, flatMap_lines _ _ (fun pair inGrown inserted inside =>
      (foreign front pair inGrown inserted inside).guards)]
    simp
  have plain :
      (lines (grow (marks rom dump body) inner)).flatMap armsOn = inner.flatMap armsOn := by
    have inSwitch : ∀ other ∈ inner, siteRe other = none := fun other inside =>
      wellFormed.oneDefault _ member other (by simp [switchLines, found, inside])
    rw [flatMap_lines _ _ (fun pair inGrown inserted inside => ?_), original_grow]
    obtain ⟨x, inInner, rfl⟩ := List.mem_map.mp inGrown
    obtain ⟨target, _, rfl, _⟩ := marked_plain rom dump body x (inSwitch x inInner) inserted inside
    exact (label_foreign target).2
  constructor
  · simp only [FixSwitches.guard, reopened, found, guards]
  · refine ⟨opening :: lines (grow (marks rom dump body) inner), ?_, ?_⟩
    · simp only [switchLines, reopened, Option.map_some, Option.getD_some, List.cons_append]
    · simp only [switchLines, found, Option.map_some, Option.getD_some, List.flatMap_cons, plain]

/-- The arms of a switch in a completed body. -/
theorem completed_arms (before : List Line) (site : Site) (member : (before, site) ∈ sites body) :
    (switchLines (completedBefore rom dump body before site)).flatMap armsOn =
      (switchLines before).flatMap armsOn ++
        (verdict rom dump body before site).arms.map (fun arm => decimal arm.index) := by
  obtain ⟨line, _, _, isSite⟩ := (mem_sites body before site).mp member
  obtain ⟨_, kept, shape, same⟩ := completed_reading rom dump body wellFormed before site member
  rw [shape, List.flatMap_append, same, block_arms _ (siteRe_indent line site isSite)]

end Completed

end NoMercyRecomp.SwitchReading
