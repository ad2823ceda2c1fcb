import NoMercyRecomp.HandEditLaws

/-!
# One edit among the others

Several of the registered edits share a file, and the camera latch and the matrix hook share
their function and their anchor. Each edit is either not in its file yet, so that no line
carries its mark, or it stands in its function. An edit puts itself into its function or
fails, and in both cases leaves what the other edits of the file depend on: whether their
marks are missing, whether they stand in their functions, and how often their anchors occur.

No block and no added line carries the mark of another edit of the file, and an insertion
behind an anchor line neither splits a block without that line nor repeats the line.
-/

namespace NoMercyRecomp.HandEdits

open TextScan Recompiled GeneratedFile

/-- The registered edits in the order of `main`. -/
def registered : List HandEdit :=
  [.dcc4, .rtLatch, .rtEmit, .wcwMatrix, .wcwF2l, .wcwResyncNull, .wcwCull]

/-- Every registered edit is lawful, each by its own lemma. -/
theorem registered_lawful (e : HandEdit) (member : e ∈ registered) : Lawful e := by
  simp only [registered, List.mem_cons, List.not_mem_nil, or_false] at member
  rcases member with rfl | rfl | rfl | rfl | rfl | rfl | rfl
  · exact dcc4_lawful
  · exact rtLatch_lawful
  · exact rtEmit_lawful
  · exact wcwMatrix_lawful
  · exact wcwF2l_lawful
  · exact wcwResyncNull_lawful
  · exact wcwCull_lawful

/-- No line of the file carries the mark. -/
def Fresh (e : HandEdit) (file : List Piece) : Prop := marked e.mark (render file) = false

/-- The block stands in the body, and the other lines of the body do not carry the mark. -/
def Placed (e : HandEdit) (body : List Line) : Prop :=
  ∃ front back, body = front ++ (e.block ++ back) ∧ front.countP (occurs e.mark) = 0 ∧
    back.countP (occurs e.mark) = 0

/-- The edit stands in its function. -/
def Applied (e : HandEdit) (funcs : List GenFunc) : Prop :=
  ∃ f ∈ funcs, f.name = e.func ∧ Placed e f.body

/-- An edit that is placed in a body stands there once. -/
theorem Placed.once {e : HandEdit} {body : List Line} (lawful : Lawful e) (placed : Placed e body) :
    Once e.block body := by
  obtain ⟨front, back, rfl, before, behind⟩ := placed
  exact once_marked e.mark e.block front back lawful.oneMark before behind

/-- A body that an edit is placed in carries its mark. -/
theorem Placed.marked {e : HandEdit} {body : List Line} (lawful : Lawful e)
    (placed : Placed e body) :
    marked e.mark body = true := by
  obtain ⟨front, back, rfl, _, _⟩ := placed
  have some : 0 < e.block.countP (occurs e.mark) := by
    rw [lawful.oneMark]
    exact Nat.one_pos
  obtain ⟨line, member, isMarked⟩ := List.countP_pos_iff.mp some
  exact List.any_eq_true.mpr ⟨line, by simp [member], isMarked⟩

/-- Lines without a mark are lines in none of which it occurs. -/
theorem unmarked_iff (mark : Line) (lines : List Line) :
    HandEdits.marked mark lines = false ↔ ∀ line ∈ lines, occurs mark line = false := by
  simp [HandEdits.marked]

/-! ## Edits that share a file -/

/-- Edits with the same anchor: the one is inserted behind it, the other requires it once. -/
def ShareAnchor (d e : HandEdit) : Prop :=
  ∃ anchor, d.requires = once anchor ∧ e.body = insertBody anchor e.block ∧
    ∀ line ∈ d.block ++ e.block, startsWith anchor line = false

/-- What the second edit writes does not concern the first. -/
structure Apart (d e : HandEdit) : Prop where
  unmarked : ∀ line ∈ e.block ++ e.texts, occurs d.mark line = false
  functions : d.func ≠ e.func ∨ ShareAnchor d e

/-- The latch carries no mark of the matrix hook, and shares its function's anchor. -/
theorem rtLatch_wcwMatrix : Apart .rtLatch .wcwMatrix where
  unmarked := by
    simp only [HandEdit.rtLatch, HandEdit.wcwMatrix, wcwMatrixHook, wcwMatrixDecls]
    repeat rw [str_ofList]
    decide +kernel
  functions := by
    refine Or.inr ⟨c1cs, rfl, rfl, ?_⟩
    simp only [HandEdit.rtLatch, HandEdit.wcwMatrix, rtCameraLatch, wcwMatrixHook, c1cs]
    repeat rw [str_ofList]
    decide +kernel

/-- The matrix hook carries no mark of the latch, and shares its function's anchor. -/
theorem wcwMatrix_rtLatch : Apart .wcwMatrix .rtLatch where
  unmarked := by
    simp only [HandEdit.rtLatch, HandEdit.wcwMatrix, rtCameraLatch]
    repeat rw [str_ofList]
    decide +kernel
  functions := by
    refine Or.inr ⟨c1cs, rfl, rfl, ?_⟩
    simp only [HandEdit.rtLatch, HandEdit.wcwMatrix, rtCameraLatch, wcwMatrixHook, c1cs]
    repeat rw [str_ofList]
    decide +kernel

/-- The emission carries no mark of the culling edit, and is for another function. -/
theorem rtEmit_wcwCull : Apart .rtEmit .wcwCull where
  unmarked := by
    simp only [HandEdit.rtEmit, HandEdit.wcwCull, wcwCullEdit, wcwCullDecls]
    repeat rw [str_ofList]
    decide +kernel
  functions := Or.inl (by decide)

/-- The culling edit carries no mark of the emission, and is for another function. -/
theorem wcwCull_rtEmit : Apart .wcwCull .rtEmit where
  unmarked := by
    simp only [HandEdit.rtEmit, HandEdit.wcwCull, rtEmitCamera]
    repeat rw [str_ofList]
    decide +kernel
  functions := Or.inl (by decide)

/-- The edits of one file do not concern each other: there are four such pairs among those
registered, each with a lemma of its own. -/
theorem registered_apart (d e : HandEdit) (first : d ∈ registered) (second : e ∈ registered)
    (file : d.file = e.file) (different : d.mark ≠ e.mark) : Apart d e := by
  simp only [registered, List.mem_cons, List.not_mem_nil, or_false] at first second
  rcases first with rfl | rfl | rfl | rfl | rfl | rfl | rfl <;>
    rcases second with rfl | rfl | rfl | rfl | rfl | rfl | rfl <;> try exact absurd file (by decide)
  · exact absurd rfl different
  · exact absurd rfl different
  · exact rtLatch_wcwMatrix
  · exact absurd rfl different
  · exact rtEmit_wcwCull
  · exact wcwMatrix_rtLatch
  · exact absurd rfl different
  · exact absurd rfl different
  · exact absurd rfl different
  · exact wcwCull_rtEmit
  · exact absurd rfl different

/-- An edit at a given anchor line: the edit goes through only if the anchor is there once, so no
other line is the anchor and this one is replaced. -/
theorem anchored_at (anchor : Line) (become : Line → List Line) (above below out : List Line)
    (line : Line) (isAnchor : chomp line = anchor)
    (edited : anchored anchor 1 become (above ++ line :: below) = some out) :
    above.countP (fun line => chomp line = anchor) = 0 ∧
      below.countP (fun line => chomp line = anchor) = 0 ∧
      out = above ++ (become line ++ below) := by
  have one : (above ++ line :: below).countP (fun line => chomp line = anchor) = 1 := by
    by_contra other
    rw [anchored, if_neg other] at edited
    cases edited
  have parts : above.countP (fun line => chomp line = anchor) +
      (below.countP (fun line => chomp line = anchor) + 1) = 1 := by
    simpa [List.countP_append, isAnchor] using one
  have before : above.countP (fun line => chomp line = anchor) = 0 := by omega
  have behind : below.countP (fun line => chomp line = anchor) = 0 := by omega
  rw [anchored_split anchor become above below line isAnchor before behind] at edited
  exact ⟨before, behind, (Option.some.inj edited).symm⟩

/-- A line that does not start with the anchor is none. -/
theorem solid_chomp (anchor line : Line) (solid : startsWith anchor line = false) :
    chomp line ≠ anchor := by
  intro isAnchor
  rw [(startsWith_iff anchor line).mpr (isAnchor ▸ chomp_prefix line)] at solid
  cases solid

/-- An insertion behind an anchor leaves a block without the anchor in one piece. The anchor's
line lies before the block or behind it; on either side the block's mark counts as before, since
the inserted lines do not hold it. -/
theorem insertBody_placed_other (d e : HandEdit) (anchor : Line) (body out : List Line)
    (edited : insertBody anchor e.block body = some out)
    (solid : ∀ line ∈ d.block, startsWith anchor line = false)
    (unmarked : ∀ line ∈ e.block, occurs d.mark line = false) (placed : Placed d body) :
    Placed d out := by
  obtain ⟨front, back, rfl, before, behind⟩ := placed
  have noMark : e.block.countP (occurs d.mark) = 0 :=
    List.countP_eq_zero.mpr (fun line member => by simp [unmarked line member])
  obtain ⟨above, line, below, shape, isAnchor, _⟩ := anchored_some anchor _ _ out edited
  have inside : line ∈ front ++ (d.block ++ back) := by
    rw [shape]
    exact List.mem_append_right above List.mem_cons_self
  rw [List.mem_append, List.mem_append] at inside
  rcases inside with inFront | inBlock | inBack
  · obtain ⟨first, second, rfl⟩ := List.append_of_mem inFront
    rw [List.append_assoc, List.cons_append] at edited
    obtain ⟨_, _, rfl⟩ := anchored_at anchor _ first _ out line isAnchor edited
    refine ⟨first ++ (line :: e.block ++ second), back, by simp, ?_, behind⟩
    simp only [List.countP_append, List.countP_cons] at before ⊢
    omega
  · exact absurd isAnchor (solid_chomp anchor line (solid line inBlock))
  · obtain ⟨first, second, rfl⟩ := List.append_of_mem inBack
    rw [show front ++ (d.block ++ (first ++ line :: second)) = (front ++ (d.block ++ first)) ++
      line :: second by simp] at edited
    obtain ⟨_, _, rfl⟩ := anchored_at anchor _ _ second out line isAnchor edited
    refine ⟨front, first ++ (line :: e.block ++ second), by simp, before, ?_⟩
    simp only [List.countP_append, List.countP_cons] at behind ⊢
    omega

/-- An insertion behind the only anchor does not repeat it, so that the other edit has what it
requires before and after. -/
theorem ShareAnchor.requires {d e : HandEdit} (share : ShareAnchor d e) (body out : List Line)
    (edited : e.body body = some out) : d.requires body = true ∧ d.requires out = true := by
  obtain ⟨anchor, requires, insert, solid⟩ := share
  rw [insert] at edited
  obtain ⟨above, line, below, rfl, isAnchor, before, behind, rfl⟩ :=
    anchored_some anchor _ body out edited
  have others : e.block.countP (fun line => chomp line = anchor) = 0 := by
    rw [List.countP_eq_zero]
    intro other member
    simpa using solid_chomp anchor other (solid other (List.mem_append_right _ member))
  rw [requires]
  constructor
  · simp [once, List.countP_append, before, behind, isAnchor]
  · simp [once, List.countP_append, before, behind, isAnchor, others]

/-- It stays where it stands. -/
theorem ShareAnchor.placed {d e : HandEdit} (share : ShareAnchor d e) (body out : List Line)
    (edited : e.body body = some out) (unmarked : ∀ line ∈ e.block, occurs d.mark line = false)
    (placed : Placed d body) : Placed d out := by
  obtain ⟨anchor, _, insert, solid⟩ := share
  rw [insert] at edited
  exact insertBody_placed_other d e anchor body out edited
    (fun line inBlock => solid line (List.mem_append_left _ inBlock)) unmarked placed

/-! ## What an edit keeps -/

/-- The marks of the retired edits. -/
def retiredMarks : List Line := [str "[nomercy][memsz4]", oldLatch]

/-- No registered edit writes a retired mark: the blocks and texts of all of them are searched for
all marks. -/
theorem registered_retired (e : HandEdit) (member : e ∈ registered) (mark : Line)
    (retired : mark ∈ retiredMarks) :
    ∀ line ∈ e.block ++ e.texts, occurs mark line = false := by
  have all : ∀ mark ∈ retiredMarks, ∀ line ∈ registered.flatMap (fun e => e.block ++ e.texts),
      occurs mark line = false := by
    simp only [registered, List.flatMap_cons, List.flatMap_nil, retiredMarks, oldLatch,
      HandEdit.dcc4, HandEdit.rtLatch, HandEdit.rtEmit, HandEdit.wcwMatrix, HandEdit.wcwF2l,
      HandEdit.wcwResyncNull, HandEdit.wcwCull, dcc4Probe, rtCameraLatch, rtEmitCamera,
      wcwMatrixHook, wcwMatrixDecls, wcwF2lHook, wcwF2lDecls, wcwResyncNullGuard, wcwCullEdit,
      wcwCullDecls]
    repeat rw [str_ofList]
    decide +kernel
  intro line inEdit
  exact all mark retired line (List.mem_flatMap.mpr ⟨e, member, inEdit⟩)

/-- A function that no edit of the file targets. -/
def other (name : Line) (f : GenFunc) : Bool :=
  registered.all (fun e => e.file != name || f.name != e.func)

/-- A function that no edit of the file is for has another name than each of them. -/
theorem other_func (e : HandEdit) (member : e ∈ registered) (f : GenFunc)
    (isOther : other e.file f = true) :
    f.name ≠ e.func := by
  have here := List.all_eq_true.mp isOther e member
  simpa using here

/-- What edits of the file keep, whether they succeed or fail. -/
structure Carries (edits : List HandEdit) (name : Line) (file after : List Piece) : Prop where
  generated : Generated after
  others : (funcs after).filter (other name) = (funcs file).filter (other name)
  retired : ∀ mark ∈ retiredMarks, marked mark (render file) = false →
    marked mark (render after) = false
  applied : ∀ d ∈ registered, d.file = name → Applied d (funcs file) → Applied d (funcs after)
  fresh : ∀ d ∈ registered, d.file = name → (∀ e ∈ edits, e.file = name → e.mark ≠ d.mark) →
    Fresh d file → Fresh d after
  ready : ∀ d ∈ registered, d.file = name → (∀ e ∈ edits, e.file = name → e.mark ≠ d.mark) →
    (Ready d (funcs after) ↔ Ready d (funcs file))

/-- A file carries what it holds. -/
theorem Carries.refl (edits : List HandEdit) (name : Line) (file : List Piece)
    (generated : Generated file) :
    Carries edits name file file where
  generated := generated
  others := rfl
  retired := fun _ _ unmarked => unmarked
  applied := fun _ _ _ applied => applied
  fresh := fun _ _ _ _ fresh => fresh
  ready := fun _ _ _ _ => Iff.rfl

/-- What is carried from file to file is carried over both, as each part of it is. -/
theorem Carries.trans {first second : List HandEdit} {name : Line} {file middle after : List Piece}
    (one : Carries first name file middle) (two : Carries second name middle after) :
    Carries (first ++ second) name file after where
  generated := two.generated
  others := two.others.trans one.others
  retired :=
    fun mark retired unmarked => two.retired mark retired (one.retired mark retired unmarked)
  applied := fun d member own applied => two.applied d member own (one.applied d member own applied)
  fresh := by
    intro d member own apart fresh
    apply two.fresh d member own (fun e inSecond => apart e (List.mem_append_right first inSecond))
    exact one.fresh d member own
      (fun e inFirst => apart e (List.mem_append_left second inFirst)) fresh
  ready := by
    intro d member own apart
    have later :=
      two.ready d member own (fun e inSecond => apart e (List.mem_append_right first inSecond))
    exact later.trans (one.ready d member own
      (fun e inFirst => apart e (List.mem_append_left second inFirst)))

/-- An edit keeps its function's name. -/
@[simp] theorem rebody_name (e : HandEdit) (f : GenFunc) : (rebody e f).name = f.name := by
  rw [rebody]
  split <;> rfl

/-- An edit keeps the other functions. -/
theorem rebody_other (e : HandEdit) (f : GenFunc) (different : f.name ≠ e.func) : rebody e f = f :=
  if_neg different

/-- The body of a function is as it was or as the edit makes it. -/
theorem rebody_body (e : HandEdit) (f : GenFunc) :
    (rebody e f).body = f.body ∨ (f.name = e.func ∧ e.body f.body = some (rebody e f).body) := by
  by_cases target : f.name = e.func
  · cases edited : e.body f.body with
    | none => exact Or.inl (by simp [rebody, target, edited])
    | some out => exact Or.inr ⟨target, by simp [rebody, target, edited]⟩
  · exact Or.inl (by rw [rebody_other e f target])

/-- A fresh edit stands nowhere. -/
theorem Fresh.not_applied {e d : HandEdit} {file : List Piece} (fresh : Fresh e file)
    (lawful : Lawful d) (same : e.mark = d.mark) : ¬ Applied d (funcs file) := by
  rintro ⟨f, member, _, placed⟩
  have whole := marked_subset d.mark _ _ (body_render file f member) (placed.marked lawful)
  rw [Fresh, same, whole] at fresh
  cases fresh

/-- A mark that no written line carries is not added. -/
theorem Changed.unmarked {e : HandEdit} {file after : List Piece} (changed : Changed e file after)
    (mark : Line) (written : ∀ line ∈ e.block ++ e.texts, occurs mark line = false)
    (unmarked : marked mark (render file) = false) :
    marked mark (render after) = false := by
  rw [unmarked_iff] at unmarked ⊢
  intro line inAfter
  rcases changed.lines line inAfter with old | inBlock | inTexts
  · exact unmarked line old
  · exact written line (List.mem_append_left _ inBlock)
  · exact written line (List.mem_append_right _ inTexts)

/-- An edit that changed the file keeps what the others depend on: each edit but it stands, is
fresh, and is ready exactly as before. Another function is not touched, and edits that share the
function are known not to disturb each other. -/
theorem Changed.carries {e : HandEdit} {file after : List Piece} (member : e ∈ registered)
    (fresh : Fresh e file) (changed : Changed e file after) : Carries [e] e.file file after where
  generated := changed.generated
  others := by
    have same : other e.file ∘ rebody e = other e.file := funext (fun f => by simp [other])
    rw [changed.funcs, List.filter_map, same]
    refine (List.map_congr_left (fun f inOthers => ?_)).trans (List.map_id _)
    exact rebody_other e f (other_func e member f (List.mem_filter.mp inOthers).2)
  retired := by
    intro mark retired
    exact changed.unmarked mark (registered_retired e member mark retired)
  applied := by
    intro d inRegistered own applied
    have different : d.mark ≠ e.mark := fun same =>
      fresh.not_applied (registered_lawful d inRegistered) same.symm applied
    have apart := registered_apart d e inRegistered member own different
    obtain ⟨f, inFile, named, placed⟩ := applied
    refine ⟨rebody e f, ?_, (rebody_name e f).trans named, ?_⟩
    · rw [changed.funcs]
      exact List.mem_map_of_mem inFile
    · rcases rebody_body e f with same | ⟨target, edited⟩
      · rw [same]
        exact placed
      · rcases apart.functions with others | share
        · exact absurd (named.symm.trans target) others
        · exact share.placed f.body _ edited
            (fun line inBlock => apart.unmarked line (List.mem_append_left _ inBlock)) placed
  fresh := by
    intro d inRegistered own apart
    have different : d.mark ≠ e.mark := (apart e List.mem_cons_self rfl).symm
    exact changed.unmarked d.mark (registered_apart d e inRegistered member own different).unmarked
  ready := by
    intro d inRegistered own apart
    have different : d.mark ≠ e.mark := (apart e List.mem_cons_self rfl).symm
    have functions := (registered_apart d e inRegistered member own different).functions
    -- the function of the other edit needs its anchors as often as before
    have same (f : GenFunc) (named : f.name = d.func) :
        d.requires (rebody e f).body = d.requires f.body := by
      rcases rebody_body e f with unchanged | ⟨target, edited⟩
      · rw [unchanged]
      · rcases functions with others | share
        · exact absurd (named.symm.trans target) others
        · obtain ⟨before, behind⟩ := share.requires f.body _ edited
          rw [before, behind]
    rw [changed.funcs]
    constructor
    · rintro ⟨g, inAfter, named, required⟩
      obtain ⟨f, inFile, rfl⟩ := List.mem_map.mp inAfter
      rw [rebody_name] at named
      exact ⟨f, inFile, named, (same f named).symm.trans required⟩
    · rintro ⟨f, inFile, named, required⟩
      exact ⟨rebody e f, List.mem_map_of_mem inFile, (rebody_name e f).trans named,
        (same f named).trans required⟩

/-- It stands in its function: the body edit has put the block there in one piece, and the rest of
the file has none of its mark. -/
theorem changed_stands {e : HandEdit} {file after : List Piece} (lawful : Lawful e)
    (fresh : Fresh e file)
    (ready : Ready e (funcs file)) (changed : Changed e file after) : Applied e (funcs after) := by
  obtain ⟨f, member, named, required⟩ := ready
  rw [← lawful.ready, Option.isSome_iff_exists] at required
  obtain ⟨out, edited⟩ := required
  have body : (rebody e f).body = out := by simp [rebody, named, edited]
  refine ⟨rebody e f, ?_, (rebody_name e f).trans named, ?_⟩
  · rw [changed.funcs]
    exact List.mem_map_of_mem member
  · obtain ⟨front, back, placed, old⟩ := lawful.placed f.body out edited
    have none : (front ++ back).countP (occurs e.mark) = 0 := by
      rw [List.countP_eq_zero]
      intro line inside
      rw [Fresh, unmarked_iff] at fresh
      simp [fresh line (body_render file f member (old.subset inside))]
    rw [List.countP_append] at none
    exact ⟨front, back, body.trans placed, by omega, by omega⟩

/-- An edit that is in its file already leaves it. -/
theorem Applied.apply {e : HandEdit} {file : List Piece} (lawful : Lawful e)
    (generated : Generated file)
    (applied : Applied e (funcs file)) : e.apply (render file) = some (render file) := by
  obtain ⟨f, member, named, placed⟩ := applied
  exact lawful.again file f generated member named (placed.marked lawful)

/-- A step of the script on its file: the edit stands in its function or fails, and keeps what
the others depend on. -/
theorem edit_step (e : HandEdit) (member : e ∈ registered) (file : List Piece)
    (generated : Generated file) (settled : Fresh e file ∨ Applied e (funcs file)) :
    ∃ after, (e.apply (render file)).getD (render file) = render after ∧
      Carries [e] e.file file after ∧
      ((e.apply (render file)).isSome = true → Applied e (funcs after)) := by
  have lawful := registered_lawful e member
  rcases settled with fresh | applied
  · by_cases ready : Ready e (funcs file)
    · obtain ⟨after, edited, changed⟩ := lawful.changes file generated fresh ready
      refine ⟨after, ?_, changed.carries member fresh,
        fun _ => changed_stands lawful fresh ready changed⟩
      rw [edited]
      rfl
    · have failed := lawful.fails file generated fresh ready
      refine ⟨file, ?_, Carries.refl [e] e.file file generated, ?_⟩
      · rw [failed]
        rfl
      · intro succeeded
        rw [failed] at succeeded
        cases succeeded
  · have same := applied.apply lawful generated
    refine ⟨file, ?_, Carries.refl [e] e.file file generated, fun _ => applied⟩
    rw [same]
    rfl

/-- An edit that stands or is ready does not fail. One that stands is recognised, and one that is
fresh and ready is made. -/
theorem edit_succeeds (e : HandEdit) (member : e ∈ registered) (file : List Piece)
    (generated : Generated file) (settled : Fresh e file ∨ Applied e (funcs file))
    (ready : Applied e (funcs file) ∨ Ready e (funcs file)) :
    (e.apply (render file)).isSome = true := by
  have lawful := registered_lawful e member
  have stands (applied : Applied e (funcs file)) : (e.apply (render file)).isSome = true := by
    rw [applied.apply lawful generated]
    rfl
  rcases settled with fresh | applied
  · rcases ready with applied | ready
    · exact stands applied
    · obtain ⟨after, edited, _⟩ := lawful.changes file generated fresh ready
      rw [edited]
      rfl
  · exact stands applied

end NoMercyRecomp.HandEdits
