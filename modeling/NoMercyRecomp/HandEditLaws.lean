import NoMercyRecomp.GeneratedFile

/-!
# The registered hand edits

Seven edits are registered: the dcc4 probe, the two camera hooks of the ray tracing, the
two matrix hooks, the null guard and the widescreen cull. Each has a target function in a
file, a mark by which it finds that it was applied already, a block that it puts into the
function, and lines that it may add outside functions.

On a generated file without its mark an edit changes the body of its function and adds its
lines; it fails when the function is missing or its anchors do not occur as often as
required. Where its function carries the mark it changes nothing. Six of the edits look for
the mark before they insert and add their lines afterwards; the probe adds its include
first. The search for the mark covers the file, or for the camera hooks the function.
-/

namespace NoMercyRecomp.HandEdits

open TextScan Recompiled GeneratedFile

/-- A registered edit: where it applies, its mark, its block, the lines it adds outside
functions, how often it requires its anchors in a body, its effect on the body, its effect
on the lines of the file, and whether it stops the script when it fails. -/
structure HandEdit where
  file : Line
  func : Line
  mark : Line
  block : List Line
  texts : List Line
  requires : List Line → Bool
  body : List Line → Option (List Line)
  apply : List Line → Option (List Line)
  stops : List Line → Bool

/-- `    int c1cs = 0;` -/
def c1cs : Line := str "    int c1cs = 0;"

/-- The anchor occurs once. -/
def once (anchor : Line) (body : List Line) : Bool :=
  decide (body.countP (fun line => chomp line = anchor) = 1)

/-- The text is inserted behind the only anchor. -/
def insertBody (anchor : Line) (text : List Line) : List Line → Option (List Line) :=
  anchored anchor 1 (fun line => line :: text)

/-- A header without a closing line: `body_range` then has a start but no end, and the range
of its lines raises a `TypeError`. -/
def unclosed (func : Line) (lines : List Line) : Bool :=
  lines.any (startsWith (signature func)) && (bodyRange func lines).isNone

def HandEdit.dcc4 : HandEdit where
  file := str "funcs_55.c"
  func := str "func_8011DCC4"
  mark := str "[nomercy][dcc4]"
  block := dcc4Probe
  texts :=
    [str "#include <stdio.h>  /* [nomercy HAND-EDIT] " ++ (str "dcc4 portrait probe" ++ str " */")]
  requires := once c1cs
  body := insertBody c1cs dcc4Probe
  apply := HandEdits.dcc4
  stops := unclosed (str "func_8011DCC4")

def HandEdit.rtLatch : HandEdit where
  file := str "funcs_0.c"
  func := str "func_80001E08"
  mark := str "[nomercy][rt]"
  block := rtCameraLatch
  texts := []
  requires := once c1cs
  body := insertBody c1cs rtCameraLatch
  apply := HandEdits.rtLatch
  stops := fun _ => true

def HandEdit.rtEmit : HandEdit where
  file := str "funcs_1.c"
  func := str "func_80002FA4"
  mark := str "[nomercy][rt]"
  block := rtEmitCamera
  texts := []
  requires := once (str "    func_80002BB4(rdram, ctx);")
  body := insertBody (str "    func_80002BB4(rdram, ctx);") rtEmitCamera
  apply := HandEdits.rtEmit
  stops := fun _ => true

def HandEdit.wcwMatrix : HandEdit where
  file := str "funcs_0.c"
  func := str "func_80001E08"
  mark := str "wcw_interp_process_multiply"
  block := wcwMatrixHook
  texts := wcwMatrixDecls
  requires := once c1cs
  body := insertBody c1cs wcwMatrixHook
  apply := HandEdits.wcwMatrix
  stops := unclosed (str "func_80001E08")

def HandEdit.wcwF2l : HandEdit where
  file := str "funcs_16.c"
  func := str "func_80038880"
  mark := str "wcw_interp_forward_local_matrix"
  block := wcwF2lHook
  texts := wcwF2lDecls
  requires := once c1cs
  body := insertBody c1cs wcwF2lHook
  apply := HandEdits.wcwF2l
  stops := unclosed (str "func_80038880")

def HandEdit.wcwResyncNull : HandEdit where
  file := str "funcs_10.c"
  func := str "func_80022CEC"
  mark := str "[wcw fix] netplay: after a resync"
  block := wcwResyncNullGuard
  texts := []
  requires := once (str "    func_80021B10(rdram, ctx);")
  body := anchored (str "    func_80021B10(rdram, ctx);") 1 (fun _ => wcwResyncNullGuard)
  apply := HandEdits.wcwResyncNull
  stops := unclosed (str "func_80022CEC")

/-- One x load, and two compares behind it. -/
def cullRequires (body : List Line) : Bool :=
  decide (body.countP (fun line => chomp line = wcwCullXLoad) = 1) &&
    decide ((body.dropWhile (fun line => chomp line != wcwCullXLoad)).countP (fun line =>
      chomp line = wcwCullCompare) = 2)

def HandEdit.wcwCull : HandEdit where
  file := str "funcs_1.c"
  func := str "func_800024F8"
  mark := str "wcw_widescreen_cull_scale"
  block := wcwCullEdit
  texts := wcwCullDecls
  requires := cullRequires
  body := cullBody
  apply := HandEdits.wcwCull
  stops := unclosed (str "func_800024F8")

/-! ## Bodies -/

/-- The only line of a class splits the list, with no line of the class on either side. By
induction on the list, up to that line. -/
theorem countP_one {α : Type} (class? : α → Bool) (list : List α) (one : list.countP class? = 1) :
    ∃ front x back, list = front ++ x :: back ∧ class? x = true ∧ front.countP class? = 0 ∧
    back.countP class? = 0 := by
  induction list with
  | nil => simp at one
  | cons x list inductionHypothesis =>
    cases here : class? x with
    | true =>
      rw [List.countP_cons_of_pos here] at one
      exact ⟨[], x, list, rfl, here, rfl, by omega⟩
    | false =>
      rw [List.countP_cons_of_neg (by simp [here])] at one
      obtain ⟨front, y, back, rfl, inside, before, behind⟩ := inductionHypothesis one
      exact ⟨x :: front, y, back, rfl, inside, by simp [here, before], behind⟩

/-- Lines without the anchor are left as they are. -/
theorem atAnchor_none (anchor : Line) (become : Line → List Line) (lines : List Line)
    (absent : lines.countP (fun line => chomp line = anchor) = 0) :
    atAnchor anchor become lines = lines := by
  rw [List.countP_eq_zero] at absent
  induction lines with
  | nil => rfl
  | cons line lines inductionHypothesis =>
    have other : chomp line ≠ anchor := by simpa using absent line List.mem_cons_self
    have later := inductionHypothesis (fun x member => absent x (List.mem_cons_of_mem line member))
    rw [atAnchor] at later ⊢
    simp [other, later]

/-- An edit at the only anchor of a body. -/
theorem anchored_split (anchor : Line) (become : Line → List Line) (above below : List Line)
    (line : Line)
    (isAnchor : chomp line = anchor) (before : above.countP (fun line => chomp line = anchor) = 0)
    (behind : below.countP (fun line => chomp line = anchor) = 0) :
    anchored anchor 1 become (above ++ line :: below) = some (above ++ (become line ++ below)) := by
  have count : (above ++ line :: below).countP (fun line => chomp line = anchor) = 1 := by
    simp [List.countP_append, before, behind, isAnchor]
  have parts : atAnchor anchor become (above ++ line :: below) =
      atAnchor anchor become above ++ (become line ++ atAnchor anchor become below) := by
    simp [atAnchor, isAnchor]
  rw [anchored, if_pos count, parts, atAnchor_none anchor become above before,
    atAnchor_none anchor become below behind]

/-- An anchored edit happens at its only anchor. -/
theorem anchored_some (anchor : Line) (become : Line → List Line) (body out : List Line)
    (edited : anchored anchor 1 become body = some out) :
    ∃ above line below, body = above ++ line :: below ∧ chomp line = anchor ∧
      above.countP (fun line => chomp line = anchor) = 0 ∧
      below.countP (fun line => chomp line = anchor) = 0 ∧
      out = above ++ (become line ++ below) := by
  have one : body.countP (fun line => chomp line = anchor) = 1 := by
    by_contra other
    simp [anchored, other] at edited
  obtain ⟨above, line, below, rfl, isAnchor, before, behind⟩ := countP_one _ body one
  have isAnchor : chomp line = anchor := of_decide_eq_true isAnchor
  rw [anchored_split anchor become above below line isAnchor before behind] at edited
  exact ⟨above, line, below, rfl, isAnchor, before, behind, (Option.some.inj edited).symm⟩

/-- A block stands in the lines at exactly one place. -/
def Once (block lines : List Line) : Prop :=
  ∃! around : List Line × List Line, lines = around.1 ++ (block ++ around.2)

/-- A block with one marked line, among lines without the mark, stands at one place: wherever the
block stands, its marked line does, and there is one such line. -/
theorem once_marked (mark : Line) (block front back : List Line)
    (one : block.countP (occurs mark) = 1)
    (before : front.countP (occurs mark) = 0) (behind : back.countP (occurs mark) = 0) :
    Once block (front ++ (block ++ back)) := by
  refine ⟨(front, back), rfl, ?_⟩
  rintro ⟨front', back'⟩ same
  dsimp only at same
  obtain ⟨above, line, below, rfl, isMarked, aboveNone, _⟩ := countP_one (occurs mark) block one
  have total := congrArg (List.countP (occurs mark)) same
  simp only [List.countP_append, before, behind, one] at total
  have before' : front'.countP (occurs mark) = 0 := by omega
  -- both copies are placed by the first marked line
  have first (around : List Line) (none : around.countP (occurs mark) = 0) (rest : List Line) :
      (around ++ ((above ++ line :: below) ++ rest)).takeWhile (fun line => !occurs mark line) =
        around ++ above := by
    have unmarked : ∀ x ∈ around ++ above, (!occurs mark x) = true := by
      intro x member
      have zero : (around ++ above).countP (occurs mark) = 0 := by
        rw [List.countP_append, none, aboveNone]
      simpa using List.countP_eq_zero.mp zero x member
    have shape : around ++ ((above ++ line :: below) ++ rest) =
        (around ++ above) ++ line :: (below ++ rest) := by simp
    rw [shape, List.takeWhile_append_of_pos unmarked]
    simp [isMarked]
  have fronts : front = front' := by
    have cut := congrArg (List.takeWhile (fun line => !occurs mark line)) same
    rw [first front before back, first front' before' back'] at cut
    exact List.append_cancel_right cut
  subst fronts
  have backs : back = back' := List.append_cancel_left (List.append_cancel_left same)
  rw [backs]

/-! ## What an edit does to a file -/

/-- The function with its body edited, if it is the target. -/
def rebody (e : HandEdit) (f : GenFunc) : GenFunc :=
  if f.name = e.func then { f with body := (e.body f.body).getD f.body } else f

/-- The laws of a registered edit. -/
structure Lawful (e : HandEdit) : Prop where
  found : ∀ front f back, Generated (front ++ .func f :: back) → f.name = e.func →
    marked e.mark (render (front ++ .func f :: back)) = false →
      (e.body f.body = none → e.apply (render (front ++ .func f :: back)) = none) ∧
      ∀ body, e.body f.body = some body → ∃ added after, added ⊆ e.texts ∧
        Adds added (front ++ .func { f with body := body } :: back) after ∧
          e.apply (render (front ++ .func f :: back)) = some (render after)
  missing : ∀ file, Generated file → marked e.mark (render file) = false →
    (∀ g ∈ funcs file, g.name ≠ e.func) → e.apply (render file) = none
  again : ∀ file f, Generated file → f ∈ funcs file → f.name = e.func →
    marked e.mark f.body = true → e.apply (render file) = some (render file)
  ready : ∀ body, (e.body body).isSome = e.requires body
  placed : ∀ body out, e.body body = some out →
    ∃ front back, out = front ++ (e.block ++ back) ∧ (front ++ back).Sublist body
  plainBlock : ∀ line ∈ e.block, plain line = true
  plainTexts : ∀ line ∈ e.texts, startsWith head line = false
  oneMark : e.block.countP (occurs e.mark) = 1

/-- The file after a successful edit. -/
structure Changed (e : HandEdit) (file after : List Piece) : Prop where
  generated : Generated after
  funcs : funcs after = (funcs file).map (rebody e)
  lines : ∀ line ∈ render after, line ∈ render file ∨ line ∈ e.block ∨ line ∈ e.texts

/-- The target is there, with its anchors as often as required. -/
def Ready (e : HandEdit) (funcs : List GenFunc) : Prop :=
  ∃ f ∈ funcs, f.name = e.func ∧ e.requires f.body = true

/-- The lines of an edited body are old or of the block. -/
theorem Lawful.body_lines {e : HandEdit} (lawful : Lawful e) (body out : List Line)
    (edited : e.body body = some out) :
    ∀ line ∈ out, line ∈ body ∨ line ∈ e.block := by
  obtain ⟨front, back, rfl, old⟩ := lawful.placed body out edited
  intro line member
  rw [List.mem_append, List.mem_append] at member
  rcases member with inFront | inBlock | inBack
  · exact Or.inl (old.subset (List.mem_append_left _ inFront))
  · exact Or.inr inBlock
  · exact Or.inl (old.subset (List.mem_append_right _ inBack))

/-- A ready edit changes the file. Its function is the one of its name, since names are apart, so
the body that is edited is the body that was asked for. -/
theorem Lawful.changes {e : HandEdit} (lawful : Lawful e) (file : List Piece)
    (generated : Generated file)
    (unmarked : marked e.mark (render file) = false) (ready : Ready e (funcs file)) :
    ∃ after, e.apply (render file) = some (render after) ∧ Changed e file after := by
  obtain ⟨f, member, named, required⟩ := ready
  obtain ⟨front, back, rfl⟩ := List.append_of_mem ((mem_funcs f file).mp member)
  rw [← lawful.ready, Option.isSome_iff_exists] at required
  obtain ⟨body, edited⟩ := required
  obtain ⟨added, after, among, adds, applied⟩ :=
    (lawful.found front f back generated named unmarked).2 body edited
  refine ⟨after, applied, ?_, ?_, ?_⟩
  · exact adds.generated (fun line inAdded => lawful.plainTexts line (among inAdded))
      (generated.withBody body (fun line inBody =>
        (lawful.body_lines f.body body edited line inBody).imp id (lawful.plainBlock line)))
  · obtain ⟨before, behind⟩ := generated.others
    have same (others : List GenFunc) (apart : ∀ g ∈ others, g.name ≠ f.name) :
        others.map (rebody e) = others := by
      refine (List.map_congr_left (fun g inOthers => ?_)).trans (List.map_id others)
      have other : g.name ≠ e.func := named ▸ apart g inOthers
      simp [rebody, other]
    rw [adds.funcs, funcs_append, funcs_func, funcs_append, funcs_func, List.map_append,
      List.map_cons, same _ before, same _ behind]
    simp [rebody, named, edited]
  · intro line inAfter
    rcases (adds.mem_render line).mp inAfter with old | new
    · have cases : line ∈ render (front ++ .func f :: back) ∨ line ∈ body := by
        simp only [render_append, render_cons, Piece.lines, GenFunc.lines, List.mem_append,
          List.mem_cons] at old ⊢
        tauto
      rcases cases with inFile | inBody
      · exact Or.inl inFile
      · rcases lawful.body_lines f.body body edited line inBody with inOld | inBlock
        · refine Or.inl ?_
          simp only [render_append, render_cons, Piece.lines, GenFunc.lines, List.mem_append,
            List.mem_cons]
          tauto
        · exact Or.inr (Or.inl inBlock)
    · exact Or.inr (Or.inr (among new))

/-- An edit that is not ready fails: its function is missing from the file, or is there with a
body that does not have the anchors. -/
theorem Lawful.fails {e : HandEdit} (lawful : Lawful e) (file : List Piece)
    (generated : Generated file)
    (unmarked : marked e.mark (render file) = false) (unready : ¬ Ready e (funcs file)) :
    e.apply (render file) = none := by
  by_cases present : ∃ f ∈ funcs file, f.name = e.func
  · obtain ⟨f, member, named⟩ := present
    obtain ⟨front, back, rfl⟩ := List.append_of_mem ((mem_funcs f file).mp member)
    refine (lawful.found front f back generated named unmarked).1 ?_
    cases edited : e.body f.body with
    | none => rfl
    | some body =>
      refine absurd ⟨f, member, named, ?_⟩ unready
      rw [← lawful.ready, edited]
      rfl
  · exact lawful.missing file generated unmarked (fun g member named => present ⟨g, member, named⟩)

/-! ## The laws hold -/

/-- Lines of the body are lines of the file. -/
theorem body_render (file : List Piece) (f : GenFunc) (member : f ∈ funcs file) :
    f.body ⊆ render file := by
  intro line inBody
  refine List.mem_flatMap.mpr ⟨.func f, (mem_funcs f file).mp member, ?_⟩
  simp [Piece.lines, GenFunc.lines, inBody]

/-- A mark is seen in more lines as well. -/
theorem marked_subset (mark : Line) (lines more : List Line) (subset : lines ⊆ more)
    (isMarked : marked mark lines = true) :
    marked mark more = true := by
  obtain ⟨line, member, here⟩ := List.any_eq_true.mp isMarked
  exact List.any_eq_true.mpr ⟨line, subset member, here⟩

/-- The slice of a function's lines is a part of the file. -/
theorem bodySlice_subset (func : Line) (lines : List Line) : bodySlice func lines ⊆ lines := by
  rw [bodySlice, List.span_eq_takeWhile_dropWhile]
  have tail : lines.dropWhile (fun line => !startsWith (signature func) line) ⊆ lines :=
    (List.dropWhile_sublist _).subset
  cases found : lines.dropWhile (fun line => !startsWith (signature func) line) with
  | nil => exact List.Subset.refl _
  | cons first rest =>
    rw [found] at tail
    intro line member
    rcases List.mem_cons.mp member with rfl | inside
    · exact tail List.mem_cons_self
    · exact tail (List.mem_cons_of_mem _ ((List.takeWhile_sublist _).subset inside))

/-- In a generated file it is the header and body of the function: names are apart, so the first
signature is the function's own. -/
theorem bodySlice_found (func : Line) (plainName : '(' ∉ func) (file : List Piece)
    (generated : Generated file) (f : GenFunc) (member : f ∈ funcs file) (named : f.name = func) :
    f.body ⊆ bodySlice func (render file) := by
  obtain ⟨front, back, rfl⟩ := List.append_of_mem ((mem_funcs f file).mp member)
  have first : ∀ g ∈ funcs front, g.name ≠ func := named ▸ generated.others.1
  have range := bodyRange_found func plainName front back f generated.shaped named first
  rw [bodyRange] at range
  rw [bodySlice]
  split at range
  · cases range
  · rename_i before opening rest shape
    split at range
    · cases range
    · rename_i inner close after closed
      simp only [Option.some.injEq, Prod.mk.injEq, List.cons.injEq] at range
      obtain ⟨_, ⟨_, rfl⟩, _⟩ := range
      rw [List.span_eq_takeWhile_dropWhile, Prod.mk.injEq] at closed
      rw [closed.1]
      exact List.subset_cons_self _ _

/-- A guard finds no mark where there is none, and finds a mark in the function. -/
structure Guards (guard : List Line → Bool) (func mark : Line) : Prop where
  unmarked : ∀ lines, marked mark lines = false → guard lines = false
  again : ∀ file f, Generated file → f ∈ funcs file → f.name = func → marked mark f.body = true →
    guard (render file) = true

/-- Searching the whole file for the mark guards an edit. -/
theorem file_guards (func mark : Line) : Guards (marked mark) func mark where
  unmarked := fun _ unmarked => unmarked
  again :=
    fun file f _ member _ isMarked => marked_subset mark _ _ (body_render file f member) isMarked

/-- Searching the function's slice for the mark guards an edit: the slice holds the body. -/
theorem function_guards (func mark : Line) (plainName : '(' ∉ func) :
    Guards (fun lines => marked mark (bodySlice func lines)) func mark where
  unmarked := by
    intro lines unmarked
    refine Bool.eq_false_iff.mpr (fun isMarked => ?_)
    have whole := marked_subset mark _ _ (bodySlice_subset func lines) isMarked
    simp [unmarked] at whole
  again := fun file f generated member named isMarked =>
    marked_subset mark _ _ (bodySlice_found func plainName file generated f member named) isMarked

/-- Adding lines to a file adds text to its pieces. -/
def AddsLines (post : List Line → List Line) (texts : List Line) : Prop :=
  ∀ file, (∀ piece ∈ file, Shaped piece) → ∃ added after, added ⊆ texts ∧ Adds added file after ∧
    post (render file) = render after

/-- Nothing is added. -/
theorem id_adds : AddsLines id [] := fun file _ =>
  ⟨[], file, List.Subset.refl _, ⟨[], file, rfl, rfl⟩, rfl⟩

/-- The lines that go behind the includes are added. -/
theorem includes_add (texts : List Line) : AddsLines (insertAfterIncludes texts) texts :=
  fun file shaped => by
  obtain ⟨after, adds, same⟩ := insertAfterIncludes_adds texts file shaped
  exact ⟨texts, after, List.Subset.refl _, adds, same⟩

/-- What is left to show of an edit that looks for its mark, edits its function and adds its
lines. -/
theorem lawful_guarded (e : HandEdit) (guard : List Line → Bool)
    (core : List Line → Option (List Line)) (post : List Line → List Line)
    (shape : ∀ lines, e.apply lines = if guard lines then some lines else (core lines).map post)
    (guards : Guards guard e.func e.mark) (acts : ActsOn core e.func e.body)
    (adds : AddsLines post e.texts) (ready : ∀ body, (e.body body).isSome = e.requires body)
    (placed : ∀ body out, e.body body = some out →
      ∃ front back, out = front ++ (e.block ++ back) ∧ (front ++ back).Sublist body)
    (plainBlock : ∀ line ∈ e.block, plain line = true)
    (plainTexts : ∀ line ∈ e.texts, startsWith head line = false)
    (oneMark : e.block.countP (occurs e.mark) = 1) : Lawful e := by
  refine ⟨?_, ?_, ?_, ready, placed, plainBlock, plainTexts, oneMark⟩
  · intro front f back generated named unmarked
    rw [shape, guards.unmarked _ unmarked, if_neg Bool.false_ne_true,
      acts.found front f back generated named]
    constructor
    · intro failed
      rw [failed]
      rfl
    · intro body edited
      obtain ⟨above, below, rfl, old⟩ := placed f.body body edited
      have changed := generated.withBody (above ++ (e.block ++ below)) (fun line inBody => by
        rw [List.mem_append, List.mem_append] at inBody
        rcases inBody with inAbove | inBlock | inBelow
        · exact Or.inl (old.subset (List.mem_append_left _ inAbove))
        · exact Or.inr (plainBlock line inBlock)
        · exact Or.inl (old.subset (List.mem_append_right _ inBelow)))
      obtain ⟨added, after, among, adds, same⟩ := adds _ changed.shaped
      exact ⟨added, after, among, adds, by rw [edited]; exact congrArg some same⟩
  · intro file generated unmarked absent
    rw [shape, guards.unmarked _ unmarked, if_neg Bool.false_ne_true,
      acts.missing file generated absent]
    rfl
  · intro file f generated member named isMarked
    rw [shape, guards.again file f generated member named isMarked, if_pos rfl]

/-- An anchored edit can be made exactly when the body holds its anchor once. -/
theorem anchored_ready (anchor : Line) (become : Line → List Line) (body : List Line) :
    (anchored anchor 1 become body).isSome = once anchor body := by
  by_cases one : body.countP (fun line => chomp line = anchor) = 1
  · simp [anchored, once, one]
  · simp [anchored, once, one]

/-- Inserted text stands behind the anchor. -/
theorem insertBody_placed (anchor : Line) (text body out : List Line)
    (edited : insertBody anchor text body = some out) :
    ∃ front back, out = front ++ (text ++ back) ∧ (front ++ back).Sublist body := by
  obtain ⟨above, line, below, rfl, _, _, _, rfl⟩ := anchored_some anchor _ body out edited
  exact ⟨above ++ [line], below, by simp, by simp⟩

/-- A replacement stands in the place of the anchor. -/
theorem replaceBody_placed (anchor : Line) (text body out : List Line)
    (edited : anchored anchor 1 (fun _ => text) body = some out) :
    ∃ front back, out = front ++ (text ++ back) ∧ (front ++ back).Sublist body := by
  obtain ⟨above, line, below, rfl, _, _, _, rfl⟩ := anchored_some anchor _ body out edited
  exact ⟨above, below, rfl, List.Sublist.append_left (List.sublist_cons_self line below) above⟩

/-- The body edit of the cull needs its load and its compares: it counts them behind the first
load, where the requirement counts the loads of the whole body. -/
theorem cullBody_ready (body : List Line) : (cullBody body).isSome = cullRequires body := by
  have parts :=
    List.takeWhile_append_dropWhile (p := fun line => chomp line != wcwCullXLoad) (l := body)
  have above : (body.takeWhile (fun line => chomp line != wcwCullXLoad)).countP
      (fun line => chomp line = wcwCullXLoad) = 0 := by
    rw [List.countP_eq_zero]
    intro line member
    have other := List.mem_takeWhile_imp member
    simpa using other
  have count : body.countP (fun line => chomp line = wcwCullXLoad) =
      (body.dropWhile (fun line => chomp line != wcwCullXLoad)).countP (fun line =>
        chomp line = wcwCullXLoad) := by
    conv_lhs => rw [← parts]
    rw [List.countP_append, above, Nat.zero_add]
  rw [cullBody, cullRequires, count, List.span_eq_takeWhile_dropWhile]
  cases found : body.dropWhile (fun line => chomp line != wcwCullXLoad) with
  | nil => simp
  | cons load below =>
    have isLoad : chomp load = wcwCullXLoad := by
      have head := List.head?_dropWhile_not (fun line => chomp line != wcwCullXLoad) body
      simpa [found] using head
    have notCompare : chomp load ≠ wcwCullCompare := by
      rw [isLoad]
      decide
    simp only [List.countP_cons, isLoad, decide_true, if_true, decide_eq_true_eq,
      isLoad ▸ notCompare, if_false]
    by_cases ready : below.countP (fun line => chomp line = wcwCullXLoad) = 0 ∧
        below.countP (fun line => chomp line = wcwCullCompare) = 2
    · simp [ready]
    · rw [if_neg ready]
      simpa [not_and_or] using ready

/-- The first compare behind the load is replaced. What is left of the body around it is in the
order in which it was. -/
theorem cullBody_placed (body out : List Line) (edited : cullBody body = some out) :
    ∃ front back, out = front ++ (wcwCullEdit ++ back) ∧ (front ++ back).Sublist body := by
  have parts :=
    List.takeWhile_append_dropWhile (p := fun line => chomp line != wcwCullXLoad) (l := body)
  rw [cullBody, List.span_eq_takeWhile_dropWhile] at edited
  cases found : body.dropWhile (fun line => chomp line != wcwCullXLoad) with
  | nil => simp [found] at edited
  | cons load below =>
    rw [found] at edited parts
    dsimp only at edited
    split at edited
    · rename_i ready
      obtain rfl := Option.some.inj edited
      rw [replaceFirstLine, List.span_eq_takeWhile_dropWhile]
      have inner :=
        List.takeWhile_append_dropWhile (p := fun line => chomp line != wcwCullCompare) (l := below)
      cases first : below.dropWhile (fun line => chomp line != wcwCullCompare) with
      | nil =>
        have none : below.countP (fun line => chomp line = wcwCullCompare) = 0 := by
          rw [List.countP_eq_zero]
          intro line member
          have other := List.dropWhile_eq_nil_iff.mp first line member
          simpa using other
        omega
      | cons compare rest =>
        rw [first] at inner
        refine ⟨body.takeWhile (fun line => chomp line != wcwCullXLoad) ++ load ::
          below.takeWhile (fun line => chomp line != wcwCullCompare), rest, by simp, ?_⟩
        rw [List.append_assoc, List.cons_append]
        conv_rhs => rw [← parts]
        refine List.Sublist.append_left (List.Sublist.cons_cons load ?_) _
        conv_rhs => rw [← inner]
        exact List.Sublist.append_left (List.sublist_cons_self compare rest) _
    · cases edited

/-- The probe's include goes in front of the file, unless it is there. -/
theorem ensureInclude_adds (why : Line) (file : List Piece) :
    ensureInclude why (render file) = render file ∨ ensureInclude why (render file) =
      render (.text (str "#include <stdio.h>  /* [nomercy HAND-EDIT] " ++ (why ++ str " */")) ::
        file) := by
  rw [ensureInclude]
  split
  · exact Or.inl rfl
  · exact Or.inr (by simp [Piece.lines])

/-- The probe's edit of the file, with or without its include in front. -/
theorem dcc4_found (lead front back : List Piece) (f : GenFunc)
    (generated : Generated (lead ++ front ++ .func f :: back))
    (named : f.name = str "func_8011DCC4") :
    insertAfter (str "func_8011DCC4") c1cs dcc4Probe 1 (render (lead ++ front ++ .func f :: back)) =
      (insertBody c1cs dcc4Probe f.body).map
        (fun body => render (lead ++ (front ++ .func { f with body := body } :: back))) := by
  have acts : ActsOn (insertAfter (str "func_8011DCC4") c1cs dcc4Probe 1) (str "func_8011DCC4")
      (insertBody c1cs dcc4Probe) := editRange_actsOn _ c1cs 1 _ (by decide) (by decide)
  rw [acts.found (lead ++ front) f back generated named]
  simp only [List.append_assoc]

/-- The portrait probe is lawful. It makes sure of an include first, so it may add a line in front
of the file as well. -/
theorem dcc4_lawful : Lawful HandEdit.dcc4 := by
  have acts : ActsOn (insertAfter (str "func_8011DCC4") c1cs dcc4Probe 1) (str "func_8011DCC4")
      (insertBody c1cs dcc4Probe) := editRange_actsOn _ c1cs 1 _ (by decide) (by decide)
  have line : startsWith head
    (str "#include <stdio.h>  /* [nomercy HAND-EDIT] " ++ (str "dcc4 portrait probe" ++
      str " */")) = false := by decide
  have fresh (lines : List Line) (unmarked : marked (str "[nomercy][dcc4]") lines = false) :
    HandEdits.dcc4 lines =
      insertAfter (str "func_8011DCC4") c1cs dcc4Probe 1
        (ensureInclude (str "dcc4 portrait probe") lines) := by
    rw [HandEdits.dcc4, unmarked]
    rfl
  -- the include is one more line of text in front
  have lead (file : List Piece) (generated : Generated file) : ∃ added,
      added ⊆ HandEdit.dcc4.texts ∧
      ensureInclude (str "dcc4 portrait probe") (render file) =
        render (added.map Piece.text ++ file) ∧ Generated (added.map Piece.text ++ file) := by
    rcases ensureInclude_adds (str "dcc4 portrait probe") file with same | added
    · exact ⟨[], by simp, by simpa using same, by simpa using generated⟩
    · refine ⟨HandEdit.dcc4.texts, List.Subset.refl _, added, ?_⟩
      have adds : Adds HandEdit.dcc4.texts file (HandEdit.dcc4.texts.map Piece.text ++ file) :=
        ⟨[], file, rfl, rfl⟩
      exact adds.generated (by simpa [HandEdit.dcc4] using line) generated
  refine ⟨?_, ?_, ?_, anchored_ready c1cs _, insertBody_placed c1cs dcc4Probe, ?_, ?_, ?_⟩
  · intro front f back generated named unmarked
    obtain ⟨added, among, included, generated'⟩ := lead _ generated
    rw [← List.append_assoc] at generated' included
    have edited : HandEdit.dcc4.apply (render (front ++ .func f :: back)) =
        (insertBody c1cs dcc4Probe f.body).map
          (fun body =>
            render (added.map Piece.text ++ (front ++ .func { f with body := body } :: back))) :=
      ((fresh _ unmarked).trans (congrArg _ included)).trans
        (dcc4_found _ front back f generated' named)
    rw [edited]
    constructor
    · intro failed
      rw [show insertBody c1cs dcc4Probe f.body = none from failed]
      rfl
    · intro body changed
      refine ⟨added, _, among, ⟨[], front ++ .func { f with body := body } :: back, rfl, rfl⟩, ?_⟩
      rw [show insertBody c1cs dcc4Probe f.body = some body from changed]
      rfl
  · intro file generated unmarked absent
    obtain ⟨added, _, included, generated'⟩ := lead file generated
    refine ((fresh _ unmarked).trans (congrArg _ included)).trans (acts.missing _ generated' ?_)
    intro g member
    rw [funcs_append, funcs_text, List.nil_append] at member
    exact absent g member
  · intro file f generated member named isMarked
    have whole :=
      (file_guards (str "func_8011DCC4") (str "[nomercy][dcc4]")).again file f generated member
        named isMarked
    exact if_pos whole
  all_goals simp only [HandEdit.dcc4, dcc4Probe]
  all_goals repeat rw [str_ofList]
  all_goals decide +kernel

/-- The camera's latch is lawful: it is guarded by its mark in the function's slice, and put
behind its anchor in the body. -/
theorem rtLatch_lawful : Lawful HandEdit.rtLatch := by
  refine lawful_guarded HandEdit.rtLatch
    (fun lines => marked (str "[nomercy][rt]") (bodySlice (str "func_80001E08") lines))
    (insertAfter (str "func_80001E08") c1cs rtCameraLatch 1) id
    (fun lines => by simp [HandEdit.rtLatch, HandEdits.rtLatch, rtEdit, c1cs])
    (function_guards _ _ (by decide)) (editRange_actsOn _ c1cs 1 _ (by decide) (by decide)) id_adds
    (anchored_ready c1cs _) (insertBody_placed c1cs rtCameraLatch) ?_ ?_ ?_
  all_goals simp only [HandEdit.rtLatch, rtCameraLatch]
  all_goals repeat rw [str_ofList]
  all_goals decide +kernel

/-- The camera's emission is lawful: it too is guarded by its mark in the function's slice. -/
theorem rtEmit_lawful : Lawful HandEdit.rtEmit := by
  refine lawful_guarded HandEdit.rtEmit
    (fun lines => marked (str "[nomercy][rt]") (bodySlice (str "func_80002FA4") lines))
    (insertAfter (str "func_80002FA4") (str "    func_80002BB4(rdram, ctx);") rtEmitCamera 1) id
    (fun lines => by simp [HandEdit.rtEmit, HandEdits.rtEmit, rtEdit])
    (function_guards _ _ (by decide)) (editRange_actsOn _ _ 1 _ (by decide) (by decide)) id_adds
    (anchored_ready _ _) (insertBody_placed _ rtEmitCamera) ?_ ?_ ?_
  all_goals simp only [HandEdit.rtEmit, rtEmitCamera]
  all_goals repeat rw [str_ofList]
  all_goals decide +kernel

/-- The hook at the matrix product is lawful: it is guarded by its mark in the whole file, and
adds its declarations behind the includes. -/
theorem wcwMatrix_lawful : Lawful HandEdit.wcwMatrix := by
  refine lawful_guarded HandEdit.wcwMatrix (marked (str "wcw_interp_process_multiply"))
    (insertAfter (str "func_80001E08") c1cs wcwMatrixHook 1) (insertAfterIncludes wcwMatrixDecls)
      (fun _ => rfl)
    (file_guards _ _) (editRange_actsOn _ c1cs 1 _ (by decide) (by decide)) (includes_add _)
    (anchored_ready c1cs _) (insertBody_placed c1cs wcwMatrixHook) ?_ ?_ ?_
  all_goals simp only [HandEdit.wcwMatrix, wcwMatrixHook, wcwMatrixDecls]
  all_goals repeat rw [str_ofList]
  all_goals decide +kernel

/-- The hook at the forwarded matrix is lawful in the same way. -/
theorem wcwF2l_lawful : Lawful HandEdit.wcwF2l := by
  refine lawful_guarded HandEdit.wcwF2l (marked (str "wcw_interp_forward_local_matrix"))
    (insertAfter (str "func_80038880") c1cs wcwF2lHook 1) (insertAfterIncludes wcwF2lDecls)
      (fun _ => rfl)
    (file_guards _ _) (editRange_actsOn _ c1cs 1 _ (by decide) (by decide)) (includes_add _)
    (anchored_ready c1cs _) (insertBody_placed c1cs wcwF2lHook) ?_ ?_ ?_
  all_goals simp only [HandEdit.wcwF2l, wcwF2lHook, wcwF2lDecls]
  all_goals repeat rw [str_ofList]
  all_goals decide +kernel

/-- The guard behind a resync is lawful: it takes the place of its anchor, a line that it holds
itself. -/
theorem wcwResyncNull_lawful : Lawful HandEdit.wcwResyncNull := by
  refine lawful_guarded HandEdit.wcwResyncNull (marked (str "[wcw fix] netplay: after a resync"))
    (replaceLine (str "func_80022CEC") (str "    func_80021B10(rdram, ctx);") wcwResyncNullGuard) id
    (fun lines => by simp [HandEdit.wcwResyncNull, HandEdits.wcwResyncNull])
    (file_guards _ _) (editRange_actsOn _ _ 1 _ (by decide) (by decide)) id_adds
    (anchored_ready _ _) (replaceBody_placed _ wcwResyncNullGuard) ?_ ?_ ?_
  all_goals simp only [HandEdit.wcwResyncNull, wcwResyncNullGuard]
  all_goals repeat rw [str_ofList]
  all_goals decide +kernel

/-- The culling edit is lawful. It has no single anchor: it wants one load, and two compares
behind it, of which it changes the first. -/
theorem wcwCull_lawful : Lawful HandEdit.wcwCull := by
  refine lawful_guarded HandEdit.wcwCull
    (marked (str "wcw_widescreen_cull_scale")) widescreenCullEdit
    (insertAfterIncludes wcwCullDecls) (fun _ => rfl) (file_guards _ _) widescreenCullEdit_actsOn
      (includes_add _)
    cullBody_ready cullBody_placed ?_ ?_ ?_
  all_goals simp only [HandEdit.wcwCull, wcwCullEdit, wcwCullDecls]
  all_goals repeat rw [str_ofList]
  all_goals decide +kernel

end NoMercyRecomp.HandEdits
