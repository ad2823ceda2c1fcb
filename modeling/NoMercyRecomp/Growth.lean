import NoMercyRecomp.Contexts

/-!
# Lists that grow by insertion

A rewrite that only puts new elements in front of old ones is described by what
stands in front of each old element. Reading such a growth off as a list commutes
with putting a further block in front of the first element that is wanted, as long as
nothing that was inserted is wanted. What a reader that ignores the inserted
elements sees of the list is what it sees of the original.
-/

namespace Growth

open Contexts

variable {α β : Type}

/-- Each original element with what was inserted in front of it. -/
abbrev Grown (α : Type) := List (List α × α)

/-- The grown list. -/
def lines (grown : Grown α) : List α := grown.flatMap (fun pair => pair.1 ++ [pair.2])

/-- The list it grew from. -/
def original (grown : Grown α) : List α := grown.map Prod.snd

/-- A list to which nothing has been added. -/
def seed (list : List α) : Grown α := list.map (fun x => ([], x))

/-- Put a block in front of the first element that is wanted. -/
def insertBefore (wanted : α → Bool) (block : List α) : List α → List α
  | [] => []
  | x :: rest => if wanted x then block ++ x :: rest else x :: insertBefore wanted block rest

/-- The same on a growth: the block stands directly before the element. -/
def put (wanted : α → Bool) (block : List α) : Grown α → Grown α
  | [] => []
  | (before, x) :: rest =>
    if wanted x then (before ++ block, x) :: rest else (before, x) :: put wanted block rest

/-- A list that nothing is put into has its lines. -/
@[simp] theorem lines_seed (list : List α) : lines (seed list) = list := by
  induction list with
  | nil => rfl
  | cons x rest inductionHypothesis =>
    rw [seed, lines] at inductionHypothesis
    simp [seed, lines, inductionHypothesis]

/-- A list that nothing is put into is its original. -/
@[simp] theorem original_seed (list : List α) : original (seed list) = list := by
  simp [original, seed, Function.comp_def]

/-- Putting a block in front of elements keeps the original. -/
@[simp] theorem original_put (wanted : α → Bool) (block : List α) (grown : Grown α) :
    original (put wanted block grown) = original grown := by
  induction grown with
  | nil => rfl
  | cons pair rest inductionHypothesis =>
    obtain ⟨before, x⟩ := pair
    rw [original, original] at inductionHypothesis
    cases here : wanted x <;> simp [put, here, original, inductionHypothesis]

/-- Elements that are not wanted are passed over. -/
theorem insertBefore_append (wanted : α → Bool) (block before rest : List α)
    (unwanted : ∀ x ∈ before, wanted x = false) :
    insertBefore wanted block (before ++ rest) = before ++ insertBefore wanted block rest := by
  induction before with
  | nil => rfl
  | cons x before inductionHypothesis =>
    have here := unwanted x List.mem_cons_self
    have later := inductionHypothesis (fun y member => unwanted y (List.mem_cons_of_mem x member))
    simp [insertBefore, here, later]

/-- A block that has a place is put between two parts of the list. -/
theorem insertBefore_split (wanted : α → Bool) (block list : List α)
    (present : ∃ x ∈ list, wanted x = true) :
    ∃ front back, list = front ++ back ∧
    insertBefore wanted block list = front ++ (block ++ back) := by
  induction list with
  | nil => simp at present
  | cons x rest inductionHypothesis =>
    cases here : wanted x with
    | true => exact ⟨[], x :: rest, rfl, by simp [insertBefore, here]⟩
    | false =>
      obtain ⟨front, back, split, inserted⟩ := inductionHypothesis (by simpa [here] using present)
      exact ⟨x :: front, back,
        by rw [split, List.cons_append], by simp [insertBefore, here, inserted]⟩

/-- The elements of a block that has a place are counted once more each. -/
theorem count_insertBefore [BEq α] (wanted : α → Bool) (block list : List α)
    (present : ∃ x ∈ list, wanted x = true) (y : α) :
    (insertBefore wanted block list).count y = list.count y + block.count y := by
  obtain ⟨front, back, split, inserted⟩ := insertBefore_split wanted block list present
  rw [inserted, split]
  simp only [List.count_append]
  omega

/-- Inserting into the grown list is inserting into its growth. -/
theorem insertBefore_lines (wanted : α → Bool) (block : List α) (grown : Grown α)
    (foreign : ∀ pair ∈ grown, ∀ x ∈ pair.1, wanted x = false) :
    insertBefore wanted block (lines grown) = lines (put wanted block grown) := by
  induction grown with
  | nil => rfl
  | cons pair rest inductionHypothesis =>
    obtain ⟨before, x⟩ := pair
    have later := inductionHypothesis (fun p member => foreign p (List.mem_cons_of_mem _ member))
    rw [lines] at later ⊢
    rw [List.flatMap_cons, List.append_assoc,
      insertBefore_append wanted block before _ (foreign (before, x) List.mem_cons_self)]
    cases here : wanted x <;> simp [insertBefore, put, here, lines, later]

/-- A reader that sees nothing in inserted elements sees the original list. -/
theorem flatMap_lines (f : α → List β) (grown : Grown α)
    (foreign : ∀ pair ∈ grown, ∀ x ∈ pair.1, f x = []) :
    (lines grown).flatMap f = (original grown).flatMap f := by
  induction grown with
  | nil => rfl
  | cons pair rest inductionHypothesis =>
    obtain ⟨before, x⟩ := pair
    have later := inductionHypothesis (fun p member => foreign p (List.mem_cons_of_mem _ member))
    have silent : before.flatMap f = [] :=
      List.flatMap_eq_nil_iff.mpr (foreign (before, x) List.mem_cons_self)
    rw [lines, original] at later
    simp [lines, original, silent, later]

/-- A test that no inserted element passes gives what it gives on the original list. -/
theorem any_lines (p : α → Bool) (grown : Grown α)
    (foreign : ∀ pair ∈ grown, ∀ x ∈ pair.1, p x = false) :
    (lines grown).any p = (original grown).any p := by
  induction grown with
  | nil => rfl
  | cons pair rest inductionHypothesis =>
    have later :=
      inductionHypothesis (fun other member => foreign other (List.mem_cons_of_mem _ member))
    have silent : pair.1.any p = false := by simpa using foreign pair List.mem_cons_self
    rw [lines, original] at later
    simp [lines, original, silent, later]

/-- Where a property fails of all that was put in, as many lines have it as in the original. -/
theorem countP_lines (p : α → Bool) (grown : Grown α)
    (foreign : ∀ pair ∈ grown, ∀ x ∈ pair.1, p x = false) :
    (lines grown).countP p = (original grown).countP p := by
  induction grown with
  | nil => rfl
  | cons pair rest inductionHypothesis =>
    have later :=
      inductionHypothesis (fun other member => foreign other (List.mem_cons_of_mem _ member))
    have silent : pair.1.countP p = 0 :=
      List.countP_eq_zero.mpr (by simpa using foreign pair List.mem_cons_self)
    rw [lines, original] at later
    simp [lines, original, silent, later, List.countP_cons, Nat.add_comm]

/-- An element of the grown list is inserted or original, and then it stands after
what was inserted before it. -/
theorem contexts_lines (grown : Grown α) (c : Context α) (member : c ∈ contexts (lines grown)) :
    ∃ front pair back, grown = front ++ pair :: back ∧
      (c.2.1 ∈ pair.1 ∨ c = (lines front ++ pair.1, pair.2, lines back)) := by
  have split := (mem_contexts _ c).mp member
  obtain ⟨front, pair, back, above, below, shape, inside, before, after⟩ :=
    flatMap_split _ _ _ _ _ split
  refine ⟨front, pair, back, shape, ?_⟩
  rcases last_or_before _ _ _ _ _ inside with ⟨rfl, same, rfl⟩ | inserted
  · exact Or.inr (Prod.ext before (Prod.ext same.symm (by simpa [lines] using after)))
  · exact Or.inl inserted

/-- Every original element stands in the grown list. -/
theorem lines_contexts (front back : Grown α) (pair : List α × α) :
    (lines front ++ pair.1, pair.2, lines back) ∈ contexts (lines (front ++ pair :: back)) := by
  rw [mem_contexts]
  simp [lines]

/-! ## Marks -/

/-- A block and the elements it is put in front of. -/
abbrev Mark (α : Type) := (α → Bool) × List α

/-- What the marks put in front of an element. -/
def marked (marks : List (Mark α)) (x : α) : List α :=
  marks.flatMap (fun mark => if mark.1 x then mark.2 else [])

/-- The growth of a list by marks. -/
def grow (marks : List (Mark α)) (list : List α) : Grown α :=
  list.map (fun x => (marked marks x, x))

/-- Without marks nothing is put in. -/
@[simp] theorem grow_nil (list : List α) : grow [] list = seed list := rfl

/-- Growing keeps the original. -/
@[simp] theorem original_grow (marks : List (Mark α)) (list : List α) :
    original (grow marks list) = list := by
  simp [original, grow, Function.comp_def]

/-- A list is grown part by part. -/
@[simp] theorem grow_append (marks : List (Mark α)) (front back : List α) :
    grow marks (front ++ back) = grow marks front ++ grow marks back := List.map_append

/-- The lines of two grown lists in one. -/
@[simp] theorem lines_append (front back : Grown α) :
    lines (front ++ back) = lines front ++ lines back :=
  List.flatMap_append

/-- A list is grown from its first element on. -/
theorem grow_cons (marks : List (Mark α)) (x : α) (rest : List α) :
    grow marks (x :: rest) = (marked marks x, x) :: grow marks rest := rfl

/-- The block of one more mark stands behind those of the others. -/
theorem marked_snoc (marks : List (Mark α)) (mark : Mark α) (x : α) :
    marked (marks ++ [mark]) x = marked marks x ++ if mark.1 x then mark.2 else [] := by
  simp [marked]

/-- An inserted element belongs to a mark that wants the element behind it. -/
theorem mem_marked (marks : List (Mark α)) (x y : α) (member : y ∈ marked marks x) :
    ∃ mark ∈ marks, mark.1 x = true ∧ y ∈ mark.2 := by
  obtain ⟨mark, among, inside⟩ := List.mem_flatMap.mp member
  split at inside
  · next isWanted => exact ⟨mark, among, isWanted, inside⟩
  · simp at inside

/-- A mark that wants no element of a list does not change its growth. -/
theorem grow_unwanted (marks : List (Mark α)) (mark : Mark α) (list : List α)
    (unwanted : ∀ x ∈ list, mark.1 x = false) : grow (marks ++ [mark]) list = grow marks list := by
  refine List.map_congr_left (fun x member => ?_)
  simp [marked_snoc, unwanted x member]

/-- A block put in front of the only element that is wanted is one more mark. By induction on the
list, up to that element; behind it none is wanted. -/
theorem put_grow (marks : List (Mark α)) (mark : Mark α) (list : List α)
    (once : list.countP mark.1 = 1) :
    put mark.1 mark.2 (grow marks list) = grow (marks ++ [mark]) list := by
  induction list with
  | nil => simp at once
  | cons x rest inductionHypothesis =>
    cases here : mark.1 x with
    | true =>
      have unwanted : ∀ y ∈ rest, mark.1 y = false := by
        have noMore : rest.countP mark.1 = 0 := by simpa [List.countP_cons, here] using once
        intro y member
        simpa using List.countP_eq_zero.mp noMore y member
      rw [grow_cons, grow_cons, marked_snoc, grow_unwanted marks mark rest unwanted]
      simp [put, here]
    | false =>
      have later := inductionHypothesis (by simpa [List.countP_cons, here] using once)
      rw [grow_cons, grow_cons, marked_snoc, ← later]
      simp [put, here]

/-- Inserted elements come from the marks. -/
theorem grow_foreign (marks : List (Mark α)) (list : List α) (property : α → Prop)
    (sound : ∀ mark ∈ marks, ∀ y ∈ mark.2, property y) :
    ∀ pair ∈ grow marks list, ∀ y ∈ pair.1, property y := by
  intro pair member y inside
  obtain ⟨x, _, rfl⟩ := List.mem_map.mp member
  obtain ⟨mark, among, _, inBlock⟩ := mem_marked marks x y inside
  exact sound mark among y inBlock

/-- The elements of a grown list: those that were there, and those of the blocks whose mark wants
an element that is there. -/
theorem mem_grow (marks : List (Mark α)) (list : List α) (y : α) :
    y ∈ lines (grow marks list) ↔ y ∈ list ∨ ∃ mark ∈ marks, ∃ x ∈ list, mark.1 x = true ∧
    y ∈ mark.2 := by
  constructor
  · intro member
    obtain ⟨pair, among, inside⟩ := List.mem_flatMap.mp member
    obtain ⟨x, inList, rfl⟩ := List.mem_map.mp among
    rcases List.mem_append.mp inside with inserted | own
    · obtain ⟨mark, inMarks, isWanted, inBlock⟩ := mem_marked marks x y inserted
      exact Or.inr ⟨mark, inMarks, x, inList, isWanted, inBlock⟩
    · exact Or.inl (by simpa [List.mem_singleton.mp own] using inList)
  · rintro (inList | ⟨mark, inMarks, x, inList, isWanted, inBlock⟩)
    · exact List.mem_flatMap.mpr ⟨(marked marks y, y), List.mem_map.mpr ⟨y, inList, rfl⟩, by simp⟩
    · have inserted : y ∈ marked marks x :=
        List.mem_flatMap.mpr ⟨mark, inMarks, by simpa [isWanted] using inBlock⟩
      exact List.mem_flatMap.mpr ⟨(marked marks x, x), List.mem_map.mpr ⟨x, inList, rfl⟩,
        List.mem_append_left _ inserted⟩

/-- A growth around one of its elements. -/
theorem lines_around (marks : List (Mark α)) (front back : List α) (x : α) :
    lines (grow marks (front ++ x :: back)) =
      lines (grow marks front) ++ marked marks x ++ x :: lines (grow marks back) := by
  rw [grow_append, lines_append, grow_cons]
  simp [lines]

/-- An element that no mark inserts stands in the grown list where it stands in the
original, behind what the marks put in front of it. -/
theorem contexts_grow (marks : List (Mark α)) (list : List α) (c : Context α)
    (own : ∀ mark ∈ marks, c.2.1 ∉ mark.2) :
    c ∈ contexts (lines (grow marks list)) ↔
      ∃ place ∈ contexts list, c = (lines (grow marks place.1) ++ marked marks place.2.1, place.2.1,
        lines (grow marks place.2.2)) := by
  constructor
  · intro member
    obtain ⟨front, pair, back, shape, inserted | whole⟩ := contexts_lines _ c member
    · have among : pair ∈ grow marks list := by simp [shape]
      obtain ⟨x, _, rfl⟩ := List.mem_map.mp among
      obtain ⟨mark, inMarks, _, inBlock⟩ := mem_marked marks x _ inserted
      exact absurd inBlock (own mark inMarks)
    · obtain ⟨earlier, rest, rfl, rfl, more⟩ := List.map_eq_append_iff.mp shape
      obtain ⟨x, later, rfl, rfl, rfl⟩ := List.map_eq_cons_iff.mp more
      exact ⟨(earlier, x, later), (mem_contexts _ _).mpr rfl, whole⟩
  · rintro ⟨place, member, rfl⟩
    rw [(mem_contexts _ _).mp member, grow_append]
    exact lines_contexts _ _ (marked marks place.2.1, place.2.1)

end Growth
