import Mathlib.Data.List.Basic

/-!
# Elements in context

A rewrite that looks at the lines around each line sees every element of a list
with what stands before and after it. The contexts of a list are its splittings, in
order, and a rewrite that replaces each element by several has contexts that come
from the original ones.
-/

namespace Contexts

variable {α β : Type}

/-- An element with what stands before and after it. -/
abbrev Context (α : Type) := List α × α × List α

/-- The contexts of the elements of `after`, when `before` precedes them. -/
def contextsFrom : List α → List α → List (Context α)
  | _, [] => []
  | before, x :: after => (before, x, after) :: contextsFrom (before ++ [x]) after

/-- Every element of a list with its context. -/
def contexts (list : List α) : List (Context α) := contextsFrom [] list

/-- The contexts of a list behind others: an element, all before it and all behind it. By
induction on the list, which hands its elements over to what is before. -/
theorem mem_contextsFrom (before list : List α) (context : Context α) :
    context ∈ contextsFrom before list ↔
      ∃ front, context.1 = before ++ front ∧ list = front ++ context.2.1 :: context.2.2 := by
  induction list generalizing before with
  | nil => simp [contextsFrom]
  | cons x after inductionHypothesis =>
    rw [contextsFrom, List.mem_cons, inductionHypothesis]
    constructor
    · rintro (rfl | ⟨front, earlier, split⟩)
      · exact ⟨[], by simp, rfl⟩
      · exact ⟨x :: front, by simp [earlier], by simp [split]⟩
    · rintro ⟨front, earlier, split⟩
      cases front with
      | nil =>
        obtain ⟨same, rest⟩ := List.cons.inj split
        exact Or.inl (Prod.ext (by simpa using earlier) (Prod.ext same.symm rest.symm))
      | cons y front =>
        obtain ⟨rfl, rest⟩ := List.cons.inj split
        exact Or.inr ⟨front, by simp [earlier], rest⟩

/-- The contexts of a list are its splittings around an element. -/
theorem mem_contexts (list : List α) (context : Context α) :
    context ∈ contexts list ↔ list = context.1 ++ context.2.1 :: context.2.2 := by
  rw [contexts, mem_contextsFrom]
  constructor
  · rintro ⟨front, rfl, split⟩
    simpa using split
  · intro split
    exact ⟨context.1, by simp, split⟩

/-- The elements of the contexts are the list. -/
theorem contextsFrom_elements (before list : List α) :
    (contextsFrom before list).map (fun context => context.2.1) = list := by
  induction list generalizing before with
  | nil => rfl
  | cons x after inductionHypothesis => simp [contextsFrom, inductionHypothesis]

/-- The elements of the contexts are the list. -/
theorem contexts_elements (list : List α) :
    (contexts list).map (fun context => context.2.1) = list :=
  contextsFrom_elements [] list

/-- Before and behind an element stand the elements of the contexts before and behind its own. By
induction on the list, along which the contexts are made. -/
theorem contextsFrom_around (before list : List α) (earlier later : List (Context α))
    (context : Context α) (split : contextsFrom before list = earlier ++ context :: later) :
    context.1 = before ++ earlier.map (fun other => other.2.1) ∧
      context.2.2 = later.map (fun other => other.2.1) := by
  induction list generalizing before earlier with
  | nil => simp [contextsFrom] at split
  | cons x after inductionHypothesis =>
    cases earlier with
    | nil =>
      obtain ⟨rfl, rest⟩ := List.cons.inj split
      exact ⟨by simp, by rw [← rest, contextsFrom_elements]⟩
    | cons first earlier =>
      obtain ⟨rfl, rest⟩ := List.cons.inj split
      obtain ⟨front, back⟩ := inductionHypothesis (before ++ [x]) earlier rest
      exact ⟨by simp [front], back⟩

/-- The contexts around one context carry what stands before and after it. -/
theorem contexts_around (list : List α) (earlier later : List (Context α)) (context : Context α)
    (split : contexts list = earlier ++ context :: later) :
    context.1 = earlier.map (fun other => other.2.1) ∧
    context.2.2 = later.map (fun other => other.2.1) := by
  simpa using contextsFrom_around [] list earlier later context split

/-- Contexts commute with a map of the elements. -/
theorem contexts_map (f : α → β) (list : List α) :
    contexts (list.map f) =
      (contexts list).map (fun context => (context.1.map f, f context.2.1, context.2.2.map f)) := by
  have shifted (before : List α) : contextsFrom (before.map f) (list.map f) =
      (contextsFrom before list).map
        (fun context => (context.1.map f, f context.2.1, context.2.2.map f)) := by
    induction list generalizing before with
    | nil => rfl
    | cons x after inductionHypothesis =>
      have next := inductionHypothesis (before ++ [x])
      rw [List.map_append, List.map_singleton] at next
      simp [contextsFrom, next]
  exact shifted []

/-- An element of a rewritten list stands among the replacements of one original
element. -/
theorem flatMap_split (g : α → List β) (list : List α) (before after : List β) (y : β)
    (split : list.flatMap g = before ++ y :: after) :
    ∃ earlier x later front back, list = earlier ++ x :: later ∧ g x = front ++ y :: back ∧
      before = earlier.flatMap g ++ front ∧ after = back ++ later.flatMap g := by
  induction list generalizing before with
  | nil => simp at split
  | cons x list inductionHypothesis =>
    rw [List.flatMap_cons] at split
    rcases List.append_eq_append_iff.mp split with ⟨between, whole, rest⟩ | ⟨between, whole, rest⟩
    · obtain ⟨earlier, z, later, front, back, rfl, inside, rfl, rfl⟩ :=
        inductionHypothesis between rest
      exact ⟨x :: earlier, z, later, front, back, rfl, inside, by simp [whole], rfl⟩
    · cases between with
      | nil =>
        obtain ⟨earlier, z, later, front, back, rfl, inside, empty, rfl⟩ :=
          inductionHypothesis [] (by simpa using rest.symm)
        refine ⟨x :: earlier, z, later, front, back, rfl, inside, ?_, rfl⟩
        have whole' : g x = before := by simpa using whole
        simp [← empty, whole']
      | cons c between =>
        obtain ⟨rfl, rfl⟩ := List.cons.inj rest
        exact ⟨[], x, list, before, between, rfl, whole, by simp, rfl⟩

/-- An element of a list with a last element is that one or stands before it. -/
theorem last_or_before (list front back : List α) (x y : α)
    (split : list ++ [x] = front ++ y :: back) :
    (front = list ∧ x = y ∧ back = []) ∨ y ∈ list := by
  rcases List.eq_nil_or_concat back with rfl | ⟨init, last, rfl⟩
  · have parts := List.append_inj' split rfl
    exact Or.inl ⟨parts.1.symm, (List.cons.inj parts.2).1, rfl⟩
  · have parts : list ++ [x] = (front ++ y :: init) ++ [last] := by simpa using split
    have same : list = front ++ y :: init := List.append_inj_left' parts rfl
    exact Or.inr (by simp [same])

/-- Replacing no element by nothing, and some element by several, lengthens a list: each of the
others is replaced by one at least. -/
theorem flatMap_longer (g : α → List β) (list : List α) (kept : ∀ x ∈ list, 1 ≤ (g x).length)
    (grown : ∃ x ∈ list, 2 ≤ (g x).length) : list.length < (list.flatMap g).length := by
  have atLeast (rest : List α) (kept : ∀ x ∈ rest, 1 ≤ (g x).length) :
      rest.length ≤ (rest.flatMap g).length := by
    induction rest with
    | nil => simp
    | cons x rest inductionHypothesis =>
      have later := inductionHypothesis (fun y member => kept y (List.mem_cons_of_mem x member))
      have here := kept x List.mem_cons_self
      simp only [List.flatMap_cons, List.length_append, List.length_cons]
      omega
  obtain ⟨x, member, several⟩ := grown
  obtain ⟨earlier, later, rfl⟩ := List.append_of_mem member
  have before := atLeast earlier (fun y among => kept y (List.mem_append_left _ among))
  have after :=
    atLeast later (fun y among => kept y (List.mem_append_right _ (List.mem_cons_of_mem x among)))
  simp only [List.flatMap_append, List.flatMap_cons, List.length_append, List.length_cons]
  omega

end Contexts
