import Mathlib

/-!
# Runs that are regrouped

Items are processed one after the other: each becomes another item, passes a local state on,
and contributes to a summary. The items come in chains, and the item that closes a chain
brings the local state back to its start. When every chain is moved to the group of its
closing item, and each group is run by itself, every item still meets the local state that
it meets in the original order. So the items become the same, and so does every summary
that does not depend on the order of the chains.
-/

namespace NoMercyRecomp.GroupedRuns

/-- A summary that keeps the last contribution. -/
structure Latest (Value : Type) where
  value : Option Value

instance {Value : Type} : Monoid (Latest Value) where
  one := ⟨none⟩
  mul earlier later := ⟨later.value.or earlier.value⟩
  mul_assoc first second third := by
    obtain ⟨_ | third⟩ := third <;> rfl
  one_mul later := by
    obtain ⟨_ | later⟩ := later <;> rfl
  mul_one earlier := rfl

/-- A later contribution replaces an earlier one. -/
theorem latest_mul {Value : Type} (earlier later : Latest Value) (before : Value) :
    (earlier * later).value.getD before = later.value.getD (earlier.value.getD before) := by
  obtain ⟨_ | later⟩ := later <;> rfl

/-- What an item is to the chain that it stands in. -/
inductive Role (Key : Type) where
  | skipped
  | leading
  | closing (key : Key)
deriving DecidableEq

/-- A process. Items keep their roles, and a skipped item does nothing. -/
structure Process (Item Local Sum Key : Type) [Monoid Sum] where
  role : Item → Role Key
  step : Item → Local → Item × Local × Sum
  start : Local
  fallback : Key
  role_step : ∀ item state, role (step item state).1 = role item
  skips : ∀ item state, role item = .skipped → step item state = (item, state, 1)

variable {Item Local Sum Key : Type} [Monoid Sum] (process : Process Item Local Sum Key)

/-- The items, one after the other: what becomes of them, the local state, and the summary. -/
def Process.run : List Item → Local → List Item × Local × Sum
  | [], state => ([], state, 1)
  | item :: rest, state =>
    let here := process.step item state
    let later := run rest here.2.1
    (here.1 :: later.1, later.2.1, here.2.2 * later.2.2)

/-- The key of the chain that is open before some items. -/
def Process.nextKey : List Item → Key
  | [] => process.fallback
  | item :: rest =>
    match process.role item with
    | .closing key => key
    | _ => nextKey rest

/-- Every chain brings the local state back to its start. -/
def Process.Closes : List Item → Local → Prop
  | [], _ => True
  | item :: rest, state =>
    (∀ key, process.role item = .closing key → (process.step item state).2.1 = process.start) ∧
      Closes rest (process.step item state).2.1

/-- What becomes of the items has the same open chain. -/
theorem nextKey_run (items : List Item) (state : Local) :
    process.nextKey (process.run items state).1 = process.nextKey items := by
  induction items generalizing state with
  | nil => rfl
  | cons item rest inductionHypothesis =>
    have same := process.role_step item state
    simp only [Process.run, Process.nextKey, same]
    cases process.role item with
    | closing key => rfl
    | skipped | leading => exact inductionHypothesis _

variable [DecidableEq Key]

/-- The items of the chains with a key. -/
def Process.group (key : Key) : List Item → List Item
  | [] => []
  | item :: rest =>
    match process.role item with
    | .skipped => group key rest
    | .leading => if process.nextKey rest = key then item :: group key rest else group key rest
    | .closing closed => if closed = key then item :: group key rest else group key rest

/-- Where the group of a key starts, when a chain may be open. -/
def Process.startOf (key : Key) (items : List Item) (state : Local) : Local :=
  if process.nextKey items = key then state else process.start

/-- The group of a key, run by itself: one more item. It is in the group when the chain that it
opens or closes is the key's, and it is run from what its chain holds at that point. -/
theorem run_group_cons (key : Key) (item : Item) (rest : List Item) (state : Local)
    (closes : process.Closes (item :: rest) state) :
    process.run (process.group key (item :: rest)) (process.startOf key (item :: rest) state) =
      if process.nextKey (item :: rest) = key ∧ process.role item ≠ .skipped then
        let here := process.step item state
        let later := process.run (process.group key rest) (process.startOf key rest here.2.1)
        (here.1 :: later.1, later.2.1, here.2.2 * later.2.2)
      else process.run (process.group key rest)
          (process.startOf key rest (process.step item state).2.1) := by
  cases role : process.role item with
  | skipped =>
    have still := process.skips item state role
    simp [Process.group, Process.startOf, Process.nextKey, role, still]
  | leading =>
    by_cases opened : process.nextKey rest = key
    · simp [Process.group, Process.startOf, Process.nextKey, role, opened, Process.run]
    · simp [Process.group, Process.startOf, Process.nextKey, role, opened]
  | closing closed =>
    have back := closes.1 closed role
    by_cases here : closed = key
    · simp [Process.group, Process.startOf, Process.nextKey, role, here, Process.run, back]
    · simp [Process.group, Process.startOf, Process.nextKey, role, here, back]

/-- In its group an item becomes what it becomes in the original order, since a chain is a stretch
of items that starts anew and lies in one group. -/
theorem run_group_items (key : Key) (items : List Item) (state : Local)
    (closes : process.Closes items state) :
    (process.run (process.group key items) (process.startOf key items state)).1 =
      process.group key (process.run items state).1 := by
  induction items generalizing state with
  | nil => rfl
  | cons item rest inductionHypothesis =>
    have later := inductionHypothesis _ closes.2
    have same := process.role_step item state
    have after := nextKey_run process rest (process.step item state).2.1
    rw [run_group_cons process key item rest state closes]
    cases role : process.role item with
    | skipped => simp [Process.run, Process.group, same, role, later]
    | leading =>
      by_cases opened : process.nextKey rest = key
      · simp [Process.run, Process.group, Process.nextKey, same, role, after, opened, later]
      · simp [Process.run, Process.group, Process.nextKey, same, role, after, opened, later]
    | closing closed =>
      by_cases here : closed = key
      · simp [Process.run, Process.group, Process.nextKey, same, role, here, later]
      · simp [Process.run, Process.group, Process.nextKey, same, role, here, later]

/-- A commutative summary is the product of the summaries of the groups: each item contributes to
one of them, and contributes the same. -/
theorem run_group_product {Total : Type} [CommMonoid Total] [Fintype Key] (total : Sum →* Total)
    (items : List Item) (state : Local) (closes : process.Closes items state) :
    total (process.run items state).2.2 =
      ∏ key : Key,
        total (process.run (process.group key items) (process.startOf key items state)).2.2 := by
  induction items generalizing state with
  | nil => simp [Process.run, Process.group]
  | cons item rest inductionHypothesis =>
    have later := inductionHypothesis _ closes.2
    have factor : ∀ key, total (process.run (process.group key (item :: rest))
      (process.startOf key (item :: rest) state)).2.2 =
        (if process.nextKey (item :: rest) = key then total (process.step item state).2.2 else 1) *
          total (process.run (process.group key rest)
              (process.startOf key rest (process.step item state).2.1)).2.2 := by
      intro key
      rw [run_group_cons process key item rest state closes]
      cases role : process.role item with
      | skipped => simp [process.skips item state role]
      | leading | closing closed =>
        by_cases here : process.nextKey (item :: rest) = key <;> simp [here]
    simp only [factor, Finset.prod_mul_distrib, Finset.prod_ite_eq, Finset.mem_univ, if_true]
    rw [← later, Process.run, map_mul]

/-- A summary to which only the items of one group contribute is the summary of that group. It
need not be commutative, as the group keeps the order of its items. -/
theorem run_group_single {Total : Type} [Monoid Total] (total : Sum →* Total) (key : Key)
    (items : List Item) (state : Local) (closes : process.Closes items state)
    (single : ∀ item ∈ items, ∀ state, process.role item ≠ .closing key →
      total (process.step item state).2.2 = 1) :
    total (process.run items state).2.2 =
      total (process.run (process.group key items) (process.startOf key items state)).2.2 := by
  induction items generalizing state with
  | nil => rfl
  | cons item rest inductionHypothesis =>
    have later := inductionHypothesis _ closes.2
      (fun other member => single other (List.mem_cons_of_mem item member))
    rw [run_group_cons process key item rest state closes, Process.run, map_mul, later]
    split
    next => exact (map_mul total _ _).symm
    next outside =>
      have silent : total (process.step item state).2.2 = 1 := by
        refine single item List.mem_cons_self state (fun role => outside ⟨?_, ?_⟩)
        · rw [Process.nextKey, role]
        · rw [role]
          exact nofun
      rw [silent, one_mul]

/-- The group of a key that is not the fallback ends where it starts. -/
theorem run_group_end (key : Key) (items : List Item) (state : Local)
    (closes : process.Closes items state) (whole : process.fallback ≠ key) :
    (process.run (process.group key items) (process.startOf key items state)).2.1 =
      process.start := by
  induction items generalizing state with
  | nil => exact if_neg whole
  | cons item rest inductionHypothesis =>
    rw [run_group_cons process key item rest state closes]
    split
    next => exact inductionHypothesis _ closes.2
    next => exact inductionHypothesis _ closes.2

/-- The other groups contribute nothing to it: by induction each of their items is one that does
not. -/
theorem run_group_silent {Total : Type} [Monoid Total] (total : Sum →* Total) (key other : Key)
    (different : other ≠ key)
    (items : List Item) (state : Local) (closes : process.Closes items state)
    (single : ∀ item ∈ items, ∀ state, process.role item ≠ .closing key →
      total (process.step item state).2.2 = 1) :
    total (process.run (process.group other items) (process.startOf other items state)).2.2 =
      1 := by
  induction items generalizing state with
  | nil => exact map_one total
  | cons item rest inductionHypothesis =>
    have later := inductionHypothesis _ closes.2
      (fun other member => single other (List.mem_cons_of_mem item member))
    rw [run_group_cons process other item rest state closes]
    split
    next inside =>
      have silent : total (process.step item state).2.2 = 1 := by
        refine single item List.mem_cons_self state (fun role => different ?_)
        rw [← inside.1, Process.nextKey, role]
      rw [map_mul, silent, one_mul, later]
    next => exact later

/-- There is no group for a key that closes no chain, and that is not the one for chains which
nothing closes. -/
theorem group_empty (key : Key) (items : List Item) (fallback : process.fallback ≠ key)
    (unused : ∀ item, process.role item ≠ .closing key) : process.group key items = [] := by
  have never : ∀ items : List Item, process.nextKey items ≠ key := by
    intro items
    induction items with
    | nil => exact fallback
    | cons item rest inductionHypothesis =>
      rw [Process.nextKey]
      split
      next closed role => exact fun same => unused item (role.trans (congrArg _ same))
      next => exact inductionHypothesis
  induction items with
  | nil => rfl
  | cons item rest inductionHypothesis =>
    rw [Process.group]
    split
    next => exact inductionHypothesis
    next => rw [if_neg (never rest), inductionHypothesis]
    next closed role =>
      rw [if_neg (fun same => unused item (role.trans (congrArg _ same))), inductionHypothesis]

end NoMercyRecomp.GroupedRuns
