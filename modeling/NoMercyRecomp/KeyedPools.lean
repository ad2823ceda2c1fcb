import Mathlib

/-!
# Pools of entries with unique keys

A pool keeps its entries in an array, in no particular order: an entry is removed by putting
the last one in its place. As long as no two entries have one key, the entry of a key is
found wherever it stands, and removal and insertion change what is found for one key only.
-/

namespace NoMercyRecomp.KeyedPools

variable {Entry Key : Type} [DecidableEq Key] (key : Entry → Key)

omit [DecidableEq Key] in
/-- No two entries have one key. -/
def Unique (pool : List Entry) : Prop := (pool.map key).Nodup

/-- The entry of a key. -/
def lookup (pool : List Entry) (wanted : Key) : Option Entry :=
  pool.find? (fun entry => key entry = wanted)

/-- The pool without the entry at a place: the last one takes its place. -/
def swapRemove (pool : List Entry) (place : Nat) : List Entry :=
  match pool[pool.length - 1]? with
  | none => []
  | some last => if place < pool.length - 1 then (pool.set place last).take (pool.length - 1)
    else pool.take (pool.length - 1)

/-- A removal leaves the other entries, in some order: the last one comes to the place of the
removed one, unless it is that one. -/
theorem swapRemove_perm (pool : List Entry) (place : Nat) (inside : place < pool.length) :
    (swapRemove pool place).Perm (pool.eraseIdx place) := by
  obtain ⟨front, last, rfl⟩ : ∃ front last, pool = front ++ [last] :=
    ⟨pool.dropLast, pool.getLast (List.ne_nil_of_length_pos (by omega)),
      (List.dropLast_append_getLast _).symm⟩
  have final : (front ++ [last])[(front ++ [last]).length - 1]? = some last := by simp
  simp only [List.length_append, List.length_singleton] at inside
  rw [swapRemove, final]
  simp only [List.length_append, List.length_singleton, Nat.add_sub_cancel]
  split
  next earlier =>
    rw [List.set_append_left _ _ earlier, List.eraseIdx_append_of_lt_length earlier,
      List.take_left' (by simp)]
    exact (List.set_perm_cons_eraseIdx earlier last).trans (List.perm_append_singleton last _).symm
  next later =>
    have here : place = front.length := by omega
    rw [here, List.take_left, List.eraseIdx_append_of_length_le (Nat.le_refl _), Nat.sub_self]
    simp

/-- What is found, by membership. -/
theorem lookup_some (pool : List Entry) (unique : Unique key pool) (entry : Entry) (wanted : Key) :
    lookup key pool wanted = some entry ↔ entry ∈ pool ∧ key entry = wanted := by
  constructor
  · intro found
    exact ⟨List.mem_of_find?_eq_some found, by simpa using List.find?_some found⟩
  · rintro ⟨member, rfl⟩
    cases found : lookup key pool (key entry) with
    | none =>
      have none := List.find?_eq_none.mp found entry member
      simp at none
    | some other =>
      have same : key other = key entry := by simpa using List.find?_some found
      rw [List.inj_on_of_nodup_map unique (List.mem_of_find?_eq_some found) member same]

omit [DecidableEq Key] in
/-- Entries stay apart in another order. -/
theorem unique_perm (first second : List Entry) (perm : first.Perm second)
    (unique : Unique key first) : Unique key second :=
  (perm.map key).nodup_iff.mp unique

/-- The order does not matter. -/
theorem lookup_perm (first second : List Entry) (perm : first.Perm second)
    (unique : Unique key first) (wanted : Key) :
    lookup key first wanted = lookup key second wanted := by
  have unique' := unique_perm key first second perm unique
  ext entry
  rw [lookup_some key first unique, lookup_some key second unique', perm.mem_iff]

/-- Other entries are found as before: keys are unique, so that the order of the entries does not
matter to a lookup. -/
theorem lookup_eraseIdx (pool : List Entry) (unique : Unique key pool) (place : Nat) (entry : Entry)
    (here : pool[place]? = some entry) (wanted : Key) :
    lookup key (pool.eraseIdx place) wanted = if wanted = key entry then none
      else lookup key pool wanted := by
  obtain ⟨inside, same⟩ := List.getElem?_eq_some_iff.mp here
  have split : pool.Perm (entry :: pool.eraseIdx place) := by
    rw [← same]
    exact (List.getElem_cons_eraseIdx_perm inside).symm
  have unique' := unique_perm key _ _ split unique
  have apart : key entry ∉ (pool.eraseIdx place).map key := (List.nodup_cons.mp unique').1
  split_ifs with wanted'
  · rw [wanted', lookup, List.find?_eq_none]
    intro other member same
    exact apart (List.mem_map.mpr ⟨other, member, by simpa using same⟩)
  · rw [lookup_perm key pool _ split unique wanted, lookup, lookup,
      List.find?_cons_of_neg (by simpa using Ne.symm wanted')]

/-- A removal is the end of one key. -/
theorem lookup_swapRemove (pool : List Entry) (unique : Unique key pool) (place : Nat)
    (entry : Entry) (here : pool[place]? = some entry) (wanted : Key) :
    Unique key (swapRemove pool place) ∧
      lookup key (swapRemove pool place) wanted = if wanted = key entry then none
        else lookup key pool wanted := by
  obtain ⟨inside, _⟩ := List.getElem?_eq_some_iff.mp here
  have perm := swapRemove_perm pool place inside
  have erased : Unique key (pool.eraseIdx place) :=
    unique.sublist ((List.eraseIdx_sublist pool place).map key)
  have unique' := unique_perm key _ _ perm.symm erased
  exact ⟨unique', (lookup_perm key _ _ perm unique' wanted).trans
    (lookup_eraseIdx key pool unique place entry here wanted)⟩

/-- One entry more, with a key that is not there: keys are still unique, its own key leads to it,
and every other key where it led before. -/
theorem lookup_insert (pool : List Entry) (unique : Unique key pool) (entry : Entry)
    (absent : lookup key pool (key entry) = none) (wanted : Key) :
    Unique key (pool ++ [entry]) ∧
      lookup key (pool ++ [entry]) wanted = if wanted = key entry then some entry
        else lookup key pool wanted := by
  have fresh : key entry ∉ pool.map key := by
    intro member
    obtain ⟨other, inside, same⟩ := List.mem_map.mp member
    exact List.find?_eq_none.mp absent other inside (by simpa using same)
  constructor
  · rw [Unique, List.map_append, List.map_singleton]
    exact List.nodup_append.mpr ⟨unique, List.nodup_singleton _, fun first member second last =>
      fun same => fresh (List.mem_singleton.mp last ▸ same ▸ member)⟩
  · rw [lookup, List.find?_append]
    split_ifs with wanted'
    · subst wanted'
      have none : pool.find? (fun other => decide (key other = key entry)) = none := absent
      rw [none]
      simp
    · have none : [entry].find? (fun other => decide (key other = wanted)) = none :=
        List.find?_cons_of_neg (by simpa using Ne.symm wanted')
      rw [none, Option.or_none]
      rfl

omit [DecidableEq Key] in
/-- Entries stay apart when an update keeps their keys. -/
theorem unique_map (update : Entry → Entry) (keeps : ∀ entry, key (update entry) = key entry)
    (pool : List Entry) (unique : Unique key pool) : Unique key (pool.map update) := by
  have same : key ∘ update = key := funext keeps
  rw [Unique, List.map_map, same]
  exact unique

/-- An update of all entries is one of what is found. -/
theorem lookup_map (update : Entry → Entry) (keeps : ∀ entry, key (update entry) = key entry)
    (pool : List Entry) (wanted : Key) :
    lookup key (pool.map update) wanted = (lookup key pool wanted).map update := by
  rw [lookup, List.find?_map]
  have same : (fun entry => decide (key entry = wanted)) ∘ update = fun entry =>
    decide (key entry = wanted) := by
    funext entry
    rw [Function.comp_apply, keeps]
  rw [same]
  rfl

/-- An update of the entry at a place is an update of those with its key, since no other entry of
a pool has it. -/
theorem modify_eq_map (update : Entry → Entry) (pool : List Entry) (unique : Unique key pool)
    (place : Nat) (entry : Entry) (here : pool[place]? = some entry) :
    pool.modify place update = pool.map (fun other => if key other = key entry then update other
      else other) := by
  apply List.ext_getElem?
  intro index
  rw [List.getElem?_modify, List.getElem?_map]
  by_cases same : place = index
  · subst same
    simp [here]
  · cases found : pool[index]? with
    | none => rfl
    | some other =>
      have apart : key other ≠ key entry := by
        intro equal
        obtain ⟨first, _⟩ := List.getElem?_eq_some_iff.mp here
        have keys : (pool.map key)[place]? = (pool.map key)[index]? := by
          rw [List.getElem?_map, List.getElem?_map, here, found, Option.map_some, Option.map_some,
            equal]
        exact same ((List.getElem?_inj (by rwa [List.length_map]) unique).mp keys)
      simp [apart, same]

/-- What the entries of a pool report about themselves: the reports about one key are those of
its entry. -/
theorem reports_filter {Report : Type} (report : Entry → List Report) (about : Report → Key)
    (pool : List Entry) (own : ∀ entry ∈ pool, ∀ said ∈ report entry, about said = key entry)
    (unique : Unique key pool) (entry : Entry) (member : entry ∈ pool) :
    (pool.flatMap report).filter (fun said => about said = key entry) = report entry := by
  induction pool with
  | nil => cases member
  | cons first rest inductionHypothesis =>
    have whole : ∀ other ∈ first :: rest, key other = key entry →
        (report other).filter (fun said => about said = key entry) = report other := by
      intro other inside same
      rw [List.filter_eq_self]
      intro said reported
      rw [decide_eq_true_iff, own other inside said reported, same]
    have nothing : ∀ other ∈ first :: rest, key other ≠ key entry →
        (report other).filter (fun said => about said = key entry) = [] := by
      intro other inside different
      rw [List.filter_eq_nil_iff]
      intro said reported
      rw [decide_eq_true_iff, own other inside said reported]
      exact different
    have unique' := List.nodup_cons.mp unique
    rw [List.flatMap_cons, List.filter_append]
    obtain rfl | later := List.mem_cons.mp member
    · have silent : (rest.flatMap report).filter (fun said => about said = key entry) = [] := by
        rw [List.filter_eq_nil_iff]
        intro said reported
        obtain ⟨other, inside, reported⟩ := List.mem_flatMap.mp reported
        rw [decide_eq_true_iff, own other (List.mem_cons_of_mem _ inside) said reported]
        exact fun same => unique'.1 (List.mem_map.mpr ⟨other, inside, same⟩)
      rw [whole entry List.mem_cons_self rfl, silent, List.append_nil]
    · have different : key first ≠ key entry := fun same =>
        unique'.1 (List.mem_map.mpr ⟨entry, later, same.symm⟩)
      rw [nothing first List.mem_cons_self different, List.nil_append]
      exact inductionHypothesis (fun other inside =>
        own other (List.mem_cons_of_mem _ inside)) unique'.2 later

end NoMercyRecomp.KeyedPools
