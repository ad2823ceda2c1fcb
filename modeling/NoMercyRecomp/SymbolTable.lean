import NoMercyRecomp.TextScan

/-!
# The symbol table shared by the repair passes

`syms/dump.toml` lists the sections of the ROM in emission order and, for each
section, its functions. The passes read the table into dictionaries; a dictionary
assigned twice under one key keeps the later value. Sections may overlap in vram:
the swap-slot overlays do.

N64Recomp names an entry that the table does not list `static_<index>_<vram>`,
where the index is the position of the section in the table.
-/

namespace NoMercyRecomp.SymbolTable

open TextScan

/-- One function of a section: its name, start address and size. -/
structure Func where
  name : Line
  vram : Nat
  size : Nat
deriving DecidableEq, Repr

/-- One `[[section]]`: its range in the ROM and in memory, and its functions. -/
structure Section where
  name : Line
  rom : Nat
  vram : Nat
  size : Nat
  funcs : List Func
deriving DecidableEq, Repr

/-- The sections in emission order. -/
abbrev Dump := List Section

/-- Every listed function with the name of its section, in file order. -/
def entries (dump : Dump) : List (Line × Func) :=
  dump.flatMap (fun sec => sec.funcs.map (fun f => (sec.name, f)))

/-- The last entry satisfying a condition: what a dictionary filled in file order holds. -/
def lastEntry (dump : Dump) (wanted : Line × Func → Bool) : Option (Line × Func) :=
  (entries dump).reverse.find? wanted

/-- `name2sec`: the section of a function name. -/
def name2sec (dump : Dump) (name : Line) : Option Line :=
  (lastEntry dump (fun entry => entry.2.name == name)).map Prod.fst

/-- `by_sec_vram`: the function name that a section starts at an address. -/
def bySecVram (dump : Dump) (sec : Line) (vram : Nat) : Option Line :=
  (lastEntry dump (fun entry => entry.1 == sec && entry.2.vram == vram)).map (fun entry =>
    entry.2.name)

/-- Whether the section starts a function at the address. -/
def startsAt (dump : Dump) (sec : Line) (vram : Nat) : Bool :=
  (entries dump).any (fun entry => entry.1 == sec && entry.2.vram == vram)

/-- Whether some section starts a function at the address. -/
def funcAt (dump : Dump) (vram : Nat) : Bool :=
  (entries dump).any (fun entry => entry.2.vram == vram)

/-- `sec_positions`: the section names in file order. -/
def secPositions (dump : Dump) : List Line := dump.map Section.name

/-- `sec_name2idx`: the position of a section name. -/
def secName2idx (dump : Dump) (sec : Line) : Option Nat :=
  ((secPositions dump).zipIdx.reverse.find? (fun place => place.1 == sec)).map Prod.snd

/-- The text range of a section covers an address. -/
def Section.covers (sec : Section) (vram : Nat) : Bool :=
  decide (sec.vram ≤ vram) && decide (vram < sec.vram + sec.size)

/-- `func_%08X`. -/
def funcName (vram : Nat) : Line := str "func_" ++ hex8 vram

/-- `static_%d_%08X`. -/
def staticName (index vram : Nat) : Line :=
  str "static_" ++ (decimal index ++ '_' :: hex8 vram)

/-- The pattern `static_(\d+)_` at the start of a name: the index and what follows. -/
def staticPrefix (name : Line) : Option (Nat × Line) := do
  let rest ← lit (str "static_") name
  let digits := rest.takeWhile Char.isDigit
  if digits = [] then none else
    let tail ← lit ['_'] (rest.dropWhile Char.isDigit)
    some (value 10 digits, tail)

/-- The pattern `static_(\d+)_[0-9A-Fa-f]+$` over a whole name: the index. -/
def staticRe (name : Line) : Option Nat := do
  let (index, tail) ← staticPrefix name
  if tail ≠ [] ∧ tail.all isHex then some index else none

/-- The section a generated function belongs to: the one that lists its name, or
the one its static index selects. `fix_stumps` and `audit_coresidency` both
resolve a function this way. -/
def sectionOf (dump : Dump) (name : Line) : Option Line :=
  match name2sec dump name with
  | some sec => some sec
  | none => do
    let index ← staticRe name
    (secPositions dump)[index]?

/-! ## What the dictionaries hold -/

/-- A dictionary entry is one of the listed functions. -/
theorem lastEntry_member (dump : Dump) (wanted : Line × Func → Bool) (entry : Line × Func)
    (found : lastEntry dump wanted = some entry) : entry ∈ entries dump ∧ wanted entry = true := by
  refine ⟨?_, List.find?_some found⟩
  exact List.mem_reverse.mp (List.mem_of_find?_eq_some found)

/-- The name found at a section's address is listed there. -/
theorem bySecVram_listed (dump : Dump) (sec name : Line) (vram : Nat)
    (found : bySecVram dump sec vram = some name) :
    ∃ f, (sec, f) ∈ entries dump ∧ f.name = name ∧ f.vram = vram := by
  obtain ⟨⟨other, f⟩, last, rfl⟩ := Option.map_eq_some_iff.mp found
  obtain ⟨member, wanted⟩ := lastEntry_member dump _ _ last
  obtain ⟨rfl, sameVram⟩ : other = sec ∧ f.vram = vram := by simpa using wanted
  exact ⟨f, member, rfl, sameVram⟩

/-- A section has a name for an address exactly when it starts a function there. -/
theorem bySecVram_isSome (dump : Dump) (sec : Line) (vram : Nat) :
    (bySecVram dump sec vram).isSome = startsAt dump sec vram := by
  apply Bool.eq_iff_iff.mpr
  simp [bySecVram, lastEntry, startsAt]

/-- A listed name belongs to a section that lists it. -/
theorem name2sec_listed (dump : Dump) (name sec : Line) (found : name2sec dump name = some sec) :
    ∃ f, (sec, f) ∈ entries dump ∧ f.name = name := by
  obtain ⟨⟨other, f⟩, last, rfl⟩ := Option.map_eq_some_iff.mp found
  obtain ⟨member, wanted⟩ := lastEntry_member dump _ _ last
  exact ⟨f, member, by simpa using wanted⟩

/-- Each entry lies in a section of the table. -/
theorem entries_section (dump : Dump) (sec : Line) (f : Func) (member : (sec, f) ∈ entries dump) :
    ∃ s ∈ dump, s.name = sec ∧ f ∈ s.funcs := by
  obtain ⟨s, inDump, listed⟩ := List.mem_flatMap.mp member
  obtain ⟨g, inFuncs, same⟩ := List.mem_map.mp listed
  obtain ⟨rfl, rfl⟩ := Prod.mk.inj same
  exact ⟨s, inDump, rfl, inFuncs⟩

/-- A static name carries the index it was written with. -/
theorem staticPrefix_staticName (index vram : Nat) :
    staticPrefix (staticName index vram) = some (index, hex8 vram) := by
  have digits : (decimal index ++ '_' :: hex8 vram).takeWhile Char.isDigit = decimal index :=
    takeWhile_run Char.isDigit _ _ '_' (decimal_isDigit index) (by decide)
  have afterDigits : (decimal index ++ '_' :: hex8 vram).dropWhile Char.isDigit =
      '_' :: hex8 vram :=
    dropWhile_run Char.isDigit _ _ '_' (decimal_isDigit index) (by decide)
  have nonempty : decimal index ≠ [] := number_ne_nil 10 index
  have tail : lit ['_'] ('_' :: hex8 vram) = some (hex8 vram) := lit_append ['_'] _
  simp only [staticPrefix, staticName, lit_append, Option.bind_eq_bind, Option.bind_some, digits,
    afterDigits, if_neg nonempty, tail, value_decimal]

/-- The section's index is read back from a static's name. -/
theorem staticRe_staticName (index vram : Nat) : staticRe (staticName index vram) = some index := by
  have all : (hex8 vram).all isHex = true :=
    List.all_eq_true.mpr (fun c member => isHex_of_upper c (hex8_upper vram c member))
  rw [staticRe, staticPrefix_staticName]
  exact if_pos ⟨hex8_ne_nil vram, all⟩

/-- Positions of distinct section names are their own; the table is searched from its end, and
finds the only position of the name. -/
theorem secName2idx_own (dump : Dump) (distinct : (secPositions dump).Nodup) (index : Nat)
    (sec : Line)
    (here : (secPositions dump)[index]? = some sec) : secName2idx dump sec = some index := by
  have listed : (sec, index) ∈ (secPositions dump).zipIdx := List.mem_zipIdx_iff_getElem?.mpr here
  cases found : (secPositions dump).zipIdx.reverse.find? (fun place => place.1 == sec) with
  | none =>
    have absent := List.find?_eq_none.mp found (sec, index) (List.mem_reverse.mpr listed)
    simp at absent
  | some place =>
    obtain ⟨name, other⟩ := place
    obtain rfl : name = sec := by simpa using List.find?_some found
    have elsewhere :=
      List.mem_zipIdx_iff_getElem?.mp (List.mem_reverse.mp (List.mem_of_find?_eq_some found))
    have bound : index < (secPositions dump).length := (List.getElem?_eq_some_iff.mp here).1
    have same : index = other := (List.getElem?_inj bound distinct).mp (here.trans elsewhere.symm)
    simp [secName2idx, found, same]

/-- A function's own section is a section of the table. -/
theorem sectionOf_known (dump : Dump) (name sec : Line) (found : sectionOf dump name = some sec) :
    sec ∈ secPositions dump := by
  rw [sectionOf] at found
  cases listed : name2sec dump name with
  | some other =>
    obtain rfl : other = sec := by simpa [listed] using found
    obtain ⟨f, member, _⟩ := name2sec_listed dump name other listed
    obtain ⟨s, inDump, same, _⟩ := entries_section dump other f member
    exact List.mem_map.mpr ⟨s, inDump, same⟩
  | none =>
    rw [listed] at found
    obtain ⟨index, _, at_index⟩ := Option.bind_eq_some_iff.mp found
    exact List.mem_of_getElem? at_index

end NoMercyRecomp.SymbolTable
