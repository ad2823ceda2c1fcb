import NoMercyRecomp.SymbolReaders

/-!
# Injected entries

`syms/extra_funcs.txt` holds one entry a line, `section name vram size`, and every
writer ends its lines. `gen_symbols` reads the entries back by splitting each line at
white space, skips a line that does not have four parts, and merges the entries into
the sections of the same name.

The disassembly, the suppressed names and the renaming are the same at every
regeneration; only the injected entries change. An entry that a tool writes for a known
section is therefore a start of that section in the next table, unless its name is
suppressed.
-/

namespace NoMercyRecomp.ExtraFuncs

open TextScan SymbolTable SymbolReaders

/-! ## Words of a line -/

/-- `line.split()` -/
def words (line : Line) : List Line := (line.splitOnP isSpace).filter (fun word => word ≠ [])

/-- A nonempty word has no white space. -/
def Solid (word : Line) : Prop := word ≠ [] ∧ ∀ c ∈ word, isSpace c = false

/-- The only word of a line without white space. -/
theorem words_last (word : Line) (solid : Solid word) : words word = [word] := by
  rw [words, List.splitOnP_eq_singleton solid.2]
  simp [solid.1]

/-- The first word ends at the first space. -/
theorem words_cons (word rest : Line) (solid : Solid word) :
    words (word ++ ' ' :: rest) = word :: words rest := by
  rw [words, List.splitOnP_append_cons_of_forall_mem solid.2 ' ' (by decide)]
  simp [words, solid.1]

/-- White space is not a word character. -/
theorem isSpace_word (c : Char) (inside : isWord c = true) : isSpace c = false := by
  cases space : isSpace c with
  | false => rfl
  | true =>
    have cases : c = ' ' ∨ c = '\t' ∨ c = '\n' ∨ c = '\r' ∨ c = '\x0b' ∨ c = '\x0c' := by
      simpa [isSpace, or_assoc] using space
    rcases cases with rfl | rfl | rfl | rfl | rfl | rfl <;> exact absurd inside (by decide)

/-- Digits are word characters. -/
theorem isWord_upper (c : Char) (digit : isUpperHex c = true) : isWord c = true := by
  rw [isUpperHex, Bool.or_eq_true, Bool.and_eq_true] at digit
  rcases digit with decimal | ⟨low, high⟩
  · simp [isWord, Char.isAlphanum, decimal]
  · have capital : c.isUpper = true := by
      have low : 65 ≤ c.toNat := UInt32.le_iff_toNat_le.mp (of_decide_eq_true low)
      have high : c.toNat ≤ 70 := UInt32.le_iff_toNat_le.mp (of_decide_eq_true high)
      rw [Char.isUpper, decide_eq_true_eq]
      exact ⟨UInt32.le_iff_toNat_le.mpr low,
        UInt32.le_iff_toNat_le.mpr (Nat.le_trans high (by decide))⟩
    simp [isWord, Char.isAlphanum, Char.isAlpha, capital]

/-- A word name is one word of a line. -/
theorem WordName.solid (word : Line) (wordName : WordName word) : Solid word :=
  ⟨wordName.1, fun c member => isSpace_word c (wordName.2 c member)⟩

/-! ## The file -/

/-- `int(text, 16)` of a number without sign and underscores. -/
def intHex (text : Line) : Option Nat :=
  let digits := ((lit (str "0x") text).or (lit (str "0X") text)).getD text
  if digits ≠ [] ∧ digits.all isHex then some (value 16 digits) else none

/-- `EXTRA_FUNCS` as `gen_symbols` fills it from the lines of the file. A malformed number
in a line of four parts is an uncaught `ValueError`. -/
def loadExtra : List Line → Option (List (Line × Func))
  | [] => some []
  | line :: rest =>
    match words line with
    | [sec, name, vram, size] => do
      let vram ← intHex vram
      let size ← intHex size
      let later ← loadExtra rest
      some ((sec, ⟨name, vram, size⟩) :: later)
    | _ => loadExtra rest

/-- `0x` before hexadecimal digits. -/
def prefixed (digits : Line) : Line := '0' :: 'x' :: digits

/-- `{sec} func_{t:08X} 0x{t:08X} 0x{size:X}` -/
def entryLine (sec : Line) (target size : Nat) : Line :=
  sec ++ ' ' :: (funcName target ++ ' ' :: (prefixed (hex8 target) ++ ' ' :: prefixed (hex size)))

/-- The entry that such a line stands for. -/
def entry (sec : Line) (target size : Nat) : Line × Func := (sec, ⟨funcName target, target, size⟩)

/-- A function name by address is a word. -/
theorem funcName_word (target : Nat) : WordName (funcName target) := by
  refine ⟨by simp [funcName, str], ?_⟩
  intro c member
  rcases List.mem_append.mp member with front | digit
  · exact List.all_eq_true.mp (by decide : (str "func_").all isWord = true) c front
  · exact isWord_upper c (hex8_upper target c digit)

/-- A prefixed number is a word. -/
theorem prefixed_word (digits : Line) (upper : ∀ c ∈ digits, isUpperHex c = true) :
    WordName (prefixed digits) := by
  refine ⟨by simp [prefixed], ?_⟩
  intro c member
  rcases List.mem_cons.mp member with rfl | member
  · decide
  rcases List.mem_cons.mp member with rfl | digit
  · decide
  · exact isWord_upper c (upper c digit)

/-- A prefixed number reads back as itself. -/
theorem intHex_prefixed (digits : Line) (nonempty : digits ≠ [])
    (upper : ∀ c ∈ digits, isUpperHex c = true) :
    intHex (prefixed digits) = some (value 16 digits) := by
  have marked : lit (str "0x") (prefixed digits) = some digits := lit_append (str "0x") digits
  have all : digits.all isHex = true :=
    List.all_eq_true.mpr (fun c member => isHex_of_upper c (upper c member))
  simp [intHex, marked, nonempty, all]

/-- An entry's line has its four parts. -/
theorem words_entryLine (sec : Line) (target size : Nat) (solid : Solid sec) :
    words (entryLine sec target size) =
      [sec, funcName target, prefixed (hex8 target), prefixed (hex size)] := by
  have name : Solid (funcName target) := WordName.solid _ (funcName_word target)
  have vram : Solid (prefixed (hex8 target)) :=
    WordName.solid _ (prefixed_word _ (hex8_upper target))
  have length : Solid (prefixed (hex size)) := WordName.solid _ (prefixed_word _ (hex_upper size))
  rw [entryLine, words_cons sec _ solid, words_cons _ _ name, words_cons _ _ vram,
    words_last _ length]

/-- Two entries for one target have one line only if they agree, whatever the names of their
sections are: the size is what stands behind the last `x`. -/
theorem entryLine_same (sec sec' : Line) (target size size' : Nat)
    (same : entryLine sec target size = entryLine sec' target size') :
    sec = sec' ∧ size = size' := by
  have parts (name : Line) (n : Nat) : entryLine name target n =
      (name ++ (' ' :: (funcName target ++ ' ' :: (prefixed (hex8 target) ++ [' ', '0'])))) ++
        'x' :: hex n := by
    simp [entryLine, prefixed]
  rw [parts, parts] at same
  have absent (n : Nat) : 'x' ∉ hex n := hex_absent n 'x' (by decide)
  have split (front front' : Line) (n n' : Nat)
      (equal : front ++ 'x' :: hex n = front' ++ 'x' :: hex n') : front = front' ∧
          hex n = hex n' := by
    obtain ⟨more, rfl, rest⟩ | ⟨more, rfl, rest⟩ := List.append_eq_append_iff.mp equal
    · cases more with
      | nil => exact ⟨(List.append_nil front).symm, (List.cons.inj rest).2⟩
      | cons c more =>
        have inside : 'x' ∈ hex n := by
          rw [(List.cons.inj rest).2]
          exact List.mem_append_right more List.mem_cons_self
        exact absurd inside (absent n)
    · cases more with
      | nil => exact ⟨List.append_nil front', (List.cons.inj rest).2.symm⟩
      | cons c more =>
        have inside : 'x' ∈ hex n' := by
          rw [(List.cons.inj rest).2]
          exact List.mem_append_right more List.mem_cons_self
        exact absurd inside (absent n')
  obtain ⟨fronts, sizes⟩ := split _ _ _ _ same
  have values := congrArg (value 16) sizes
  rw [value_hex, value_hex] at values
  exact ⟨List.append_cancel_right fronts, values⟩

/-- Lines for distinct places are distinct. -/
theorem entryLine_injective (sec sec' : Line) (target target' size size' : Nat) (solid : Solid sec)
    (solid' : Solid sec') (same : entryLine sec target size = entryLine sec' target' size') :
    sec = sec' ∧ target = target' ∧ size = size' := by
  have parts := congrArg words same
  rw [words_entryLine sec target size solid, words_entryLine sec' target' size' solid'] at parts
  simp only [List.cons.injEq, prefixed] at parts
  obtain ⟨sameSec, _, ⟨_, _, sameVram⟩, ⟨_, _, sameSize⟩, _⟩ := parts
  exact ⟨sameSec, hex8_injective _ _ sameVram, by rw [← value_hex size, sameSize, value_hex]⟩

/-- A written entry is read back. By induction on the lines: the entry's words are its section,
address and size, and what is read of them is what was written. -/
theorem loadExtra_entry (lines : List Line) (sec : Line) (target size : Nat)
    (extra : List (Line × Func)) (solid : Solid sec) (member : entryLine sec target size ∈ lines)
    (loaded : loadExtra lines = some extra) :
    entry sec target size ∈ extra := by
  induction lines generalizing extra with
  | nil => simp at member
  | cons line rest inductionHypothesis =>
    have vram := intHex_prefixed (hex8 target) (hex8_ne_nil target) (hex8_upper target)
    have length := intHex_prefixed (hex size) (number_ne_nil 16 size) (hex_upper size)
    rcases List.mem_cons.mp member with rfl | later
    · rw [loadExtra, words_entryLine sec target size solid] at loaded
      simp only [vram, length, value_hex8, value_hex, Option.bind_eq_bind,
        Option.bind_some] at loaded
      obtain ⟨others, _, rfl⟩ : ∃ others, loadExtra rest = some others ∧
          (sec, (⟨funcName target, target, size⟩ : Func)) :: others = extra := by
        simpa [Option.bind_eq_some_iff] using loaded
      exact List.mem_cons_self
    · rw [loadExtra] at loaded
      split at loaded
      · simp only [Option.bind_eq_bind, Option.bind_eq_some_iff] at loaded
        obtain ⟨_, _, _, _, others, read, same⟩ := loaded
        obtain rfl := Option.some.inj same
        exact List.mem_cons_of_mem _ (inductionHypothesis others later read)
      · exact inductionHypothesis extra later loaded

/-! ## Regeneration -/

/-- The values of `SECTION_NAMES`. -/
def sectionNames : List Line :=
  [str "entry", str "ovl_a", str "ovl_b", str "ovl_c", str "ovl_d", str "ovl_e"]

/-- How `main` names a section: by `SECTION_NAMES`, or `main_{rom:X}`. -/
def Named (sec : Section) : Prop := sec.name ∈ sectionNames ∨ sec.name = str "main_" ++ hex sec.rom

instance (sec : Section) : Decidable (Named sec) := inferInstanceAs (Decidable (_ ∨ _))

/-- What `gen_symbols` reads at every regeneration besides the injected entries: the
disassembled sections, `SKIP` and `RENAME`. -/
structure Disassembly where
  sections : List Section
  skip : List Line
  rename : List (Line × Line)
  named : ∀ sec ∈ sections, Named sec

variable (disasm : Disassembly)

/-- The names of the sections. -/
def Disassembly.names : List Line := disasm.sections.map Section.name

/-- A section name is a word, and not the text of Python's `None`. -/
theorem Disassembly.names_word (sec : Line) (known : sec ∈ disasm.names) :
    WordName sec ∧ sec ≠ str "None" := by
  obtain ⟨s, member, rfl⟩ := List.mem_map.mp known
  rcases disasm.named s member with listed | main
  · have all : ∀ name ∈ sectionNames, WordName name ∧ name ≠ str "None" := by decide
    exact all s.name listed
  · rw [main]
    refine ⟨⟨by simp [str], ?_⟩, by simp [str]⟩
    intro c inName
    rcases List.mem_append.mp inName with front | digit
    · exact List.all_eq_true.mp (by decide : (str "main_").all isWord = true) c front
    · exact isWord_upper c (hex_upper s.rom c digit)

/-- `gen_symbols`: the table with the injected entries of the file. -/
def genSymbols (lines : List Line) : Option Dump :=
  (loadExtra lines).map (fun extra =>
    GenSymbols.main ⟨disasm.sections, extra, disasm.skip, disasm.rename⟩)

/-- A table lists the sections of the disassembly. -/
def Lists (dump : Dump) : Prop := secPositions dump = disasm.names

/-- A regenerated table lists them. -/
theorem genSymbols_lists (lines : List Line) (dump : Dump)
    (made : genSymbols disasm lines = some dump) :
    Lists disasm dump := by
  obtain ⟨extra, _, rfl⟩ := Option.map_eq_some_iff.mp made
  exact GenSymbols.emitSections_names _ _ _

/-- A written entry of a known section is a start of the section in the regenerated table,
unless its name is suppressed. -/
theorem genSymbols_startsAt (lines : List Line) (dump : Dump)
    (made : genSymbols disasm lines = some dump)
    (sec : Line) (target size : Nat) (solid : Solid sec) (known : sec ∈ disasm.names)
    (member : entryLine sec target size ∈ lines) (kept : funcName target ∉ disasm.skip) :
    startsAt dump sec target = true := by
  obtain ⟨extra, loaded, rfl⟩ := Option.map_eq_some_iff.mp made
  have injected : entry sec target size ∈ extra :=
    loadExtra_entry lines sec target size extra solid member loaded
  exact GenSymbols.main_startsAt
    ⟨disasm.sections, extra, disasm.skip, disasm.rename⟩ sec _ known injected kept

/-! ## Reading the table -/

/-- `load_funcs` reads from a written table exactly its functions, each with its section,
when sections and functions are named by words. -/
theorem loadFuncs_written (dump : Dump) (words : WordNames dump) :
    loadFuncs (tomlLines dump) = (entries dump).map (fun entry => (some entry.1, entry.2)) :=
  walk_written loadFuncs_fits dump words

end NoMercyRecomp.ExtraFuncs
