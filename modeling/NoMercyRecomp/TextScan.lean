import Mathlib

/-!
# Scanning lines of text

A line is its list of characters. Literal text, maximal runs of a character
class, and the first or every place where a matcher succeeds are the parts from
which the single-line patterns of a text tool are read; each has the law that
says what it does on concatenated text. Numbers are printed and read positionally,
so a printed number reads back as itself.

Every pattern built here starts with a fixed character and cannot overlap a later
match of itself. Trying every position therefore finds the same matches as a
left-to-right scan that skips what it has matched.
-/

namespace TextScan

variable {α β : Type}

abbrev Line := List Char

/-- The characters of a literal. -/
def str (text : String) : Line := text.toList

/-- The characters of a text that is written out. -/
theorem str_ofList (characters : Line) : str (String.ofList characters) = characters :=
  String.toList_ofList

/-- White space within one line or at its end. -/
def isSpace (c : Char) : Bool :=
  c == ' ' || c == '\t' || c == '\n' || c == '\r' || c == '\x0b' || c == '\x0c'

/-- The class `[ \t]`. -/
def isBlank (c : Char) : Bool := c == ' ' || c == '\t'

/-- The class `\w`, over ASCII. -/
def isWord (c : Char) : Bool := c.isAlphanum || c == '_'

/-- The class `[0-9A-F]`. -/
def isUpperHex (c : Char) : Bool := c.isDigit || ('A' ≤ c && c ≤ 'F')

/-- The class `[0-9A-Fa-f]`. -/
def isHex (c : Char) : Bool := isUpperHex c || ('a' ≤ c && c ≤ 'f')

/-- Both ends of a line without their white space. -/
def strip (line : Line) : Line := (line.dropWhile isSpace).rdropWhile isSpace

/-- What follows a literal that the line starts with. -/
def lit : Line → Line → Option Line
  | [], line => some line
  | _ :: _, [] => none
  | p :: pattern, c :: line => if p = c then lit pattern line else none

/-- Every success of a matcher, trying each position of the line in turn. -/
def findAll (match? : Line → Option α) : Line → List α
  | [] => []
  | c :: rest => (match? (c :: rest)).toList ++ findAll match? rest

/-- Every success of a matcher with its position, the line starting at `start`. -/
def findAllAt (match? : Line → Option α) : Nat → Line → List (Nat × α)
  | _, [] => []
  | start, c :: rest =>
    ((match? (c :: rest)).map (fun found => (start, found))).toList ++
      findAllAt match? (start + 1) rest

/-- The text before the first success of a matcher, and its result there. -/
def search (match? : Line → Option α) : Line → Option (Line × α)
  | [] => none
  | c :: rest =>
    match match? (c :: rest) with
    | some found => some ([], found)
    | none => (search match? rest).map (fun found => (c :: found.1, found.2))

/-- The text before and after the first occurrence of a literal. -/
def cut (pattern line : Line) : Option (Line × Line) := search (lit pattern) line

/-- Whether a literal occurs in the line. -/
def occurs (pattern line : Line) : Bool := (cut pattern line).isSome

/-- Replace at most `fuel` occurrences of a literal, from the left. -/
def replaceUpTo (pattern new : Line) : Nat → Line → Line
  | 0, line => line
  | fuel + 1, line =>
    match cut pattern line with
    | some (before, after) => before ++ new ++ replaceUpTo pattern new fuel after
    | none => line

/-- Replace every occurrence of a nonempty literal; a line has no more
occurrences than characters. -/
def replaceAll (pattern new line : Line) : Line := replaceUpTo pattern new line.length line

/-- The character of one digit, in upper case. -/
def digitChar (digit : Nat) : Char := Char.ofNat (if digit < 10 then 48 + digit else 55 + digit)

/-- The value of one digit character, in either case. -/
def digitValue (c : Char) : Nat :=
  if c.isDigit then c.toNat - 48 else if c.toNat < 97 then c.toNat - 55 else c.toNat - 87

/-- A number written in the base without leading zeros; zero is one digit. -/
def number (base n : Nat) : Line :=
  if n = 0 then ['0'] else (Nat.digits base n).reverse.map digitChar

/-- The number a digit string writes in the base. -/
def value (base : Nat) (digits : Line) : Nat :=
  digits.foldl (fun total c => total * base + digitValue c) 0

/-- Upper-case hexadecimal, `%X`. -/
def hex (n : Nat) : Line := number 16 n

/-- Upper-case hexadecimal padded to eight digits, `%08X`. -/
def hex8 (n : Nat) : Line := List.replicate (8 - (hex n).length) '0' ++ hex n

/-- Decimal, `%d`. -/
def decimal (n : Nat) : Line := number 10 n

/-! ## Literals and runs -/

/-- A pattern is found in front of what follows it. -/
@[simp] theorem lit_append (pattern rest : Line) : lit pattern (pattern ++ rest) = some rest := by
  induction pattern with
  | nil => rfl
  | cons p pattern inductionHypothesis => simpa [lit] using inductionHypothesis

/-- A pattern is found in front of what follows it, by its first character. -/
@[simp] theorem lit_cons_append (p : Char) (pattern rest : Line) :
    lit (p :: pattern) (p :: (pattern ++ rest)) = some rest :=
  lit_append (p :: pattern) rest

/-- A literal is found exactly where the line continues with it. By induction on the literal,
along the line. -/
theorem lit_eq_some (pattern line rest : Line) :
    lit pattern line = some rest ↔ line = pattern ++ rest := by
  constructor
  · intro found
    induction pattern generalizing line with
    | nil => simpa [lit] using found
    | cons p pattern inductionHypothesis =>
      cases line with
      | nil => simp [lit] at found
      | cons c line =>
        by_cases same : p = c
        · subst same
          simpa using inductionHypothesis line (by simpa [lit] using found)
        · simp [lit, same] at found
  · rintro rfl
    exact lit_append pattern rest

/-- Up to a separator, a literal without the separator is found only in the whole word. By
induction on the literal, along the word. -/
theorem lit_until (separator : Char) (literal tail word rest : Line) (plain : separator ∉ literal)
    (solid : separator ∉ word) : lit (literal ++ separator :: tail) (word ++ separator :: rest) =
      if word = literal then lit tail rest else none := by
  induction literal generalizing word with
  | nil =>
    cases word with
    | nil => simp [lit]
    | cons c word =>
      have different : separator ≠ c := fun same => solid (same ▸ List.mem_cons_self)
      simp [lit, different]
  | cons p literal inductionHypothesis =>
    have plain' : separator ∉ literal := fun member => plain (List.mem_cons_of_mem p member)
    cases word with
    | nil =>
      have different : p ≠ separator := fun same => plain (same ▸ List.mem_cons_self)
      simp [lit, different]
    | cons c word =>
      have later :=
        inductionHypothesis word plain' (fun member => solid (List.mem_cons_of_mem c member))
      by_cases same : p = c
      · simp [lit, same, later]
      · simp [lit, same, Ne.symm same]

/-- A run of the class ends at the first character outside it. -/
theorem takeWhile_run (class? : Char → Bool) (word rest : Line) (next : Char)
    (inside : ∀ c ∈ word, class? c = true) (ended : class? next = false) :
    (word ++ next :: rest).takeWhile class? = word := by
  rw [List.takeWhile_append_of_pos inside]
  simp [ended]

/-- What follows a run of the class starts with that character. -/
theorem dropWhile_run (class? : Char → Bool) (word rest : Line) (next : Char)
    (inside : ∀ c ∈ word, class? c = true) (ended : class? next = false) :
    (word ++ next :: rest).dropWhile class? = next :: rest := by
  rw [List.dropWhile_append_of_pos inside]
  simp [ended]

/-- A run of the class at the end is dropped up to the last character outside it. -/
theorem rdropWhile_run (class? : Char → Bool) (word spaces : Line) (last : Char)
    (inside : ∀ c ∈ spaces, class? c = true) (solid : class? last = false) :
    (word ++ last :: spaces).rdropWhile class? = word ++ [last] := by
  have reversed : ∀ c ∈ spaces.reverse, class? c = true := fun c member =>
    inside c (List.mem_reverse.mp member)
  have shape : (word ++ last :: spaces).reverse = spaces.reverse ++ last :: word.reverse := by simp
  rw [List.rdropWhile, shape, dropWhile_run class? _ _ last reversed solid]
  simp

/-- Leading white space does not change what stripping leaves. -/
theorem strip_spaces (spaces core : Line) (blank : ∀ c ∈ spaces, isSpace c = true) :
    strip (spaces ++ core) = strip core := by
  rw [strip, strip, List.dropWhile_append_of_pos blank]

/-- Text that neither starts nor ends with white space is left as it is. -/
theorem strip_solid (core : Line) (first last : Char) (starts : core.head? = some first)
    (ends : core.getLast? = some last) (firstSolid : isSpace first = false)
    (lastSolid : isSpace last = false) : strip core = core := by
  have leading : core.dropWhile isSpace = core := by
    cases core with
    | nil => rfl
    | cons c rest =>
      obtain rfl : c = first := by simpa using starts
      simp [firstSolid]
  obtain ⟨body, rfl⟩ := List.getLast?_eq_some_iff.mp ends
  rw [strip, leading, rdropWhile_run isSpace body [] last (by simp) lastSolid]

/-! ## Searching -/

/-- The matcher can succeed only at a position holding this character. -/
def StartsWith (match? : Line → Option α) (first : Char) : Prop :=
  ∀ c rest, c ≠ first → match? (c :: rest) = none

/-- A literal is found only at its own first character. -/
theorem lit_startsWith (first : Char) (pattern : Line) :
    StartsWith (lit (first :: pattern)) first := by
  intro c rest different
  simp [lit, Ne.symm different]

/-- Text without the first character of a pattern holds no match of it. -/
theorem findAll_skip (match? : Line → Option α) (first : Char) (starts : StartsWith match? first)
    (skipped rest : Line) (absent : first ∉ skipped) :
    findAll match? (skipped ++ rest) = findAll match? rest := by
  induction skipped with
  | nil => rfl
  | cons c skipped inductionHypothesis =>
    have different : c ≠ first := fun same => absent (same ▸ List.mem_cons_self)
    have later : first ∉ skipped := fun member => absent (List.mem_cons_of_mem c member)
    simp [findAll, starts c (skipped ++ rest) different, inductionHypothesis later]

/-- A line without the first character of a pattern holds no match of it. -/
theorem findAll_absent (match? : Line → Option α) (first : Char) (starts : StartsWith match? first)
    (line : Line) (absent : first ∉ line) : findAll match? line = [] := by
  simpa [findAll] using findAll_skip match? first starts line [] absent

/-- Positions only annotate the matches. -/
theorem findAllAt_found (match? : Line → Option α) (start : Nat) (line : Line) :
    (findAllAt match? start line).map Prod.snd = findAll match? line := by
  induction line generalizing start with
  | nil => rfl
  | cons c rest inductionHypothesis =>
    rw [findAllAt, findAll, List.map_append, inductionHypothesis]
    cases match? (c :: rest) <;> rfl

/-- Matches lie between the start of the line and its end, by induction on the line with its start
moving along. -/
theorem findAllAt_bounds (match? : Line → Option α) (start : Nat) (line : Line) (found : Nat × α)
    (member : found ∈ findAllAt match? start line) :
    start ≤ found.1 ∧ found.1 < start + line.length := by
  induction line generalizing start with
  | nil => simp [findAllAt] at member
  | cons c rest inductionHypothesis =>
    rcases List.mem_append.mp member with here | later
    · cases atStart : match? (c :: rest) with
      | none => simp [atStart] at here
      | some result =>
        have same : found = (start, result) := by simpa [atStart] using here
        subst same
        simp
    · have bounds := inductionHypothesis (start + 1) later
      simp only [List.length_cons]
      omega

/-- The first match lies after all text that lacks its first character. -/
theorem search_skip (match? : Line → Option α) (first : Char) (starts : StartsWith match? first)
    (skipped rest : Line) (absent : first ∉ skipped) :
    search match? (skipped ++ rest) =
      (search match? rest).map (fun found => (skipped ++ found.1, found.2)) := by
  induction skipped with
  | nil => simp
  | cons c skipped inductionHypothesis =>
    have different : c ≠ first := fun same => absent (same ▸ List.mem_cons_self)
    have later : first ∉ skipped := fun member => absent (List.mem_cons_of_mem c member)
    simp [search, starts c (skipped ++ rest) different, inductionHypothesis later,
      Function.comp_def]

/-- A line without the first character of a pattern has no first match. -/
theorem search_absent (match? : Line → Option α) (first : Char) (starts : StartsWith match? first)
    (line : Line) (absent : first ∉ line) : search match? line = none := by
  simpa [search] using search_skip match? first starts line [] absent

/-- A first match is a match of the text at its place. By induction on the line, whose characters
up to there are what stands before. -/
theorem search_some (match? : Line → Option α) (line before : Line) (result : α)
    (found : search match? line = some (before, result)) :
    ∃ rest, line = before ++ rest ∧ match? rest = some result := by
  induction line generalizing before with
  | nil => simp [search] at found
  | cons c line inductionHypothesis =>
    rw [search] at found
    cases here : match? (c :: line) with
    | some other =>
      have same : ([], other) = (before, result) := by simpa [here] using found
      obtain ⟨rfl, rfl⟩ := Prod.mk.inj same
      exact ⟨c :: line, rfl, here⟩
    | none =>
      simp only [here, Option.map_eq_some_iff] at found
      obtain ⟨⟨earlier, other⟩, later, same⟩ := found
      obtain ⟨rfl, rfl⟩ := Prod.mk.inj same
      obtain ⟨rest, rfl, found⟩ := inductionHypothesis earlier later
      exact ⟨rest, rfl, found⟩

/-- The text around a cut is the original line. -/
theorem cut_eq (pattern line before after : Line)
    (found : cut pattern line = some (before, after)) :
    line = before ++ pattern ++ after := by
  obtain ⟨rest, rfl, here⟩ := search_some (lit pattern) line before after found
  rw [(lit_eq_some pattern rest after).mp here, List.append_assoc]

/-- A nonempty literal occurs exactly where the line contains it. The search starts at every
character, so it cannot miss a place; by induction on what stands before. -/
theorem occurs_iff (pattern line : Line) (nonempty : pattern ≠ []) :
    occurs pattern line = true ↔ ∃ before after, line = before ++ pattern ++ after := by
  constructor
  · intro found
    obtain ⟨⟨before, after⟩, here⟩ := Option.isSome_iff_exists.mp found
    exact ⟨before, after, cut_eq pattern line before after here⟩
  · rintro ⟨before, after, rfl⟩
    induction before with
    | nil =>
      cases pattern with
      | nil => exact absurd rfl nonempty
      | cons p pattern =>
        have here : lit (p :: pattern) (p :: (pattern ++ after)) = some after :=
          lit_append (p :: pattern) after
        simp [occurs, cut, search, here]
    | cons c before inductionHypothesis =>
      have later : (search (lit pattern) (before ++ pattern ++ after)).isSome = true :=
        inductionHypothesis
      simp only [occurs, cut, List.cons_append, search]
      cases lit pattern (c :: (before ++ pattern ++ after)) with
      | some rest => rfl
      | none => simpa using later

/-- A line without a character that every match contains holds no match. -/
theorem findAll_needs (match? : Line → Option α) (needed : Char)
    (needs : ∀ text result, match? text = some result → needed ∈ text) (line : Line)
    (absent : needed ∉ line) : findAll match? line = [] := by
  induction line with
  | nil => rfl
  | cons c rest inductionHypothesis =>
    have later : needed ∉ rest := fun member => absent (List.mem_cons_of_mem c member)
    have here : match? (c :: rest) = none := by
      cases found : match? (c :: rest) with
      | none => rfl
      | some result => exact absurd (needs _ result found) absent
    simp [findAll, here, inductionHypothesis later]

/-- A literal does not occur in a line that lacks one of its characters. -/
theorem occurs_absent (pattern line : Line) (c : Char) (inPattern : c ∈ pattern)
    (absent : c ∉ line) :
    occurs pattern line = false := by
  cases found : occurs pattern line with
  | false => rfl
  | true =>
    obtain ⟨before, after, rfl⟩ := (occurs_iff pattern line (List.ne_nil_of_mem inPattern)).mp found
    exact absurd (by simp [inPattern]) absent

/-- Where a literal occurs, so does each part of it. -/
theorem occurs_part (front pattern back line : Line) (nonempty : pattern ≠ [])
    (absent : occurs pattern line = false) : occurs (front ++ pattern ++ back) line = false := by
  cases found : occurs (front ++ pattern ++ back) line with
  | false => rfl
  | true =>
    obtain ⟨before, after, rfl⟩ := (occurs_iff _ line (by simp [nonempty])).mp found
    have part : occurs pattern (before ++ (front ++ pattern ++ back) ++ after) = true :=
      (occurs_iff pattern _ nonempty).mpr ⟨before ++ front, back ++ after, by simp⟩
    exact absurd (part.symm.trans absent) (by decide)

/-- Text without the first character of a literal does not begin an occurrence. -/
theorem occurs_skip (first : Char) (pattern skipped rest : Line) (absent : first ∉ skipped) :
    occurs (first :: pattern) (skipped ++ rest) = occurs (first :: pattern) rest := by
  rw [occurs, cut, search_skip _ first (lit_startsWith first pattern) skipped rest absent, occurs,
    cut, Option.isSome_map]

/-! ## Numbers -/

/-- A digit's character stands for the digit. -/
theorem digitValue_digitChar (digit : Nat) (bounded : digit < 16) :
    digitValue (digitChar digit) = digit := by
  interval_cases digit <;> decide

/-- Digits print in `[0-9A-F]`. -/
theorem digitChar_upperHex (digit : Nat) (bounded : digit < 16) :
    isUpperHex (digitChar digit) = true := by
  interval_cases digit <;> decide

/-- Decimal digits print in `\d`. -/
theorem digitChar_isDigit (digit : Nat) (bounded : digit < 10) :
    (digitChar digit).isDigit = true := by
  interval_cases digit <;> decide

/-- Every upper-case digit is a digit of either case. -/
theorem isHex_of_upper (c : Char) (upper : isUpperHex c = true) : isHex c = true := by
  simp [isHex, upper]

/-- Reading digit by digit from the left is the positional value. By induction on the digits from
the right, of which each is read back from its character. -/
theorem value_map_digitChar (base : Nat) (small : base ≤ 16) (digits : List Nat)
    (bounded : ∀ digit ∈ digits, digit < base) :
    value base (digits.reverse.map digitChar) = Nat.ofDigits base digits := by
  induction digits with
  | nil => rfl
  | cons digit digits inductionHypothesis =>
    have high : value base (digits.reverse.map digitChar) = Nat.ofDigits base digits :=
      inductionHypothesis (fun other member => bounded other (List.mem_cons_of_mem digit member))
    have low : digitValue (digitChar digit) = digit :=
      digitValue_digitChar digit (lt_of_lt_of_le (bounded digit List.mem_cons_self) small)
    rw [value] at high ⊢
    simp only [List.reverse_cons, List.map_append, List.map_cons, List.map_nil, List.foldl_append,
      List.foldl_cons, List.foldl_nil, high, low, Nat.ofDigits_cons]
    ring

/-- A printed number reads back as itself. -/
theorem value_number (base n : Nat) (large : 2 ≤ base) (small : base ≤ 16) :
    value base (number base n) = n := by
  by_cases zero : n = 0
  · have zeroDigit : digitValue '0' = 0 := by decide
    simp [number, zero, value, zeroDigit]
  · rw [number, if_neg zero, value_map_digitChar base small _ (fun digit member =>
      Nat.digits_lt_base large member)]
    exact Nat.ofDigits_digits base n

/-- Leading zeros do not change a value. -/
theorem value_replicate_zero (base count : Nat) (digits : Line) :
    value base (List.replicate count '0' ++ digits) = value base digits := by
  have zeros :
      (List.replicate count '0').foldl (fun total c => total * base + digitValue c) 0 = 0 := by
    induction count with
    | zero => rfl
    | succ count inductionHypothesis =>
      have zero : digitValue '0' = 0 := by decide
      simpa [List.replicate_succ, zero] using inductionHypothesis
  rw [value, List.foldl_append, zeros]
  rfl

/-- Hexadecimal digits are read back. -/
@[simp] theorem value_hex (n : Nat) : value 16 (hex n) = n :=
  value_number 16 n (by decide) (by decide)

/-- Eight hexadecimal digits are read back. -/
@[simp] theorem value_hex8 (n : Nat) : value 16 (hex8 n) = n := by
  rw [hex8, value_replicate_zero, value_hex]

/-- Decimal digits are read back. -/
@[simp] theorem value_decimal (n : Nat) : value 10 (decimal n) = n :=
  value_number 10 n (by decide) (by decide)

/-- A printed number has at least one digit. -/
theorem number_ne_nil (base n : Nat) : number base n ≠ [] := by
  by_cases zero : n = 0
  · simp [number, zero]
  · simp [number, zero, Nat.digits_ne_nil_iff_ne_zero]

/-- Every character of a printed number prints a digit of the base. -/
theorem number_digits (base n : Nat) (large : 2 ≤ base) (c : Char) (member : c ∈ number base n) :
    ∃ digit, digit < base ∧ c = digitChar digit := by
  by_cases zero : n = 0
  · have same : c = '0' := by simpa [number, zero] using member
    exact ⟨0, by omega, same.trans (by decide)⟩
  · rw [number, if_neg zero] at member
    obtain ⟨digit, among, rfl⟩ := List.mem_map.mp member
    exact ⟨digit, Nat.digits_lt_base large (List.mem_reverse.mp among), rfl⟩

/-- Hexadecimal prints in `[0-9A-F]`. -/
theorem hex_upper (n : Nat) (c : Char) (member : c ∈ hex n) : isUpperHex c = true := by
  obtain ⟨digit, bounded, rfl⟩ := number_digits 16 n (by decide) c member
  exact digitChar_upperHex digit bounded

/-- Padded hexadecimal prints in `[0-9A-F]`. -/
theorem hex8_upper (n : Nat) (c : Char) (member : c ∈ hex8 n) : isUpperHex c = true := by
  rcases List.mem_append.mp member with padding | digit
  · rw [List.eq_of_mem_replicate padding]
    decide
  · exact hex_upper n c digit

/-- Decimal prints in `\d`. -/
theorem decimal_isDigit (n : Nat) (c : Char) (member : c ∈ decimal n) : c.isDigit = true := by
  obtain ⟨digit, bounded, rfl⟩ := number_digits 10 n (by decide) c member
  exact digitChar_isDigit digit bounded

/-- A printed number contains no character outside its digits. -/
theorem hex_absent (n : Nat) (c : Char) (outside : isUpperHex c = false) : c ∉ hex n := by
  intro member
  simp [hex_upper n c member] at outside

/-- What is no hexadecimal digit does not occur among them. -/
theorem hex8_absent (n : Nat) (c : Char) (outside : isUpperHex c = false) : c ∉ hex8 n := by
  intro member
  simp [hex8_upper n c member] at outside

/-- What is no decimal digit does not occur among them. -/
theorem decimal_absent (n : Nat) (c : Char) (outside : c.isDigit = false) : c ∉ decimal n := by
  intro member
  simp [decimal_isDigit n c member] at outside

/-- Padding leaves at least the digits. -/
theorem hex8_ne_nil (n : Nat) : hex8 n ≠ [] := by
  simp [hex8, hex, number_ne_nil]

/-- A padded number has at least eight digits, exactly eight below 2^32. -/
theorem hex8_length (n : Nat) (bounded : n < 2 ^ 32) : (hex8 n).length = 8 := by
  have short : (hex n).length ≤ 8 := by
    by_cases zero : n = 0
    · simp [hex, number, zero]
    · rw [hex, number, if_neg zero, List.length_map, List.length_reverse]
      exact (Nat.digits_length_le_iff (by decide) n).mpr (by norm_num; exact bounded)
  rw [hex8, List.length_append, List.length_replicate]
  omega

/-- Equal padded numbers are equal. -/
theorem hex8_injective (m n : Nat) (same : hex8 m = hex8 n) : m = n := by
  rw [← value_hex8 m, ← value_hex8 n, same]

/-- A digit of either case is less than sixteen: its code is in one of three ranges, each of which
has its own offset. -/
theorem digitValue_lt (c : Char) (digit : isHex c = true) : digitValue c < 16 := by
  have decimal (isDecimal : c.isDigit = true) : c.toNat ≤ 57 := by
    rw [Char.isDigit, Bool.and_eq_true, decide_eq_true_eq, decide_eq_true_eq] at isDecimal
    exact UInt32.le_iff_toNat_le.mp isDecimal.2
  have range : c.isDigit = true ∨ (65 ≤ c.toNat ∧ c.toNat ≤ 70) ∨ 97 ≤ c.toNat ∧ c.toNat ≤ 102 := by
    simp only [isHex, isUpperHex, Bool.or_eq_true, Bool.and_eq_true, decide_eq_true_eq,
      or_assoc] at digit
    obtain isDecimal | ⟨low, high⟩ | ⟨low, high⟩ := digit
    · exact Or.inl isDecimal
    · have low : 65 ≤ c.toNat := UInt32.le_iff_toNat_le.mp low
      have high : c.toNat ≤ 70 := UInt32.le_iff_toNat_le.mp high
      exact Or.inr (Or.inl ⟨low, high⟩)
    · have low : 97 ≤ c.toNat := UInt32.le_iff_toNat_le.mp low
      have high : c.toNat ≤ 102 := UInt32.le_iff_toNat_le.mp high
      exact Or.inr (Or.inr ⟨low, high⟩)
  unfold digitValue
  obtain isDecimal | letter := range
  · have high := decimal isDecimal
    rw [if_pos isDecimal]
    omega
  · split
    · rename_i isDecimal
      have tooHigh := decimal isDecimal
      omega
    · split <;> omega

/-- What a string of digits writes is less than the power of the base by its length. -/
theorem value_lt (digits : Line) (hexadecimal : digits.all isHex = true) :
    value 16 digits < 16 ^ digits.length := by
  induction digits using List.reverseRecOn with
  | nil => decide
  | append_singleton digits c inductionHypothesis =>
    rw [List.all_append, Bool.and_eq_true] at hexadecimal
    have high := inductionHypothesis hexadecimal.1
    have low := digitValue_lt c (by simpa using hexadecimal.2)
    have last : value 16 (digits ++ [c]) = value 16 digits * 16 + digitValue c := by
      simp [value, List.foldl_append]
    rw [last, List.length_append, List.length_singleton, Nat.pow_succ]
    omega

/-- Eight digits write a 32-bit number. -/
theorem value_eight (digits : Line) (length : digits.length = 8)
    (hexadecimal : digits.all isHex = true) :
    value 16 digits < 2 ^ 32 := by
  have bound := value_lt digits hexadecimal
  rw [length] at bound
  exact lt_of_lt_of_eq bound (by norm_num)

/-- Upper-case digits are digits. -/
theorem all_isHex (digits : Line) (upper : digits.all isUpperHex = true) :
    digits.all isHex = true := by
  refine List.all_eq_true.mpr (fun c member => ?_)
  exact isHex_of_upper c (List.all_eq_true.mp upper c member)

end TextScan
