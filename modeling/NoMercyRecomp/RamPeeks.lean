import NoMercyRecomp.TextScan
import NoMercyRecomp.ByteMemory

/-!
# Peeks into RDRAM

The RetroAchievements thread reads the game's memory by 32-bit addresses that come from
outside: achievement scripts, and a list of watched addresses in the environment. The
peeks stop at the end of RDRAM. The watch indexes with its addresses as they are.

The readers are instrumented with the indexes at which they read, in order; no reader
looks at them.
-/

namespace NoMercyRecomp.RamPeeks

open TextScan ByteMemory

/-- `RDRAM_SIZE`. -/
def rdramSize : UInt32 := 8 * 1024 * 1024

/-! ## The peeks -/

/-- What a peek leaves: the count it returns, the buffer, and where it read. -/
structure Peek where
  copied : UInt32
  buffer : Nat → UInt8
  indexes : List Nat

/-- The index of an address: `a ^ 3` in swap mode. -/
def indexOf (swap : Bool) (a : UInt32) : UInt32 := if swap then a ^^^ 3 else a

/-- The loop of `peek_bytes`, with `remaining` rounds to go at `i`. -/
def peekFrom (rdram : Memory) (swap : Bool) (address : UInt32) : Nat → UInt32 → Peek → Peek
  | 0, _, peek => peek
  | remaining + 1, i, peek =>
    let a := address + i
    if a ≥ rdramSize then peek
    else
      let index := (indexOf swap a).toNat
      peekFrom rdram swap address remaining (i + 1)
        ⟨peek.copied + 1, Function.update peek.buffer i.toNat (rdram index),
          peek.indexes ++ [index]⟩

/-- `peek_bytes`. -/
def peekBytes (rdram : Option Memory) (swap : Bool) (address : UInt32) (buffer : Nat → UInt8)
    (numBytes : UInt32) : Peek :=
  match rdram with
  | none => ⟨0, buffer, []⟩
  | some rdram => peekFrom rdram swap address numBytes.toNat 0 ⟨0, buffer, []⟩

/-- `client_read_memory`. -/
def clientReadMemory (rdram : Option Memory) (swap : Bool) (address : UInt32) (buffer : Nat → UInt8)
    (numBytes : UInt32) :
    Peek := peekBytes rdram swap address buffer numBytes

/-- `runtime_peek`: the value, and the peek it makes. -/
def runtimePeek (rdram : Option Memory) (swap : Bool) (address numBytes : UInt32) : UInt32 × Peek :=
  let capped := if numBytes > 4 then 4 else numBytes
  let peek := peekBytes rdram swap address (fun _ => 0) capped
  ((peek.buffer 0).toUInt32 ||| ((peek.buffer 1).toUInt32 <<< 8) |||
    ((peek.buffer 2).toUInt32 <<< 16) |||
    ((peek.buffer 3).toUInt32 <<< 24), peek)

/-! ## The watch -/

/-- `strtoul(tok, nullptr, 0)`, for an `unsigned long` of 32 bits: white space, a sign, a
prefix that tells the base, digits; too large a number is the largest one. -/
def strtoul (tok : Line) : UInt32 :=
  let text := tok.dropWhile isSpace
  let negative := text.head? == some '-'
  let rest := if negative || text.head? == some '+' then text.tail else text
  let total :=
    match rest with
    | '0' :: x :: digits =>
      if (x == 'x' || x == 'X') &&
        (digits.head?.map isHex).getD false then value 16 (digits.takeWhile isHex)
      else value 8 (rest.takeWhile (fun c => '0' ≤ c && c ≤ '7'))
    | rest => value 10 (rest.takeWhile Char.isDigit)
  if total ≥ 2 ^ 32 then 0xFFFFFFFF else if negative then 0 - UInt32.ofNat total
    else UInt32.ofNat total

/-- `strtok` by commas: the pieces that are not empty. -/
def strtok (text : Line) : List Line := (text.splitOn ',').filter (fun tok => tok ≠ [])

/-- `setup_watch`: the addresses, each with its last value, which starts as no value. -/
def setupWatch (spec : Option Line) : List (UInt32 × UInt32) :=
  match spec with
  | none => []
  | some spec => (strtok (spec.take 511)).map (fun tok => (strtoul tok, 0xFFFFFFFF))

/-- `%0*X`. -/
def padded (width n : Nat) : Line := List.replicate (width - (hex n).length) '0' ++ hex n

/-- What a poll leaves: the entries, the line it logs, and where it read. -/
structure Poll where
  entries : List (UInt32 × UInt32)
  line : Option Line
  indexes : List Nat

/-- The two bytes of a watched address, packed. -/
def watched (rdram : Memory) (a : UInt32) : UInt32 :=
  ((rdram a.toNat).toUInt32 <<< 8) ||| (rdram (a ^^^ 3).toNat).toUInt32

/-- One entry in the log. -/
def part (entry : UInt32 × UInt32) : Line :=
  ' ' :: padded 6 entry.1.toNat ++ '=' :: padded 2 (entry.2 >>> 8).toNat ++ '/' ::
    padded 2 (entry.2 &&& 0xFF).toNat

/-- `poll_watch`. -/
def pollWatch (rdram : Option Memory) (entries : List (UInt32 × UInt32)) : Poll :=
  match rdram with
  | none => ⟨entries, none, []⟩
  | some rdram =>
    let now := entries.map (fun entry => (entry.1, watched rdram entry.1))
    let changed := entries.any (fun entry => watched rdram entry.1 != entry.2)
    ⟨now, if changed then some (str "[ra] watch(raw/x3):" ++ now.flatMap part) else none,
      entries.flatMap (fun entry => [entry.1.toNat, (entry.1 ^^^ 3).toNat])⟩

/-! ## What is promised -/

/-- How many bytes can be read. -/
def readable (address count : UInt32) : Nat :=
  if rdramSize ≤ address then 0 else min count.toNat (rdramSize.toNat - address.toNat)

/-- The bytes that a peek returns. -/
def Peek.bytes (peek : Peek) : List UInt8 := (List.range peek.copied.toNat).map peek.buffer

/-- A peek returns the readable prefix, touches no more of the buffer, and reads inside
RDRAM. -/
structure ReadsPrefix (rdram : Memory) (swap : Bool) (address : UInt32) (buffer : Nat → UInt8)
    (count : UInt32) : Prop where
  copied : (peekBytes (some rdram) swap address buffer count).copied.toNat = readable address count
  filled : ∀ k < readable address count,
    (peekBytes (some rdram) swap address buffer count).buffer k =
    rdram (indexOf swap (address + UInt32.ofNat k)).toNat
  kept : ∀ k, readable address count ≤ k →
    (peekBytes (some rdram) swap address buffer count).buffer k = buffer k
  inside : ∀ index ∈ (peekBytes (some rdram) swap address buffer count).indexes,
    index < rdramSize.toNat

/-- A read in one piece equals the read in two. -/
def Splits (rdram : Memory) (swap : Bool) (address : UInt32) (buffer : Nat → UInt8)
    (first second : UInt32) : Prop :=
  first.toNat + second.toNat < 2 ^ 32 →
    (peekBytes (some rdram) swap address buffer (first + second)).bytes =
      (peekBytes (some rdram) swap address buffer first).bytes ++
        (peekBytes (some rdram) swap (address + first) buffer second).bytes

/-- The entries after some polls, each with the memory it finds. -/
def polled (memories : List Memory) (entries : List (UInt32 × UInt32)) : List (UInt32 × UInt32) :=
  memories.foldl (fun entries rdram => (pollWatch (some rdram) entries).entries) entries

/-- Every poll of a watch reads inside RDRAM. -/
def WatchesInside (spec : Option Line) : Prop :=
  ∀ memories rdram, ∀ index ∈ (pollWatch (some rdram) (polled memories (setupWatch spec))).indexes,
    index < rdramSize.toNat

/-- The second piece of a read starts beyond the last 32-bit address, so that its address
comes round to RDRAM, and is not empty. -/
def WrapsIntoRdram (address first second : UInt32) : Prop :=
  first.toNat + second.toNat < 2 ^ 32 ∧ second ≠ 0 ∧ 2 ^ 32 ≤ address.toNat + first.toNat ∧
    address + first < rdramSize

/-! ## The loop of a peek -/

/-- An index in RDRAM stays there in swap mode. -/
theorem indexOf_inside (swap : Bool) (a : UInt32) (inside : a < rdramSize) :
    (indexOf swap a).toNat < rdramSize.toNat := by
  have bound : a.toNat < 2 ^ 23 := UInt32.lt_iff_toNat_lt.mp inside
  unfold indexOf
  cases swap with
  | false => exact bound
  | true =>
    change (a ^^^ 3).toNat < 2 ^ 23
    rw [UInt32.toNat_xor]
    exact Nat.xor_lt_two_pow bound (by decide)

/-- How many bytes some rounds of the loop read. -/
def rounds (a : UInt32) (remaining : Nat) : Nat :=
  if rdramSize ≤ a then 0 else min remaining (rdramSize.toNat - a.toNat)

/-- One more round. -/
theorem rounds_succ (a : UInt32) (remaining : Nat) (inside : a < rdramSize) :
    rounds a (remaining + 1) = rounds (a + 1) remaining + 1 := by
  have bound : a.toNat < 2 ^ 23 := UInt32.lt_iff_toNat_lt.mp inside
  have next : (a + 1).toNat = a.toNat + 1 := by
    rw [UInt32.toNat_add]
    exact Nat.mod_eq_of_lt (by change a.toNat + 1 < 2 ^ 32; omega)
  have size : rdramSize.toNat = 2 ^ 23 := rfl
  unfold rounds
  rw [if_neg (UInt32.not_le.mpr inside)]
  by_cases last : rdramSize ≤ a + 1
  · have full : 2 ^ 23 ≤ a.toNat + 1 := next ▸ UInt32.le_iff_toNat_le.mp last
    rw [if_pos last]
    omega
  · rw [if_neg last]
    omega

/-- What some rounds of the loop do: they count and fill as many bytes as can be read, one
after the other, each from an index in RDRAM. -/
theorem peekFrom_spec (rdram : Memory) (swap : Bool) (address : UInt32) (remaining : Nat)
    (i : UInt32) (peek : Peek) (fits : i.toNat + remaining < 2 ^ 32) (count : peek.copied = i) :
    let after := peekFrom rdram swap address remaining i peek
    let read := rounds (address + i) remaining
    after.copied.toNat = i.toNat + read ∧
      (∀ k < read, after.buffer (i.toNat + k) =
        rdram (indexOf swap (address + i + UInt32.ofNat k)).toNat) ∧
      (∀ k, k < i.toNat ∨ i.toNat + read ≤ k → after.buffer k = peek.buffer k) ∧
      ((∀ index ∈ peek.indexes, index < rdramSize.toNat) →
        ∀ index ∈ after.indexes, index < rdramSize.toNat) := by
  induction remaining generalizing i peek with
  | zero => simp [peekFrom, rounds, count]
  | succ remaining inductionHypothesis =>
    dsimp only
    by_cases beyond : address + i ≥ rdramSize
    · have stops : peekFrom rdram swap address (remaining + 1) i peek = peek := if_pos beyond
      have none : rounds (address + i) (remaining + 1) = 0 := if_pos beyond
      rw [stops, none]
      exact ⟨congrArg UInt32.toNat count, fun k small => absurd small (Nat.not_lt_zero k),
        fun _ _ => rfl, id⟩
    · have inside : address + i < rdramSize := UInt32.not_le.mp beyond
      have one : (i + 1).toNat = i.toNat + 1 := by
        rw [UInt32.toNat_add]
        exact Nat.mod_eq_of_lt (by change i.toNat + 1 < 2 ^ 32; omega)
      have next : address + (i + 1) = address + i + 1 := (UInt32.add_assoc address i 1).symm
      have step : peekFrom rdram swap address (remaining + 1) i peek =
          peekFrom rdram swap address remaining (i + 1)
            ⟨peek.copied + 1, Function.update peek.buffer i.toNat
              (rdram (indexOf swap (address + i)).toNat),
              peek.indexes ++ [(indexOf swap (address + i)).toNat]⟩ := if_neg beyond
      obtain ⟨copied, filled, kept, bounded⟩ := inductionHypothesis (i + 1)
        ⟨peek.copied + 1, Function.update peek.buffer i.toNat
          (rdram (indexOf swap (address + i)).toNat),
          peek.indexes ++ [(indexOf swap (address + i)).toNat]⟩ (by omega) (congrArg (· + 1) count)
      rw [step, rounds_succ _ remaining inside]
      rw [next] at copied filled kept
      generalize peekFrom rdram swap address remaining (i + 1) _ = after at *
      refine ⟨by omega, ?_, ?_, ?_⟩
      · intro k small
        cases k with
        | zero =>
          rw [kept _ (.inl (by omega))]
          simp
        | succ k =>
          have offset : address + i + 1 + UInt32.ofNat k = address + i + UInt32.ofNat (k + 1) := by
            rw [UInt32.ofNat_add, UInt32.add_comm (UInt32.ofNat k), ← UInt32.add_assoc]
            rfl
          have byte := filled k (by omega)
          rw [one, offset] at byte
          rw [← byte]
          congr 1
          omega
      · intro k outside
        have untouched := kept k (by omega)
        have elsewhere : k ≠ i.toNat := by omega
        exact untouched.trans (Function.update_of_ne elsewhere _ _)
      · intro earlier
        apply bounded
        intro index among
        obtain before | last := List.mem_append.mp among
        · exact earlier index before
        · rw [List.mem_singleton.mp last]
          exact indexOf_inside swap (address + i) inside

/-- Every peek returns the readable prefix. -/
theorem peekBytes_prefix (rdram : Memory) (swap : Bool) (address : UInt32) (buffer : Nat → UInt8)
    (count : UInt32) :
    ReadsPrefix rdram swap address buffer count := by
  have bound := count.toNat_lt
  have spec :=
    peekFrom_spec rdram swap address count.toNat 0 ⟨0, buffer, []⟩ (by simpa using bound) rfl
  have same : rounds address count.toNat = readable address count := rfl
  simp only [UInt32.add_zero, UInt32.toNat_zero, Nat.zero_add, same, List.not_mem_nil,
    false_imp_iff, implies_true, forall_const, Nat.not_lt_zero, false_or] at spec
  obtain ⟨copied, filled, kept, inside⟩ := spec
  exact ⟨copied, filled, kept, inside⟩

/-- The peeks of the achievement runtime read at most four bytes, inside RDRAM. -/
theorem runtimePeek_inside (rdram : Memory) (swap : Bool) (address numBytes : UInt32) :
    (runtimePeek (some rdram) swap address numBytes).2.copied.toNat ≤ 4 ∧
      ∀ index ∈ (runtimePeek (some rdram) swap address numBytes).2.indexes,
      index < rdramSize.toNat := by
  have spec :=
    peekBytes_prefix rdram swap address (fun _ => 0) (if numBytes > 4 then 4 else numBytes)
  refine ⟨?_, spec.inside⟩
  have capped : (if numBytes > 4 then 4 else numBytes).toNat ≤ 4 := by
    split
    · exact Nat.le_refl 4
    · rename_i small
      exact UInt32.le_iff_toNat_le.mp (UInt32.not_lt.mp small)
  have few : readable address (if numBytes > 4 then 4 else numBytes) ≤
      (if numBytes > 4 then 4 else numBytes).toNat := by
    unfold readable
    split
    · exact Nat.zero_le _
    · exact Nat.min_le_left _ _
  exact le_trans (le_of_eq spec.copied) (le_trans few capped)

/-- A peek before the game has handed over its memory reads nothing. -/
theorem peekBytes_none (swap : Bool) (address : UInt32) (buffer : Nat → UInt8) (count : UInt32) :
    peekBytes none swap address buffer count = ⟨0, buffer, []⟩ := rfl

/-! ## Reads in two pieces -/

/-- How many bytes can be read, in natural numbers. -/
theorem readable_eq (address count : UInt32) :
    readable address count = if 2 ^ 23 ≤ address.toNat then 0
      else min count.toNat (2 ^ 23 - address.toNat) :=
  if_congr UInt32.le_iff_toNat_le rfl rfl

/-- The bytes of a peek, as a list. -/
theorem peekBytes_bytes (rdram : Memory) (swap : Bool) (address : UInt32) (buffer : Nat → UInt8)
    (count : UInt32) :
    (peekBytes (some rdram) swap address buffer count).bytes =
      (List.range (readable address count)).map
        (fun k => rdram (indexOf swap (address + UInt32.ofNat k)).toNat) := by
  have spec := peekBytes_prefix rdram swap address buffer count
  unfold Peek.bytes
  rw [spec.copied]
  apply List.map_congr_left
  intro k among
  exact spec.filled k (List.mem_range.mp among)

/-- A read splits exactly when its second piece does not come round to RDRAM. How many bytes can
be read is a matter of where the read starts, and an address that wraps starts inside again. -/
theorem splits_iff (rdram : Memory) (swap : Bool) (address : UInt32) (buffer : Nat → UInt8)
    (first second : UInt32) :
    Splits rdram swap address buffer first second ↔ ¬WrapsIntoRdram address first second := by
  have addressBound := address.toNat_lt
  have start : (address + first).toNat = (address.toNat + first.toNat) % 2 ^ 32 :=
    UInt32.toNat_add address first
  have nonzero : second ≠ 0 ↔ second.toNat ≠ 0 := not_congr UInt32.toNat_inj.symm
  have starts : address + first < rdramSize ↔ (address + first).toNat < 2 ^ 23 :=
    UInt32.lt_iff_toNat_lt
  unfold Splits WrapsIntoRdram
  rw [peekBytes_bytes, peekBytes_bytes, peekBytes_bytes, nonzero, starts]
  by_cases fits : first.toNat + second.toNat < 2 ^ 32
  · have total : (first + second).toNat = first.toNat + second.toNat := by
      rw [UInt32.toNat_add, Nat.mod_eq_of_lt fits]
    have whole := readable_eq address (first + second)
    have left := readable_eq address first
    have right := readable_eq (address + first) second
    rw [total] at whole
    constructor
    · intro splits wraps
      have lengths := congrArg List.length (splits fits)
      simp only [List.length_append, List.length_map, List.length_range] at lengths
      rw [whole, left, right] at lengths
      split at lengths <;> split at lengths <;> omega
    · intro stays _
      have parts : readable address (first + second) = readable address first + readable
          (address + first) second := by
        rw [whole, left, right]
        split <;> split <;> omega
      rw [parts, List.range_add, List.map_append, List.map_map]
      congr 1
      apply List.map_congr_left
      intro k among
      have some : 0 < readable (address + first) second :=
        Nat.zero_lt_of_lt (List.mem_range.mp among)
      have all : readable address first = first.toNat := by
        rw [left]
        rw [right] at some
        split at some
        · omega
        · split <;> omega
      have offset : address + UInt32.ofNat (readable address first + k) =
          address + first + UInt32.ofNat k := by
        rw [all, UInt32.ofNat_add, UInt32.ofNat_toNat, UInt32.add_assoc]
      exact congrArg (fun a => rdram (indexOf swap a).toNat) offset
  · exact ⟨fun _ wraps => fits wraps.1, fun _ small => absurd small fits⟩

/-! ## The watch -/

/-- Polls keep the addresses. -/
theorem polled_addresses (memories : List Memory) (entries : List (UInt32 × UInt32)) :
    (polled memories entries).map Prod.fst = entries.map Prod.fst := by
  induction memories generalizing entries with
  | nil => rfl
  | cons rdram rest inductionHypothesis =>
    have later := inductionHypothesis (pollWatch (some rdram) entries).entries
    have now : (pollWatch (some rdram) entries).entries.map Prod.fst = entries.map Prod.fst := by
      simp [pollWatch]
    exact later.trans now

/-- A poll reads at the watched addresses and at their neighbours. -/
theorem pollWatch_indexes (rdram : Memory) (entries : List (UInt32 × UInt32)) :
    (pollWatch (some rdram) entries).indexes =
      (entries.map Prod.fst).flatMap (fun a => [a.toNat, (a ^^^ 3).toNat]) := by
  rw [List.flatMap_map]
  rfl

/-- The polls of a watch stay in RDRAM exactly when all its addresses do: a poll reads at the
address and at its byte within the word, which is no further than the word. -/
theorem watchesInside_iff (spec : Option Line) :
    WatchesInside spec ↔ ∀ entry ∈ setupWatch spec, entry.1 < rdramSize := by
  constructor
  · intro inside entry among
    apply UInt32.lt_iff_toNat_lt.mpr
    apply inside [] (fun _ => 0)
    rw [pollWatch_indexes]
    exact List.mem_flatMap.mpr ⟨entry.1, List.mem_map_of_mem among, List.mem_cons_self⟩
  · intro bounded memories rdram index among
    rw [pollWatch_indexes, polled_addresses] at among
    obtain ⟨a, watched, read⟩ := List.mem_flatMap.mp among
    obtain ⟨entry, listed, rfl⟩ := List.mem_map.mp watched
    have inside := bounded entry listed
    obtain rfl | neighbour := List.mem_cons.mp read
    · exact UInt32.lt_iff_toNat_lt.mp inside
    · rw [List.mem_singleton.mp neighbour]
      exact indexOf_inside true entry.1 inside

/-- The readers do what is promised: every peek returns the readable prefix from indexes in
RDRAM, a read in two pieces equals the read in one, and a watch stays in RDRAM. This is so
exactly when the second piece does not come round to RDRAM and the watched addresses are in
RDRAM. -/
theorem readers_iff (rdram : Memory) (swap : Bool) (buffer : Nat → UInt8)
    (address first second : UInt32) (spec : Option Line) :
    ((∀ address count, ReadsPrefix rdram swap address buffer count) ∧
      Splits rdram swap address buffer first second ∧ WatchesInside spec) ↔
      ¬WrapsIntoRdram address first second ∧ ∀ entry ∈ setupWatch spec, entry.1 < rdramSize := by
  rw [splits_iff, watchesInside_iff]
  exact and_iff_right (fun address count => peekBytes_prefix rdram swap address buffer count)

/-- The first address beyond RDRAM is accepted as a watch, and every poll of it reads
there. -/
theorem watch_beyond : setupWatch (some (str "0x800000")) = [(0x800000, 0xFFFFFFFF)] ∧
    ¬WatchesInside (some (str "0x800000")) := by
  have text : (str "0x800000").dropWhile isSpace = '0' :: 'x' :: str "800000" := by decide
  have number : strtoul (str "0x800000") = 0x800000 := by
    unfold strtoul
    rw [text]
    simp +decide only
  have pieces : strtok ((str "0x800000").take 511) = [str "0x800000"] := by decide
  have accepted : setupWatch (some (str "0x800000")) = [(0x800000, 0xFFFFFFFF)] := by
    simp only [setupWatch, pieces, List.map_cons, List.map_nil, number]
  refine ⟨accepted, ?_⟩
  rw [watchesInside_iff, accepted]
  intro inside
  have below : (0x800000 : UInt32) < rdramSize := inside (0x800000, 0xFFFFFFFF) List.mem_cons_self
  exact absurd below (UInt32.lt_irrefl 0x800000)

end NoMercyRecomp.RamPeeks
