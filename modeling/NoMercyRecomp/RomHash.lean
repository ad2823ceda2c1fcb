import Mathlib
import NoMercyRecomp.ByteMemory
import NoMercyRecomp.Md5
import NoMercyRecomp.TextScan

/-!
# The hash that identifies a ROM

A Nintendo 64 image is dumped in three byte orders. The hash tells them apart by the first
byte, reads the image through a buffer of 64 KiB, at most 64 MiB of it, and turns each
buffer to the native order before it goes to the MD5. One image has one hash, whichever
order it is dumped in and whatever the memory that is used held before.
-/

namespace NoMercyRecomp.RomHash

open TextScan ByteMemory Md5

/-- Memory that is not written yet. -/
structure Fresh (size : Nat) where
  bytes : List UInt8
  sized : bytes.length = size

/-- The swap of `rc_hash_byteswap16`. -/
def swapped16 (temp : UInt32) : UInt32 :=
  ((temp &&& 0xFF00FF00) >>> 8) ||| ((temp &&& 0x00FF00FF) <<< 8)

/-- The swap of `rc_hash_byteswap32`. -/
def swapped32 (temp : UInt32) : UInt32 :=
  ((temp &&& 0xFF000000) >>> 24) ||| ((temp &&& 0x00FF0000) >>> 8) |||
    ((temp &&& 0x0000FF00) <<< 8) |||
    ((temp &&& 0x000000FF) <<< 24)

/-- The loop of both: every word of a buffer that starts before `stop`. -/
def byteswap (swapped : UInt32 → UInt32) : Nat → List UInt8 → List UInt8
  | stop, a :: b :: c :: d :: rest =>
    if stop = 0 then a :: b :: c :: d :: rest
    else bytesOf [swapped (loadWord a b c d)] ++ byteswap swapped (stop - 4) rest
  | _, short => short

/-- `rc_hash_byteswap16`. -/
def rcHashByteswap16 (buffer : List UInt8) (stop : Nat) : List UInt8 :=
  byteswap swapped16 stop buffer

/-- `rc_hash_byteswap32`. -/
def rcHashByteswap32 (buffer : List UInt8) (stop : Nat) : List UInt8 :=
  byteswap swapped32 stop buffer

/-- How an image is dumped. -/
inductive Format
  | z64
  | v64
  | n64
  | ndd

/-- The format that a first byte tells. -/
def detect (first : UInt8) : Option Format :=
  if first = 0x80 then some .z64
  else if first = 0x37 then some .v64
  else if first = 0x40 then some .n64
  else if first = 0xE8 ∨ first = 0x22 then some .ndd
  else none

/-- The buffer in the native order. -/
def converted (format : Format) (buffer : List UInt8) (stop : Nat) : List UInt8 :=
  match format with
  | .v64 => rcHashByteswap16 buffer stop
  | .n64 => rcHashByteswap32 buffer stop
  | _ => buffer

/-- `rc_file_read`: the buffer, and the position after it. -/
def rcFileRead (file : List UInt8) (position : Nat) (buffer : List UInt8) (requested : Nat) :
    List UInt8 × Nat :=
  let bytes := (file.drop position).take requested
  (copyAt buffer 0 bytes, position + bytes.length)

/-- `buffer_size`. -/
def bufferSize : Nat := 65536

/-- `MAX_BUFFER_SIZE`. -/
def maxBufferSize : Nat := 64 * 1024 * 1024

/-- Where the hashing of a file stands. -/
structure Hashing where
  position : Nat
  buffer : List UInt8
  md5 : Md5State

/-- A read of some bytes into the buffer, turned and appended. -/
def hashRead (file : List UInt8) (format : Format) (count : Nat) (hashing : Hashing) : Hashing :=
  let (buffer, position) := rcFileRead file hashing.position hashing.buffer count
  let buffer := converted format buffer count
  ⟨position, buffer, md5Append hashing.md5 (buffer.take count)⟩

/-- The loop over the whole buffers, and the read of what remains. -/
def hashLoop (file : List UInt8) (format : Format) (remaining : Nat) (hashing : Hashing) :
    Hashing :=
  if bufferSize ≤ remaining then
    hashLoop file format (remaining - bufferSize) (hashRead file format bufferSize hashing)
  else if 0 < remaining then hashRead file format remaining hashing
  else hashing
termination_by remaining
decreasing_by simp only [bufferSize] at *; omega

/-- `%02x`. -/
def hexByte (byte : UInt8) : Line :=
  [byte.toNat / 16, byte.toNat % 16].map
    (fun digit => Char.ofNat (if digit < 10 then 48 + digit else 87 + digit))

/-- `rc_hash_finalize`: the text of the hash. -/
def rcHashFinalize (md5 : Md5State) : Line := (md5Finish md5).flatMap hexByte

/-- `rc_hash_n64`, for a file that may not open, an allocation that may fail and a state on
the stack. -/
def rcHashN64 (file : Option (List UInt8)) (heap : Option (Fresh bufferSize)) (stack : Fresh 64) :
    Option Line :=
  match file, heap with
  | some file, some heap =>
    let (buffer, _) := rcFileRead file 0 heap.bytes 1
    match detect (buffer.getD 0 0) with
    | none => none
    | some format =>
      let remaining := if file.length > maxBufferSize then maxBufferSize else file.length
      some (rcHashFinalize (hashLoop file format remaining ⟨0, buffer, md5Init stack.bytes⟩).md5)
  | _, _ => none

/-! ## What is promised -/

/-- The dump with the bytes of each halfword exchanged. -/
def byteSwapped : List UInt8 → List UInt8
  | a :: b :: c :: d :: rest => b :: a :: d :: c :: byteSwapped rest
  | short => short

/-- The dump with the bytes of each word in the opposite order. -/
def wordSwapped : List UInt8 → List UInt8
  | a :: b :: c :: d :: rest => d :: c :: b :: a :: wordSwapped rest
  | short => short

/-- The dump in a format of an image in the native order. -/
def dumped (format : Format) (image : List UInt8) : List UInt8 :=
  match format with
  | .v64 => byteSwapped image
  | .n64 => wordSwapped image
  | _ => image

/-- An image with the header of a cartridge, in whole words. -/
structure Image where
  bytes : List UInt8
  words : bytes.length % 4 = 0
  header : ∃ third rest, bytes = 0x80 :: 0x37 :: third :: 0x40 :: rest

/-- The hash of an image. -/
def imageHash (image : Image) : Line := (md5 (image.bytes.take maxBufferSize)).flatMap hexByte

/-! ## Words -/

/-- The two bytes of each halfword change places. -/
theorem swapped16_bytes (a b c d : UInt8) :
    bytesOf [swapped16 (loadWord a b c d)] = [b, a, d, c] := by
  simp only [bytesOf, swapped16, loadWord, List.flatMap_cons, List.flatMap_nil, List.append_nil]
  refine congrArg₂ _ ?_ (congrArg₂ _ ?_ (congrArg₂ _ ?_ (congrArg₂ _ ?_ rfl))) <;>
    (apply UInt8.toBitVec_inj.mp; ext bit inside; simp; interval_cases bit <;> simp)

/-- The four bytes of each word come in the opposite order. -/
theorem swapped32_bytes (a b c d : UInt8) :
    bytesOf [swapped32 (loadWord a b c d)] = [d, c, b, a] := by
  simp only [bytesOf, swapped32, loadWord, List.flatMap_cons, List.flatMap_nil, List.append_nil]
  refine congrArg₂ _ ?_ (congrArg₂ _ ?_ (congrArg₂ _ ?_ (congrArg₂ _ ?_ rfl))) <;>
    (apply UInt8.toBitVec_inj.mp; ext bit inside; simp; interval_cases bit <;> simp)

/-- A swap that permutes the bytes of a word. -/
def Permutes (swapped : UInt32 → UInt32) (order : List UInt8 → List UInt8) : Prop :=
  (∀ a b c d rest, bytesOf [swapped (loadWord a b c d)] ++
    order rest = order (a :: b :: c :: d :: rest)) ∧ order [] = []

/-- The loop over halfwords swaps the bytes of each. -/
theorem swapped16_permutes : Permutes swapped16 byteSwapped :=
  ⟨fun a b c d rest => by rw [swapped16_bytes]; rfl, rfl⟩

/-- The loop over words reverses the bytes of each. -/
theorem swapped32_permutes : Permutes swapped32 wordSwapped :=
  ⟨fun a b c d rest => by rw [swapped32_bytes]; rfl, rfl⟩

/-- The loop turns the words before `stop` and leaves what is behind them. By induction on the
words, as the data is a whole number of them. -/
theorem byteswap_eq (swapped : UInt32 → UInt32) (order : List UInt8 → List UInt8)
    (permutes : Permutes swapped order)
    (count : Nat) (data stale : List UInt8) (length : data.length = 4 * count) :
    byteswap swapped (4 * count) (data ++ stale) = order data ++ stale := by
  induction count generalizing data with
  | zero =>
    rw [List.eq_nil_of_length_eq_zero length, permutes.2, List.nil_append]
    match stale with
    | [] | [_] | [_, _] | [_, _, _] | _ :: _ :: _ :: _ :: _ => rfl
  | succ count inductionHypothesis =>
    match data, length with
    | a :: b :: c :: d :: rest, length =>
      have others : rest.length = 4 * count := by simp only [List.length_cons] at length; omega
      have turn : 4 * (count + 1) - 4 = 4 * count := by omega
      have later := inductionHypothesis rest others
      show byteswap swapped (4 * (count + 1)) (a :: b :: c :: d :: (rest ++ stale)) = _
      rw [byteswap, if_neg (by omega), turn, later, ← List.append_assoc, permutes.1]

/-! ## Dumps -/

/-- Swapping bytes keeps the length. -/
theorem byteSwapped_length (data : List UInt8) : (byteSwapped data).length = data.length := by
  fun_induction byteSwapped data with
  | case1 a b c d rest inductionHypothesis => simp only [List.length_cons, inductionHypothesis]
  | case2 => rfl

/-- Reversing words keeps the length. -/
theorem wordSwapped_length (data : List UInt8) : (wordSwapped data).length = data.length := by
  fun_induction wordSwapped data with
  | case1 a b c d rest inductionHypothesis => simp only [List.length_cons, inductionHypothesis]
  | case2 => rfl

/-- A dump is as long as its image. -/
theorem dumped_length (format : Format) (data : List UInt8) :
    (dumped format data).length = data.length := by
  cases format with
  | v64 => exact byteSwapped_length data
  | n64 => exact wordSwapped_length data
  | z64 | ndd => rfl

/-- Dumping a dump gives the image, as turning pairs or words is its own inverse; a last part that
is no whole word is left alone both times. -/
theorem dumped_dumped (format : Format) (data : List UInt8) :
    dumped format (dumped format data) = data := by
  cases format with
  | v64 =>
    show byteSwapped (byteSwapped data) = data
    fun_induction byteSwapped data with
    | case1 a b c d rest inductionHypothesis => rw [byteSwapped, inductionHypothesis]
    | case2 short outside => exact byteSwapped.eq_2 short outside
  | n64 =>
    show wordSwapped (wordSwapped data) = data
    fun_induction wordSwapped data with
    | case1 a b c d rest inductionHypothesis => rw [wordSwapped, inductionHypothesis]
    | case2 short outside => exact wordSwapped.eq_2 short outside
  | z64 | ndd => rfl

/-- The dump of whole words and of what follows them. By induction on the words: an order of bytes
turns pairs or words, and a whole word has no byte in another. -/
theorem dumped_append (format : Format) (count : Nat) (data rest : List UInt8)
    (words : data.length = 4 * count) :
    dumped format (data ++ rest) = dumped format data ++ dumped format rest := by
  induction count generalizing data with
  | zero =>
    rw [List.eq_nil_of_length_eq_zero words, List.nil_append]
    cases format <;> rfl
  | succ count inductionHypothesis =>
    match data, words with
    | a :: b :: c :: d :: data, words =>
      have others : data.length = 4 * count := by simp only [List.length_cons] at words; omega
      have later := inductionHypothesis data others
      cases format with
      | v64 =>
        have turned : byteSwapped (data ++ rest) = byteSwapped data ++ byteSwapped rest := later
        simp only [dumped, List.cons_append, byteSwapped, turned]
      | n64 =>
        have turned : wordSwapped (data ++ rest) = wordSwapped data ++ wordSwapped rest := later
        simp only [dumped, List.cons_append, wordSwapped, turned]
      | z64 | ndd => rfl

/-- The buffer turned: the words that were read, and the rest as it was. -/
theorem converted_eq (format : Format) (count : Nat) (data stale : List UInt8)
    (length : data.length = 4 * count) :
    converted format (data ++ stale) data.length = dumped format data ++ stale := by
  rw [length]
  cases format with
  | v64 => exact byteswap_eq swapped16 byteSwapped swapped16_permutes count data stale length
  | n64 => exact byteswap_eq swapped32 wordSwapped swapped32_permutes count data stale length
  | z64 | ndd => rfl

/-! ## The loop -/

/-- What the loop keeps: it has read some bytes of the file, in whole words, and the hash
is the one of their image. -/
structure Reads (file : List UInt8) (format : Format) (hashing : Hashing) : Prop where
  inside : hashing.position ≤ file.length
  words : hashing.position % 4 = 0
  sized : hashing.buffer.length = bufferSize
  holds : Holds hashing.md5 (dumped format (file.take hashing.position))

/-- A file read into the buffer: the bytes, and behind them what the buffer held. -/
theorem rcFileRead_eq (file : List UInt8) (position : Nat) (buffer : List UInt8) (requested : Nat)
    (inside : position + requested ≤ file.length) :
    rcFileRead file position buffer requested =
      ((file.drop position).take requested ++ buffer.drop requested, position + requested) := by
  have length : ((file.drop position).take requested).length = requested := by
    rw [List.length_take, List.length_drop]
    omega
  simp only [rcFileRead, copyAt, length, List.take_zero, List.nil_append, Nat.zero_add]

/-- One read: the state has hashed the file's dump up to the position, and afterwards it has
hashed it up to the end of the read. What is read is whole words, so its dump continues that of
the start. -/
theorem hashRead_reads (file : List UInt8) (format : Format) (count : Nat) (hashing : Hashing)
    (reads : Reads file format hashing) (inside : hashing.position + count ≤ file.length)
    (words : count % 4 = 0) (fits : count ≤ bufferSize) :
    Reads file format (hashRead file format count hashing) ∧
      (hashRead file format count hashing).position = hashing.position + count := by
  obtain ⟨_, aligned, sized, holds⟩ := reads
  generalize data : (file.drop hashing.position).take count = bytes
  have length : bytes.length = count := by
    rw [← data, List.length_take, List.length_drop]
    omega
  have turned := converted_eq format (count / 4) bytes (hashing.buffer.drop count) (by omega)
  rw [length] at turned
  have dump : (dumped format bytes).length = count := (dumped_length format bytes).trans length
  have taken :
      (dumped format bytes ++ hashing.buffer.drop count).take count = dumped format bytes := by
    rw [← dump, List.take_left]
  have start : (file.take hashing.position).length = 4 * (hashing.position / 4) := by
    rw [List.length_take]
    omega
  have message : dumped format (file.take (hashing.position + count)) =
      dumped format (file.take hashing.position) ++ dumped format bytes := by
    rw [List.take_add, data, dumped_append format _ _ _ start]
  have appended := md5Append_holds hashing.md5 _ (dumped format bytes) holds
    (by rw [dump]; simp only [bufferSize] at fits; omega)
  simp only [hashRead, rcFileRead_eq file _ _ _ inside, data, turned, taken]
  refine ⟨⟨inside, ?_, ?_, message ▸ appended⟩, trivial⟩
  · show (hashing.position + count) % 4 = 0
    omega
  · rw [List.length_append, dump, List.length_drop, sized]
    omega

/-- The loop reads what remains, a buffer at a time and the last part in one read. By the loop's
own recursion, as each read moves the position by what it takes from the rest. -/
theorem hashLoop_reads (file : List UInt8) (format : Format) (remaining : Nat) (hashing : Hashing)
    (reads : Reads file format hashing) (inside : hashing.position + remaining ≤ file.length)
    (words : remaining % 4 = 0) :
    Holds (hashLoop file format remaining hashing).md5
      (dumped format (file.take (hashing.position + remaining))) := by
  have aligned : bufferSize % 4 = 0 := rfl
  fun_induction hashLoop file format remaining hashing with
  | case1 remaining hashing enough inductionHypothesis =>
    obtain ⟨after, position⟩ :=
      hashRead_reads file format bufferSize hashing reads (by omega) aligned (Nat.le_refl _)
    have whole : hashing.position + bufferSize + (remaining - bufferSize) =
        hashing.position + remaining := by omega
    rw [position, whole] at inductionHypothesis
    exact inductionHypothesis after inside (by omega)
  | case2 remaining hashing few some =>
    obtain ⟨after, position⟩ :=
      hashRead_reads file format remaining hashing reads inside words (by omega)
    have holds := after.holds
    rwa [position] at holds
  | case3 remaining hashing few none =>
    have nothing : remaining = 0 := by omega
    rw [nothing]
    exact reads.holds

/-! ## One image, one hash -/

/-- The first byte of a dump tells its format. -/
theorem detect_dumped (format : Format) (image : Image) :
    ∃ first rest told, dumped format image.bytes = first :: rest ∧ detect first = some told ∧
      ∀ data, dumped told data = dumped format data := by
  obtain ⟨third, rest, header⟩ := image.header
  rw [header]
  cases format with
  | v64 => exact ⟨_, _, .v64, rfl, rfl, fun _ => rfl⟩
  | n64 => exact ⟨_, _, .n64, rfl, rfl, fun _ => rfl⟩
  | z64 | ndd => exact ⟨_, _, .z64, rfl, rfl, fun _ => rfl⟩

/-- Every dump of an image has the hash of the image: the MD5 of its first 64 MiB in the native
order. The first byte tells the format, since an image starts with its magic word; the loop then
reads whole words and swaps them back, and what it has read of the dump is, swapped, what it would
have read of the image. -/
theorem rcHashN64_dumped (format : Format) (image : Image) (heap : Fresh bufferSize)
    (stack : Fresh 64) :
    rcHashN64 (some (dumped format image.bytes)) (some heap) stack = some (imageHash image) := by
  have words := image.words
  obtain ⟨first, rest, told, dump, known, same⟩ := detect_dumped format image
  have length : (dumped format image.bytes).length = image.bytes.length :=
    dumped_length format image.bytes
  have one : 0 + 1 ≤ (dumped format image.bytes).length := by rw [dump, List.length_cons]; omega
  have sniffed : (rcFileRead (dumped format image.bytes) 0 heap.bytes 1).1 =
      first :: heap.bytes.drop 1 := by
    rw [rcFileRead_eq _ _ _ _ one, dump]
    rfl
  generalize size : (if (dumped format image.bytes).length > maxBufferSize then maxBufferSize
    else (dumped format image.bytes).length) = remaining
  have cut : remaining ≤ image.bytes.length ∧ remaining % 4 = 0 ∧
      image.bytes.take remaining = image.bytes.take maxBufferSize := by
    rw [length] at size
    by_cases large : image.bytes.length > maxBufferSize
    · rw [if_pos large] at size
      exact size ▸ ⟨by omega, rfl, rfl⟩
    · rw [if_neg large] at size
      have whole : image.bytes.length ≤ maxBufferSize := by omega
      exact size ▸ ⟨Nat.le_refl _, words, by rw [List.take_length, List.take_of_length_le whole]⟩
  have start : Reads (dumped format image.bytes) told
      ⟨0, first :: heap.bytes.drop 1, md5Init stack.bytes⟩ := by
    refine ⟨Nat.zero_le _, rfl, ?_, ?_⟩
    · rw [List.length_cons, List.length_drop, heap.sized]
      rfl
    · have empty : dumped told ((dumped format image.bytes).take 0) = [] := by
        rw [List.take_zero]; cases told <;> rfl
      rw [empty]
      exact md5Init_holds stack.bytes stack.sized
  have read :=
    hashLoop_reads _ told remaining _ start (by rw [Nat.zero_add, length]; exact cut.1) cut.2.1
  have native : dumped told ((dumped format image.bytes).take remaining) =
      image.bytes.take maxBufferSize := by
    have split :=
      dumped_append format (remaining / 4) (image.bytes.take remaining) (image.bytes.drop remaining)
      (by rw [List.length_take]; omega)
    have taken : (dumped format (image.bytes.take remaining)).length = remaining := by
      rw [dumped_length, List.length_take]
      omega
    rw [List.take_append_drop] at split
    rw [split, List.take_left' taken, same, dumped_dumped, cut.2.2]
  rw [Nat.zero_add, native] at read
  simp only [rcHashN64, sniffed, List.getD_cons_zero, known, size, rcHashFinalize,
    md5Finish_eq _ _ read, imageHash]

/-- The header of a cartridge alone. -/
def shortImage : Image := ⟨[0x80, 0x37, 0x12, 0x40], rfl, 0x12, [], rfl⟩

/-- Memory that holds one byte all over. -/
def filled (size : Nat) (byte : UInt8) : Fresh size :=
  ⟨List.replicate size byte, List.length_replicate⟩

/-- Its dump with exchanged bytes, read into memory that held something else. -/
theorem shortImage_hash :
    rcHashN64 (some [0x37, 0x80, 0x40, 0x12]) (some (filled bufferSize 0xAA)) (filled 64 0x55) =
      some (imageHash shortImage) :=
  rcHashN64_dumped .v64 shortImage (filled bufferSize 0xAA) (filled 64 0x55)

example : imageHash shortImage = str "e74a14593deade27bc7507472137d690" := by decide +kernel

end NoMercyRecomp.RomHash
