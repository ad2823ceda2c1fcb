import Mathlib
import NoMercyRecomp.BlockStream

/-!
# The MD5 of a stream

The hash is fed in pieces of any size: the state counts the bits, keeps what does not fill
a block in a buffer, and processes each full block. At the end it pads itself by two more
pieces. The digest is the one of the whole message, padded at once and cut in blocks.
-/

namespace NoMercyRecomp.Md5

open BlockStream

/-! ## The block function -/

/-- `pms->abcd`. -/
structure Words where
  a : UInt32
  b : UInt32
  c : UInt32
  d : UInt32

/-- `T_MASK`. -/
def tMask : UInt32 := 0xFFFFFFFF

/-- What differs between the operations of a round: `k`, `s` and `Ti`. -/
structure Row where
  k : Nat
  s : UInt32
  t : UInt32

/-- Round 1. -/
def round1 : List Row :=
  [⟨0, 7, tMask ^^^ 0x28955b87⟩, ⟨1, 12, tMask ^^^ 0x173848a9⟩,
   ⟨2, 17, 0x242070db⟩, ⟨3, 22, tMask ^^^ 0x3e423111⟩,
   ⟨4, 7, tMask ^^^ 0x0a83f050⟩, ⟨5, 12, 0x4787c62a⟩,
   ⟨6, 17, tMask ^^^ 0x57cfb9ec⟩, ⟨7, 22, tMask ^^^ 0x02b96afe⟩,
   ⟨8, 7, 0x698098d8⟩, ⟨9, 12, tMask ^^^ 0x74bb0850⟩,
   ⟨10, 17, tMask ^^^ 0x0000a44e⟩, ⟨11, 22, tMask ^^^ 0x76a32841⟩,
   ⟨12, 7, 0x6b901122⟩, ⟨13, 12, tMask ^^^ 0x02678e6c⟩,
   ⟨14, 17, tMask ^^^ 0x5986bc71⟩, ⟨15, 22, 0x49b40821⟩]

/-- Round 2. -/
def round2 : List Row :=
  [⟨1, 5, tMask ^^^ 0x09e1da9d⟩, ⟨6, 9, tMask ^^^ 0x3fbf4cbf⟩,
   ⟨11, 14, 0x265e5a51⟩, ⟨0, 20, tMask ^^^ 0x16493855⟩,
   ⟨5, 5, tMask ^^^ 0x29d0efa2⟩, ⟨10, 9, 0x02441453⟩,
   ⟨15, 14, tMask ^^^ 0x275e197e⟩, ⟨4, 20, tMask ^^^ 0x182c0437⟩,
   ⟨9, 5, 0x21e1cde6⟩, ⟨14, 9, tMask ^^^ 0x3cc8f829⟩,
   ⟨3, 14, tMask ^^^ 0x0b2af278⟩, ⟨8, 20, 0x455a14ed⟩,
   ⟨13, 5, tMask ^^^ 0x561c16fa⟩, ⟨2, 9, tMask ^^^ 0x03105c07⟩,
   ⟨7, 14, 0x676f02d9⟩, ⟨12, 20, tMask ^^^ 0x72d5b375⟩]

/-- Round 3. -/
def round3 : List Row :=
  [⟨5, 4, tMask ^^^ 0x0005c6bd⟩, ⟨8, 11, tMask ^^^ 0x788e097e⟩,
   ⟨11, 16, 0x6d9d6122⟩, ⟨14, 23, tMask ^^^ 0x021ac7f3⟩,
   ⟨1, 4, tMask ^^^ 0x5b4115bb⟩, ⟨4, 11, 0x4bdecfa9⟩,
   ⟨7, 16, tMask ^^^ 0x0944b49f⟩, ⟨10, 23, tMask ^^^ 0x4140438f⟩,
   ⟨13, 4, 0x289b7ec6⟩, ⟨0, 11, tMask ^^^ 0x155ed805⟩,
   ⟨3, 16, tMask ^^^ 0x2b10cf7a⟩, ⟨6, 23, 0x04881d05⟩,
   ⟨9, 4, tMask ^^^ 0x262b2fc6⟩, ⟨12, 11, tMask ^^^ 0x1924661a⟩,
   ⟨15, 16, 0x1fa27cf8⟩, ⟨2, 23, tMask ^^^ 0x3b53a99a⟩]

/-- Round 4. -/
def round4 : List Row :=
  [⟨0, 6, tMask ^^^ 0x0bd6ddbb⟩, ⟨7, 10, 0x432aff97⟩,
   ⟨14, 15, tMask ^^^ 0x546bdc58⟩, ⟨5, 21, tMask ^^^ 0x036c5fc6⟩,
   ⟨12, 6, 0x655b59c3⟩, ⟨3, 10, tMask ^^^ 0x70f3336d⟩,
   ⟨10, 15, tMask ^^^ 0x00100b82⟩, ⟨1, 21, tMask ^^^ 0x7a7ba22e⟩,
   ⟨8, 6, 0x6fa87e4f⟩, ⟨15, 10, tMask ^^^ 0x01d3191f⟩,
   ⟨6, 15, tMask ^^^ 0x5cfebceb⟩, ⟨13, 21, 0x4e0811a1⟩,
   ⟨4, 6, tMask ^^^ 0x08ac817d⟩, ⟨11, 10, tMask ^^^ 0x42c50dca⟩,
   ⟨2, 15, 0x2ad7d2bb⟩, ⟨9, 21, tMask ^^^ 0x14792c6e⟩]

/-- `F`. -/
def f (x y z : UInt32) : UInt32 := (x &&& y) ||| (~~~x &&& z)

/-- `G`. -/
def g (x y z : UInt32) : UInt32 := (x &&& z) ||| (y &&& ~~~z)

/-- `H`. -/
def h (x y z : UInt32) : UInt32 := x ^^^ y ^^^ z

/-- `I`. -/
def i (x y z : UInt32) : UInt32 := y ^^^ (x ||| ~~~z)

/-- `ROTATE_LEFT`. -/
def rotateLeft (x n : UInt32) : UInt32 := (x <<< n) ||| (x >>> (32 - n))

/-- `SET`, which writes the first of four words. The result names them as the next
operation does: `SET(a, b, c, d, ...)` is followed by `SET(d, a, b, c, ...)`. -/
def set (mix : UInt32 → UInt32 → UInt32 → UInt32) (x : Nat → UInt32) (words : Words) (row : Row) :
    Words :=
  let t := words.a + mix words.b words.c words.d + x row.k + row.t
  ⟨words.d, rotateLeft t row.s + words.b, words.b, words.c⟩

/-- The word at an offset, low byte first. -/
def wordAt (data : List UInt8) (offset : Nat) : UInt32 :=
  let byte := fun j => (data.getD (offset + j) 0).toUInt32
  byte 0 + (byte 1 <<< 8) + (byte 2 <<< 16) + (byte 3 <<< 24)

/-- `md5_process`. -/
def md5Process (abcd : Words) (data : List UInt8) : Words :=
  let x := fun k => wordAt data (4 * k)
  let words := round4.foldl (set i x)
    (round3.foldl (set h x) (round2.foldl (set g x) (round1.foldl (set f x) abcd)))
  ⟨abcd.a + words.a, abcd.b + words.b, abcd.c + words.c, abcd.d + words.d⟩

/-! ## The stream -/

/-- `md5_state_t`. -/
structure Md5State where
  count0 : UInt32
  count1 : UInt32
  abcd : Words
  buf : List UInt8

/-- The words at the start. -/
def initial : Words := ⟨0x67452301, tMask ^^^ 0x10325476, tMask ^^^ 0x67452301, 0x10325476⟩

/-- `md5_init`, on a state whose buffer holds anything. -/
def md5Init (buf : List UInt8) : Md5State := ⟨0, 0, initial, buf⟩

/-- `memcpy(buf + offset, bytes, bytes.length)`. -/
def copyAt (buf : List UInt8) (offset : Nat) (bytes : List UInt8) : List UInt8 :=
  buf.take offset ++ bytes ++ buf.drop (offset + bytes.length)

/-- The loop over the full blocks, and what is left after it. -/
def md5Blocks (pms : Md5State) (p : List UInt8) : Md5State :=
  if 64 ≤ p.length then md5Blocks { pms with abcd := md5Process pms.abcd (p.take 64) } (p.drop 64)
  else if p.length ≠ 0 then { pms with buf := copyAt pms.buf 0 p }
  else pms
termination_by p.length
decreasing_by simp only [List.length_drop]; omega

/-- The message length, updated. -/
def Md5State.counted (pms : Md5State) (nbytes : Nat) : Md5State :=
  let nbits := UInt32.ofNat (nbytes <<< 3)
  let count0 := pms.count0 + nbits
  let count1 := pms.count1 + UInt32.ofNat (nbytes >>> 29)
  { pms with count0 := count0, count1 := if count0 < nbits then count1 + 1 else count1 }

/-- `md5_append`. -/
def md5Append (pms : Md5State) (data : List UInt8) : Md5State :=
  let nbytes := data.length
  let offset := ((pms.count0 >>> 3) &&& 63).toNat
  if nbytes = 0 then pms
  else
    let pms := pms.counted nbytes
    if offset ≠ 0 then
      let copy := if offset + nbytes > 64 then 64 - offset else nbytes
      let pms := { pms with buf := copyAt pms.buf offset (data.take copy) }
      if offset + copy < 64 then pms
      else md5Blocks { pms with abcd := md5Process pms.abcd pms.buf } (data.drop copy)
    else md5Blocks pms data

/-- `pad`. -/
def pad : List UInt8 := 0x80 :: List.replicate 63 0

/-- The bytes of some words, each low byte first. -/
def bytesOf (words : List UInt32) : List UInt8 :=
  words.flatMap (fun (word : UInt32) =>
    [word.toUInt8, (word >>> 8).toUInt8, (word >>> 16).toUInt8, (word >>> 24).toUInt8])

/-- The four words, in order. -/
def Words.all (words : Words) : List UInt32 := [words.a, words.b, words.c, words.d]

/-- `md5_finish`: the digest. -/
def md5Finish (pms : Md5State) : List UInt8 :=
  let data := bytesOf [pms.count0, pms.count1]
  let padding := (((55 : UInt32) - (pms.count0 >>> 3)) &&& 63) + 1
  let pms := md5Append pms (pad.take padding.toNat)
  let pms := md5Append pms data
  bytesOf pms.abcd.all

/-! ## What is promised -/

/-- The count of bits at the end of a message of some bytes, low byte first. -/
def lengthField (length : Nat) : List UInt8 :=
  (List.range 8).map (fun j => UInt8.ofNat (8 * length / 256 ^ j))

/-- The message with its padding: a set bit, as few zeros as fill a block with the count
of bits behind them, and that count. -/
def padded (message : List UInt8) : List UInt8 :=
  message ++ 0x80 :: List.replicate ((119 - message.length % 64) % 64) 0 ++
    lengthField message.length

/-- The digest of a message, all at once. -/
def md5 (message : List UInt8) : List UInt8 :=
  bytesOf (blocks 64 md5Process ((padded message).length / 64) initial (padded message)).all

/-- The digest of a message that is fed in pieces. -/
def md5Pieces (buf : List UInt8) (pieces : List (List UInt8)) : List UInt8 :=
  md5Finish (pieces.foldl md5Append (md5Init buf))

/-- The blocks of a message, and what is left of it. -/
def digested (message : List UInt8) : Progress Words UInt8 :=
  Progress.append 64 md5Process ⟨initial, []⟩ message

/-- The state after a message. -/
structure Holds (pms : Md5State) (message : List UInt8) : Prop where
  count : pms.count0.toNat + 2 ^ 32 * pms.count1.toNat = 8 * message.length % 2 ^ 64
  abcd : pms.abcd = (digested message).state
  kept : pms.buf.take (digested message).rest.length = (digested message).rest
  sized : pms.buf.length = 64

/-! ## One piece -/

/-- An initial state has taken in nothing. -/
theorem md5Init_holds (buf : List UInt8) (sized : buf.length = 64) : Holds (md5Init buf) [] :=
  ⟨rfl, rfl, rfl, sized⟩

/-- As many bytes are left as the length of the message has over full blocks. -/
theorem digested_rest (message : List UInt8) :
    (digested message).rest.length = message.length % 64 := by
  have split := Nat.div_add_mod message.length 64
  simp only [digested, Progress.append, List.nil_append, List.length_drop]
  omega

/-- A message in two pieces. -/
theorem digested_append (message data : List UInt8) :
    digested (message ++ data) = (digested message).append 64 md5Process data :=
  (append_append 64 md5Process (by decide) ⟨initial, []⟩ message data).symm

/-- Copying into a buffer keeps its length. -/
theorem copyAt_length (buf : List UInt8) (offset : Nat) (bytes : List UInt8)
    (inside : offset + bytes.length ≤ buf.length) :
    (copyAt buf offset bytes).length = buf.length := by
  simp only [copyAt, List.length_append, List.length_take, List.length_drop]
  omega

/-- The buffer up to the end of a copy. -/
theorem copyAt_take (buf : List UInt8) (offset : Nat) (bytes : List UInt8)
    (inside : offset + bytes.length ≤ buf.length) :
    (copyAt buf offset bytes).take (offset + bytes.length) = buf.take offset ++ bytes := by
  have length : (buf.take offset ++ bytes).length = offset + bytes.length := by
    rw [List.length_append, List.length_take]
    omega
  rw [copyAt, ← length, List.take_left]

/-- The offset in the buffer is what is left of the message. -/
theorem offset_eq (pms : Md5State) (message : List UInt8) (holds : Holds pms message) :
    ((pms.count0 >>> 3) &&& 63).toNat = (digested message).rest.length := by
  have count := holds.count
  have low := pms.count0.toNat_lt
  have mask : ∀ n : Nat, n &&& 63 = n % 64 := fun n => Nat.and_two_pow_sub_one_eq_mod n 6
  have shifted : (pms.count0 >>> 3).toNat = pms.count0.toNat / 8 := by
    rw [UInt32.toNat_shiftRight, Nat.shiftRight_eq_div_pow]
    rfl
  rw [digested_rest, UInt32.toNat_and, shifted]
  show pms.count0.toNat / 8 &&& 63 = _
  rw [mask]
  omega

/-- One block of the loop. -/
theorem md5Blocks_full (pms : Md5State) (p : List UInt8) (full : 64 ≤ p.length) :
    md5Blocks pms p = md5Blocks { pms with
      abcd := md5Process pms.abcd (p.take 64) } (p.drop 64) := by
  conv => left; unfold md5Blocks
  exact if_pos full

/-- The end of the loop. -/
theorem md5Blocks_short (pms : Md5State) (p : List UInt8) (short : p.length < 64) :
    md5Blocks pms p = { pms with
      buf := if p.length % 64 = 0 then pms.buf else copyAt pms.buf 0 p } := by
  have remainder : p.length % 64 = p.length := Nat.mod_eq_of_lt short
  unfold md5Blocks
  rw [if_neg (by omega), remainder]
  by_cases empty : p.length = 0
  · rw [if_neg (not_not_intro empty), if_pos empty]
  · rw [if_pos empty, if_neg empty]

/-- The loop processes the full blocks and keeps the others. By induction on the number of full
blocks. -/
theorem md5Blocks_eq (pms : Md5State) (p : List UInt8) :
    md5Blocks pms p = { pms with
      abcd := blocks 64 md5Process (p.length / 64) pms.abcd p
      buf := if p.length % 64 = 0 then pms.buf
        else copyAt pms.buf 0 (p.drop (64 * (p.length / 64))) } := by
  induction done : p.length / 64 generalizing pms p with
  | zero =>
    rw [md5Blocks_short pms p (by omega)]
    rfl
  | succ count inductionHypothesis =>
    have length : (p.drop 64).length = p.length - 64 := List.length_drop
    have others : (p.drop 64).length / 64 = count := by omega
    have remainder : (p.drop 64).length % 64 = p.length % 64 := by omega
    have shift : 64 * (count + 1) = 64 + 64 * count := by ring
    rw [md5Blocks_full pms p (by omega), inductionHypothesis _ _ others, remainder, shift,
      ← List.drop_drop]
    rfl

/-- The count after a piece. It is of bits, in two words; the carry is found by the low word
having become less than what was added. -/
theorem counted_count (pms : Md5State) (length nbytes : Nat) (short : nbytes < 2 ^ 28)
    (count : pms.count0.toNat + 2 ^ 32 * pms.count1.toNat = 8 * length % 2 ^ 64) :
    (pms.counted nbytes).count0.toNat + 2 ^ 32 * (pms.counted nbytes).count1.toNat =
      8 * (length + nbytes) % 2 ^ 64 := by
  have bits : (UInt32.ofNat (nbytes <<< 3)).toNat = 8 * nbytes := by
    rw [UInt32.toNat_ofNat', Nat.shiftLeft_eq]
    omega
  have high : UInt32.ofNat (nbytes >>> 29) = 0 := by
    rw [Nat.shiftRight_eq_div_pow, Nat.div_eq_of_lt (by omega)]
    rfl
  have low := pms.count0.toNat_lt
  have top := pms.count1.toNat_lt
  simp only [Md5State.counted, high, UInt32.add_zero, UInt32.lt_iff_toNat_lt, UInt32.toNat_add,
    bits]
  split
  · rw [UInt32.toNat_add]
    have one : (1 : UInt32).toNat = 1 := rfl
    omega
  · omega

/-- The blocks of a piece that comes when nothing is kept. -/
theorem append_fresh (state : Words) (data : List UInt8) :
    Progress.append 64 md5Process ⟨state, []⟩ data =
      ⟨blocks 64 md5Process (data.length / 64) state data, data.drop (64 * (data.length / 64))⟩ :=
  rfl

/-- The loop, over the rest of a message whose start is full blocks: it processes every full block
of the data, and copies what remains to the start of the buffer. -/
theorem md5Blocks_holds (pms : Md5State) (message data : List UInt8) (sized : pms.buf.length = 64)
    (count : pms.count0.toNat + 2 ^ 32 * pms.count1.toNat = 8 * message.length % 2 ^ 64)
    (rest : digested message = Progress.append 64 md5Process ⟨pms.abcd, []⟩ data) :
    Holds (md5Blocks pms data) message := by
  have split := Nat.div_add_mod data.length 64
  have length : (data.drop (64 * (data.length / 64))).length = data.length % 64 := by
    rw [List.length_drop]; omega
  rw [append_fresh] at rest
  rw [md5Blocks_eq]
  by_cases none : data.length % 64 = 0
  · have empty : data.drop (64 * (data.length / 64)) = [] :=
      List.eq_nil_of_length_eq_zero (length.trans none)
    rw [empty] at rest
    rw [if_pos none]
    exact ⟨count, by rw [rest], by rw [rest]; rfl, sized⟩
  · have inside : 0 + (data.drop (64 * (data.length / 64))).length ≤ pms.buf.length := by omega
    have taken := copyAt_take pms.buf 0 _ inside
    rw [Nat.zero_add] at taken
    rw [if_neg none]
    exact ⟨count,
      by rw [rest], by rw [rest]; exact taken, (copyAt_length pms.buf 0 _ inside).trans sized⟩

/-- A piece that does not fill the block in the buffer: it is copied behind what is kept there,
and nothing is processed. -/
theorem md5Append_short (pms : Md5State) (message data : List UInt8) (holds : Holds pms message)
    (short : data.length < 2 ^ 28) (fits : (digested message).rest.length + data.length < 64) :
    Holds { pms.counted data.length with
      buf := copyAt pms.buf (digested message).rest.length data } (message ++ data) := by
  have counted := counted_count pms message.length data.length short holds.count
  rw [← List.length_append] at counted
  have inside : (digested message).rest.length + data.length ≤ pms.buf.length := by
    rw [holds.sized]; omega
  have after :
      digested (message ++ data) = ⟨(digested message).state, (digested message).rest ++ data⟩ :=
    (digested_append message data).trans (append_short 64 md5Process _ data fits)
  have taken := copyAt_take pms.buf _ data inside
  rw [holds.kept] at taken
  refine ⟨counted, ?_, ?_, (copyAt_length pms.buf _ data inside).trans holds.sized⟩
  · rw [after]
    exact holds.abcd
  · rw [after, List.length_append]
    exact taken

/-- A piece that fills the block in the buffer: the block is processed, which leaves the buffer
empty, and the loop goes over the rest. -/
theorem md5Append_full (pms : Md5State) (message data first : List UInt8)
    (holds : Holds pms message) (short : (first ++ data).length < 2 ^ 28)
    (full : (digested message).rest.length + first.length = 64) :
    let buf := copyAt pms.buf (digested message).rest.length first
    Holds (md5Blocks { pms.counted (first ++ data).length with
      abcd := md5Process pms.abcd buf, buf := buf } data)
      (message ++ (first ++ data)) := by
  have counted := counted_count pms message.length (first ++ data).length short holds.count
  rw [← List.length_append] at counted
  have inside : (digested message).rest.length + first.length ≤ pms.buf.length := by
    rw [holds.sized, full]
  have sized := (copyAt_length pms.buf _ first inside).trans holds.sized
  have filled : copyAt pms.buf (digested message).rest.length first = (digested message).rest ++
      first := by
    have taken := copyAt_take pms.buf _ first inside
    rwa [holds.kept, full, List.take_of_length_le (Nat.le_of_eq sized)] at taken
  refine md5Blocks_holds _ _ _ sized counted ?_
  rw [digested_append, ← append_append 64 md5Process (by decide),
    append_full 64 md5Process (by decide) _ first full, ← holds.abcd, filled]

/-- A piece takes the state after a message to the state after the longer message. The buffer is
empty, or the piece fits behind what it holds, or it is filled up and processed first; the loop
does the rest. -/
theorem md5Append_holds (pms : Md5State) (message data : List UInt8) (holds : Holds pms message)
    (short : data.length < 2 ^ 28) : Holds (md5Append pms data) (message ++ data) := by
  by_cases empty : data.length = 0
  · rw [md5Append, if_pos empty, List.eq_nil_of_length_eq_zero empty, List.append_nil]
    exact holds
  have few : (digested message).rest.length < 64 := append_rest_lt 64 md5Process (by decide) _ _
  have offset := offset_eq pms message holds
  simp only [md5Append, if_neg empty, offset]
  by_cases none : (digested message).rest.length = 0
  · rw [if_neg (not_not_intro none)]
    have counted := counted_count pms message.length data.length short holds.count
    rw [← List.length_append] at counted
    refine md5Blocks_holds _ _ _ holds.sized counted ?_
    have fresh : digested message = ⟨pms.abcd, []⟩ := by
      rw [holds.abcd, ← List.eq_nil_of_length_eq_zero none]
    rw [digested_append, fresh]
    rfl
  rw [if_pos none]
  by_cases fits : (digested message).rest.length + data.length < 64
  · rw [if_neg (show ¬ (digested message).rest.length + data.length > 64 by omega), if_pos fits,
      List.take_length]
    exact md5Append_short pms message data holds short fits
  · have copied :
      (if (digested message).rest.length + data.length > 64 then 64 - (digested message).rest.length
        else data.length) = 64 - (digested message).rest.length := by
      split <;> omega
    have whole := List.take_append_drop (64 - (digested message).rest.length) data
    have full := md5Append_full pms message (data.drop (64 - (digested message).rest.length))
      (data.take (64 - (digested message).rest.length)) holds (by rw [whole]; exact short)
      (by rw [List.length_take]; omega)
    rw [whole] at full
    rw [copied, if_neg (by omega)]
    exact full

/-! ## The whole message -/

/-- The state after some pieces. -/
theorem pieces_holds (pms : Md5State) (message : List UInt8) (pieces : List (List UInt8))
    (holds : Holds pms message) (short : ∀ piece ∈ pieces, piece.length < 2 ^ 28) :
    Holds (pieces.foldl md5Append pms) (message ++ pieces.flatten) := by
  induction pieces generalizing pms message with
  | nil =>
    rw [List.flatten_nil, List.append_nil]
    exact holds
  | cons piece pieces inductionHypothesis =>
    have one := md5Append_holds pms message piece holds (short piece List.mem_cons_self)
    rw [List.flatten_cons, ← List.append_assoc]
    exact inductionHypothesis _ _ one
      (fun other member => short other (List.mem_cons_of_mem _ member))

/-- A byte of a word. -/
theorem byte_toNat (word shift : UInt32) (bounded : shift.toNat < 32) :
    (word >>> shift).toUInt8.toNat = word.toNat / 2 ^ shift.toNat % 256 := by
  rw [UInt32.toNat_toUInt8, UInt32.toNat_shiftRight, Nat.shiftRight_eq_div_pow,
    Nat.mod_eq_of_lt bounded]

/-- The bytes of the word that a number is, as far as it fits: each is a shift of the word, cut
off to a byte. -/
theorem bytesOf_word (word : UInt32) (n : Nat) (same : word.toNat = n % 2 ^ 32) :
    bytesOf [word] = [UInt8.ofNat n, UInt8.ofNat (n / 256), UInt8.ofNat (n / 65536),
      UInt8.ofNat (n / 16777216)] := by
  have equal : ∀ (byte : UInt8) (m : Nat), byte.toNat = m % 256 → byte = UInt8.ofNat m := by
    intro byte m value
    rw [← UInt8.toNat_inj, value, UInt8.toNat_ofNat']
  have byte0 : word.toUInt8 = UInt8.ofNat n := equal _ _ (by rw [UInt32.toNat_toUInt8]; omega)
  have byte1 : (word >>> 8).toUInt8 = UInt8.ofNat (n / 256) :=
    equal _ _ (by rw [byte_toNat _ 8 (by decide)]; show _ / 256 % 256 = _; omega)
  have byte2 : (word >>> 16).toUInt8 = UInt8.ofNat (n / 65536) :=
    equal _ _ (by rw [byte_toNat _ 16 (by decide)]; show _ / 65536 % 256 = _; omega)
  have byte3 : (word >>> 24).toUInt8 = UInt8.ofNat (n / 16777216) :=
    equal _ _ (by rw [byte_toNat _ 24 (by decide)]; show _ / 16777216 % 256 = _; omega)
  simp only [bytesOf, List.flatMap_cons, List.flatMap_nil, List.append_nil, byte0, byte1, byte2,
    byte3]

/-- The bytes of the count are the count of bits. -/
theorem bytesOf_count (pms : Md5State) (message : List UInt8) (holds : Holds pms message) :
    bytesOf [pms.count0, pms.count1] = lengthField message.length := by
  have count := holds.count
  have low := pms.count0.toNat_lt
  have high := pms.count1.toNat_lt
  have first := bytesOf_word pms.count0 (8 * message.length) (by omega)
  have second := bytesOf_word pms.count1 (8 * message.length / 4294967296) (by omega)
  have both : bytesOf [pms.count0, pms.count1] = bytesOf [pms.count0] ++ bytesOf [pms.count1] := rfl
  rw [both, first, second]
  simp only [Nat.div_div_eq_div_mul, lengthField]
  simp [List.range_succ]

/-- The padding that the state computes: as many bytes as bring the message to eight short of a
full block. The count is of bits and wraps, but its low part gives the length modulo the block. -/
theorem pad_take (pms : Md5State) (message : List UInt8) (holds : Holds pms message) :
    pad.take ((((55 : UInt32) - (pms.count0 >>> 3)) &&& 63) + 1).toNat =
      0x80 :: List.replicate ((119 - message.length % 64) % 64) 0 := by
  have count := holds.count
  have low := pms.count0.toNat_lt
  have mask : ∀ n : Nat, n &&& 63 = n % 64 := fun n => Nat.and_two_pow_sub_one_eq_mod n 6
  have shifted : (pms.count0 >>> 3).toNat = pms.count0.toNat / 8 := by
    rw [UInt32.toNat_shiftRight, Nat.shiftRight_eq_div_pow]
    rfl
  have zeros :
      (((55 : UInt32) - (pms.count0 >>> 3)) &&& 63).toNat = (119 - message.length % 64) % 64 := by
    rw [UInt32.toNat_and, UInt32.toNat_sub, shifted]
    show (2 ^ 32 - pms.count0.toNat / 8 + 55) % 2 ^ 32 &&& 63 = _
    rw [mask]
    omega
  have length : ((((55 : UInt32) - (pms.count0 >>> 3)) &&& 63) + 1).toNat =
      (119 - message.length % 64) % 64 + 1 := by
    rw [UInt32.toNat_add, zeros]
    show (_ + 1) % 2 ^ 32 = _
    omega
  rw [length, pad, List.take_succ_cons, List.take_replicate, Nat.min_eq_left (by omega)]

/-- The end, after a message. -/
theorem md5Finish_eq (pms : Md5State) (message : List UInt8) (holds : Holds pms message) :
    md5Finish pms = md5 message := by
  have taken := pad_take pms message holds
  have padding := md5Append_holds pms message _ holds (show (pad.take _).length < 2 ^ 28 by
    rw [taken, List.length_cons, List.length_replicate]; omega)
  have ended := md5Append_holds _ _ (lengthField message.length) padding (by
    rw [lengthField, List.length_map, List.length_range]; decide)
  rw [taken] at ended
  have words := ended.abcd
  rw [md5Finish, bytesOf_count pms message holds, taken, words]
  rfl

/-- The digest does not depend on the pieces, nor on what the buffer held: it is the digest of the
whole message. Each piece keeps the state holding what was taken in so far, as long as its length
in bits is an `int`, and the end of a state that holds a message pads and digests it. -/
theorem md5Pieces_eq (buf : List UInt8) (pieces : List (List UInt8)) (sized : buf.length = 64)
    (short : ∀ piece ∈ pieces, piece.length < 2 ^ 28) :
    md5Pieces buf pieces = md5 pieces.flatten := by
  have holds := pieces_holds (md5Init buf) [] pieces (md5Init_holds buf sized) short
  exact md5Finish_eq _ _ holds

/-- A message in two pieces. -/
theorem md5Pieces_two : md5Pieces (List.replicate 64 0) [[97], [98, 99]] = md5 [97, 98, 99] :=
  md5Pieces_eq (List.replicate 64 0) [[97], [98, 99]] (by decide) (by decide)

example : md5 [97, 98, 99] =
    [0x90, 0x01, 0x50, 0x98, 0x3c, 0xd2, 0x4f, 0xb0, 0xd6, 0x96, 0x3f, 0x7d, 0x28, 0xe1, 0x7f,
      0x72] := by
  decide +kernel

end NoMercyRecomp.Md5
