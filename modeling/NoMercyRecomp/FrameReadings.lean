import Mathlib
import NoMercyRecomp.RamPeeks
import NoMercyRecomp.MemRefs

/-!
# What an operand reads over a run of frames

An operand of an achievement names a field of the console's memory: some bits of a byte, or
some bytes in one order or the other. Its reference is read once a frame, and is shared
with operands of other sizes. After any run of frames the operand has the field of the
last frame, its delta the field of the frame before, and its prior the last field that
differed, whatever else the shared bytes did. Only a count of bits is compared by the byte
that is counted: its prior is the count of the last byte that differed.
-/

namespace NoMercyRecomp.FrameReadings

open ByteMemory RamPeeks TypedValues SampledValues MemRefs

/-- The memory of a frame, as the achievement runtime peeks it. -/
def peekOf (rdram : Memory) (swap : Bool) : RcPeek :=
  fun address numBytes => (runtimePeek (some rdram) swap address numBytes).1

/-- A byte behind an address. Beyond RDRAM there are zeros. -/
def byteAt (rdram : Memory) (swap : Bool) (address : UInt32) (k : Nat) : UInt8 :=
  if address.toNat + k < rdramSize.toNat then rdram (indexOf swap (address + UInt32.ofNat k)).toNat
    else 0

/-- The field of a size in the bytes behind an address. -/
def fieldOf (size : MemSize) (byte : Nat → UInt8) : UInt32 :=
  match size with
  | .bits8 => loadWord (byte 0) 0 0 0
  | .bits16 => loadWord (byte 0) (byte 1) 0 0
  | .bits24 => loadWord (byte 0) (byte 1) (byte 2) 0
  | .low => loadWord (byte 0 &&& 15) 0 0 0
  | .high => loadWord (byte 0 >>> 4) 0 0 0
  | .bit index => loadWord ((byte 0 >>> UInt8.ofNat index) &&& 1) 0 0 0
  | .bitcount => UInt32.ofNat ((List.range 8).countP (fun index => (byte 0).toNat.testBit index))
  | .bits16BE => loadWord (byte 1) (byte 0) 0 0
  | .bits24BE => loadWord (byte 2) (byte 1) (byte 0) 0
  | .bits32BE => loadWord (byte 3) (byte 2) (byte 1) (byte 0)
  | _ => loadWord (byte 0) (byte 1) (byte 2) (byte 3)

/-- The size of the reference that an operand is given: the shared one, but for a prior value
that other bits of the shared one would disturb. -/
def referenceSize (access : Access) (size : MemSize) : MemSize :=
  if rcMemrefSharedSize size ≠ size ∧ access = .prior ∧
    rcMemrefMask (rcMemrefSharedSize size) ≠ rcMemrefMask size then size
  else rcMemrefSharedSize size

/-- The sizes of integers. -/
def Integer (size : MemSize) : Prop := rcMemsizeIsFloat size = false ∧ size ≠ .var

/-- The fields of some frames. -/
def fields (frames : List Memory) (swap : Bool) (address : UInt32) (size : MemSize) : List UInt32 :=
  frames.map (fun rdram => fieldOf size (byteAt rdram swap address))

/-- The number of bits that are set in a byte. -/
def bitsIn (byte : UInt32) : UInt32 :=
  UInt32.ofNat ((List.range 8).countP (fun index => byte.toNat.testBit index))

/-- The last field that differed. A count of bits is taken of the last byte that differed,
also where both bytes have the same count. -/
def priorField (frames : List Memory) (swap : Bool) (address : UInt32) (size : MemSize) : UInt32 :=
  match size with
  | .bitcount => bitsIn (lastDiffering 0 (fields frames swap address .bits8))
  | size => lastDiffering 0 (fields frames swap address size)

/-- What an operand is after some frames. -/
def expected (access : Access) (size : MemSize) (frames : List Memory) (swap : Bool)
    (address : UInt32) : UInt32 :=
  let history := fields frames swap address size
  match access with
  | .address => current 0 history
  | .delta => current 0 history.dropLast
  | .prior => priorField frames swap address size
  | .bcd | .inverted => rcTransformOperandValue (current 0 history) access size

/-- The pools after some frames. -/
def framesRun (memrefs : Memrefs) (frames : List Memory) (swap : Bool) : Memrefs :=
  frames.foldl (fun memrefs rdram => rcUpdateMemrefValues memrefs (peekOf rdram swap)) memrefs

/-! ## Peeks -/

/-- A peek fills the bytes that it reads, from inside RDRAM; the others are left as they were,
which is zero for those that lie beyond. -/
theorem peek_buffer (rdram : Memory) (swap : Bool) (address numBytes : UInt32)
    (few : numBytes.toNat ≤ 4) (k : Nat) :
    (peekBytes (some rdram) swap address (fun _ => 0) numBytes).buffer k =
      if k < numBytes.toNat then byteAt rdram swap address k else 0 := by
  have spec := peekBytes_prefix rdram swap address (fun _ => 0) numBytes
  have size : rdramSize.toNat = 2 ^ 23 := rfl
  have count := readable_eq address numBytes
  by_cases inside : k < readable address numBytes
  · rw [spec.filled k inside]
    rw [count] at inside
    split at inside
    next => exact absurd inside (Nat.not_lt_zero k)
    next =>
      have fits : k < numBytes.toNat ∧ address.toNat + k < rdramSize.toNat := by omega
      rw [if_pos fits.1, byteAt, if_pos fits.2]
  · rw [spec.kept k (by omega)]
    split
    next wanted =>
      have beyond : ¬ address.toNat + k < rdramSize.toNat := by
        rw [count] at inside
        split at inside <;> omega
      rw [byteAt, if_neg beyond]
    next => rfl

/-- The value of a peek. -/
theorem peekOf_eq (rdram : Memory) (swap : Bool) (address numBytes : UInt32)
    (few : numBytes.toNat ≤ 4) :
    let byte := fun k => if k < numBytes.toNat then byteAt rdram swap address k else 0
    peekOf rdram swap address numBytes = loadWord (byte 0) (byte 1) (byte 2) (byte 3) := by
  have capped : ¬ numBytes > 4 := by
    rw [gt_iff_lt, UInt32.lt_iff_toNat_lt]
    exact Nat.not_lt.mpr few
  simp only [peekOf, runtimePeek, if_neg capped, peek_buffer rdram swap address numBytes few,
    loadWord]

/-- A read of one byte, of two and of four. -/
theorem peekOf_bytes (rdram : Memory) (swap : Bool) (address : UInt32) :
    let byte := byteAt rdram swap address
    peekOf rdram swap address 1 = loadWord (byte 0) 0 0 0 ∧
      peekOf rdram swap address 2 = loadWord (byte 0) (byte 1) 0 0 ∧
      peekOf rdram swap address 4 = loadWord (byte 0) (byte 1) (byte 2) (byte 3) :=
  ⟨peekOf_eq rdram swap address 1 (by decide), peekOf_eq rdram swap address 2 (by decide),
    peekOf_eq rdram swap address 4 (by decide)⟩

/-! ## Fields -/

/-- A mask keeps the bit that is looked at. -/
theorem bit_masked (v : UInt32) (index : Fin 8) :
    ((v &&& (1 <<< UInt32.ofNat index)) >>> UInt32.ofNat index) &&& (1 : UInt32) =
      (v >>> UInt32.ofNat index) &&& (1 : UInt32) := by
  apply UInt32.toBitVec_inj.mp
  ext bit inside
  by_cases zero : bit = 0
  · subst zero
    fin_cases index <;> simp
  · have none : (1 : UInt32).toBitVec[bit] = false := by simp [zero]
    simp only [UInt32.toBitVec_and, BitVec.getElem_and, none, Bool.and_false]

/-- A mask of a byte, or of its high half, keeps the high half. -/
theorem high_masked (v : UInt32) :
    ((v &&& 0xf0) >>> 4) &&& (0x0F : UInt32) = (v >>> 4) &&& (0x0F : UInt32) ∧
      ((v &&& 0xff) >>> 4) &&& (0x0F : UInt32) = (v >>> 4) &&& (0x0F : UInt32) := by
  constructor <;> (apply UInt32.toBitVec_inj.mp; ext bit inside; interval_cases bit <;> simp)

/-- A mask of all bits keeps a word. -/
theorem and_all (v : UInt32) : v &&& 0xffffffff = v := UInt32.toBitVec_inj.mp BitVec.and_allOnes

/-- The mask of a size keeps its field: what the transformation takes from the word lies within
the mask. One case a size. -/
theorem transformed_masked (v : UInt32) (size : MemSize) :
    transformed (v &&& rcMemrefMask size) size = transformed v size := by
  cases size with
  | bit index => exact bit_masked v index
  | high => exact (high_masked v).1
  | bitcount =>
    have low : v &&& 0xff &&& 0x0F = v &&& (0x0F : UInt32) := by
      rw [UInt32.and_assoc]
      rfl
    simp only [transformed, rcMemrefMask, low, (high_masked v).2]
  | bits16BE | bits24BE =>
    simp only [transformed, rcMemrefMask, UInt32.and_assoc]
    rfl
  | _ => simp [transformed, rcMemrefMask, UInt32.and_assoc, and_all]

/-- The two halves of the low byte. -/
theorem loadWord_halves (a b c d : UInt8) :
    loadWord a b c d &&& 0x0F = loadWord (a &&& 15) 0 0 0 ∧
      (loadWord a b c d >>> 4) &&& (0x0F : UInt32) = loadWord (a >>> 4) 0 0 0 := by
  constructor <;>
    (apply UInt32.toBitVec_inj.mp; ext bit inside; simp only [loadWord]; interval_cases bit <;>
      simp)

/-- The low bytes of a word. -/
theorem loadWord_low (a b c d : UInt8) :
    loadWord a b c d &&& 0xff = loadWord a 0 0 0 ∧ loadWord a b c d &&& 0xffff = loadWord a b 0 0 ∧
      loadWord a b c d &&& 0xffffff = loadWord a b c 0 := by
  refine ⟨?_, ?_, ?_⟩ <;>
    (apply UInt32.toBitVec_inj.mp; ext bit inside; simp only [loadWord]; interval_cases bit <;>
      simp)

/-- Two bytes in the opposite order. -/
theorem loadWord_turned2 (a b c d : UInt8) :
    transformed (loadWord a b c d) .bits16BE = loadWord b a 0 0 := by
  apply UInt32.toBitVec_inj.mp
  ext bit inside
  simp only [transformed, loadWord]
  interval_cases bit <;> simp

/-- Three bytes in the opposite order. -/
theorem loadWord_turned3 (a b c d : UInt8) :
    transformed (loadWord a b c d) .bits24BE = loadWord c b a 0 := by
  apply UInt32.toBitVec_inj.mp
  ext bit inside
  simp only [transformed, loadWord]
  interval_cases bit <;> simp

/-- Four bytes in the opposite order. -/
theorem loadWord_turned4 (a b c d : UInt8) :
    transformed (loadWord a b c d) .bits32BE = loadWord d c b a := by
  apply UInt32.toBitVec_inj.mp
  ext bit inside
  simp only [transformed, loadWord]
  interval_cases bit <;> simp

/-- A bit of the low byte. -/
theorem loadWord_bit (a b c d : UInt8) (index : Fin 8) :
    (loadWord a b c d >>> UInt32.ofNat index) &&& (1 : UInt32) =
      loadWord ((a >>> UInt8.ofNat index) &&& 1) 0 0 0 := by
  apply UInt32.toBitVec_inj.mp
  ext bit inside
  simp only [loadWord]
  by_cases zero : bit = 0
  · subst zero
    fin_cases index <;> simp
  · simp [zero]

/-- The table counts the bits of a byte. -/
theorem rcBitsSet_count (a : UInt8) :
    rcBitsSet.getD (loadWord (a &&& 15) 0 0 0).toNat 0 + rcBitsSet.getD
      (loadWord (a >>> 4) 0 0 0).toNat 0 =
      UInt32.ofNat ((List.range 8).countP (fun index => a.toNat.testBit index)) := by
  have all : ∀ n < 256, rcBitsSet.getD (loadWord (UInt8.ofNat n &&& 15) 0 0 0).toNat 0 +
      rcBitsSet.getD (loadWord (UInt8.ofNat n >>> 4) 0 0 0).toNat 0 =
        UInt32.ofNat ((List.range 8).countP
          (fun index => (UInt8.ofNat n).toNat.testBit index)) := by
    decide +kernel
  have one := all a.toNat a.toNat_lt
  rwa [UInt8.ofNat_toNat] at one

/-- The shared bytes of a size. -/
def sharedBytes (size : MemSize) (byte : Nat → UInt8) : UInt32 :=
  match rcMemrefSharedSize size with
  | .bits8 => loadWord (byte 0) 0 0 0
  | .bits16 => loadWord (byte 0) (byte 1) 0 0
  | _ => loadWord (byte 0) (byte 1) (byte 2) (byte 3)

/-- The field is taken from the shared bytes, a word of which the first ones are the field's own.
One case a size. -/
theorem transformed_shared (size : MemSize) (byte : Nat → UInt8) :
    transformed (sharedBytes size byte) size = fieldOf size byte := by
  cases size with
  | bit index => exact loadWord_bit (byte 0) 0 0 0 index
  | low => exact (loadWord_halves (byte 0) 0 0 0).1
  | high => exact (loadWord_halves (byte 0) 0 0 0).2
  | bitcount =>
    obtain ⟨low, high⟩ := loadWord_halves (byte 0) 0 0 0
    simp only [transformed, sharedBytes, rcMemrefSharedSize, low, high]
    exact rcBitsSet_count (byte 0)
  | bits8 => exact (loadWord_low (byte 0) 0 0 0).1
  | bits16 => exact (loadWord_low (byte 0) (byte 1) 0 0).2.1
  | bits24 => exact (loadWord_low (byte 0) (byte 1) (byte 2) (byte 3)).2.2
  | bits16BE => exact loadWord_turned2 (byte 0) (byte 1) 0 0
  | bits24BE => exact loadWord_turned3 (byte 0) (byte 1) (byte 2) (byte 3)
  | bits32BE => exact loadWord_turned4 (byte 0) (byte 1) (byte 2) (byte 3)
  | _ => rfl

/-- What a shared reference reads. -/
theorem rcPeekValue_shared (rdram : Memory) (swap : Bool) (address : UInt32) (size : MemSize) :
    rcPeekValue address (rcMemrefSharedSize size) (peekOf rdram swap) = sharedBytes size
      (byteAt rdram swap address) := by
  obtain ⟨one, two, four⟩ := peekOf_bytes rdram swap address
  cases size <;> simp only [rcMemrefSharedSize, rcPeekValue, sharedBytes, one, two, four]

/-- A reference that is not shared reads the bits of its mask. -/
theorem rcPeekValue_own (rdram : Memory) (swap : Bool) (address : UInt32) (size : MemSize)
    (own : rcMemrefSharedSize size ≠ size) :
    rcPeekValue address size (peekOf rdram swap) = sharedBytes size
      (byteAt rdram swap address) &&& rcMemrefMask size := by
  obtain ⟨one, two, four⟩ := peekOf_bytes rdram swap address
  cases size with
  | bits8 | bits16 | bits32 => exact absurd rfl own
  | _ => simp only [rcMemrefSharedSize, rcPeekValue, sharedBytes, one, two, four]

/-- The field of an operand, from its reference. -/
theorem field_read (rdram : Memory) (swap : Bool) (address : UInt32) (access : Access)
    (size : MemSize) :
    transformed (rcPeekValue address (referenceSize access size) (peekOf rdram swap)) size =
      fieldOf size (byteAt rdram swap address) := by
  unfold referenceSize
  split
  next own =>
    rw [rcPeekValue_own rdram swap address size own.1, transformed_masked, transformed_shared]
  next => rw [rcPeekValue_shared, transformed_shared]

/-- Shared bytes have no other bits than their mask. -/
theorem sharedBytes_masked (size : MemSize) (byte : Nat → UInt8) :
    sharedBytes size byte &&& rcMemrefMask (rcMemrefSharedSize size) = sharedBytes size byte := by
  unfold sharedBytes
  split
  next one => rw [one]; exact (loadWord_low (byte 0) 0 0 0).1
  next two => rw [two]; exact (loadWord_low (byte 0) (byte 1) 0 0).2.1
  next one two =>
    have four : rcMemrefSharedSize size = .bits32 := by
      cases size <;> first | rfl | exact absurd rfl one | exact absurd rfl two
    rw [four]
    exact and_all _

/-- The reference of a prior value reads nothing but the bits of the mask. -/
theorem prior_masked (rdram : Memory) (swap : Bool) (address : UInt32) (size : MemSize) :
    rcPeekValue address (referenceSize .prior size) (peekOf rdram swap) &&& rcMemrefMask size =
      rcPeekValue address (referenceSize .prior size) (peekOf rdram swap) := by
  unfold referenceSize
  split
  next own => rw [rcPeekValue_own rdram swap address size own.1, UInt32.and_assoc, UInt32.and_self]
  next shared =>
    have masks : rcMemrefMask size = rcMemrefMask (rcMemrefSharedSize size) := by
      by_cases same : rcMemrefSharedSize size = size
      · rw [same]
      · by_contra differ
        exact shared ⟨same, rfl, Ne.symm differ⟩
    rw [rcPeekValue_shared, masks, sharedBytes_masked]

/-- The bits of the mask, from the field. -/
def recovered (size : MemSize) (field : UInt32) : UInt32 :=
  match size with
  | .high => field <<< 4
  | .bit index => field <<< UInt32.ofNat index
  | .bits16BE | .bits24BE | .bits32BE => transformed field size
  | _ => field

/-- Every word is loaded from four bytes. -/
theorem word_bytes (v : UInt32) : ∃ a b c d : UInt8, v = loadWord a b c d := by
  refine ⟨UInt8.ofBitVec (v.toBitVec.extractLsb' 0 8), UInt8.ofBitVec (v.toBitVec.extractLsb' 8 8),
    UInt8.ofBitVec (v.toBitVec.extractLsb' 16 8), UInt8.ofBitVec (v.toBitVec.extractLsb' 24 8), ?_⟩
  apply UInt32.toBitVec_inj.mp
  ext bit inside
  simp only [loadWord]
  interval_cases bit <;> simp

/-- A single bit goes back to its place, as shifting down, cutting off and shifting up again
leaves that bit of the word alone. -/
theorem bit_recovered (v : UInt32) (index : Fin 8) :
    ((v >>> UInt32.ofNat index) &&& (1 : UInt32)) <<< UInt32.ofNat index =
      v &&& ((1 : UInt32) <<< UInt32.ofNat index) := by
  have place : (UInt32.ofNat index).toNat % 32 = index := by
    rw [UInt32.toNat_ofNat']
    omega
  have small : 2 ^ index.val ≤ 2 ^ 7 := Nat.pow_le_pow_right (by decide) (by omega)
  have one : (1 : UInt32).toNat = 1 := rfl
  have bit : v.toNat / 2 ^ index.val % 2 ≤ 1 := by omega
  have fits : v.toNat / 2 ^ index.val % 2 * 2 ^ index.val ≤ 1 * 2 ^ 7 := Nat.mul_le_mul bit small
  apply UInt32.toNat_inj.mp
  rw [UInt32.toNat_shiftLeft, UInt32.toNat_and, UInt32.toNat_and, UInt32.toNat_shiftLeft,
    UInt32.toNat_shiftRight, place, one,
    Nat.shiftRight_eq_div_pow, Nat.shiftLeft_eq, Nat.shiftLeft_eq, Nat.one_mul, Nat.and_one_is_mod,
    Nat.mod_eq_of_lt (show 2 ^ index.val < 2 ^ 32 by omega), Nat.and_two_pow, Nat.toNat_testBit]
  exact Nat.mod_eq_of_lt (by omega)

/-- The high half of a byte goes back to its place. -/
theorem high_recovered (v : UInt32) : ((v >>> 4) &&& (0x0F : UInt32)) <<< 4 = v &&& 0xf0 := by
  apply UInt32.toBitVec_inj.mp
  ext bit inside
  interval_cases bit <;> simp

/-- A field tells the bits of its mask, unless it only counts them: shifting or turning it back
gives them at their places. -/
theorem recovered_transformed (size : MemSize) (v : UInt32) (integer : Integer size)
    (told : size ≠ .bitcount) :
    recovered size (transformed v size) = v &&& rcMemrefMask size := by
  obtain ⟨a, b, c, d, rfl⟩ := word_bytes v
  cases size with
  | bitcount => exact absurd rfl told
  | float | floatBE | double32 | double32BE | mbf32 | mbf32LE => exact absurd integer.1 (by decide)
  | var => exact absurd rfl integer.2
  | bits8 | bits16 | bits24 | low => rfl
  | bits32 => exact (and_all _).symm
  | high => exact high_recovered _
  | bit index => exact bit_recovered _ index
  | bits16BE =>
    rw [recovered, loadWord_turned2, loadWord_turned2]; exact (loadWord_low a b c d).2.1.symm
  | bits24BE =>
    rw [recovered, loadWord_turned3, loadWord_turned3]; exact (loadWord_low a b c d).2.2.symm
  | bits32BE => rw [recovered, loadWord_turned4, loadWord_turned4]; exact (and_all _).symm

/-! ## Runs of frames -/

/-- What a reference has read in some frames. -/
def readings (frames : List Memory) (swap : Bool) (address : UInt32) (size : MemSize) :
    List UInt32 :=
  frames.map (fun rdram => rcPeekValue address size (peekOf rdram swap))

/-- The kept readings of a reference. -/
def MemrefValue.sampled (memref : MemrefValue) : Sampled UInt32 :=
  ⟨memref.value, memref.prior, memref.changed⟩

/-- A reference keeps its readings as they come. -/
theorem rcUpdateMemrefValue_sampled (memref : MemrefValue) (newValue : UInt32) :
    MemrefValue.sampled (rcUpdateMemrefValue memref newValue) =
      (MemrefValue.sampled memref).update newValue := by
  unfold rcUpdateMemrefValue Sampled.update MemrefValue.sampled
  simp only
  split <;> rfl

/-- The reference of an operand after some frames keeps its address and size, and holds what
sampling has observed of its readings. By induction from the last frame. -/
theorem framesRun_memref (swap : Bool) (index : Nat) (address : UInt32) (size : MemSize)
    (memrefs : Memrefs)
    (fresh : memrefs.memrefs[index]? = some ⟨⟨0, 0, size, false, .unsigned⟩, address⟩)
    (frames : List Memory) :
    ∃ value, (framesRun memrefs frames swap).memrefs[index]? = some ⟨value, address⟩ ∧
      value.size = size ∧
      value.type = .unsigned ∧
      MemrefValue.sampled value = observed 0 (readings frames swap address size) := by
  induction frames using List.reverseRecOn with
  | nil => exact ⟨_, fresh, rfl, rfl, rfl⟩
  | append_singleton frames rdram inductionHypothesis =>
    obtain ⟨value, found, sized, typed, kept⟩ := inductionHypothesis
    obtain ⟨size', type'⟩ :=
      rcUpdateMemrefValue_kind value (rcPeekValue address size (peekOf rdram swap))
    refine ⟨rcUpdateMemrefValue value (rcPeekValue address size (peekOf rdram swap)), ?_,
      size'.trans sized, type'.trans typed, ?_⟩
    · rw [framesRun, List.foldl_append]
      show (rcUpdateMemrefValues (framesRun memrefs frames swap)
        (peekOf rdram swap)).memrefs[index]? = _
      have live : value.type ≠ .none := by
        rw [typed]
        decide
      rw [rcUpdateMemrefValues_memrefs, List.getElem?_map, found, Option.map_some, updateMemref,
        if_pos live, sized]
    · rw [rcUpdateMemrefValue_sampled, kept, readings, readings, List.map_append,
        List.map_singleton, observed_append]

/-- The fields of some frames, from the readings of the reference. -/
theorem fields_eq (frames : List Memory) (swap : Bool) (address : UInt32) (access : Access)
    (size : MemSize) :
    fields frames swap address size =
      (readings frames swap address (referenceSize access size)).map
        (fun reading => transformed reading size) := by
  rw [fields, readings, List.map_map]
  exact List.map_congr_left (fun rdram _ => (field_read rdram swap address access size).symm)

/-- The field of zeros. -/
theorem transformed_zero (size : MemSize) : transformed 0 size = 0 := by
  cases size with
  | bit index => fin_cases index <;> rfl
  | _ => rfl

/-- The count of bits of a reading, low byte alone: the two halves of the byte are looked up in a
table, and the rest of the word does not come into it. -/
theorem transformed_bitcount (v : UInt32) : transformed v .bitcount = bitsIn v := by
  obtain ⟨a, b, c, d, rfl⟩ := word_bytes v
  obtain ⟨low, high⟩ := loadWord_halves a b c d
  have lowByte : ∀ index ∈ List.range 8,
      a.toNat.testBit index = (loadWord a b c d).toNat.testBit index := by
    intro index inside
    have small := List.mem_range.mp inside
    rw [← UInt32.toNat_toBitVec, ← UInt8.toNat_toBitVec, BitVec.testBit_toNat,
      BitVec.testBit_toNat]
    simp only [loadWord]
    interval_cases index <;> simp
  simp only [transformed, low, high]
  rw [rcBitsSet_count, bitsIn]
  exact congrArg UInt32.ofNat (List.countP_congr (fun index inside => by rw [lowByte index inside]))

/-- The prior count of bits: a byte is its own field, so the reference keeps the last byte
that differed, and its bits are counted. -/
theorem prior_count (frames : List Memory) (swap : Bool) (address : UInt32) :
    transformed (lastDiffering 0 (readings frames swap address (referenceSize .prior .bitcount)))
        .bitcount = priorField frames swap address .bitcount := by
  have bytes : readings frames swap address (referenceSize .prior .bitcount) =
      fields frames swap address .bits8 :=
    List.map_congr_left (fun rdram _ => rcPeekValue_shared rdram swap address .bits8)
  rw [bytes, transformed_bitcount, priorField]

/-- The prior field: the last differing reading of the reference has the last differing
field. A field that is no count tells the bits of its mask, and the reference reads nothing
but these, so readings differ where fields do. -/
theorem prior_field (frames : List Memory) (swap : Bool) (address : UInt32) (size : MemSize)
    (integer : Integer size) :
    transformed (lastDiffering 0 (readings frames swap address (referenceSize .prior size))) size =
      priorField frames swap address size := by
  by_cases count : size = .bitcount
  · subst count
    exact prior_count frames swap address
  have told : size ≠ .bitcount := count
  have plain :
      priorField frames swap address size = lastDiffering 0 (fields frames swap address size) := by
    cases size <;> first | rfl | exact absurd rfl told
  rw [plain]
  have masked : ∀ reading ∈ 0 :: readings frames swap address (referenceSize .prior size),
      reading &&& rcMemrefMask size = reading := by
    intro reading member
    obtain rfl | later := List.mem_cons.mp member
    · exact UInt32.zero_and
    · obtain ⟨rdram, _, rfl⟩ := List.mem_map.mp later
      exact prior_masked rdram swap address size
  have apart : ∀ first second,
      first ∈ 0 :: readings frames swap address (referenceSize .prior size) →
      second ∈ 0 :: readings frames swap address (referenceSize .prior size) →
        transformed first size = transformed second size → first = second := by
    intro first second one two same
    rw [← masked first one, ← masked second two, ← recovered_transformed size first integer told,
      ← recovered_transformed size second integer told, same]
  have mapped := lastDiffering_map (fun reading => transformed reading size) 0 _ apart
  rw [← mapped, fields_eq frames swap address .prior size, transformed_zero]

/-- The current field. -/
theorem current_field (frames : List Memory) (swap : Bool) (address : UInt32) (access : Access)
    (size : MemSize) :
    transformed (current 0 (readings frames swap address (referenceSize access size))) size =
      current 0 (fields frames swap address size) := by
  have mapped := current_map (fun reading => transformed reading size) 0
    (readings frames swap address (referenceSize access size))
  rw [← mapped, fields_eq frames swap address access size, transformed_zero]

/-- The reading before the last. -/
theorem observed_dropLast (history : List UInt32) :
    (observed 0 history).delta = current 0 history.dropLast := by
  induction history using List.reverseRecOn with
  | nil => rfl
  | append_singleton history reading _ => rw [observed_delta, List.dropLast_concat]

/-- What a kept reading is decoded to. -/
theorem readOperand_eq (memref : MemrefValue) (access : Access) (size : MemSize)
    (integer : Integer size) (typed : memref.type = .unsigned) :
    readOperand memref access size false =
      ⟨.unsigned, rcTransformOperandValue
        (transformed (rcGetMemrefValueValue memref access) size) access size⟩ := by
  have decode : rcTransformMemrefValue (rcGetMemrefValue memref access) size =
      ⟨.unsigned, transformed (rcGetMemrefValueValue memref access) size⟩ := by
    have plain := integer.1
    cases size with
    | float | floatBE | double32 | double32BE | mbf32 | mbf32LE => exact absurd plain (by decide)
    | _ => simp only [rcTransformMemrefValue, rcGetMemrefValue, typed]
  simp only [readOperand, decode, Bool.false_eq_true, not_false_eq_true, and_self, if_true]

/-- The operand after a run of frames: the field of the last frame, of the one before it, or
the last one that differed. The reference keeps its readings (`framesRun_memref`), and the
field of a kept reading is the field of its frame. Assumed are a size of integers and a
reference that was allocated for the operand. -/
theorem rcEvaluateOperand_frames (swap : Bool) (index : Nat) (access : Access) (size : MemSize)
    (address : UInt32) (isCombining : Bool) (integer : Integer size) (memrefs : Memrefs)
    (fresh : memrefs.memrefs[index]? =
      some ⟨⟨0, 0, referenceSize access size, false, .unsigned⟩, address⟩)
    (frames : List Memory) :
    rcEvaluateOperand (framesRun memrefs frames swap)
      ⟨.memref access (.memref index) size, false, isCombining⟩ =
      ⟨.unsigned, expected access size frames swap address⟩ := by
  obtain ⟨value, found, _, typed, kept⟩ :=
    framesRun_memref swap index address (referenceSize access size) memrefs fresh frames
  have lastValue :
      value.value = current 0 (readings frames swap address (referenceSize access size)) :=
    (congrArg Sampled.value kept).trans (observed_value 0 _)
  simp only [rcEvaluateOperand, Memrefs.deref, found, Option.map_some,
    readOperand_eq value access size integer typed]
  congr 1
  cases access with
  | address =>
    show transformed value.value size = current 0 _
    rw [lastValue, current_field]
  | bcd | inverted =>
    simp only [rcGetMemrefValueValue, expected, lastValue, current_field]
  | delta =>
    show transformed (MemrefValue.sampled value).delta size = current 0
      (fields frames swap address size).dropLast
    have earlier := current_field frames.dropLast swap address .delta size
    rw [fields, List.map_dropLast] at earlier
    rw [kept, observed_dropLast]
    rw [readings, List.map_dropLast] at earlier
    exact earlier
  | prior =>
    show transformed value.prior size = priorField frames swap address size
    have priorValue :
        value.prior = lastDiffering 0 (readings frames swap address (referenceSize .prior size)) :=
      (congrArg Sampled.prior kept).trans (observed_prior 0 _)
    rw [priorValue, prior_field frames swap address size integer]

/-- The prior value of a low half of a byte, after three frames. -/
theorem rcEvaluateOperand_lowPrior :
    rcEvaluateOperand
        (framesRun (rcAllocMemref ⟨[], []⟩ 0x1000 (referenceSize .prior .low)).1
          [fun _ => 0x12, fun _ => 0x53, fun _ => 0x63] false)
        ⟨.memref .prior (.memref 0) .low, false, false⟩ =
      ⟨.unsigned, expected .prior .low [fun _ => 0x12, fun _ => 0x53,
        fun _ => 0x63] false 0x1000⟩ :=
  rcEvaluateOperand_frames false 0 .prior .low 0x1000 false ⟨rfl, by decide⟩ _ rfl _

example : expected .prior .low [fun _ => 0x12, fun _ => 0x53, fun _ => 0x63] false 0x1000 = 2 := by
  decide +kernel

-- two bytes with one bit each: the prior count is the one of the byte before
example : expected .prior .bitcount [fun _ => 0x01, fun _ => 0x02] false 0x1000 = 1 := by
  decide +kernel

end NoMercyRecomp.FrameReadings
