import NoMercyRecomp.TextScan
import Mathlib.Logic.Function.Basic

/-!
# Patches of device accesses

`gen_mmio_patches` replaces the loads and stores of a function that go to the device page by
moves of zero and by nops. It walks the instructions in order and flags the registers that hold
an address of the page.

A register is unflagged by `lui`, by the moves that the walk follows and by a replaced load. Any
other instruction, an ordinary load among them, leaves the flag of the register that it
overwrites. A later access through that register is replaced although it is an ordinary one.
-/

namespace NoMercyRecomp.GenMmioPatches

open TextScan

/-! ## The disassembly -/

/-- Eight hexadecimal digits and what follows. -/
def eightHex (text : Line) : Option (Nat × Line) :=
  if (text.take 8).length = 8 ∧
    (text.take 8).all isHex then some (value 16 (text.take 8), text.drop 8) else none

/-- `INSN_RE`: the address and the word of an instruction. -/
def insnRe (line : Line) : Option (Nat × Nat) := do
  let rest ← lit (str "/* ") (line.dropWhile isSpace)
  let afterRom ← if rest.takeWhile isHex = [] then none else lit [' '] (rest.dropWhile isHex)
  let (vram, afterVram) ← eightHex afterRom
  let (w, afterWord) ← (lit [' '] afterVram).bind eightHex
  let _ ← lit (str " */") afterWord
  some (vram, w)

/-- The loop of `body` over the lines of all files; the flag says that the label was seen. -/
def bodyFrom (func : Line) : Bool → List Line → List (Nat × Nat)
  | _, [] => []
  | on, line :: rest =>
    if (lit (str "glabel " ++ func) line).isSome then bodyFrom func true rest
    else if on && ((lit (str "endlabel") line).isSome || (lit (str "glabel ") line).isSome) then []
    else if on then (insnRe line).toList ++ bodyFrom func on rest
    else bodyFrom func on rest

/-- `body`: the instructions of a function. -/
def body (files : List (List Line)) (func : Line) : List (Nat × Nat) :=
  bodyFrom func false files.flatten

/-! ## The walk -/

def op (w : Nat) : Nat := w >>> 26
def rs (w : Nat) : Nat := (w >>> 21) &&& 31
def rt (w : Nat) : Nat := (w >>> 16) &&& 31
def rd (w : Nat) : Nat := (w >>> 11) &&& 31
def funct (w : Nat) : Nat := w &&& 0x3F
def imm (w : Nat) : Nat := w &&& 0xFFFF

/-- `mmio_regs`: the registers with an entry, and their flags. -/
abbrev Flags := Nat → Option Bool

/-- `mmio_regs.get(r, False)` -/
def Flags.get (flags : Flags) (r : Nat) : Bool := (flags r).getD false

/-- `mmio_regs[r] = flag` -/
def Flags.set (flags : Flags) (r : Nat) (flag : Bool) : Flags := Function.update flags r (some flag)

/-- One entry of `patches`. -/
structure Patch where
  vram : Nat
  val : Nat
  why : Line
deriving DecidableEq, Repr

/-- `lw r…,(…) MMIO -> move r…, zero` -/
def loadWhy (w : Nat) : Line :=
  str "lw r" ++ (decimal (rt w) ++
    (str ",(0x" ++ ((hex (imm w)).map Char.toLower ++ (str ") MMIO -> move r" ++
    (decimal (rt w) ++ str ", zero")))))

/-- One turn of the loop over the instructions. -/
def turn (flags : Flags) (vram w : Nat) : Flags × List Patch :=
  if op w = 0x0F then (flags.set (rt w) (decide (0xA400 ≤ imm w ∧ imm w ≤ 0xA4FF)), [])
  else if op w = 0x0D ∧ (flags (rs w)).isSome then (flags.set (rt w) (flags.get (rs w)), [])
  else if op w ∈ [0x23, 0x24, 0x25, 0x27] then
    if flags.get (rs w) then (flags.set (rt w) false,
      [⟨vram, 0x00000021 ||| (rt w <<< 11), loadWhy w⟩]) else (flags, [])
  else if op w ∈ [0x2B, 0x28, 0x29] then
    if flags.get (rs w) then (flags, [⟨vram, 0x00000000, str "sw MMIO -> nop"⟩]) else (flags, [])
  else if op w ∈ [0x08, 0x09] ∧ (flags (rs w)).isSome then (flags.set (rt w) (flags.get (rs w)), [])
  else if op w = 0 ∧ funct w ∈ [0x21, 0x20] then
    (flags.set (rd w) (flags.get (rs w) || flags.get (rt w)), [])
  else (flags, [])

/-- The patches of the instructions behind the given flags. -/
def patchesFrom : Flags → List (Nat × Nat) → List Patch
  | _, [] => []
  | flags, (vram, w) :: rest => (turn flags vram w).2 ++ patchesFrom (turn flags vram w).1 rest

/-- `patches` -/
def patches (insns : List (Nat × Nat)) : List Patch := patchesFrom (fun _ => none) insns

/-- The block of one patch in `nomercy.toml`. -/
def block (func : Line) (patch : Patch) : Line :=
  str "# " ++ (func ++
    (str ": " ++ (patch.why ++ (str "\n[[patches.instruction]]\nfunc = \"" ++ (func ++
    (str "\"\nvram = 0x" ++
      (hex8 patch.vram ++ (str "\nvalue = 0x" ++ (hex8 patch.val ++ ['\n'])))))))))

/-- `gen`: the blocks of a function. One that is not found has none. -/
def gen (files : List (List Line)) (func : Line) : List Line :=
  (patches (body files func)).map (block func)

/-! ## The instructions -/

/-- The low words of the registers. -/
abbrev Regs := Nat → BitVec 32

/-- A register as it is read: `$zero` holds nothing. -/
def read (regs : Regs) (r : Nat) : BitVec 32 := if r = 0 then 0 else regs r

def write (regs : Regs) (r : Nat) (v : BitVec 32) : Regs := Function.update regs r v

/-- The general register that an instruction overwrites: `rd` of the register operations, `rt` of
the immediate operations, of the loads, of the moves from the coprocessors and of `sc` and `scd`,
`$ra` of the calls. -/
def destination (w : Nat) : Option Nat :=
  if op w = 0 then
    if funct w ∈ [0x00, 0x02, 0x03, 0x04, 0x06, 0x07, 0x09, 0x10, 0x12, 0x14, 0x16, 0x17, 0x20,
      0x21, 0x22, 0x23, 0x24, 0x25,
      0x26, 0x27, 0x2A, 0x2B, 0x2C, 0x2D, 0x2E, 0x2F, 0x38, 0x3A, 0x3B, 0x3C, 0x3E,
      0x3F] then some (rd w) else none
  else if op w = 1 then if rt w ∈ [0x10, 0x11, 0x12, 0x13] then some 31 else none
  else if op w = 3 then some 31
  else if op w ∈ [0x10, 0x11, 0x12] then if rs w ∈ [0, 1, 2] then some (rt w) else none
  else if op w ∈ [0x08, 0x09, 0x0A, 0x0B, 0x0C, 0x0D, 0x0E, 0x0F, 0x18, 0x19, 0x1A, 0x1B, 0x20,
    0x21, 0x22, 0x23, 0x24, 0x25, 0x26, 0x27, 0x30, 0x34, 0x37, 0x38, 0x3C] then some (rt w)
  else none

/-- The immediate with its sign. -/
def simm (w : Nat) : BitVec 32 := (BitVec.ofNat 16 (imm w)).signExtend 32

/-- What an instruction leaves in the register that it overwrites. A load leaves what the memory
holds, and what the instructions leave that the walk does not know is any word as well: `input`. -/
def result (w : Nat) (input : BitVec 32) (regs : Regs) : BitVec 32 :=
  if op w = 0x0F then BitVec.ofNat 32 (imm w <<< 16)
  else if op w = 0x0D then read regs (rs w) ||| BitVec.ofNat 32 (imm w)
  else if op w ∈ [0x08, 0x09] then read regs (rs w) + simm w
  else if op w = 0 ∧ funct w ∈ [0x21, 0x20] then read regs (rs w) + read regs (rt w)
  else input

/-- The execution of one instruction. -/
def exec (w : Nat) (input : BitVec 32) (regs : Regs) : Regs :=
  match destination w with
  | some r => write regs r (result w input regs)
  | none => regs

/-- The device page. -/
def Page (address : BitVec 32) : Prop := 0xA4000000 ≤ address.toNat ∧ address.toNat ≤ 0xA4FFFFFF

instance : DecidablePred Page := fun address =>
  inferInstanceAs (Decidable (0xA4000000 ≤ address.toNat ∧ address.toNat ≤ 0xA4FFFFFF))

/-- The loads into general registers. -/
def IsLoad (w : Nat) : Prop :=
  op w ∈ [0x1A, 0x1B, 0x20, 0x21, 0x22, 0x23, 0x24, 0x25, 0x26, 0x27, 0x30, 0x34, 0x37]

/-- The stores of general registers. -/
def IsStore (w : Nat) : Prop := op w ∈ [0x28, 0x29, 0x2A, 0x2B, 0x2C, 0x2D, 0x2E, 0x38, 0x3C, 0x3F]

/-! ## Runs of a body -/

/-- An instruction of a run with the flags and the registers in front of it. -/
structure Step where
  flags : Flags
  regs : Regs
  vram : Nat
  w : Nat

/-- The walk and an execution of the same instructions side by side. -/
def steps (inputs : Nat → BitVec 32) : Nat → Flags → Regs → List (Nat × Nat) → List Step
  | _, _, _, [] => []
  | n, flags, regs, (vram, w) :: rest =>
    ⟨flags, regs, vram, w⟩ :: steps inputs (n + 1) (turn flags vram w).1
      (exec w (inputs n) regs) rest

/-- A run of a body from its first instruction. -/
def run (insns : List (Nat × Nat)) (regs : Regs) (inputs : Nat → BitVec 32) : List Step :=
  steps inputs 0 (fun _ => none) regs insns

/-- The patches of one instruction of a run. -/
def Step.patches (step : Step) : List Patch := (turn step.flags step.vram step.w).2

/-- A patch replaces an access to the device page, and a load by a move of zero into the same
register. -/
structure Neuters (patch : Patch) (step : Step) : Prop where
  place : patch.vram = step.vram
  access : IsLoad step.w ∨ IsStore step.w
  device : Page (read step.regs (rs step.w))
  load : IsLoad step.w → ∀ input regs r,
    read (exec patch.val input regs) r = if r = rt step.w then 0 else read regs r
  store : IsStore step.w → ∀ input regs r, read (exec patch.val input regs) r = read regs r

/-- In this run the patches of the body only neuter device accesses. -/
structure OnlyDevices (insns : List (Nat × Nat)) (regs : Regs) (inputs : Nat → BitVec 32) :
    Prop where
  replaced : patches insns = (run insns regs inputs).flatMap Step.patches
  neuters : ∀ step ∈ run insns regs inputs, ∀ patch ∈ step.patches, Neuters patch step

/-- The instruction keeps the flags right. A flag does not go to `$zero`, a sum with a flagged
register stays in the page, and a result that the walk does not follow overwrites a flagged
register only with an address of the page, whatever the memory holds. -/
def Step.Keeps (step : Step) : Prop :=
  let (flags, regs, w) := (step.flags, step.regs, step.w)
  if op w = 0x0F then 0xA400 ≤ imm w ∧ imm w ≤ 0xA4FF → rt w ≠ 0
  else if op w = 0x0D ∧ (flags (rs w)).isSome then flags.get (rs w) = true → rt w ≠ 0
  else if op w ∈ [0x23, 0x24, 0x25, 0x27] ∧ flags.get (rs w) = true then True
  else if op w ∈ [0x08, 0x09] ∧ (flags (rs w)).isSome then
    flags.get (rs w) = true → rt w ≠ 0 ∧ Page (read regs (rs w) + simm w)
  else if op w = 0 ∧ funct w ∈ [0x21, 0x20] then
    (flags.get (rs w) || flags.get (rt w)) = true → rd w ≠ 0 ∧
      Page (read regs (rs w) + read regs (rt w))
  else ∀ r ∈ destination w, flags.get r = true → ∀ input, Page (result w input regs)

/-! ## Flags and registers -/

/-- Every flagged register holds an address of the page. -/
def Right (flags : Flags) (regs : Regs) : Prop := ∀ r, flags.get r = true → Page (read regs r)

/-- A flag that is set is read back, and the others stay. -/
theorem Flags.get_set (flags : Flags) (r other : Nat) (flag : Bool) :
    (flags.set r flag).get other = if other = r then flag else flags.get other := by
  by_cases same : other = r
  · subst same
    simp [Flags.get, Flags.set]
  · simp [Flags.get, Flags.set, same]

/-- A register that is written is read back, the zero register apart, and the others stay. -/
theorem read_write (regs : Regs) (r other : Nat) (v : BitVec 32) :
    read (write regs r v) other = if other = 0 then 0 else if other = r then v
      else read regs other := by
  by_cases zero : other = 0
  · simp [read, zero]
  · by_cases same : other = r
    · subst same
      simp [read, write, zero]
    · simp [read, write, zero, same]

/-- A flag is set together with its register, and rightly so exactly when the register is not the
zero register, which drops what is written, and the value is a page of devices. -/
theorem right_set {flags : Flags} {regs : Regs} (right : Right flags regs) (r : Nat) (flag : Bool)
    (v : BitVec 32) :
    Right (flags.set r flag) (write regs r v) ↔ (flag = true → r ≠ 0 ∧ Page v) := by
  have zero : ¬ Page 0 := by decide
  constructor
  · intro after flagged
    have page := after r (by rw [Flags.get_set, if_pos rfl, flagged])
    rw [read_write, if_pos rfl] at page
    by_cases isZero : r = 0
    · rw [if_pos isZero] at page
      exact absurd page zero
    · rw [if_neg isZero] at page
      exact ⟨isZero, page⟩
  · intro new other flagged
    rw [Flags.get_set] at flagged
    rw [read_write]
    by_cases same : other = r
    · rw [if_pos same] at flagged
      obtain ⟨nonzero, page⟩ := new flagged
      rw [if_neg (same.trans_ne nonzero), if_pos same]
      exact page
    · rw [if_neg same] at flagged
      have page := right other flagged
      rw [if_neg same]
      by_cases isZero : other = 0
      · rw [read, if_pos isZero] at page
        exact absurd page zero
      · rw [if_neg isZero]
        exact page

/-- A register with a stale flag must hold an address of the page again. Writing alone is setting
the flag that is there, so this is a case of `right_set`. -/
theorem right_write {flags : Flags} {regs : Regs} (right : Right flags regs) (r : Nat)
    (v : BitVec 32) :
    Right flags (write regs r v) ↔ (flags.get r = true → Page v) := by
  have same : flags.get = (flags.set r (flags.get r)).get := by
    funext other
    rw [Flags.get_set]
    split
    · rename_i here
      rw [here]
    · rfl
  have set : Right flags (write regs r v) ↔ Right (flags.set r (flags.get r)) (write regs r v) := by
    rw [Right, Right, ← same]
  have nonzero : flags.get r = true → r ≠ 0 := by
    intro flagged isZero
    have page := right r flagged
    rw [read, if_pos isZero] at page
    exact absurd page (by decide)
  rw [set, right_set right]
  exact forall_congr' (fun flagged => and_iff_right (nonzero flagged))

/-- An address of the device page is one with the page's upper byte. -/
theorem page_iff (address : BitVec 32) : Page address ↔ address >>> 24 = 0xA4#32 := by
  rw [Page, ← BitVec.toNat_inj, BitVec.toNat_ushiftRight, Nat.shiftRight_eq_div_pow]
  simp only [BitVec.toNat_ofNat]
  omega

/-- An immediate has sixteen bits. -/
theorem imm_lt (w : Nat) : imm w < 2 ^ 16 := by
  have bound : imm w ≤ 0xFFFF := Nat.and_le_right
  omega

/-- `lui` of a page number leaves an address of the page. -/
theorem page_lui (w : Nat) (number : 0xA400 ≤ imm w ∧ imm w ≤ 0xA4FF) :
    Page (BitVec.ofNat 32 (imm w <<< 16)) := by
  rw [Page, BitVec.toNat_ofNat, Nat.shiftLeft_eq]
  omega

/-- `ori` stays in the page. -/
theorem page_ori (w : Nat) (address : BitVec 32) (page : Page address) :
    Page (address ||| BitVec.ofNat 32 (imm w)) := by
  have small := imm_lt w
  have low : BitVec.ofNat 32 (imm w) >>> 24 = 0#32 := by
    rw [← BitVec.toNat_inj, BitVec.toNat_ushiftRight, Nat.shiftRight_eq_div_pow]
    simp only [BitVec.toNat_ofNat]
    omega
  rw [page_iff] at page ⊢
  rw [BitVec.ushiftRight_or_distrib, page, low]
  rfl

/-- An addition writes the register of its third field. -/
theorem destination_add (w : Nat) (special : op w = 0) (kind : funct w ∈ [0x21, 0x20]) :
    destination w = some (rd w) := by
  simp only [List.mem_cons, List.not_mem_nil, or_false] at kind
  rcases kind with known | known <;> simp [destination, special, known]

/-! ## One step -/

section Turn

variable {flags : Flags} {regs : Regs} (vram w : Nat) (right : Right flags regs)
include right

/-- A result that the walk follows: the flag goes to the register that is overwritten. -/
theorem right_followed (r : Nat) (flag : Bool) (v : BitVec 32)
    (set : (turn flags vram w).1 = flags.set r flag)
    (target : destination w = some r) (made : ∀ input, result w input regs = v) :
    (∀ input, Right (turn flags vram w).1 (exec w input regs)) ↔
    (flag = true → r ≠ 0 ∧ Page v) := by
  simp only [set, exec, target, made, right_set right, forall_const]

/-- A `lui` of a device address flags its register; it keeps the flags right unless that is the
zero register, which holds no address. -/
theorem right_lui (kind : op w = 0x0F) :
    (∀ input, Right (turn flags vram w).1 (exec w input regs)) ↔
    (⟨flags, regs, vram, w⟩ : Step).Keeps := by
  have keeps : (⟨flags, regs, vram, w⟩ : Step).Keeps ↔
      (0xA400 ≤ imm w ∧ imm w ≤ 0xA4FF → rt w ≠ 0) := by
    rw [Step.Keeps, if_pos kind]
  rw [keeps, right_followed vram w right (rt w)
    (decide (0xA400 ≤ imm w ∧ imm w ≤ 0xA4FF)) (BitVec.ofNat 32 (imm w <<< 16))
    (by rw [turn, if_pos kind])
      (by simp [destination, kind]) (fun _ => by rw [result, if_pos kind]), decide_eq_true_iff]
  exact forall_congr' (fun page => and_iff_left (page_lui w page))

/-- An `ori` hands the flag of its source on, and lower bits do not leave the page. -/
theorem right_ori (kind : op w = 0x0D) (entry : (flags (rs w)).isSome = true) :
    (∀ input, Right (turn flags vram w).1 (exec w input regs)) ↔
    (⟨flags, regs, vram, w⟩ : Step).Keeps := by
  have keeps : (⟨flags, regs, vram, w⟩ : Step).Keeps ↔ (flags.get (rs w) = true → rt w ≠ 0) := by
    simp [Step.Keeps, kind, entry]
  rw [keeps, right_followed vram w right (rt w) (flags.get (rs w))
    (read regs (rs w) ||| BitVec.ofNat 32 (imm w))
    (by simp [turn, kind, entry]) (by simp [destination, kind]) (fun _ => by simp [result, kind])]
  exact forall_congr' (fun flagged => and_iff_left (page_ori w _ (right (rs w) flagged)))

/-- An addition of an immediate hands the flag of its source on, and stays right while the sum is
in the page. -/
theorem right_addi (kind : op w = 0x08 ∨ op w = 0x09) (entry : (flags (rs w)).isSome = true) :
    (∀ input, Right (turn flags vram w).1 (exec w input regs)) ↔
    (⟨flags, regs, vram, w⟩ : Step).Keeps := by
  have keeps : (⟨flags, regs, vram, w⟩ : Step).Keeps ↔
      (flags.get (rs w) = true → rt w ≠ 0 ∧ Page (read regs (rs w) + simm w)) := by
    rcases kind with known | known <;> simp [Step.Keeps, known, entry]
  rw [keeps]
  refine right_followed vram w right (rt w) (flags.get (rs w)) (read regs (rs w) + simm w) ?_ ?_ ?_
  · rcases kind with known | known <;> simp [turn, known, entry]
  · rcases kind with known | known <;> simp [destination, known]
  · rcases kind with known | known <;> simp [result, known]

/-- An addition of registers flags its destination when one of them is flagged, and stays right
while the sum is in the page. -/
theorem right_add (special : op w = 0) (kind : funct w ∈ [0x21, 0x20]) :
    (∀ input, Right (turn flags vram w).1 (exec w input regs)) ↔
    (⟨flags, regs, vram, w⟩ : Step).Keeps := by
  have keeps : (⟨flags, regs, vram, w⟩ : Step).Keeps ↔
      ((flags.get (rs w) || flags.get (rt w)) = true → rd w ≠ 0 ∧
        Page (read regs (rs w) + read regs (rt w))) := by
    simp [Step.Keeps, special, kind]
  rw [keeps]
  refine right_followed vram w right (rd w) (flags.get (rs w) || flags.get (rt w))
    (read regs (rs w) + read regs (rt w))
    ?_ (destination_add w special kind) ?_
  · simp [turn, special, kind]
  · simp [result, special, kind]

/-- A result that the walk does not follow. -/
theorem right_unfollowed (same : (turn flags vram w).1 = flags) :
    (∀ input, Right (turn flags vram w).1 (exec w input regs)) ↔
      ∀ r ∈ destination w, flags.get r = true → ∀ input, Page (result w input regs) := by
  rw [same]
  cases target : destination w with
  | none => simp [exec, target, right]
  | some r =>
    simp only [exec, target, right_write right, Option.mem_some_iff, forall_eq']
    exact forall_comm

/-- A load from memory leaves the flag of its register as it was, so it keeps the flags right
exactly when that register was not flagged, or is loaded with a device address. A load from a
device takes the flag away. -/
theorem right_load (kind : op w ∈ [0x23, 0x24, 0x25, 0x27]) :
    (∀ input, Right (turn flags vram w).1 (exec w input regs)) ↔
    (⟨flags, regs, vram, w⟩ : Step).Keeps := by
  have codes : op w = 0x23 ∨ op w = 0x24 ∨ op w = 0x25 ∨ op w = 0x27 := by simpa using kind
  have target : destination w = some (rt w) := by
    rcases codes with known | known | known | known <;> simp [destination, known]
  by_cases flagged : flags.get (rs w) = true
  · have keeps : (⟨flags, regs, vram, w⟩ : Step).Keeps := by
      rcases codes with known | known | known | known <;> simp [Step.Keeps, known, flagged]
    have set : (turn flags vram w).1 = flags.set (rt w) false := by
      rcases codes with known | known | known | known <;> simp [turn, known, flagged]
    exact iff_of_true (fun input => by simp [set, exec, target, right_set right]) keeps
  · have keeps : (⟨flags, regs, vram, w⟩ : Step).Keeps ↔
        ∀ r ∈ destination w, flags.get r = true → ∀ input, Page (result w input regs) := by
      rcases codes with known | known | known | known <;> simp [Step.Keeps, known, flagged]
    have same : (turn flags vram w).1 = flags := by
      rcases codes with known | known | known | known <;> simp [turn, known, flagged]
    rw [keeps, right_unfollowed vram w right same]

/-- An instruction leaves right flags right, whatever the memory holds, exactly when it keeps
them. -/
theorem turn_right :
    (∀ input, Right (turn flags vram w).1 (exec w input regs)) ↔
    (⟨flags, regs, vram, w⟩ : Step).Keeps := by
  by_cases lui : op w = 0x0F
  · exact right_lui vram w right lui
  by_cases ori : op w = 0x0D ∧ (flags (rs w)).isSome = true
  · exact right_ori vram w right ori.1 ori.2
  by_cases load : op w ∈ [0x23, 0x24, 0x25, 0x27]
  · exact right_load vram w right load
  by_cases addi : op w ∈ [0x08, 0x09] ∧ (flags (rs w)).isSome = true
  · exact right_addi vram w right (List.mem_pair.mp addi.1) addi.2
  by_cases add : op w = 0 ∧ funct w ∈ [0x21, 0x20]
  · exact right_add vram w right add.1 add.2
  · have same : (turn flags vram w).1 = flags := by
      rw [turn, if_neg lui, if_neg ori, if_neg load, if_neg addi, if_neg add]
      split
      · split <;> rfl
      · rfl
    have keeps : (⟨flags, regs, vram, w⟩ : Step).Keeps ↔
        ∀ r ∈ destination w, flags.get r = true → ∀ input, Page (result w input regs) := by
      simp only [Step.Keeps, if_neg lui, if_neg ori, if_neg addi, if_neg add]
      rw [if_neg (fun known => load known.1)]
    rw [keeps, right_unfollowed vram w right same]

end Turn

/-! ## Patches -/

/-- A field of a register has five bits. -/
theorem fields_lt (w : Nat) : rt w < 32 := Nat.lt_succ_of_le Nat.and_le_right

/-- The patch of a load is a move of zero: it decodes to an addition of two zero registers into
the load's own target. -/
theorem exec_move (r : Nat) (bound : r < 32) (input : BitVec 32) (regs : Regs) (other : Nat) :
    read (exec (0x00000021 ||| (r <<< 11)) input regs) other = if other = r then 0
      else read regs other := by
  have decoded : ∀ r < 32, op (0x00000021 ||| (r <<< 11)) = 0 ∧
      funct (0x00000021 ||| (r <<< 11)) = 0x21 ∧
      rs (0x00000021 ||| (r <<< 11)) = 0 ∧ rt (0x00000021 ||| (r <<< 11)) = 0 ∧
      rd (0x00000021 ||| (r <<< 11)) = r := by
    decide
  obtain ⟨special, function, first, second, target⟩ := decoded r bound
  have moved : result (0x00000021 ||| (r <<< 11)) input regs = 0 := by
    simp [result, special, function, first, second, read]
  rw [exec, destination_add _ special (by simp [function]), target, moved]
  dsimp only
  rw [read_write]
  by_cases zero : other = 0
  · simp [read, zero]
  · rw [if_neg zero]

/-- The patch of a store does nothing. -/
theorem exec_nop (input : BitVec 32) (regs : Regs) (other : Nat) :
    read (exec 0 input regs) other = read regs other := by
  have decoded : destination 0 = some 0 := by decide
  rw [exec, decoded]
  dsimp only
  rw [read_write]
  by_cases zero : other = 0
  · simp [read, zero]
  · simp [zero]

/-- What the walk replaces, and by what: a load through a flagged base becomes a clearing of its
register, and a store a no-op. By the branches of the walk, in their order. -/
theorem turn_emits (flags : Flags) (vram w : Nat) (patch : Patch)
    (emitted : patch ∈ (turn flags vram w).2) :
    flags.get (rs w) = true ∧
      (op w ∈ [0x23, 0x24, 0x25, 0x27] ∧ patch = ⟨vram, 0x00000021 ||| (rt w <<< 11), loadWhy w⟩ ∨
        op w ∈ [0x2B, 0x28, 0x29] ∧ patch = ⟨vram, 0x00000000, str "sw MMIO -> nop"⟩) := by
  rw [turn] at emitted
  split at emitted
  · cases emitted
  split at emitted
  · cases emitted
  split at emitted
  · rename_i load
    split at emitted
    · rename_i flagged
      exact ⟨flagged, Or.inl ⟨load, List.mem_singleton.mp emitted⟩⟩
    · cases emitted
  split at emitted
  · rename_i store
    split at emitted
    · rename_i flagged
      exact ⟨flagged, Or.inr ⟨store, List.mem_singleton.mp emitted⟩⟩
    · cases emitted
  split at emitted
  · cases emitted
  split at emitted
  · cases emitted
  · cases emitted

/-- Where the flags are right, a patch neuters a device access: a load through a page of devices
leaves zero, and a store there does nothing. -/
theorem patch_neuters (step : Step) (right : Right step.flags step.regs) (patch : Patch)
    (emitted : patch ∈ step.patches) :
    Neuters patch step := by
  obtain ⟨flagged, ⟨load, rfl⟩ | ⟨store, rfl⟩⟩ := turn_emits _ _ _ _ emitted
  · have codes : op step.w = 0x23 ∨ op step.w = 0x24 ∨ op step.w = 0x25 ∨ op step.w = 0x27 := by
      simpa using load
    have isLoad : IsLoad step.w := by
      rcases codes with known | known | known | known <;> simp [IsLoad, known]
    have noStore : ¬ IsStore step.w := by
      rcases codes with known | known | known | known <;> simp [IsStore, known]
    refine ⟨rfl, Or.inl isLoad, right _ flagged, fun _ input regs r => ?_,
      fun store => absurd store noStore⟩
    exact exec_move (rt step.w) (fields_lt step.w) input regs r
  · have codes : op step.w = 0x2B ∨ op step.w = 0x28 ∨ op step.w = 0x29 := by simpa using store
    have isStore : IsStore step.w := by
      rcases codes with known | known | known <;> simp [IsStore, known]
    have noLoad : ¬ IsLoad step.w := by
      rcases codes with known | known | known <;> simp [IsLoad, known]
    exact ⟨rfl, Or.inr isStore, right _ flagged, fun load => absurd load noLoad, fun _ => exec_nop⟩

/-! ## Runs -/

/-- The patches do not depend on the execution. -/
theorem patchesFrom_steps (inputs : Nat → BitVec 32) (n : Nat) (flags : Flags) (regs : Regs)
    (insns : List (Nat × Nat)) :
    patchesFrom flags insns = (steps inputs n flags regs insns).flatMap Step.patches := by
  induction insns generalizing n flags regs with
  | nil => rfl
  | cons insn rest inductionHypothesis =>
    obtain ⟨vram, w⟩ := insn
    rw [patchesFrom, steps, List.flatMap_cons, ← inductionHypothesis]
    rfl

/-- In a run whose instructions all keep the flags right they are right at every step. -/
theorem steps_right (inputs : Nat → BitVec 32) (n : Nat) (flags : Flags) (regs : Regs)
    (insns : List (Nat × Nat))
    (right : Right flags regs) (keeps : ∀ step ∈ steps inputs n flags regs insns, step.Keeps) :
    ∀ step ∈ steps inputs n flags regs insns, Right step.flags step.regs := by
  induction insns generalizing n flags regs with
  | nil => simp [steps]
  | cons insn rest inductionHypothesis =>
    obtain ⟨vram, w⟩ := insn
    rw [steps] at keeps ⊢
    obtain ⟨here, later⟩ := List.forall_mem_cons.mp keeps
    refine List.forall_mem_cons.mpr ⟨right, ?_⟩
    exact inductionHypothesis (n + 1) _ _ ((turn_right vram w right).mpr here (inputs n)) later

/-- In a run whose instructions all keep the flags right the patches only neuter device accesses.
Flags are right at the start, when nothing is flagged, and by induction on the run at every step;
an instruction that is patched accesses memory through a flagged register, whose address is a
device's. -/
theorem patches_onlyDevices (insns : List (Nat × Nat)) (regs : Regs) (inputs : Nat → BitVec 32)
    (keeps : ∀ step ∈ run insns regs inputs, step.Keeps) : OnlyDevices insns regs inputs := by
  have start : Right (fun _ => none) regs := fun r flagged => nomatch flagged
  refine ⟨patchesFrom_steps inputs 0 _ regs insns, fun step member patch emitted => ?_⟩
  exact patch_neuters step (steps_right inputs 0 _ regs insns start keeps step member) patch emitted

/-- `lui v0, 0xA460`, `ori v0, v0, 0x10`, `lw v1, 0(v0)`, `sw zero, 0(v0)`. -/
def deviceBody : List (Nat × Nat) :=
  [(0x80001000, 0x3C02A460), (0x80001004, 0x34420010), (0x80001008, 0x8C430000),
    (0x8000100C, 0xAC400000)]

/-- A store through a device register alone is taken out: every step of the body keeps its flags
right. -/
theorem deviceBody_onlyDevices : OnlyDevices deviceBody (fun _ => 0) (fun _ => 5) := by
  apply patches_onlyDevices
  simp only [run, steps, deviceBody, List.forall_mem_cons, List.not_mem_nil, false_implies,
    implies_true, and_true]
  refine ⟨?_, ?_, ?_, ?_⟩
  · rw [Step.Keeps]
    decide
  · rw [Step.Keeps]
    decide
  · rw [Step.Keeps]
    decide
  · rw [Step.Keeps]
    intro r target
    cases target

/-- `lui v0, 0xA460`, `lw v0, 0(a0)`, `sw v1, 0(v0)`: the load overwrites the device address. -/
def staleBody : List (Nat × Nat) :=
  [(0x80001000, 0x3C02A460), (0x80001004, 0x8C820000), (0x80001008, 0xAC430000)]

/-- The store to ordinary memory is replaced by a nop. -/
theorem staleBody_replaced : patches staleBody = [⟨0x80001008, 0, str "sw MMIO -> nop"⟩] ∧
    ¬ OnlyDevices staleBody (fun _ => 0) (fun _ => 0x80200000#32) := by
  refine ⟨by decide, fun only => ?_⟩
  have bound : 2 < (run staleBody (fun _ => 0) (fun _ => 0x80200000#32)).length := by decide
  have device :=
    (only.neuters _ (List.getElem_mem bound)
      ⟨0x80001008, 0, str "sw MMIO -> nop"⟩ (by decide +revert)).device
  clear only
  exact absurd device (by decide +revert)

end NoMercyRecomp.GenMmioPatches
