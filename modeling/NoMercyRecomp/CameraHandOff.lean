import NoMercyRecomp.ByteMemory
import NoMercyRecomp.CameraMatrix

/-!
# The camera hand-off

Every matrix multiply into the camera matrix latches the view and projection it reads.
Once a camera is latched, each emit writes a display-list fragment at the head: the
enable hook, the commands that set the two matrices, a branch past the inline matrices.

A walker of display lists reads the words back under the decoding that the source's
comments state. It executes the four commands and leaves the fragment without reading a
matrix word as a command. The game may rewrite the memory at any time in between: what is
emitted are the matrices latched, and the camera matrix as it stands at the emit.
-/

namespace NoMercyRecomp.CameraHandOff

open ByteMemory CameraMatrix

/-- `CAMERA_MATRIX`. -/
def cameraMatrix : UInt32 := 0x80062BA8

def rt64HookOpcode : UInt32 := 0xE0
def rt64HookMagic : UInt32 := 0x525464
def rt64HookOpEnable : UInt32 := 0x1
def rt64ExtendedOpcode : UInt32 := 0x64
def gExSetProjMatrixFloatV1 : UInt32 := 0x2D
def gExSetViewMatrixFloatV1 : UInt32 := 0x2E
def gbiGDl : UInt32 := 0xDE
def gDlNoPush : UInt32 := 0x01

/-- The offset of an address from the start of RDRAM, in 32 bits. -/
def place (vaddr : UInt32) : Nat := (vaddr - 0x80000000).toNat

/-- `rdram_word`, read. -/
def rdramWord (rdram : Memory) (vaddr : UInt32) : UInt32 := readWord rdram (place vaddr)

/-- The sixteen words from an address. -/
def wordsAt (rdram : Memory) (vaddr : UInt32) : Fin 16 → UInt32 :=
  fun i => rdramWord rdram (vaddr + UInt32.ofNat i.val * 4)

/-- The memory and the latch. -/
structure State where
  rdram : Memory
  cameraValid : Bool
  cameraView : Fin 16 → UInt32
  cameraProj : Fin 16 → UInt32

/-- `wcw_rt_latch_camera`. -/
def latchCamera (s : State) (projVaddr viewVaddr : UInt32) : State :=
  { s with
    cameraProj :=
    wordsAt s.rdram projVaddr, cameraView := wordsAt s.rdram viewVaddr, cameraValid := true }

/-- `wcw_rt_latch_camera_multiply`. -/
def latchCameraMultiply (s : State) (viewVaddr projVaddr destVaddr : UInt32) : State :=
  if destVaddr = cameraMatrix then latchCamera s projVaddr viewVaddr else s

/-- The words that an emit writes, in order: the two matrices word by word in turn, then
the commands. -/
def emission (view proj : Fin 16 → UInt32) (gfx : UInt32) : List (UInt32 × UInt32) :=
  let viewVaddr := gfx + 4 * 8
  let projVaddr := viewVaddr + 64
  let after := projVaddr + 64
  (List.finRange 16).flatMap (fun i : Fin 16 =>
    [(viewVaddr + UInt32.ofNat i.val * 4, view i), (projVaddr + UInt32.ofNat i.val * 4, proj i)]) ++
  [(gfx + 0x00, (rt64HookOpcode <<< 24) ||| rt64HookMagic),
   (gfx + 0x04, (rt64HookOpEnable <<< 28) ||| rt64ExtendedOpcode),
   (gfx + 0x08, (rt64ExtendedOpcode <<< 24) ||| gExSetViewMatrixFloatV1),
   (gfx + 0x0C, viewVaddr),
   (gfx + 0x10, (rt64ExtendedOpcode <<< 24) ||| gExSetProjMatrixFloatV1),
   (gfx + 0x14, projVaddr),
   (gfx + 0x18, (gbiGDl <<< 24) ||| (gDlNoPush <<< 16)),
   (gfx + 0x1C, after)]

/-- `wcw_rt_emit_camera`: the state after it, and the head it returns. -/
def emitCamera {F : Type} (f : Floats F) (s : State) (gfx : UInt32) : State × UInt32 :=
  if s.cameraValid = false then (s, gfx)
  else
    let view := viewWords f s.cameraView s.cameraProj (wordsAt s.rdram cameraMatrix)
    let writes := (emission view s.cameraProj gfx).map (fun write => (place write.1, write.2))
    ({ s with rdram := writeWords s.rdram writes }, gfx + 4 * 8 + 64 + 64)

/-- What happens in a run: the two calls, and the game's own writes to the memory. -/
inductive Event where
  | multiply (viewVaddr projVaddr destVaddr : UInt32)
  | emit (gfx : UInt32)
  | game (rdram : Memory)

/-- One event. -/
def Event.run {F : Type} (f : Floats F) (s : State) : Event → State
  | .multiply viewVaddr projVaddr destVaddr => latchCameraMultiply s viewVaddr projVaddr destVaddr
  | .emit gfx => (emitCamera f s gfx).1
  | .game rdram => { s with rdram := rdram }

/-- The state after some events. -/
def run {F : Type} (f : Floats F) (s : State) (events : List Event) : State :=
  events.foldl (Event.run f) s

/-- The state at the start: nothing is latched. -/
def start (rdram : Memory) : State where
  rdram := rdram
  cameraValid := false
  cameraView := fun _ => 0
  cameraProj := fun _ => 0

/-- The event is a multiply into the camera matrix. -/
def Event.Latches : Event → Prop
  | .multiply _ _ destVaddr => destVaddr = cameraMatrix
  | _ => False

/-! ## The walker -/

/-- What a walker executes. The matrix commands carry the address and the words there. -/
inductive Command where
  | enable (opcode : UInt32)
  | setView (vaddr : UInt32) (words : Fin 16 → UInt32)
  | setProj (vaddr : UInt32) (words : Fin 16 → UInt32)
  | branch (target : UInt32)
  | call (target : UInt32)
  | other (first second : UInt32)

/-- A walker: where it reads, the opcode of the extended commands once they are enabled,
and where the calls return to. -/
structure Walker where
  pc : UInt32
  extended : Option UInt32
  stack : List UInt32

/-- One command. The hook is an `E0` with the magic number, which the plain command does
not carry; the extended opcode counts only when it is enabled. -/
def Walker.step (rdram : Memory) (w : Walker) : Command × Walker :=
  let first := rdramWord rdram w.pc
  let second := rdramWord rdram (w.pc + 4)
  let next := { w with pc := w.pc + 8 }
  if first >>> 24 = rt64HookOpcode ∧ first &&& 0xFFFFFF = rt64HookMagic then
    if second >>> 28 = rt64HookOpEnable then
      (.enable (second &&& 0xFFFFFFF), { next with extended := some (second &&& 0xFFFFFFF) })
    else (.other first second, next)
  else if w.extended = some (first >>> 24) then
    if first &&& 0xFFFFFF = gExSetViewMatrixFloatV1 then
      (.setView second (wordsAt rdram second), next)
    else if first &&& 0xFFFFFF = gExSetProjMatrixFloatV1 then
      (.setProj second (wordsAt rdram second), next)
    else (.other first second, next)
  else if first >>> 24 = gbiGDl then
    if (first >>> 16) &&& 0xFF = gDlNoPush then (.branch second, { w with pc := second })
    else (.call second, { w with pc := second, stack := (w.pc + 8) :: w.stack })
  else (.other first second, next)

/-- Some commands: each with the address it is read at, and the walker after them. -/
def Walker.walk (rdram : Memory) : Nat → Walker → List (UInt32 × Command) × Walker
  | 0, w => ([], w)
  | count + 1, w =>
    let (command, next) := w.step rdram
    let (rest, last) := walk rdram count next
    ((w.pc, command) :: rest, last)

/-! ## The fragment -/

/-- The fragment lies in RDRAM. -/
structure Inside (gfx : UInt32) : Prop where
  low : 0x80000000 ≤ gfx.toNat
  high : gfx.toNat + 160 ≤ 0x80000000 + 8 * 1024 * 1024

/-- An emit of a latched camera, whose view and projection were read as `view` and `proj`:
only the fragment's bytes change, the head moves past it, and a walker at the head runs the
four commands and goes on at the new head. -/
structure Emits {F : Type} (f : Floats F) (s : State) (gfx : UInt32) (view proj : Fin 16 → UInt32) :
    Prop where
  head : (emitCamera f s gfx).2 = gfx + 160
  frame : ∀ i, i < place gfx ∨ place gfx + 160 ≤ i → (emitCamera f s gfx).1.rdram i = s.rdram i
  latch : (emitCamera f s gfx).1 = { s with rdram := (emitCamera f s gfx).1.rdram }
  commands : ∀ extended stack,
    Walker.walk (emitCamera f s gfx).1.rdram 4 ⟨gfx, extended, stack⟩ =
      ([(gfx, .enable rt64ExtendedOpcode),
        (gfx + 8, .setView (gfx + 32) (viewWords f view proj (wordsAt s.rdram cameraMatrix))),
        (gfx + 16, .setProj (gfx + 96) proj),
        (gfx + 24, .branch (gfx + 160))],
       ⟨gfx + 160, some rt64ExtendedOpcode, stack⟩)

/-- An address of the fragment. -/
theorem place_add (gfx k : UInt32) (inside : Inside gfx) (small : k.toNat ≤ 160) :
    place (gfx + k) = place gfx + k.toNat := by
  have low := inside.low
  have high := inside.high
  have sum : (gfx + k).toNat = gfx.toNat + k.toNat := by
    rw [UInt32.toNat_add, Nat.mod_eq_of_lt (by omega)]
  have base : (0x80000000 : UInt32).toNat = 0x80000000 := rfl
  have lowSum : (0x80000000 : UInt32) ≤ gfx + k := UInt32.le_iff_toNat_le.mpr (by omega)
  have lowGfx : (0x80000000 : UInt32) ≤ gfx := UInt32.le_iff_toNat_le.mpr (by omega)
  unfold place
  rw [UInt32.toNat_sub_of_le _ _ lowSum, UInt32.toNat_sub_of_le _ _ lowGfx]
  omega

/-- The offset of a word of an inline matrix. -/
theorem inline_toNat (base : UInt32) (small : base.toNat ≤ 96) (i : Fin 16) :
    (base + UInt32.ofNat i.val * 4).toNat = base.toNat + 4 * i.val := by
  have word : (UInt32.ofNat i.val * 4).toNat = 4 * i.val := by
    rw [UInt32.toNat_mul, UInt32.toNat_ofNat_of_lt' (by have := i.isLt; show i.val < 2 ^ 32; omega)]
    change i.val * 4 % 2 ^ 32 = _
    omega
  rw [UInt32.toNat_add, word]
  omega

/-- Where the words of an emission lie in the fragment. -/
def offsets : List Nat :=
  (List.finRange 16).flatMap (fun i : Fin 16 => [32 + 4 * i.val, 96 + 4 * i.val]) ++
    [0, 4, 8, 12, 16, 20, 24, 28]

/-- The words of an emission lie there: the inline matrices at their own offsets, an element each,
and the commands in front of them. -/
theorem emission_places (view proj : Fin 16 → UInt32) (gfx : UInt32) (inside : Inside gfx) :
    (emission view proj gfx).map (fun write => place write.1) = offsets.map (place gfx + ·) := by
  have inline (base : UInt32) (small : base.toNat ≤ 96) (i : Fin 16) :
      place (gfx + base + UInt32.ofNat i.val * 4) = place gfx + (base.toNat + 4 * i.val) := by
    have offset := inline_toNat base small i
    rw [UInt32.add_assoc, place_add gfx _ inside (by omega), offset]
  have after : gfx + 4 * 8 + 64 = gfx + 96 := UInt32.add_assoc gfx 32 64
  unfold emission offsets
  simp only [List.map_append, List.map_flatMap, List.map_cons, List.map_nil]
  congr 1
  · apply congrArg (List.flatMap · (List.finRange 16))
    funext i
    rw [after]
    exact congrArg₂ (fun first second => [first, second]) (inline 32 (by decide) i)
      (inline 96 (by decide) i)
  · rw [place_add gfx 0x00 inside (by decide), place_add gfx 0x04 inside (by decide),
      place_add gfx 0x08 inside (by decide),
      place_add gfx 0x0C inside (by decide), place_add gfx 0x10 inside (by decide),
      place_add gfx 0x14 inside (by decide),
      place_add gfx 0x18 inside (by decide), place_add gfx 0x1C inside (by decide)]
    rfl

/-- The words of an emission do not overlap. -/
theorem emission_apart (view proj : Fin 16 → UInt32) (gfx : UInt32) (inside : Inside gfx) :
    ((emission view proj gfx).map (fun write => (place write.1, write.2))).Pairwise
      (fun first second => Apart first.1 second.1) := by
  have apart : offsets.Pairwise Apart := by decide
  have moved : (offsets.map (place gfx + ·)).Pairwise Apart := by
    apply List.pairwise_map.mpr
    apply apart.imp
    intro first second separate
    unfold Apart at separate ⊢
    omega
  rw [← emission_places view proj gfx inside] at moved
  exact List.pairwise_map.mpr (List.pairwise_map.mp moved)

/-- Every word of an emission is read back. -/
theorem emission_read (rdram : Memory) (view proj : Fin 16 → UInt32) (gfx : UInt32)
    (inside : Inside gfx) (vaddr word : UInt32) (written : (vaddr, word) ∈ emission view proj gfx) :
    rdramWord (writeWords rdram
      ((emission view proj gfx).map (fun write => (place write.1, write.2)))) vaddr = word :=
  readWord_writeWords rdram _ (emission_apart view proj gfx inside) (place vaddr, word)
    (List.mem_map_of_mem (f := fun write : UInt32 × UInt32 => (place write.1, write.2)) written)

/-- A byte outside the fragment is not written: every word of the emission lies at one of its
offsets, all of which are within 160 bytes. -/
theorem emission_frame (rdram : Memory) (view proj : Fin 16 → UInt32) (gfx : UInt32)
    (inside : Inside gfx) (i : Nat) (outside : i < place gfx ∨ place gfx + 160 ≤ i) :
    writeWords rdram ((emission view proj gfx).map (fun write => (place write.1, write.2))) i =
      rdram i := by
  apply writeWords_outside
  intro write among
  have offset : write.1 ∈ offsets.map (place gfx + ·) := by
    rw [← emission_places view proj gfx inside]
    obtain ⟨source, written, rfl⟩ := List.mem_map.mp among
    exact List.mem_map_of_mem (f := fun write : UInt32 × UInt32 => place write.1) written
  obtain ⟨k, among, same⟩ := List.mem_map.mp offset
  have small : ∀ k ∈ offsets, k + 4 ≤ 160 := by decide
  have bound := small k among
  omega

/-! ## The four commands -/

/-- The hook enables the extended commands. -/
theorem step_enable (rdram : Memory) (w : Walker)
    (first : rdramWord rdram w.pc = (rt64HookOpcode <<< 24) ||| rt64HookMagic)
    (second : rdramWord rdram (w.pc + 4) = (rt64HookOpEnable <<< 28) ||| rt64ExtendedOpcode) :
    w.step rdram = (.enable rt64ExtendedOpcode,
      { w with pc := w.pc + 8, extended := some rt64ExtendedOpcode }) := by
  unfold Walker.step
  simp only [first, second]
  rfl

/-- An extended command sets the view. -/
theorem step_setView (rdram : Memory) (w : Walker) (vaddr : UInt32)
    (enabled : w.extended = some rt64ExtendedOpcode)
    (first : rdramWord rdram w.pc = (rt64ExtendedOpcode <<< 24) ||| gExSetViewMatrixFloatV1)
    (second : rdramWord rdram (w.pc + 4) = vaddr) :
    w.step rdram = (.setView vaddr (wordsAt rdram vaddr), { w with pc := w.pc + 8 }) := by
  unfold Walker.step
  simp only [first, second, enabled]
  rfl

/-- An extended command sets the projection. -/
theorem step_setProj (rdram : Memory) (w : Walker) (vaddr : UInt32)
    (enabled : w.extended = some rt64ExtendedOpcode)
    (first : rdramWord rdram w.pc = (rt64ExtendedOpcode <<< 24) ||| gExSetProjMatrixFloatV1)
    (second : rdramWord rdram (w.pc + 4) = vaddr) :
    w.step rdram = (.setProj vaddr (wordsAt rdram vaddr), { w with pc := w.pc + 8 }) := by
  unfold Walker.step
  simp only [first, second, enabled]
  rfl

/-- A branch without a return goes on at its target. -/
theorem step_branch (rdram : Memory) (w : Walker) (target : UInt32)
    (enabled : w.extended = some rt64ExtendedOpcode)
    (first : rdramWord rdram w.pc = (gbiGDl <<< 24) ||| (gDlNoPush <<< 16))
    (second : rdramWord rdram (w.pc + 4) = target) :
    w.step rdram = (.branch target, { w with pc := target }) := by
  unfold Walker.step
  simp only [first, second, enabled]
  rfl

/-- The matrices of an emission are read back, element by element, each from the word that was
written for it. -/
theorem emission_matrices (rdram : Memory) (view proj : Fin 16 → UInt32) (gfx : UInt32)
    (inside : Inside gfx) :
    wordsAt (writeWords rdram
      ((emission view proj gfx).map (fun write => (place write.1, write.2)))) (gfx + 32) = view ∧
      wordsAt (writeWords rdram ((emission view proj gfx).map
        (fun write => (place write.1, write.2)))) (gfx + 96) = proj := by
  have after : gfx + 4 * 8 + 64 = gfx + 96 := UInt32.add_assoc gfx 32 64
  constructor
  · funext i
    apply emission_read rdram view proj gfx inside
    apply List.mem_append_left
    exact List.mem_flatMap.mpr ⟨i, List.mem_finRange i, List.mem_cons_self⟩
  · funext i
    apply emission_read rdram view proj gfx inside
    apply List.mem_append_left
    refine List.mem_flatMap.mpr ⟨i, List.mem_finRange i, List.mem_cons_of_mem _ ?_⟩
    rw [after]
    exact List.mem_cons_self

/-- The commands of an emission, as a walker runs them: the two matrices are set from the words
behind the commands, and the branch leads behind the matrices. -/
theorem emission_walk (rdram : Memory) (view proj : Fin 16 → UInt32) (gfx : UInt32)
    (inside : Inside gfx) (extended : Option UInt32) (stack : List UInt32) :
    Walker.walk (writeWords rdram
      ((emission view proj gfx).map (fun write => (place write.1, write.2)))) 4
        ⟨gfx, extended, stack⟩ =
      ([(gfx, .enable rt64ExtendedOpcode), (gfx + 8, .setView (gfx + 32) view),
        (gfx + 16, .setProj (gfx + 96) proj),
        (gfx + 24, .branch (gfx + 160))], ⟨gfx + 160, some rt64ExtendedOpcode, stack⟩) := by
  have read (offset word : UInt32) (written : (gfx + offset, word) ∈ emission view proj gfx) :=
    emission_read rdram view proj gfx inside (gfx + offset) word written
  obtain ⟨views, projs⟩ := emission_matrices rdram view proj gfx inside
  generalize writeWords rdram
    ((emission view proj gfx).map (fun write => (place write.1, write.2))) = memory at *
  have projVaddr : gfx + 32 + 64 = gfx + 96 := UInt32.add_assoc gfx 32 64
  have after : gfx + 32 + 64 + 64 = gfx + 160 := by
    rw [projVaddr]
    exact UInt32.add_assoc gfx 96 64
  have header (offset word : UInt32)
      (among : (gfx + offset, word) ∈ (emission view proj gfx).drop 32) :=
    read offset word (List.mem_of_mem_drop among)
  have sum (first second third : UInt32) (total : first + second = third) :
      gfx + first + second = gfx + third := by
    rw [UInt32.add_assoc, total]
  have enable := step_enable memory ⟨gfx, extended, stack⟩
    (by simpa using header 0x00 _ (by simp [emission])) (header 0x04 _ (by simp [emission]))
  have setView := step_setView memory ⟨gfx + 8, some rt64ExtendedOpcode, stack⟩ (gfx + 32) rfl
    (header 0x08 _ (by simp [emission]))
    (by rw [sum 8 4 12 rfl]; exact header 0x0C _ (by simp [emission]))
  have setProj := step_setProj memory ⟨gfx + 16, some rt64ExtendedOpcode, stack⟩ (gfx + 96) rfl
    (header 0x10 _ (by simp [emission]))
    (by rw [sum 16 4 20 rfl]; exact header 0x14 _ (by simp [emission, projVaddr]))
  have branch := step_branch memory ⟨gfx + 24, some rt64ExtendedOpcode, stack⟩ (gfx + 160) rfl
    (header 0x18 _ (by simp [emission]))
    (by rw [sum 24 4 28 rfl]; exact header 0x1C _ (by simp [emission, after]))
  simp only [sum 8 8 16 rfl, sum 16 8 24 rfl, views, projs] at enable setView setProj branch
  simp only [Walker.walk, enable, setView, setProj, branch]

/-- An emit of a latched camera writes its fragment, moves the head behind it, and touches nothing
else; a walker runs it as the camera's matrices. -/
theorem emitCamera_emits {F : Type} (f : Floats F) (s : State) (gfx : UInt32) (inside : Inside gfx)
    (valid : s.cameraValid = true) : Emits f s gfx s.cameraView s.cameraProj := by
  have taken : emitCamera f s gfx =
      ({ s with rdram := writeWords s.rdram ((emission (viewWords f s.cameraView s.cameraProj
        (wordsAt s.rdram cameraMatrix)) s.cameraProj gfx).map (fun write => (place write.1,
        write.2))) }, gfx + 4 * 8 + 64 + 64) := if_neg (by simp [valid])
  have head : gfx + 4 * 8 + 64 + 64 = gfx + 160 := by
    rw [UInt32.add_assoc, UInt32.add_assoc]
    rfl
  constructor
  · rw [taken]
    exact head
  · intro i outside
    rw [taken]
    exact emission_frame s.rdram _ s.cameraProj gfx inside i outside
  · rw [taken]
  · intro extended stack
    rw [taken]
    exact emission_walk s.rdram _ s.cameraProj gfx inside extended stack

/-! ## Runs -/

/-- An event that is no multiply into the camera matrix keeps the latch. -/
theorem run_keeps {F : Type} (f : Floats F) (s : State) (event : Event) (other : ¬event.Latches) :
    event.run f s = { s with rdram := (event.run f s).rdram } := by
  cases event with
  | multiply viewVaddr projVaddr destVaddr =>
    have kept : latchCameraMultiply s viewVaddr projVaddr destVaddr = s := if_neg other
    simp only [Event.run, kept]
  | emit gfx =>
    simp only [Event.run, emitCamera]
    split <;> rfl
  | game rdram => rfl

/-- Events that are no multiplies into the camera matrix keep the latch. -/
theorem runs_keep {F : Type} (f : Floats F) (s : State) (events : List Event)
    (others : ∀ event ∈ events, ¬event.Latches) :
    run f s events = { s with rdram := (run f s events).rdram } := by
  induction events generalizing s with
  | nil => rfl
  | cons event rest inductionHypothesis =>
    have first := run_keeps f s event (others event List.mem_cons_self)
    have later := inductionHypothesis (event.run f s)
      (fun next among => others next (List.mem_cons_of_mem event among))
    change run f (event.run f s) rest = { s with rdram := (run f (event.run f s) rest).rdram }
    rw [later, first]

/-- Over every run from the start: before the first multiply into the camera matrix an emit does
nothing and returns the head; afterwards it emits the view derived from, and the projection read
by, the most recent one. Multiplies into other matrices, emits and the game's own writes keep what
is latched, so a run is cut at its last latch. -/
theorem handOff {F : Type} (f : Floats F) (rdram : Memory) (events : List Event) :
    ((∀ event ∈ events, ¬event.Latches) → ∀ gfx,
      emitCamera f (run f (start rdram) events) gfx = (run f (start rdram) events, gfx)) ∧
    ∀ before viewVaddr projVaddr later,
      events = before ++ .multiply viewVaddr projVaddr cameraMatrix :: later →
        (∀ event ∈ later, ¬event.Latches) →
        ∀ gfx, Inside gfx → Emits f (run f (start rdram) events) gfx
          (wordsAt (run f (start rdram) before).rdram viewVaddr)
            (wordsAt (run f (start rdram) before).rdram projVaddr) := by
  constructor
  · intro none gfx
    have kept := runs_keep f (start rdram) events none
    have invalid : (run f (start rdram) events).cameraValid = false := by
      rw [kept]
      rfl
    exact if_pos invalid
  · intro before viewVaddr projVaddr later parts others gfx inside
    have latched : run f (start rdram) events =
        run f (latchCamera (run f (start rdram) before) projVaddr viewVaddr) later := by
      rw [parts]
      unfold run
      rw [List.foldl_append]
      rfl
    have kept :=
      runs_keep f (latchCamera (run f (start rdram) before) projVaddr viewVaddr) later others
    rw [← latched] at kept
    have valid : (run f (start rdram) events).cameraValid = true := by
      rw [kept]
      rfl
    have view : (run f (start rdram) events).cameraView =
        wordsAt (run f (start rdram) before).rdram viewVaddr := by
      rw [kept]
      rfl
    have proj : (run f (start rdram) events).cameraProj =
        wordsAt (run f (start rdram) before).rdram projVaddr := by
      rw [kept]
      rfl
    have emits := emitCamera_emits f (run f (start rdram) events) gfx inside valid
    rwa [view, proj] at emits

end NoMercyRecomp.CameraHandOff
