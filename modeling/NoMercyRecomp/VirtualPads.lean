import Mathlib.Algebra.Order.Archimedean.Basic
import Mathlib.Data.Rat.Floor
import NoMercyRecomp.TimedEvents

/-!
# Scripted virtual pads

A script lists presses of buttons and plug and unplug events of four virtual pads, with
their times in seconds. Each frame replays the events that are due, folds the time into the
repeated part of the script, and sets every button of the attached pads.

Times are exact here and ticks do not wrap. SDL attaches and detaches pads as asked: a pad
is the state of its buttons, or absent. The pads after a frame are those that the script
states for the time of the frame.
-/

namespace NoMercyRecomp.VirtualPads

open TimedEvents

/-! ## The script -/

structure VpadPress where
  atTime : ℚ
  pad : Nat
  button : Nat
  holdMs : Nat
deriving DecidableEq, Repr

structure VpadPlug where
  atTime : ℚ
  pad : Nat
  plug : Bool
deriving DecidableEq, Repr

/-- What `load_vpad_script` fills: the presses, the events in file order, and the repeated
part. -/
structure Script where
  presses : List VpadPress
  plugs : List VpadPlug
  repeatFrom : ℚ
  repeatPeriod : ℚ
deriving Repr

/-- The fields that `sscanf` reads from a line without its comment; the button is the one of
the name, when SDL knows it. -/
inductive ScriptLine where
  | loop (atTime period : ℚ)
  | plug (atTime : ℚ) (pad : Int) (plug : Bool)
  | press (atTime : ℚ) (pad : Int) (button : Option Nat) (hold : Option Nat)
  | other
deriving Repr

/-- The index of a pad that the script numbers from one to four. -/
def padIndex (pad : Int) : Option Nat := if 1 ≤ pad ∧ pad ≤ 4 then some (pad - 1).toNat else none

/-- One line: the last `repeat` counts, and a line with another pad or an unknown button is
dropped. -/
def loadLine (script : Script) : ScriptLine → Script
  | .loop atTime period => { script with repeatFrom := atTime, repeatPeriod := period }
  | .plug atTime pad plug =>
    match padIndex pad with
    | some pad => { script with plugs := script.plugs ++ [⟨atTime, pad, plug⟩] }
    | none => script
  | .press atTime pad button hold =>
    match padIndex pad, button with
    | some pad, some button =>
      { script with presses := script.presses ++ [⟨atTime, pad, button, hold.getD 150⟩] }
    | _, _ => script
  | .other => script

/-- `load_vpad_script` -/
def loadVpadScript (lines : List ScriptLine) : Script :=
  lines.foldl loadLine { presses := [], plugs := [], repeatFrom := -1, repeatPeriod := 0 }

/-- `vpad_count`: the number of pads from the environment. -/
def vpadCount (env : Option Int) : Nat := min (env.getD 0).toNat 4

/-! ## Frames -/

/-- `vpads`: for each pad the state of its buttons, while it is attached. -/
abbrev Pads := Nat → Option (Nat → Bool)

/-- A pad is attached with its buttons released. -/
def attach (pads : Pads) (i : Nat) : Pads :=
  fun j => if j = i then some (fun _ => false) else pads j

def detach (pads : Pads) (i : Nat) : Pads := fun j => if j = i then none else pads j

/-- An event of the script; plugging an attached pad and unplugging an absent one do nothing. -/
def plugEvent (count : Nat) (pads : Pads) (p : VpadPlug) : Pads :=
  if count ≤ p.pad then pads
  else if p.plug && (pads p.pad).isNone then attach pads p.pad
  else if !p.plug && (pads p.pad).isSome then detach pads p.pad
  else pads

/-- A pad whose first event is a plug starts unplugged. -/
def startsAttached (plugs : List VpadPlug) (i : Nat) : Bool :=
  match plugs.find? (fun p => p.pad == i) with
  | none => true
  | some first => !first.plug

/-- The pads that the first call attaches, from the sorted events. -/
def startPads (count : Nat) (plugs : List VpadPlug) : Pads :=
  (List.range count).foldl (fun pads i => if startsAttached plugs i then attach pads i else pads)
    (fun _ => none)

/-- `std::fmod`, with the quotient cut off towards zero. -/
def fmod (x y : ℚ) : ℚ := x - y * (if 0 ≤ x / y then ⌊x / y⌋ else ⌈x / y⌉ : ℤ)

/-- The time within the script, from one repetition on folded into the first one. -/
def foldTime (script : Script) (now : ℚ) : ℚ :=
  if 0 ≤ script.repeatFrom ∧ 0 < script.repeatPeriod ∧
    script.repeatFrom + script.repeatPeriod ≤ now then
    script.repeatFrom + fmod (now - script.repeatFrom) script.repeatPeriod
  else now

/-- `down`: some press of the button holds it. -/
def down (script : Script) (now : ℚ) (pad button : Nat) : Bool :=
  script.presses.any (fun p => p.pad == pad && p.button == button &&
    (decide (p.atTime ≤ now) && decide (now < p.atTime + (p.holdMs : ℚ) / 1000)))

/-- `now`: the seconds since the first frame. -/
def seconds (start ticks : Nat) : ℚ := ((ticks - start : Nat) : ℚ) / 1000

/-- The sorted events, the cursor into them, and the pads. -/
structure State where
  plugs : List VpadPlug
  nextPlug : Nat
  pads : Pads

/-- The first call, before its frame. -/
def startState (count : Nat) (script : Script) : State where
  plugs := inTimeOrder VpadPlug.atTime script.plugs
  nextPlug := 0
  pads := startPads count (inTimeOrder VpadPlug.atTime script.plugs)

/-- A frame of a scripted run: the events that are due, and then the buttons of the attached
pads. -/
def frame (count : Nat) (script : Script) (start : Nat) (state : State) (ticks : Nat) : State :=
  if count = 0 then state
  else
    let now := seconds start ticks
    let (next, pads) :=
      TimedEvents.frame VpadPlug.atTime (plugEvent count) state.plugs
        (state.nextPlug, state.pads) now
    { state with
      nextPlug := next
      pads := fun i =>
        if i < count then (pads i).map (fun _ => down script (foldTime script now) i) else pads i }

/-- `update_virtual_pads` at the ticks of the frames, with `start` those of the first call. -/
def updateVirtualPads (count : Nat) (script : Script) (start : Nat) (ticks : List Nat) : State :=
  ticks.foldl (frame count script start) (startState count script)

/-! ## What the script states -/

/-- The last event of the pad up to the time is a plug, or there is none and its first event
is no plug. -/
def Attached (script : Script) (i : Nat) (t : ℚ) : Prop :=
  (∃ p, Last VpadPlug.atTime (fun p => p.pad == i && decide (p.atTime ≤ t)) script.plugs p ∧
    p.plug = true) ∨ ((∀ p ∈ script.plugs, p.pad = i → t < p.atTime) ∧
      ∀ p, First VpadPlug.atTime (fun p => p.pad == i) script.plugs p → p.plug = false)

/-- The script has a repeated part. -/
def Repeats (script : Script) : Prop := 0 ≤ script.repeatFrom ∧ 0 < script.repeatPeriod

instance (script : Script) : Decidable (Repeats script) := inferInstanceAs (Decidable (_ ∧ _))

/-- The remainder of a division by a period. -/
def modulo (x period : ℚ) : ℚ := x - period * (⌊x / period⌋ : ℤ)

/-- The time at which the presses are looked up. -/
def scriptTime (script : Script) (t : ℚ) : ℚ :=
  if Repeats script ∧ script.repeatFrom ≤ t then
    script.repeatFrom + modulo (t - script.repeatFrom) script.repeatPeriod
  else t

/-- Some press holds the button. -/
def Pressed (script : Script) (i button : Nat) (t : ℚ) : Prop :=
  ∃ p ∈ script.presses, p.pad = i ∧ p.button = button ∧ p.atTime ≤ scriptTime script t ∧
    scriptTime script t < p.atTime + (p.holdMs : ℚ) / 1000

/-! ## Time -/

/-- Folding before the end of the first repetition would change nothing, so that it does not
matter where the program begins to fold. -/
theorem foldTime_scriptTime (script : Script) (now : ℚ) :
    foldTime script now = scriptTime script now := by
  by_cases repeats : Repeats script
  · obtain ⟨start, period⟩ := repeats
    by_cases inside : script.repeatFrom ≤ now
    · have past : 0 ≤ (now - script.repeatFrom) / script.repeatPeriod :=
        div_nonneg (by linarith) period.le
      rw [scriptTime, if_pos ⟨⟨start, period⟩, inside⟩, foldTime]
      by_cases folded : script.repeatFrom + script.repeatPeriod ≤ now
      · rw [if_pos ⟨start, period, folded⟩, fmod, if_pos past, modulo]
      · have first : ⌊(now - script.repeatFrom) / script.repeatPeriod⌋ = 0 := by
          rw [Int.floor_eq_zero_iff]
          refine ⟨past, ?_⟩
          rw [div_lt_one period]
          linarith
        rw [if_neg (fun all => folded all.2.2), modulo, first]
        simp
    · have early : ¬ script.repeatFrom + script.repeatPeriod ≤ now := by
        intro late
        exact inside (by linarith)
      rw [scriptTime, if_neg (fun both => inside both.2), foldTime,
        if_neg (fun all => early all.2.2)]
  · rw [scriptTime, if_neg (fun both => repeats both.1), foldTime,
      if_neg (fun all => repeats ⟨all.1, all.2.1⟩)]

/-- A remainder does not change by a period. -/
theorem modulo_add (x period : ℚ) (positive : 0 < period) :
    modulo (x + period) period = modulo x period := by
  have quotient : (x + period) / period = x / period + 1 := by
    rw [add_div, div_self positive.ne']
  rw [modulo, modulo, quotient, Int.floor_add_one]
  push_cast
  ring

/-- From the start of the repeated part on, the script repeats itself. -/
theorem scriptTime_add (script : Script) (repeats : Repeats script) (t : ℚ)
    (inside : script.repeatFrom ≤ t) :
    scriptTime script (t + script.repeatPeriod) = scriptTime script t := by
  have later : script.repeatFrom ≤ t + script.repeatPeriod := inside.trans (by linarith [repeats.2])
  have shifted : t + script.repeatPeriod - script.repeatFrom =
      t - script.repeatFrom + script.repeatPeriod := by ring
  rw [scriptTime, scriptTime, if_pos ⟨repeats, later⟩, if_pos ⟨repeats, inside⟩, shifted,
    modulo_add _ _ repeats.2]

/-- A button is down at the folded time exactly when the script presses it at the time: folding
takes away whole periods, and presses behind the start of the loop repeat with them. -/
theorem down_pressed (script : Script) (t : ℚ) (i button : Nat) :
    down script (foldTime script t) i button = true ↔ Pressed script i button t := by
  rw [foldTime_scriptTime, down, List.any_eq_true]
  simp [Pressed, and_assoc]

/-! ## Attached pads -/

/-- Which pads are attached. -/
def present (pads : Pads) (i : Nat) : Bool := (pads i).isSome

/-- What an event does to the pads that are attached. -/
def switch (count : Nat) (on : Nat → Bool) (p : VpadPlug) (i : Nat) : Bool :=
  if p.pad < count ∧ p.pad = i then p.plug else on i

/-- A plug event switches the presence of its pad, and of no other; one for a pad beyond the count
does nothing. -/
theorem present_plugEvent (count : Nat) (pads : Pads) (p : VpadPlug) :
    present (plugEvent count pads p) = switch count (present pads) p := by
  funext i
  rw [plugEvent, switch]
  by_cases below : p.pad < count
  · rw [if_neg (Nat.not_le.mpr below)]
    by_cases same : p.pad = i
    · subst same
      cases plug : p.plug <;> cases here : pads p.pad <;>
        simp [present, attach, detach, here, below]
    · have others : ¬ i = p.pad := fun equal => same equal.symm
      cases plug : p.plug <;> cases here : pads p.pad <;>
        simp [present, attach, detach, same, others]
  · rw [if_pos (Nat.le_of_not_lt below), if_neg (fun both => below both.1)]

/-- After events a pad is as its last event says, or as it was. By induction from the last event,
which is for the pad or not. -/
theorem foldl_switch (count : Nat) (events : List VpadPlug) (on : Nat → Bool) (i : Nat)
    (below : i < count) :
    events.foldl (switch count) on i =
      match (events.filter (fun p => p.pad == i)).getLast? with
      | some last => last.plug
      | none => on i := by
  induction events using List.reverseRecOn with
  | nil => rfl
  | append_singleton events p inductionHypothesis =>
    rw [List.foldl_append, List.foldl_cons, List.foldl_nil, List.filter_append, switch]
    by_cases same : p.pad = i
    · rw [if_pos ⟨same ▸ below, same⟩]
      simp [same]
    · rw [if_neg (fun both => same both.2), inductionHypothesis]
      simp [same]

/-- The pads that are present at the start are those that start attached: all, but for those whose
first plug event attaches them. -/
theorem startPads_present (count : Nat) (plugs : List VpadPlug) (i : Nat) (below : i < count) :
    present (startPads count plugs) i = startsAttached plugs i := by
  have all (n : Nat) : present ((List.range n).foldl
      (fun pads i => if startsAttached plugs i then attach pads i else pads) (fun _ => none)) i =
        (decide (i < n) && startsAttached plugs i) := by
    induction n with
    | zero => rfl
    | succ n inductionHypothesis =>
      rw [List.range_succ, List.foldl_append, List.foldl_cons, List.foldl_nil]
      by_cases last : i = n
      · subst last
        cases starts : startsAttached plugs i with
        | true => simp [present, attach]
        | false => simpa [starts] using inductionHypothesis
      · have before : decide (i < n + 1) = decide (i < n) := by
          rw [decide_eq_decide]
          omega
        rw [before, ← inductionHypothesis]
        cases startsAttached plugs n <;> simp [present, attach, last]
  rw [startPads, all count]
  simp [below]

/-! ## Runs -/

/-- The events keep their order, and the cursor with the attached pads is that of the replay:
buttons do not go into which pads are attached. -/
theorem frames_present (count : Nat) (script : Script) (start : Nat) (some? : count ≠ 0)
    (ticks : List Nat) :
    (updateVirtualPads count script start ticks).plugs = inTimeOrder VpadPlug.atTime script.plugs ∧
      ((updateVirtualPads count script start ticks).nextPlug,
        present (updateVirtualPads count script start ticks).pads) =
        (ticks.map (seconds start)).foldl
          (TimedEvents.frame VpadPlug.atTime (switch count)
            (inTimeOrder VpadPlug.atTime script.plugs))
          (0, present (startPads count (inTimeOrder VpadPlug.atTime script.plugs))) := by
  induction ticks using List.reverseRecOn with
  | nil => exact ⟨rfl, rfl⟩
  | append_singleton ticks last inductionHypothesis =>
    obtain ⟨sorted, replayed⟩ := inductionHypothesis
    have step : updateVirtualPads count script start (ticks ++ [last]) =
        frame count script start (updateVirtualPads count script start ticks) last := by
      rw [updateVirtualPads, List.foldl_append]
      rfl
    rw [step, frame, if_neg some?, List.map_append, List.foldl_append, ← replayed]
    refine ⟨sorted, ?_⟩
    have part :=
      frame_part VpadPlug.atTime (plugEvent count) (switch count) present (present_plugEvent count)
      (inTimeOrder VpadPlug.atTime script.plugs)
      ((updateVirtualPads count script start ticks).nextPlug,
        (updateVirtualPads count script start ticks).pads)
      (seconds start last)
    rw [List.map_cons, List.map_nil, List.foldl_cons, List.foldl_nil, part, sorted]
    refine Prod.ext rfl (funext fun i => ?_)
    dsimp only [present]
    by_cases below : i < count
    · simp [below]
    · simp [below]

/-- The seconds of frames in order are in order. -/
theorem seconds_le (start first second : Nat) (order : first ≤ second) :
    seconds start first ≤ seconds start second := by
  have ticks : first - start ≤ second - start := Nat.sub_le_sub_right order start
  have exact : ((first - start : Nat) : ℚ) ≤ ((second - start : Nat) : ℚ) := by exact_mod_cast ticks
  rw [seconds, seconds]
  linarith

/-- A pad is attached as the script states: by the last plug event up to the time, or, where there
is none, by what its first event says of the start. -/
theorem attached_iff (count : Nat) (script : Script) (i : Nat) (below : i < count) (t : ℚ) :
    (replayed VpadPlug.atTime (switch count) (inTimeOrder VpadPlug.atTime script.plugs)
      (present (startPads count (inTimeOrder VpadPlug.atTime script.plugs))) t).2 i = true ↔
      Attached script i t := by
  have ofPad : (due VpadPlug.atTime (inTimeOrder VpadPlug.atTime script.plugs) t).filter
    (fun p => p.pad == i) =
      (inTimeOrder VpadPlug.atTime script.plugs).filter
        (fun p => p.pad == i && decide (p.atTime ≤ t)) := by
    rw [due_sorted VpadPlug.atTime _ t (inTimeOrder_sorted VpadPlug.atTime script.plugs),
      List.filter_filter]
  dsimp only [replayed]
  rw [foldl_switch count _ _ i below, ofPad, startPads_present count _ i below, startsAttached,
    Attached]
  cases last : ((inTimeOrder VpadPlug.atTime script.plugs).filter
      (fun p => p.pad == i && decide (p.atTime ≤ t))).getLast? with
  | some p =>
    have isLast := (inTimeOrder_last VpadPlug.atTime _ script.plugs p).mp last
    dsimp only
    constructor
    · intro plug
      exact Or.inl ⟨p, isLast, plug⟩
    · rintro (⟨q, alsoLast, plug⟩ | ⟨later, _⟩)
      · rw [← inTimeOrder_last, last] at alsoLast
        obtain rfl := Option.some.inj alsoLast
        exact plug
      · obtain ⟨k, here, kind, _⟩ := isLast
        simp only [Bool.and_eq_true, beq_iff_eq, decide_eq_true_eq] at kind
        exact absurd (later p (List.mem_of_getElem? here) kind.1) (not_lt.mpr kind.2)
  | none =>
    have none := List.filter_eq_nil_iff.mp (List.getLast?_eq_none_iff.mp last)
    have later : ∀ p ∈ script.plugs, p.pad = i → t < p.atTime := by
      intro p member same
      have kept := none p (List.mem_mergeSort.mpr member)
      simpa [same] using kept
    have noLast : ∀ p, ¬ Last VpadPlug.atTime
        (fun p => p.pad == i && decide (p.atTime ≤ t)) script.plugs p := by
      intro p isLast
      rw [← inTimeOrder_last, last] at isLast
      cases isLast
    dsimp only
    cases first : (inTimeOrder VpadPlug.atTime script.plugs).find? (fun p => p.pad == i) with
    | none =>
      refine iff_of_true rfl (Or.inr ⟨later, ?_⟩)
      intro p isFirst
      rw [← inTimeOrder_first, first] at isFirst
      cases isFirst
    | some p =>
      have isFirst := (inTimeOrder_first VpadPlug.atTime _ script.plugs p).mp first
      dsimp only
      rw [Bool.not_eq_true']
      constructor
      · intro unplug
        refine Or.inr ⟨later, ?_⟩
        intro q alsoFirst
        rw [← inTimeOrder_first, first] at alsoFirst
        obtain rfl := Option.some.inj alsoFirst
        exact unplug
      · rintro (⟨q, isLast, _⟩ | ⟨_, firsts⟩)
        · exact absurd isLast (noLast q)
        · exact firsts p isFirst

/-- After the frame at a time, whichever frames came before, the pads are as the script states for
the time: a pad below the count is attached or not, and an attached pad has down the buttons that
a press holds at the script's time. That time repeats itself. Frames in order replay the plug
events that are due, and buttons are set anew on each frame. -/
theorem updateVirtualPads_schedule (count : Nat) (lines : List ScriptLine) (start : Nat)
    (ticks : List Nat) (last : Nat) (order : (start :: (ticks ++ [last])).Pairwise (· ≤ ·)) :
    (∀ i < count,
      (((updateVirtualPads count (loadVpadScript lines) start (ticks ++ [last])).pads i).isSome =
        true ↔ Attached (loadVpadScript lines) i (seconds start last)) ∧
      ∀ buttons, (updateVirtualPads count (loadVpadScript lines) start (ticks ++ [last])).pads i =
        some buttons →
        ∀ button, buttons button = true ↔
    Pressed (loadVpadScript lines) i button (seconds start last)) ∧
    (Repeats (loadVpadScript lines) → ∀ i button t, (loadVpadScript lines).repeatFrom ≤ t →
      (Pressed (loadVpadScript lines) i button (t + (loadVpadScript lines).repeatPeriod) ↔
        Pressed (loadVpadScript lines) i button t)) := by
  generalize loadVpadScript lines = script
  refine ⟨?_, ?_⟩
  · intro i below
    have some? : count ≠ 0 := by omega
    constructor
    · obtain ⟨_, replay⟩ := frames_present count script start some? (ticks ++ [last])
      have inOrder : (ticks.map (seconds start) ++ [seconds start last]).Pairwise (· ≤ ·) := by
        have frames := (List.pairwise_cons.mp order).2
        have times := frames.map (seconds start) (seconds_le start)
        simpa using times
      rw [List.map_append, List.map_cons, List.map_nil,
        frames_replayed VpadPlug.atTime _ _ _ _ _ inOrder] at replay
      have pads := congrFun (congrArg Prod.snd replay) i
      rw [← attached_iff count script i below, ← pads]
      rfl
    · intro buttons here button
      rw [updateVirtualPads, List.foldl_append, List.foldl_cons, List.foldl_nil, frame,
        if_neg some?] at here
      dsimp only at here
      rw [if_pos below, Option.map_eq_some_iff] at here
      obtain ⟨_, _, rfl⟩ := here
      exact down_pressed script (seconds start last) i button
  · intro repeats i button t inside
    rw [Pressed, Pressed, scriptTime_add script repeats t inside]

/-- Pad two starts unplugged and is plugged at once; a button is pressed in each repetition. -/
def hotplugLines : List ScriptLine :=
  [.press (51 / 2) 2 (some 0) (some 300), .loop 25 6, .plug 0 2 true, .plug 75 2 false]

/-- The second pad of a script with a loop, plugged in at first, on its last frame: it is
attached, and its button is held in the second repetition. -/
theorem hotplug_schedule :
    ∃ buttons, (updateVirtualPads 2 (loadVpadScript hotplugLines) 100
      ([100, 16000] ++ [31700])).pads 1 = some buttons ∧ buttons 0 = true := by
  have script : loadVpadScript hotplugLines =
      { presses := [⟨51 / 2, 1, 0, 300⟩], plugs := [⟨0, 1, true⟩,
        ⟨75, 1, false⟩], repeatFrom := 25, repeatPeriod := 6 } :=
    rfl
  have now : seconds 100 31700 = 158 / 5 := by norm_num [seconds]
  obtain ⟨attached, pressed⟩ :=
    (updateVirtualPads_schedule 2 hotplugLines 100 [100, 16000] 31700 (by decide)).1 1 (by decide)
  have plugged : Attached (loadVpadScript hotplugLines) 1 (seconds 100 31700) := by
    rw [script, now]
    refine Or.inl ⟨⟨0, 1, true⟩, ⟨0, rfl, by norm_num, ?_⟩, rfl⟩
    intro j other here kind
    match j with
    | 0 => exact Or.inl rfl
    | 1 =>
      obtain rfl : (⟨75, 1, false⟩ : VpadPlug) = other := by simpa using here
      norm_num at kind
    | j + 2 => simp at here
  obtain ⟨buttons, here⟩ := Option.isSome_iff_exists.mp (attached.mpr plugged)
  refine ⟨buttons, here, (pressed buttons here 0).mpr
    ⟨⟨51 / 2, 1, 0, 300⟩, by simp [script], rfl, rfl, ?_⟩⟩
  have repetition : ⌊((158 : ℚ) / 5 - 25) / 6⌋ = 1 := by
    rw [Int.floor_eq_iff]
    norm_num
  have folded : scriptTime (loadVpadScript hotplugLines) (seconds 100 31700) = 128 / 5 := by
    rw [script, now, scriptTime, if_pos (by norm_num [Repeats]), modulo, repetition]
    norm_num
  rw [folded]
  norm_num

end NoMercyRecomp.VirtualPads
