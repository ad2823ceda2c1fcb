import Mathlib

/-!
# The virtual audio device

Without an audio endpoint the host models a device that drains the queue in real time, so
that the game's throttle on the queued frames works. Every call of `queue_samples` or
`get_frames_remaining` drains what is due since the clock was last read, in whole frames.

The part of a frame that the division drops is not carried over to the next call. What a
run drains is therefore real time less the sum of these parts, and how large that sum
grows depends on how often the device is polled.
-/

namespace NoMercyRecomp.VirtualAudio

/-- `g_virtual_frames` and `g_virtual_last_ms`. -/
structure Device where
  frames : UInt64
  last : UInt64
deriving DecidableEq, Repr

/-- `drained`: the whole frames due since the clock was last read. -/
def due (rate : UInt32) (now : UInt64) (s : Device) : UInt64 :=
  (now - s.last) * rate.toUInt64 / 1000

/-- `virtual_drain`, at a tick of the clock. -/
def virtualDrain (rate : UInt32) (now : UInt64) (s : Device) : Device where
  frames := if s.last ≠ 0 then (if due rate now s ≥ s.frames then 0 else s.frames - due rate now s)
    else s.frames
  last := now

/-- The calls, with the ticks at which each reads the clock. `queue_samples` asks for the
remaining frames before it drains and queues; a frame is two samples. -/
inductive Call where
  | getFramesRemaining (now : UInt64)
  | queueSamples (first second count : UInt64)
deriving DecidableEq, Repr

/-- The ticks at which a call drains. -/
def Call.ticks : Call → List UInt64
  | .getFramesRemaining now => [now]
  | .queueSamples first second _ => [first, second]

/-- `get_frames_remaining`: the device after it, and what it returns. -/
def getFramesRemaining (rate : UInt32) (now : UInt64) (s : Device) : Device × UInt64 :=
  (virtualDrain rate now s, (virtualDrain rate now s).frames)

/-- `queue_samples`, as far as the device goes. -/
def queueSamples (rate : UInt32) (first second count : UInt64) (s : Device) : Device :=
  let drained := virtualDrain rate second (getFramesRemaining rate first s).1
  { drained with frames := drained.frames + count / 2 }

/-- One call. -/
def Call.run (rate : UInt32) (s : Device) : Call → Device
  | .getFramesRemaining now => (VirtualAudio.getFramesRemaining rate now s).1
  | .queueSamples first second count => VirtualAudio.queueSamples rate first second count s

/-- The device after some calls. -/
def after (rate : UInt32) (s : Device) (calls : List Call) : Device := calls.foldl (Call.run rate) s

/-! ## What a run drains -/

/-- The frames that a drain takes out of the queue. -/
def taken (rate : UInt32) (now : UInt64) (s : Device) : Nat :=
  s.frames.toNat - (virtualDrain rate now s).frames.toNat

/-- The frames that a call takes out of the queue. -/
def Call.taken (rate : UInt32) (s : Device) : Call → Nat
  | .getFramesRemaining now => VirtualAudio.taken rate now s
  | .queueSamples first second _ =>
    VirtualAudio.taken rate first s + VirtualAudio.taken rate second (virtualDrain rate first s)

/-- The frames that some calls take out of the queue. -/
def drained (rate : UInt32) : Device → List Call → Nat
  | _, [] => 0
  | s, call :: rest => call.taken rate s + drained rate (call.run rate s) rest

/-- The queue holds what a drain finds due. -/
def Supplied (rate : UInt32) (now : UInt64) (s : Device) : Prop :=
  s.last ≠ 0 → due rate now s ≤ s.frames

instance (rate : UInt32) (now : UInt64) (s : Device) : Decidable (Supplied rate now s) :=
  inferInstanceAs (Decidable (s.last ≠ 0 → due rate now s ≤ s.frames))

/-- The queue holds what a call finds due. -/
def Call.Supplied (rate : UInt32) (s : Device) : Call → Prop
  | .getFramesRemaining now => VirtualAudio.Supplied rate now s
  | .queueSamples first second _ =>
    VirtualAudio.Supplied rate first s ∧
      VirtualAudio.Supplied rate second (virtualDrain rate first s)

instance (rate : UInt32) (s : Device) : (call : Call) → Decidable (call.Supplied rate s)
  | .getFramesRemaining now => inferInstanceAs (Decidable (VirtualAudio.Supplied rate now s))
  | .queueSamples first second _ =>
    inferInstanceAs (Decidable (VirtualAudio.Supplied rate first s ∧
      VirtualAudio.Supplied rate second (virtualDrain rate first s)))

/-- The queue does not run empty: no drain is cut short. -/
def Fed (rate : UInt32) : Device → List Call → Prop
  | _, [] => True
  | s, call :: rest => call.Supplied rate s ∧ Fed rate (call.run rate s) rest

instance decideFed (rate : UInt32) :
    (s : Device) → (calls : List Call) → Decidable (Fed rate s calls)
  | _, [] => isTrue trivial
  | s, call :: rest =>
    have := decideFed rate (call.run rate s) rest
    inferInstanceAs (Decidable (call.Supplied rate s ∧ Fed rate (call.run rate s) rest))

/-- The ticks do not decrease. -/
def Ordered (s : Device) (calls : List Call) : Prop :=
  (s.last :: calls.flatMap Call.ticks).Pairwise (· ≤ ·)

instance (s : Device) (calls : List Call) : Decidable (Ordered s calls) :=
  inferInstanceAs (Decidable ((s.last :: calls.flatMap Call.ticks).Pairwise (· ≤ ·)))

/-- Between any two calls the frames drained are those of the time between, up to less
than one frame, and no drain leaves more frames than there were. The device `s` is the one
after the first call, and `calls` are those that follow. -/
structure RealTime (rate : UInt32) (s : Device) (calls : List Call) : Prop where
  exact : ∀ earlier between later, calls = earlier ++ between ++ later →
    |(drained rate (after rate s earlier) between : ℚ) -
      ((after rate s (earlier ++ between)).last.toNat - (after rate s earlier).last.toNat : ℚ) *
        rate.toNat / 1000| < 1
  noUnderflow : ∀ earlier call later, calls = earlier ++ call :: later →
    ∀ now ∈ call.ticks, ∀ t : Device, (virtualDrain rate now t).frames ≤ t.frames

/-! ## What a drain drops -/

/-- The time between two reads of the clock, in thousandths of a frame. -/
def elapsed (rate : UInt32) (last now : UInt64) : Nat := (now.toNat - last.toNat) * rate.toNat

/-- The thousandths of a frame that a drain drops: the remainder of the division, or all
of them when the clock was last read at tick 0, which stands for no reading. -/
def dropped (rate : UInt32) (last now : UInt64) : Nat :=
  if last = 0 then elapsed rate last now else elapsed rate last now % 1000

/-- The pairs of consecutive ticks. -/
def intervals (last : UInt64) : List UInt64 → List (UInt64 × UInt64)
  | [] => []
  | now :: rest => (last, now) :: intervals now rest

/-- The intervals of a run of calls. -/
def runIntervals (s : Device) (calls : List Call) : List (UInt64 × UInt64) :=
  intervals s.last (calls.flatMap Call.ticks)

/-- The condition on the ticks: no product leaves 64 bits, and the parts of frames that
the drains drop add up to less than a frame. -/
structure Small (rate : UInt32) (pairs : List (UInt64 × UInt64)) : Prop where
  fits : ∀ pair ∈ pairs, elapsed rate pair.1 pair.2 < 2 ^ 64
  sum : (pairs.map (fun pair => dropped rate pair.1 pair.2)).sum < 1000

/-! ## One drain -/

/-- A drain reads the clock. -/
@[simp]
theorem virtualDrain_last (rate : UInt32) (now : UInt64) (s : Device) :
    (virtualDrain rate now s).last = now := rfl

/-- A drain never leaves more frames than there were: it takes what is due, or all of them, or
nothing before the clock is set. -/
theorem virtualDrain_frames_le (rate : UInt32) (now : UInt64) (s : Device) :
    (virtualDrain rate now s).frames ≤ s.frames := by
  unfold virtualDrain
  split
  · split
    · exact UInt64.zero_le
    · rename_i short
      have less : due rate now s ≤ s.frames := by
        rw [UInt64.le_iff_toNat_le]
        rw [ge_iff_le, UInt64.le_iff_toNat_le] at short
        omega
      rw [UInt64.le_iff_toNat_le, UInt64.toNat_sub_of_le _ _ less]
      omega
  · exact UInt64.le_refl _

/-- What is due is the whole frames of the time since the last reading, of a product kept
to 64 bits. -/
theorem due_toNat (rate : UInt32) (now : UInt64) (s : Device) (ordered : s.last ≤ now) :
    (due rate now s).toNat = elapsed rate s.last now % 2 ^ 64 / 1000 := by
  unfold due elapsed
  rw [UInt64.toNat_div, UInt64.toNat_mul, UInt64.toNat_sub_of_le _ _ ordered, UInt32.toNat_toUInt64]
  rfl

/-- The thousandths of a frame that a drain loses, whatever the size of the product. -/
def lost (rate : UInt32) (last now : UInt64) : Nat :=
  if last = 0 then elapsed rate last now
  else elapsed rate last now - 1000 * (elapsed rate last now % 2 ^ 64 / 1000)

/-- A drain that is not cut short takes the elapsed time less what it loses: the remainder of the
division, or all of it when the clock was not set yet. The queue holds what is due, so nothing is
cut off. -/
theorem taken_lost (rate : UInt32) (now : UInt64) (s : Device) (ordered : s.last ≤ now)
    (supplied : Supplied rate now s) :
    1000 * taken rate now s + lost rate s.last now = elapsed rate s.last now := by
  by_cases unset : s.last = 0
  · have none : taken rate now s = 0 := by simp [taken, virtualDrain, unset]
    have all : lost rate s.last now = elapsed rate s.last now := if_pos unset
    omega
  · have exact : taken rate now s = (due rate now s).toNat := by
      have enough : due rate now s ≤ s.frames := supplied unset
      have enoughNat : (due rate now s).toNat ≤ s.frames.toNat := UInt64.le_iff_toNat_le.mp enough
      unfold taken virtualDrain
      simp only [ne_eq, unset, not_false_eq_true, if_true]
      split
      · rename_i empties
        have emptiesNat : s.frames.toNat ≤ (due rate now s).toNat :=
          UInt64.le_iff_toNat_le.mp empties
        simp only [UInt64.toNat_zero]
        omega
      · rw [UInt64.toNat_sub_of_le _ _ enough]
        omega
    rw [exact, due_toNat rate now s ordered]
    simp only [lost, unset, if_false]
    omega

/-- A drain whose product fits loses what the division drops. -/
theorem lost_fits (rate : UInt32) (last now : UInt64) (fits : elapsed rate last now < 2 ^ 64) :
    lost rate last now = dropped rate last now := by
  unfold lost dropped
  split
  · rfl
  · rw [Nat.mod_eq_of_lt fits]
    omega

/-- A drain whose product does not fit loses a frame at least. -/
theorem fits_of_lost (rate : UInt32) (last now : UInt64) (small : lost rate last now < 1000) :
    elapsed rate last now < 2 ^ 64 := by
  unfold lost at small
  split at small <;> omega

/-- Less than a frame is lost over some intervals exactly when the products fit and the
divisions drop less than a frame. -/
theorem lost_small (rate : UInt32) (pairs : List (UInt64 × UInt64)) :
    (pairs.map (fun pair => lost rate pair.1 pair.2)).sum < 1000 ↔ Small rate pairs := by
  have same : (∀ pair ∈ pairs, elapsed rate pair.1 pair.2 < 2 ^ 64) →
      pairs.map (fun pair => lost rate pair.1 pair.2) =
        pairs.map (fun pair => dropped rate pair.1 pair.2) :=
    fun fits =>
      List.map_congr_left (fun pair inside => lost_fits rate pair.1 pair.2 (fits pair inside))
  constructor
  · intro small
    have fits : ∀ pair ∈ pairs, elapsed rate pair.1 pair.2 < 2 ^ 64 := by
      intro pair inside
      apply fits_of_lost
      have part : lost rate pair.1 pair.2 ≤ (pairs.map (fun pair => lost rate pair.1 pair.2)).sum :=
        List.single_le_sum (fun _ _ => Nat.zero_le _) _ (List.mem_map_of_mem inside)
      omega
    exact ⟨fits, same fits ▸ small⟩
  · intro small
    rw [same small.fits]
    exact small.sum

/-! ## A run of calls -/

/-- The intervals of ticks one after the other. -/
theorem intervals_append (last : UInt64) (first second : List UInt64) :
    intervals last (first ++ second) = intervals last first ++
      intervals (first.getLastD last) second := by
  induction first generalizing last with
  | nil => rfl
  | cons now rest inductionHypothesis =>
    rw [List.cons_append, intervals, intervals, inductionHypothesis, List.getLastD_cons,
      List.cons_append]

/-- A call reads the clock last at the last of its ticks. -/
theorem call_last (rate : UInt32) (s : Device) (call : Call) :
    (call.run rate s).last = call.ticks.getLastD s.last := by
  cases call <;> rfl

/-- The sum of what is lost over some intervals. -/
def lostOver (rate : UInt32) (pairs : List (UInt64 × UInt64)) : Nat :=
  (pairs.map (fun pair => lost rate pair.1 pair.2)).sum

/-- What is lost over two runs is lost over one or the other. -/
theorem lostOver_append (rate : UInt32) (first second : List (UInt64 × UInt64)) :
    lostOver rate (first ++ second) = lostOver rate first + lostOver rate second := by
  simp [lostOver]

/-- The time of two intervals in a row. -/
theorem elapsed_trans (rate : UInt32) (first second third : UInt64) (before : first ≤ second)
    (behind : second ≤ third) :
    elapsed rate first second + elapsed rate second third = elapsed rate first third := by
  rw [UInt64.le_iff_toNat_le] at before behind
  unfold elapsed
  rw [← Nat.add_mul]
  congr 1
  omega

/-- A call drains the time of its ticks less what it loses. Asking for the frames drains once;
queueing asks twice, and the second drain starts where the first has ended. -/
theorem call_drained (rate : UInt32) (s : Device) (call : Call)
    (ordered : (s.last :: call.ticks).Pairwise (· ≤ ·)) (supplied : call.Supplied rate s) :
    1000 * call.taken rate s + lostOver rate (intervals s.last call.ticks) =
      elapsed rate s.last (call.run rate s).last := by
  cases call with
  | getFramesRemaining now =>
    have before : s.last ≤ now := List.rel_of_pairwise_cons ordered (List.mem_singleton_self now)
    have drain := taken_lost rate now s before supplied
    simp only [Call.taken, lostOver, intervals, Call.ticks, List.map_cons, List.map_nil,
      List.sum_cons, List.sum_nil]
    exact drain
  | queueSamples first second count =>
    simp only [Call.ticks, List.pairwise_cons, List.mem_cons, forall_eq_or_imp] at ordered
    obtain ⟨⟨before, -⟩, ⟨behind, -⟩, -⟩ := ordered
    have asked := taken_lost rate first s before supplied.1
    have queued := taken_lost rate second (virtualDrain rate first s) behind supplied.2
    rw [virtualDrain_last] at queued
    have whole :
        elapsed rate s.last first + elapsed rate first second = elapsed rate s.last second :=
      elapsed_trans rate s.last first second before behind
    simp only [Call.taken, Call.run, lostOver, intervals, Call.ticks, List.map_cons, List.map_nil,
      List.sum_cons, List.sum_nil]
    change _ = elapsed rate s.last second
    omega

/-- The ticks of a run whose first call is taken apart: the call's own are in order behind the
device's clock, and the others behind the last of them. -/
theorem ordered_cons (rate : UInt32) (s : Device) (call : Call) (rest : List Call)
    (ordered : Ordered s (call :: rest)) :
    (s.last :: call.ticks).Pairwise (· ≤ ·) ∧ s.last ≤ (call.run rate s).last ∧
    Ordered (call.run rate s) rest := by
  unfold Ordered at *
  rw [call_last]
  rw [List.flatMap_cons] at ordered
  cases call with
  | getFramesRemaining now =>
    simp only [Call.ticks, List.cons_append, List.nil_append, List.pairwise_cons, List.mem_cons,
      forall_eq_or_imp] at *
    simp only [List.getLastD_cons, List.getLastD_nil]
    grind
  | queueSamples first second count =>
    simp only [Call.ticks, List.cons_append, List.nil_append, List.pairwise_cons, List.mem_cons,
      forall_eq_or_imp] at *
    simp only [List.getLastD_cons, List.getLastD_nil]
    grind

/-- A run drains the time of its ticks less what its drains lose, and its clock does not go
back. -/
theorem run_drained (rate : UInt32) (s : Device) (calls : List Call) (ordered : Ordered s calls)
    (fed : Fed rate s calls) :
    s.last ≤ (after rate s calls).last ∧
      1000 * drained rate s calls + lostOver rate (runIntervals s calls) = elapsed rate s.last
        (after rate s calls).last := by
  induction calls generalizing s with
  | nil => simp [after, drained, lostOver, runIntervals, intervals, elapsed]
  | cons call rest inductionHypothesis =>
    obtain ⟨first, before, remaining⟩ := ordered_cons rate s call rest ordered
    obtain ⟨behind, whole⟩ := inductionHypothesis (call.run rate s) remaining fed.2
    have one := call_drained rate s call first fed.1
    have time := elapsed_trans rate s.last (call.run rate s).last
      (after rate (call.run rate s) rest).last before behind
    have split : lostOver rate (runIntervals s (call :: rest)) =
        lostOver rate (intervals s.last call.ticks) + lostOver rate
          (runIntervals (call.run rate s) rest) := by
      rw [runIntervals, List.flatMap_cons, intervals_append, lostOver_append, ← call_last rate]
      rfl
    refine ⟨UInt64.le_trans before behind, ?_⟩
    change 1000 * (call.taken rate s + drained rate (call.run rate s) rest) + _ =
      elapsed rate s.last (after rate (call.run rate s) rest).last
    omega

/-! ## Parts of a run -/

/-- The device after two runs in a row. -/
theorem after_append (rate : UInt32) (s : Device) (first second : List Call) :
    after rate s (first ++ second) = after rate (after rate s first) second := List.foldl_append

/-- The ticks of a part of a run. -/
theorem ordered_after (rate : UInt32) (s : Device) (earlier rest : List Call)
    (ordered : Ordered s (earlier ++ rest)) :
    Ordered (after rate s earlier) rest := by
  induction earlier generalizing s with
  | nil => exact ordered
  | cons call others inductionHypothesis =>
    exact inductionHypothesis (call.run rate s)
      (ordered_cons rate s call (others ++ rest) ordered).2.2

/-- A run's beginning has its ticks. -/
theorem ordered_before (s : Device) (first rest : List Call) (ordered : Ordered s (first ++ rest)) :
    Ordered s first := by
  unfold Ordered at *
  rw [List.flatMap_append, ← List.cons_append] at ordered
  exact (List.pairwise_append.mp ordered).1

/-- Both parts of a fed run are fed. -/
theorem fed_append (rate : UInt32) (s : Device) (first second : List Call) :
    Fed rate s (first ++ second) ↔ Fed rate s first ∧ Fed rate (after rate s first) second := by
  induction first generalizing s with
  | nil => simp [Fed, after]
  | cons call rest inductionHypothesis =>
    rw [List.cons_append, Fed, Fed, inductionHypothesis, and_assoc]
    rfl

/-- The intervals of two runs in a row. -/
theorem runIntervals_append (rate : UInt32) (s : Device) (first second : List Call) :
    runIntervals s (first ++ second) = runIntervals s first ++
      runIntervals (after rate s first) second := by
  induction first generalizing s with
  | nil => rfl
  | cons call rest inductionHypothesis =>
    have step : ∀ others : List Call, runIntervals s (call :: others) =
        intervals s.last call.ticks ++ runIntervals (call.run rate s) others := by
      intro others
      rw [runIntervals, List.flatMap_cons, intervals_append, ← call_last rate]
      rfl
    rw [List.cons_append, step, step, inductionHypothesis, List.append_assoc]
    rfl

/-- A run is off real time by what its drains lose, counted in thousandths of a frame. Losses only
add up, so the run is within a frame exactly when they come to less than a thousand. -/
theorem drift (rate : UInt32) (s : Device) (calls : List Call) (ordered : Ordered s calls)
    (fed : Fed rate s calls) :
    |(drained rate s calls : ℚ) - ((after rate s calls).last.toNat - s.last.toNat : ℚ) *
      rate.toNat / 1000| < 1 ↔ lostOver rate (runIntervals s calls) < 1000 := by
  obtain ⟨forward, whole⟩ := run_drained rate s calls ordered fed
  have forwardNat : s.last.toNat ≤ (after rate s calls).last.toNat :=
    UInt64.le_iff_toNat_le.mp forward
  have time : (elapsed rate s.last (after rate s calls).last : ℚ) =
      ((after rate s calls).last.toNat - s.last.toNat : ℚ) * rate.toNat := by
    rw [elapsed, Nat.cast_mul, Nat.cast_sub forwardNat]
  have wholeRational :
    1000 * (drained rate s calls : ℚ) + (lostOver rate (runIntervals s calls) : ℚ) =
      ((after rate s calls).last.toNat - s.last.toNat : ℚ) * rate.toNat := by
    rw [← time]
    exact_mod_cast whole
  have off : (drained rate s calls : ℚ) - ((after rate s calls).last.toNat - s.last.toNat : ℚ) *
      rate.toNat / 1000 = -((lostOver rate (runIntervals s calls) : ℚ) / 1000) := by
    rw [← wholeRational]
    ring
  have positive : (0 : ℚ) ≤ (lostOver rate (runIntervals s calls) : ℚ) / 1000 := by positivity
  rw [off, abs_neg, abs_of_nonneg positive, div_lt_one (by norm_num)]
  exact_mod_cast Iff.rfl

/-- The virtual device drains in real time exactly when the parts of frames that its drains drop
over the run do not make up a frame. Every drain loses the part that its division drops, and what
is lost over an interval is at most what is lost over the run; the calls are in the order of time,
and the queue never runs empty. -/
theorem realTime_iff (rate : UInt32) (s : Device) (calls : List Call) (ordered : Ordered s calls)
    (fed : Fed rate s calls) : RealTime rate s calls ↔ Small rate (runIntervals s calls) := by
  rw [← lost_small]
  change _ ↔ lostOver rate (runIntervals s calls) < 1000
  constructor
  · intro exact
    have all := exact.exact [] calls [] (by simp)
    exact (drift rate s calls ordered fed).mp (by simpa [after] using all)
  · intro small
    refine ⟨?_, fun _ _ _ _ now _ t => virtualDrain_frames_le rate now t⟩
    intro earlier between later parts
    subst parts
    have orderedPart : Ordered (after rate s earlier) between :=
      ordered_after rate s earlier between (ordered_before s (earlier ++ between) later ordered)
    have fedPart : Fed rate (after rate s earlier) between :=
      ((fed_append rate s earlier between).mp
        ((fed_append rate s (earlier ++ between) later).mp fed).1).2
    have part : lostOver rate (runIntervals (after rate s earlier) between) ≤
        lostOver rate (runIntervals s (earlier ++ between ++ later)) := by
      rw [runIntervals_append rate, runIntervals_append rate, lostOver_append, lostOver_append]
      omega
    rw [after_append]
    exact (drift rate (after rate s earlier) between orderedPart fedPart).mpr (by omega)

/-- A device at which a call has queued a thousand frames. -/
def queued : Device := (Call.queueSamples 1 1 2000).run 22050 ⟨0, 0⟩

/-- Twenty polls, a millisecond apart. -/
def polls : List Call :=
  (List.range 20).map (fun index => .getFramesRemaining (UInt64.ofNat (index + 2)))

/-- At 22050 frames a second each of twenty polls drops a twentieth of a frame. -/
theorem realTime_polls : RealTime 22050 queued polls ↔ Small 22050 (runIntervals queued polls) :=
  realTime_iff 22050 queued polls (by decide) (by decide)

/-- After the twenty polls the device is a whole frame behind: each poll drains twenty-two frames,
where twenty-two and a twentieth are due. -/
theorem polls_fall_behind :
    Ordered queued polls ∧ Fed 22050 queued polls ∧ ¬ RealTime 22050 queued polls := by
  refine ⟨by decide, by decide, ?_⟩
  intro exact
  have behind := exact.exact [] polls [] (by simp)
  have frames : drained 22050 queued polls = 440 := by decide
  have started : queued.last.toNat = 1 := by decide
  have ended : (after 22050 queued polls).last.toNat = 21 := by decide
  have rate : (22050 : UInt32).toNat = 22050 := by decide
  change |((drained 22050 queued polls : ℕ) : ℚ) -
    ((after 22050 queued polls).last.toNat - queued.last.toNat : ℚ) *
      (22050 : UInt32).toNat / 1000| < 1 at behind
  rw [frames, started, ended, rate] at behind
  norm_num at behind

end NoMercyRecomp.VirtualAudio
