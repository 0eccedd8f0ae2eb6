import StreamFdl.Base.Hysteresis
import StreamFdl.FaultDetection

/- The abort criterion of `DynamicSubgraphBuilder`. In every round the number of
   new alerts is pushed to `mLastNrAlerts` and the mean of that buffer compared
   with a threshold: a hysteresis machine whose signal is "the mean exceeds the
   threshold". The buffer never drops a value, so the mean is the one of all
   rounds so far and not of the last `nr-normalisation-values` of them. -/
namespace StreamFdl
open Runs SlidingWindow Hysteresis

/-- What `checkAbortCirteria` works on. -/
structure AbortCriteria where
  mSomethingIsGoingOn : Bool
  mLastNrAlerts : CircularBuffer
  cmAbortionCriteriaThreshold : Rat

namespace AbortCriteria

def new (nrNormalisationValues : Nat) (threshold : Rat) : Option AbortCriteria :=
  (CircularBuffer.construct nrNormalisationValues).map fun b => ⟨false, b, threshold⟩

def checkAbortCirteria (s : AbortCriteria) (newAlerts : List Alert) : Option (AbortCriteria × Bool) := do
  let nrNewAlerts := newAlerts.length
  let (mLastNrAlerts, _) ← s.mLastNrAlerts.push nrNewAlerts
  let s := { s with mLastNrAlerts := mLastNrAlerts }
  let meanNewAlerts ← s.mLastNrAlerts.getMean
  if s.mSomethingIsGoingOn then
    pure (s, decide (meanNewAlerts ≤ s.cmAbortionCriteriaThreshold))
  else if meanNewAlerts > s.cmAbortionCriteriaThreshold then
    pure ({ s with mSomethingIsGoingOn := true }, false)
  else pure (s, false)

/-- The part of a round of `run` that deals with the abort; the state is paired with whether the
    last round aborted. -/
def step (s : AbortCriteria × Bool) (emittedAlerts : List Alert) : Option (AbortCriteria × Bool) :=
  (s.1.checkAbortCirteria emittedAlerts).map fun r =>
    (if r.2 then { r.1 with mSomethingIsGoingOn := false } else r.1, r.2)

section
variable (nrNormalisationValues : Nat) (threshold : Rat) (rounds : List (List Alert))

/-- The state after the first `i` rounds. -/
def after (i : Nat) : Option (AbortCriteria × Bool) :=
  (new nrNormalisationValues threshold).bind fun s => run step (s, false) (rounds.take i)

/-- Round `i` aborts. -/
def aborts (i : Nat) : Bool := (after nrNormalisationValues threshold rounds i).any Prod.snd

/-- `mSomethingIsGoingOn` after round `i`. -/
def goingOn (i : Nat) : Bool :=
  (after nrNormalisationValues threshold rounds i).any fun s => s.1.mSomethingIsGoingOn

/-- The counts of the first `i` rounds. -/
def counts (i : Nat) : List Rat := (rounds.take i).map fun alerts => (alerts.length : Rat)

/-- The mean of the last counts up to round `i` exceeds the threshold. -/
def Exceeds (i : Nat) : Prop := threshold < mean (window nrNormalisationValues (counts rounds i))

/-- The mean of all counts up to round `i` does. -/
def ExceedsOverall (i : Nat) : Prop := threshold < mean (counts rounds i)

/-- A hysteresis machine over the sliding mean; an investigation still going on in the last of
    `nr-normalisation-values` consecutive rounds without alerts is aborted in it. -/
structure AbortLaw : Prop where
  law : Law (Exceeds nrNormalisationValues threshold rounds)
    (fun i => goingOn nrNormalisationValues threshold rounds i = true)
    (fun i => aborts nrNormalisationValues threshold rounds i = true) rounds.length
  calm : 0 ≤ threshold → ∀ i, i + nrNormalisationValues ≤ rounds.length →
    (∀ j, i < j → j ≤ i + nrNormalisationValues → rounds[j - 1]? = some []) →
    goingOn nrNormalisationValues threshold rounds (i + nrNormalisationValues - 1) = true →
    aborts nrNormalisationValues threshold rounds (i + nrNormalisationValues) = true

end

/-! The machine follows the mean of all counts. -/

variable {size : Nat} {threshold : Rat} {rounds : List (List Alert)}

/-- What the next round computes its mean from. -/
structure Counted (threshold : Rat) (values : List Rat) (s : AbortCriteria) : Prop where
  buffer : s.mLastNrAlerts.Holds values
  threshold : s.cmAbortionCriteriaThreshold = threshold

/-- One round: whatever the flag was, it becomes whether the mean of all counts exceeds the
    threshold, and the round aborts when the flag is cleared. -/
theorem step_eq {s : AbortCriteria} {b' : CircularBuffer} {it : Nat} {m : Rat} {alerts : List Alert}
    (hpush : s.mLastNrAlerts.push (alerts.length : Rat) = some (b', it)) (hmean : b'.getMean = some m)
    (b : Bool) : step (s, b) alerts = some
      (⟨decide (s.cmAbortionCriteriaThreshold < m), b', s.cmAbortionCriteriaThreshold⟩,
        s.mSomethingIsGoingOn && decide (m ≤ s.cmAbortionCriteriaThreshold)) := by
  cases hon : s.mSomethingIsGoingOn with
  | true =>
    by_cases hle : m ≤ s.cmAbortionCriteriaThreshold
    · simp [step, checkAbortCirteria, hpush, hmean, hon, hle, not_lt.mpr hle]
    · simp [step, checkAbortCirteria, hpush, hmean, hon, hle, not_le.mp hle]
  | false =>
    by_cases hlt : s.cmAbortionCriteriaThreshold < m
    · simp [step, checkAbortCirteria, hpush, hmean, hon, hlt]
    · simp [step, checkAbortCirteria, hpush, hmean, hon, hlt]

theorem Counted.step {values : List Rat} {s : AbortCriteria} (h : s.Counted threshold values)
    (b : Bool) (alerts : List Alert) :
    ∃ t, AbortCriteria.step (s, b) alerts = some t ∧
      t.1.Counted threshold (values ++ [(alerts.length : Rat)]) ∧
      (t.2 = true ↔ s.mSomethingIsGoingOn = true ∧
        ¬ threshold < mean (values ++ [(alerts.length : Rat)])) ∧
      (t.1.mSomethingIsGoingOn = true ↔ threshold < mean (values ++ [(alerts.length : Rat)])) := by
  obtain ⟨⟨b', it⟩, hpush⟩ : ∃ r, s.mLastNrAlerts.push (alerts.length : Rat) = some r := by
    simp [CircularBuffer.push, h.buffer.current]
  have hholds := h.buffer.push hpush
  have hmean : b'.getMean = some (mean (values ++ [(alerts.length : Rat)])) := by
    rw [CircularBuffer.getMean_eq (hholds.ne_nil (by simp)), hholds.buffer,
      mean_perm (List.reverse_perm _)]
  refine ⟨_, step_eq hpush hmean b, ⟨hholds, h.threshold⟩, ?_, ?_⟩
  · simp [h.threshold]
  · simp [h.threshold]

theorem counts_succ {i : Nat} (hi : i < rounds.length) :
    counts rounds (i + 1) = counts rounds i ++ [(rounds[i].length : Rat)] := by
  rw [counts, counts, List.take_succ_eq_append_getElem hi, List.map_append]
  rfl

theorem after_succ {i : Nat} (hi : i < rounds.length) : after size threshold rounds (i + 1) =
    (after size threshold rounds i).bind fun s => step s rounds[i] := by
  rw [after, after, List.take_succ_eq_append_getElem hi, Option.bind_assoc]
  congr 1
  funext s
  rw [run_append]
  congr 1
  funext t
  rw [run_cons]
  cases step t rounds[i] <;> rfl

/-- Every round is defined, and computes its mean from all counts so far. -/
theorem counted_after (hsize : 2 ≤ size) (i : Nat) (hi : i ≤ rounds.length) :
    ∃ s, after size threshold rounds i = some s ∧ s.1.Counted threshold (counts rounds i) := by
  induction i with
  | zero =>
    have hnew : CircularBuffer.construct size = some ⟨size, [], some 0⟩ := if_pos hsize
    refine ⟨(⟨false, ⟨size, [], some 0⟩, threshold⟩, false), by simp [after, new, hnew], ?_, rfl⟩
    simpa [counts] using CircularBuffer.holds_construct hnew
  | succ i ih =>
    obtain ⟨s, hs, hcounted⟩ := ih (by omega)
    obtain ⟨t, ht, hcounted', _⟩ := hcounted.step s.2 rounds[i]
    exact ⟨t, by rw [after_succ hi, hs]; exact ht, by rw [counts_succ hi]; exact hcounted'⟩

theorem follows (hsize : 2 ≤ size) : Follows (ExceedsOverall threshold rounds)
    (fun i => goingOn size threshold rounds i = true)
    (fun i => aborts size threshold rounds i = true) rounds.length := by
  have hstep : ∀ i, i < rounds.length →
      (aborts size threshold rounds (i + 1) = true ↔
        goingOn size threshold rounds i = true ∧ ¬ ExceedsOverall threshold rounds (i + 1)) ∧
      (goingOn size threshold rounds (i + 1) = true ↔ ExceedsOverall threshold rounds (i + 1)) := by
    intro i hi
    have hafter : ∃ s, after size threshold rounds i = some s ∧ s.1.Counted threshold (counts rounds i) :=
      counted_after hsize i (Nat.le_of_lt hi)
    obtain ⟨s, hs, hcounted⟩ := hafter
    obtain ⟨t, ht, _, habort, hflag⟩ := hcounted.step s.2 rounds[i]
    have ht' : after size threshold rounds (i + 1) = some t := by rw [after_succ hi, hs]; exact ht
    simp only [aborts, goingOn, ht', hs, Option.any_some, ExceedsOverall, counts_succ hi]
    exact ⟨habort, hflag⟩
  refine ⟨?_, fun i hi hon => ?_, fun i hi hon => ?_⟩
  · have hnew : CircularBuffer.construct size = some ⟨size, [], some 0⟩ := if_pos hsize
    simp [goingOn, after, new, hnew]
  · obtain ⟨habort, hflag⟩ := hstep i hi
    exact ⟨fun h => hon (habort.mp h).1, hflag⟩
  · obtain ⟨habort, hflag⟩ := hstep i hi
    refine ⟨habort.trans ⟨fun h => h.2, fun h => ⟨hon, h⟩⟩, ?_⟩
    rw [hflag, habort]
    exact ⟨fun h h' => h'.2 h, fun h => by_contra fun hlow => h ⟨hon, hlow⟩⟩

theorem length_counts {i : Nat} (hi : i ≤ rounds.length) : (counts rounds i).length = i := by
  rw [counts, List.length_map, List.length_take]
  omega

theorem exceedsOverall_iff {i : Nat} (hi : 0 < i) (hk : i ≤ rounds.length) :
    ExceedsOverall threshold rounds i ↔ threshold * i < (counts rounds i).sum := by
  have hlen := length_counts hk
  rw [ExceedsOverall, lt_mean_iff (fun h => by rw [h] at hlen; simp at hlen; omega), hlen]

theorem exceeds_iff {i : Nat} (hsize : 2 ≤ size) (hi : size < i) (hk : i ≤ rounds.length) :
    Exceeds size threshold rounds i ↔ threshold * size < (window size (counts rounds i)).sum := by
  have hlen : (window size (counts rounds i)).length = size := by
    rw [length_window, length_counts hk]
    omega
  rw [Exceeds, lt_mean_iff (fun h => by rw [h] at hlen; simp at hlen; omega), hlen]

/-- Rounds without alerts bring the sliding mean to zero. -/
theorem not_exceeds_calm {i : Nat} (ht : 0 ≤ threshold)
    (hi : i + size ≤ rounds.length)
    (hcalm : ∀ j, i < j → j ≤ i + size → rounds[j - 1]? = some []) :
    ¬ Exceeds size threshold rounds (i + size) := by
  have hlen : (counts rounds (i + size)).length = i + size := length_counts hi
  have hzero : ∀ x ∈ window size (counts rounds (i + size)), x = 0 := by
    intro x hx
    rw [window, hlen, Nat.add_sub_cancel, List.mem_drop_iff_getElem] at hx
    obtain ⟨j, hj, rfl⟩ := hx
    have hempty := hcalm (i + j + 1) (by omega) (by omega)
    rw [Nat.add_sub_cancel] at hempty
    obtain ⟨_, hget⟩ := List.getElem?_eq_some_iff.mp hempty
    simp [counts, hget]
  rw [Exceeds, mean, List.sum_eq_zero hzero, zero_div, not_lt]
  exact ht

end AbortCriteria

/-- The abort criterion is the hysteresis machine over the sliding mean, in all rounds, exactly
    when in every round `i` that the window does not reach back to the start of, all counts sum up
    to more than `threshold` times their number if and only if the last ones do. -/
theorem abortLaw_iff (size : Nat) (threshold : Rat) (rounds : List (List Alert)) (sizeable : 2 ≤ size) :
    AbortCriteria.AbortLaw size threshold rounds ↔ ∀ i, size < i → i ≤ rounds.length →
      (threshold * i < (AbortCriteria.counts rounds i).sum ↔
        threshold * size < (window size (AbortCriteria.counts rounds i)).sum) := by
  have h : Follows (AbortCriteria.ExceedsOverall threshold rounds)
      (fun i => AbortCriteria.goingOn size threshold rounds i = true)
      (fun i => AbortCriteria.aborts size threshold rounds i = true) rounds.length :=
    AbortCriteria.follows sizeable
  have hagree : (∀ i, 0 < i → i ≤ rounds.length → (AbortCriteria.ExceedsOverall threshold rounds i ↔
      AbortCriteria.Exceeds size threshold rounds i)) ↔ ∀ i, size < i → i ≤ rounds.length →
      (threshold * i < (AbortCriteria.counts rounds i).sum ↔
        threshold * size < (window size (AbortCriteria.counts rounds i)).sum) := by
    refine ⟨fun ha i hi hk => ?_, fun ha i hi hk => ?_⟩
    · rw [← AbortCriteria.exceedsOverall_iff (by omega) hk, ← AbortCriteria.exceeds_iff sizeable hi hk]
      exact ha i (by omega) hk
    · by_cases hle : i ≤ size
      · rw [AbortCriteria.Exceeds, AbortCriteria.ExceedsOverall, window_eq_self]
        rw [AbortCriteria.length_counts hk]
        exact hle
      · rw [AbortCriteria.exceedsOverall_iff hi hk,
          AbortCriteria.exceeds_iff sizeable (Nat.lt_of_not_le hle) hk]
        exact ha i (Nat.lt_of_not_le hle) hk
  rw [← hagree]
  refine ⟨fun hl => h.law_iff.mp hl.law, fun hagree => ⟨h.law_iff.mpr hagree, ?_⟩⟩
  intro ht i hlen hcalm hon
  obtain ⟨n, hn⟩ : ∃ n, i + size = n + 1 := ⟨i + size - 1, by omega⟩
  have hlow := AbortCriteria.not_exceeds_calm ht hlen hcalm
  rw [hn] at hlow hon ⊢
  exact ((h.congr hagree).stop_iff (by omega)).mpr ⟨hon, hlow⟩

def exampleAlerts (n : Nat) : List Alert := List.replicate n ⟨.null, [], 0, .SEVERITY_NORMAL⟩

/-- The counts 1, 3, 0, 0: in the third round the mean of all of them and that of the last two both exceed
    the threshold, and in the fourth, which aborts, neither does. -/
theorem abortLaw_fourRounds :
    AbortCriteria.AbortLaw 2 1 [exampleAlerts 1, exampleAlerts 3, exampleAlerts 0, exampleAlerts 0] ∧
    AbortCriteria.aborts 2 1 [exampleAlerts 1, exampleAlerts 3, exampleAlerts 0, exampleAlerts 0] 4 = true := by
  refine ⟨(abortLaw_iff 2 1 [exampleAlerts 1, exampleAlerts 3, exampleAlerts 0, exampleAlerts 0]
    (by decide)).mpr fun i hi hk => ?_, by decide +kernel⟩
  have hlast : i = 3 ∨ i = 4 := by
    simp only [List.length_cons, List.length_nil] at hk
    omega
  rcases hlast with rfl | rfl
  · decide +kernel
  · decide +kernel

/-- Three alerts and two rounds without any: the mean of the last two counts is zero, but the
    investigation goes on. -/
theorem not_abortLaw_threeRounds :
    ¬ AbortCriteria.AbortLaw 2 (1 / 2) [exampleAlerts 3, exampleAlerts 0, exampleAlerts 0] := by
  intro h
  have hcalm := h.calm (by decide +kernel) 1 (by decide) (fun j hj hj' => by
    have : j = 2 ∨ j = 3 := by omega
    rcases this with rfl | rfl <;> rfl) (by decide +kernel)
  exact absurd hcalm (by decide +kernel)

end StreamFdl
