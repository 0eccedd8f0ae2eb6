import Mathlib.Logic.Basic
import Mathlib.Tactic.ByContra

/- A machine with two states. In every round, counted from 1, a signal is high or
   not; the machine is off before the first round, goes on in a round with a high
   signal, and stops in the first round after that whose signal is not high.
   `Follows` is the machine's transition, round by round; `Law` says which rounds
   it is on in and which it stops in, from the signal and the stops before. A
   machine that follows one signal keeps the law of another one exactly when the
   two signals agree. -/
namespace Hysteresis

/-- Round by round: off, the machine goes on if the signal is high, and does not stop; on, it
    stops if the signal is not high, and goes off with it. -/
structure Follows (high on stop : Nat → Prop) (k : Nat) : Prop where
  start : ¬ on 0
  off : ∀ i, i < k → ¬ on i → ¬ stop (i + 1) ∧ (on (i + 1) ↔ high (i + 1))
  going : ∀ i, i < k → on i → (stop (i + 1) ↔ ¬ high (i + 1)) ∧ (on (i + 1) ↔ ¬ stop (i + 1))

/-- Some round up to `i` was high, and no round from it to before `l` stopped. -/
def Since (high stop : Nat → Prop) (i l : Nat) : Prop :=
  ∃ j, 0 < j ∧ j ≤ i ∧ high j ∧ ∀ r, j ≤ r → r < l → ¬ stop r

/-- It stops in the rounds that are not high while it is on, and is on since a high round that was
    not followed by a stop. -/
structure Law (high on stop : Nat → Prop) (k : Nat) : Prop where
  stops : ∀ i, 0 < i → i ≤ k → (stop i ↔ ¬ high i ∧ Since high stop (i - 1) i)
  goesOn : ∀ i, 0 < i → i ≤ k → (on i ↔ Since high stop i (i + 1))

variable {high high' on stop : Nat → Prop} {i k : Nat}

/-- By the law alone, the machine is on in the high rounds. -/
theorem Law.on_iff (h : Law high on stop k) (hi : 0 < i) (hk : i ≤ k) : on i ↔ high i := by
  rw [h.goesOn i hi hk]
  refine ⟨fun ⟨j, hj, hji, hhigh, hno⟩ => ?_, fun hhigh => ?_⟩
  · by_contra hlow
    have hne : j ≠ i := fun he => hlow (he ▸ hhigh)
    have hstop := (h.stops i hi hk).mpr
      ⟨hlow, j, hj, by omega, hhigh, fun r hjr hri => hno r hjr (by omega)⟩
    exact hno i (by omega) (by omega) hstop
  · refine ⟨i, hi, Nat.le_refl i, hhigh, fun r hir hri hstop => ?_⟩
    have : r = i := by omega
    subst this
    exact ((h.stops r hi hk).mp hstop).1 hhigh

theorem Follows.on_iff (h : Follows high on stop k) (hi : 0 < i) (hk : i ≤ k) : on i ↔ high i := by
  obtain ⟨n, rfl⟩ : ∃ n, i = n + 1 := ⟨i - 1, by omega⟩
  by_cases hon : on n
  · obtain ⟨hs, ho⟩ := h.going n (by omega) hon
    rw [ho, hs, not_not]
  · exact (h.off n (by omega) hon).2

theorem Follows.stop_iff (h : Follows high on stop k) (hk : i < k) :
    stop (i + 1) ↔ on i ∧ ¬ high (i + 1) := by
  by_cases hon : on i
  · rw [(h.going i hk hon).1]
    exact ⟨fun hl => ⟨hon, hl⟩, fun hl => hl.2⟩
  · exact iff_of_false (h.off i hk hon).1 (fun hl => hon hl.1)

/-- From a high round on, the signal stays high as long as nothing stops. -/
theorem Follows.high_of_no_stop (h : Follows high on stop k) {j : Nat} (hj : 0 < j) (hhigh : high j)
    (n : Nat) (hk : j + n ≤ k) (hno : ∀ r, j < r → r ≤ j + n → ¬ stop r) : high (j + n) := by
  induction n with
  | zero => exact hhigh
  | succ n ih =>
    have hprev := ih (by omega) (fun r hjr hr => hno r hjr (by omega))
    have hon := (h.on_iff (i := j + n) (by omega) (by omega)).mpr hprev
    by_contra hlow
    exact hno (j + n + 1) (by omega) (by omega) ((h.stop_iff (by omega)).mpr ⟨hon, hlow⟩)

theorem Follows.since (h : Follows high on stop k) {l : Nat} (hi : i ≤ k) (hil : i < l)
    (hs : Since high stop i l) : 0 < i ∧ high i := by
  obtain ⟨j, hj, hji, hhigh, hno⟩ := hs
  obtain ⟨n, rfl⟩ : ∃ n, i = j + n := ⟨i - j, by omega⟩
  exact ⟨by omega, h.high_of_no_stop hj hhigh n hi fun r hjr hr => hno r (by omega) (by omega)⟩

theorem Follows.law (h : Follows high on stop k) : Law high on stop k := by
  refine ⟨fun i hi hk => ?_, fun i hi hk => ?_⟩
  · obtain ⟨n, rfl⟩ : ∃ n, i = n + 1 := ⟨i - 1, by omega⟩
    rw [h.stop_iff (by omega), Nat.add_sub_cancel]
    refine ⟨fun ⟨hon, hlow⟩ => ⟨hlow, ?_⟩, fun ⟨hlow, hs⟩ => ⟨?_, hlow⟩⟩
    · have hn : 0 < n := Nat.pos_of_ne_zero fun h0 => h.start (h0 ▸ hon)
      have hhigh := (h.on_iff hn (by omega)).mp hon
      refine ⟨n, hn, Nat.le_refl n, hhigh, fun r hr hrn hstop => ?_⟩
      have : r = n := by omega
      subst this
      obtain ⟨r, rfl⟩ : ∃ r', r = r' + 1 := ⟨r - 1, by omega⟩
      exact ((h.stop_iff (by omega)).mp hstop).2 hhigh
    · obtain ⟨hn, hhigh⟩ := h.since (by omega) (by omega) hs
      exact (h.on_iff hn (by omega)).mpr hhigh
  · rw [h.on_iff hi hk]
    refine ⟨fun hhigh => ⟨i, hi, Nat.le_refl i, hhigh, fun r hr hri hstop => ?_⟩,
      fun hs => (h.since hk (by omega) hs).2⟩
    have : r = i := by omega
    subst this
    obtain ⟨r, rfl⟩ : ∃ r', r = r' + 1 := ⟨r - 1, by omega⟩
    exact ((h.stop_iff (by omega)).mp hstop).2 hhigh

/-- Only the signal's values in the rounds up to the last one matter. -/
theorem Follows.congr (h : Follows high on stop k) (hh : ∀ i, 0 < i → i ≤ k → (high i ↔ high' i)) :
    Follows high' on stop k := by
  refine ⟨h.start, fun i hi hon => ?_, fun i hi hon => ?_⟩
  · rw [← hh (i + 1) (by omega) (by omega)]
    exact h.off i hi hon
  · rw [← hh (i + 1) (by omega) (by omega)]
    exact h.going i hi hon

/-- A machine that follows one signal keeps the law of another exactly when they agree. -/
theorem Follows.law_iff (h : Follows high on stop k) :
    Law high' on stop k ↔ ∀ i, 0 < i → i ≤ k → (high i ↔ high' i) :=
  ⟨fun hl _ hi hk => (h.on_iff hi hk).symm.trans (hl.on_iff hi hk), fun hh => (h.congr hh).law⟩

end Hysteresis
