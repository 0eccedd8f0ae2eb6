import StreamFdl.Base.SlidingWindow
import Mathlib.Algebra.BigOperators.Fin
import Mathlib.Algebra.Order.Chebyshev
import Mathlib.Tactic.Ring
import Mathlib.Tactic.FieldSimp
import Mathlib.Tactic.LinearCombination
import Mathlib.Tactic.Positivity

/- How far a value can lie from the mean of a sample it belongs to: in a sample of
   `n` values at most `√(n - 1)` standard deviations, since the other distances
   have to make up for its own. One value apart from all others, which are equal,
   lies exactly that far. -/
namespace SlidingWindow

variable {K : Type} [Field K]

/-- The distances from `m` add up to what the sum differs from as many times `m`. -/
theorem sum_sub_const (m : K) (xs : List K) : (xs.map fun x => x - m).sum = xs.sum - xs.length * m := by
  induction xs with
  | nil => simp
  | cons x xs ih =>
    rw [List.map_cons, List.sum_cons, List.sum_cons, ih, List.length_cons, Nat.cast_succ]
    ring

/-- The mean of one value apart from `k` equal ones. -/
theorem mean_outlier (k : Nat) : mean ((1 : K) :: List.replicate k 0) = 1 / (k + 1) := by
  simp [mean]

variable [LinearOrder K] [IsStrictOrderedRing K]

theorem sq_sum_le (xs : List K) : xs.sum ^ 2 ≤ xs.length * (xs.map fun x => x * x).sum := by
  have h := sq_sum_le_card_mul_sum_sq (s := Finset.univ) (f := fun i : Fin xs.length => xs[i.1])
  rw [Fin.sum_univ_getElem, Finset.card_univ, Fintype.card_fin] at h
  simp only [pow_two] at h
  rw [Fin.sum_univ_fun_getElem xs fun x => x * x, ← pow_two] at h
  exact h

/-- The first of `n` values lies within `√(n - 1)` standard deviations of their mean. -/
theorem sq_sub_mean_cons_le (x : K) (ys : List K) :
    (x - mean (x :: ys)) ^ 2 ≤ ys.length * variance (x :: ys) := by
  have hpos : (0 : K) < ys.length + 1 := by positivity
  unfold variance meanSquare
  set m := mean (x :: ys) with hm
  have hsum : m * (ys.length + 1) = x + ys.sum := by
    rw [hm, mean, List.sum_cons, List.length_cons, Nat.cast_succ]
    field_simp
  -- the other distances add up to the opposite of the first one
  have hothers : (ys.map fun y => y - m).sum = -(x - m) := by
    rw [sum_sub_const]
    linear_combination -hsum
  have hcauchy := sq_sum_le (ys.map fun y => y - m)
  rw [hothers, List.length_map, List.map_map] at hcauchy
  rw [mean, List.map_cons, List.sum_cons, List.length_cons, List.length_map, Nat.cast_succ, ← mul_div_assoc,
    le_div_iff₀ hpos]
  calc (x - m) ^ 2 * (ys.length + 1)
      = ys.length * ((x - m) * (x - m)) + (-(x - m)) ^ 2 := by ring
    _ ≤ ys.length * ((x - m) * (x - m)) + ys.length * (ys.map fun y => (y - m) * (y - m)).sum :=
        add_le_add_right hcauchy _
    _ = ys.length * ((x - m) * (x - m) + (ys.map fun y => (y - m) * (y - m)).sum) := by ring

/-- A value of a sample of size `n` lies within `√(n - 1)` standard deviations of its mean. -/
theorem sq_sub_mean_le {x : K} {xs : List K} (h : x ∈ xs) :
    (x - mean xs) ^ 2 ≤ (xs.length - 1) * variance xs := by
  have hperm := List.perm_cons_erase h
  have hlength : (xs.length : K) - 1 = ((xs.erase x).length : K) := by
    rw [hperm.length_eq, List.length_cons, Nat.cast_succ, add_sub_cancel_right]
  rw [hlength, variance, mean_perm hperm, meanSquare_perm _ hperm]
  exact sq_sub_mean_cons_le x (xs.erase x)

theorem variance_outlier (k : Nat) : variance ((1 : K) :: List.replicate k 0) = k / (k + 1) ^ 2 := by
  have hpos : (0 : K) < k + 1 := by positivity
  rw [variance, mean_outlier, meanSquare, mean, List.map_cons, List.map_replicate, List.sum_cons,
    List.sum_replicate, List.length_cons, List.length_replicate, Nat.cast_succ, nsmul_eq_mul]
  field_simp
  ring

/-- One value apart meets the bound. -/
theorem sq_sub_mean_outlier (k : Nat) : (1 - mean ((1 : K) :: List.replicate k 0)) ^ 2 =
    k * variance ((1 : K) :: List.replicate k 0) := by
  have hpos : (0 : K) < k + 1 := by positivity
  rw [mean_outlier, variance_outlier]
  field_simp
  ring

end SlidingWindow
