import Mathlib.Algebra.BigOperators.Group.List.Basic
import Mathlib.Algebra.Field.Basic
import Mathlib.Algebra.Field.Rat
import Mathlib.Algebra.Order.BigOperators.Group.List
import Mathlib.Algebra.Order.Field.Basic
import Mathlib.Data.Rat.Cast.Order

/- The last values of a growing sequence, and their mean and variance. A value
   that arrives is appended; `window n xs` is what a window of size `n` holds
   after the values `xs`, oldest first. -/
namespace SlidingWindow

section
variable {α : Type} {n : Nat} {xs : List α}

/-- The last `n` values, or all of them while there are not more. -/
def window (n : Nat) (xs : List α) : List α := xs.drop (xs.length - n)

@[simp] theorem length_window (n : Nat) (xs : List α) : (window n xs).length = min xs.length n := by
  simp only [window, List.length_drop]
  omega

theorem window_eq_self (h : xs.length ≤ n) : window n xs = xs := by
  rw [window, Nat.sub_eq_zero_of_le h, List.drop_zero]

end

section
variable {K : Type} [Field K]

def mean (xs : List K) : K := xs.sum / xs.length

/-- The mean of the squared distances from `m`. -/
def meanSquare (m : K) (xs : List K) : K := mean (xs.map fun x => (x - m) * (x - m))

/-- The population variance. -/
def variance (xs : List K) : K := meanSquare (mean xs) xs

theorem mean_perm {xs ys : List K} (h : xs.Perm ys) : mean xs = mean ys := by
  rw [mean, mean, h.sum_eq, h.length_eq]

theorem meanSquare_perm {xs ys : List K} (m : K) (h : xs.Perm ys) :
    meanSquare m xs = meanSquare m ys := mean_perm (h.map _)

/-- Over an ordered field the mean of squares is not negative. -/
theorem meanSquare_nonneg [LinearOrder K] [IsStrictOrderedRing K] (m : K) (xs : List K) :
    0 ≤ meanSquare m xs := by
  refine div_nonneg (List.sum_nonneg fun y hy => ?_) (Nat.cast_nonneg _)
  obtain ⟨x, _, rfl⟩ := List.mem_map.mp hy
  exact mul_self_nonneg _

/-- Comparing a mean is comparing a sum. -/
theorem lt_mean_iff [LinearOrder K] [IsStrictOrderedRing K] {t : K} {xs : List K} (h : xs ≠ []) :
    t < mean xs ↔ t * xs.length < xs.sum := by
  have hpos : (0 : K) < xs.length := Nat.cast_pos.mpr (List.length_pos_iff.mpr h)
  rw [mean, lt_div_iff₀ hpos]

/-- Summing from the left, starting with an accumulator. -/
theorem foldl_add_eq_sum (f : K → K) (xs : List K) (a : K) :
    xs.foldl (fun accumulator value => accumulator + f value) a = a + (xs.map f).sum := by
  induction xs generalizing a with
  | nil => simp
  | cons x xs ih => rw [List.foldl_cons, ih, List.map_cons, List.sum_cons, add_assoc]

end

end SlidingWindow
