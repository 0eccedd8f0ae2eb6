import Mathlib.Data.Int.ModEq

/- The remainder of a signed number by an unsigned one of the same width, as C++
   computes it: the signed number is converted first, so a negative one is taken
   modulo 2^w, and only then modulo the divisor. That is its remainder only where
   the divisor divides 2^w. -/
namespace MixedRemainder

variable {w : Nat}

theorem toInt_of_nonneg {x : BitVec w} (h : 0 ≤ x.toInt) : x.toInt = x.toNat := by
  rw [BitVec.toInt_eq_toNat_cond] at *
  have hlt := x.isLt
  split at h
  · next hle => rw [if_pos hle]
  · omega

theorem toInt_of_neg {x : BitVec w} (h : x.toInt < 0) : x.toInt = x.toNat - (2 ^ w : Nat) := by
  rw [BitVec.toInt_eq_toNat_cond] at *
  split at h
  · omega
  · next hge => rw [if_neg hge]

/-- The remainder is one of a division that rounds down. -/
theorem toNat_umod_eq_iff (x n : BitVec w) :
    ((x.umod n).toNat : Int) = x.toInt % n.toNat ↔ 0 ≤ x.toInt ∨ n.toNat ∣ 2 ^ w := by
  have humod : ((x.umod n).toNat : Int) = (x.toNat : Int) % n.toNat := by
    rw [show x.umod n = x % n from rfl, BitVec.toNat_umod, Int.natCast_emod]
  rw [humod]
  by_cases h : 0 ≤ x.toInt
  · rw [toInt_of_nonneg h]
    exact ⟨fun _ => Or.inl (Int.natCast_nonneg _), fun _ => rfl⟩
  · have hneg := toInt_of_neg (Int.not_le.mp h)
    -- the converted number is larger by 2^w
    have hdiff : (x.toNat : Int) - x.toInt = (2 ^ w : Nat) := by omega
    calc (x.toNat : Int) % n.toNat = x.toInt % n.toNat
        ↔ ((x.toNat : Int) - x.toInt) % n.toNat = 0 := Int.emod_eq_emod_iff_emod_sub_eq_zero
      _ ↔ (n.toNat : Int) ∣ (2 ^ w : Nat) := by rw [hdiff, Int.dvd_iff_emod_eq_zero]
      _ ↔ n.toNat ∣ 2 ^ w := Int.natCast_dvd_natCast
      _ ↔ 0 ≤ x.toInt ∨ n.toNat ∣ 2 ^ w := by simp [h]

/-- A remainder by a number that is positive when signed is not negative when signed. -/
theorem toInt_umod {x n : BitVec w} (hn : 0 < n.toInt) : (x.umod n).toInt = (x.umod n).toNat := by
  have hsigned := toInt_of_nonneg (Int.le_of_lt hn)
  have hlt : 2 * n.toNat < 2 ^ w := by
    by_contra hge
    have hneg := BitVec.toInt_eq_toNat_cond n
    rw [if_neg hge] at hneg
    have := n.isLt
    omega
  have hmod : (x.umod n).toNat < n.toNat := by
    rw [show x.umod n = x % n from rfl, BitVec.toNat_umod]
    exact Nat.mod_lt _ (by omega)
  exact BitVec.toInt_eq_toNat_of_lt (by omega)

end MixedRemainder
