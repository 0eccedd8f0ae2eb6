import StreamFdl.Base.MixedRemainder
import StreamFdl.CircularBuffer

/- `CircularBuffer::current` with an offset. The offset is signed and the size of
   the buffer is not, so the remainder is that of `MixedRemainder` and never
   negative; the correction of a negative one is dead code. To the left of the
   first element the buffer is only a ring when its size divides 2^64. -/
namespace StreamFdl
namespace CircularBuffer
open MixedRemainder

/-- `current(offset)`, as an offset into the buffer. The sum of the offsets must not overflow, and the
    buffer must not be empty. -/
def currentAt (b : CircularBuffer) (offset : BitVec 64) : Option Int :=
  b.mCurrent.bind fun current =>
    let currentOffset := BitVec.ofNat 64 current
    let bufferSize := BitVec.ofNat 64 b.mBuffer.length
    if currentOffset.saddOverflow offset = true ∨ bufferSize = 0 then none
    else
      let computedOffset := (currentOffset + offset).umod bufferSize
      let computedOffset := if computedOffset.slt 0 then computedOffset + bufferSize else computedOffset
      some computedOffset.toInt

/-- The elements are a ring: an offset leads to the element at the remainder of the sum, no offset to the
    current one, and a turn more to the same one. -/
structure StepsAround (b : CircularBuffer) (current : Nat) (offset : BitVec 64) : Prop where
  element : b.currentAt offset = some ((current + offset.toInt) % b.mBuffer.length)
  zero : b.currentAt 0 = b.mCurrent.map Int.ofNat
  turn : current + offset.toInt + b.mBuffer.length < 2 ^ 63 →
    b.currentAt (offset + BitVec.ofNat 64 b.mBuffer.length) = b.currentAt offset

variable {b : CircularBuffer} {current : Nat} {offset : BitVec 64}

theorem toInt_ofNat {n : Nat} (h : n < 2 ^ 63) : (BitVec.ofNat 64 n).toInt = n := by
  have hmod : n % 2 ^ 64 = n := Nat.mod_eq_of_lt (by omega)
  rw [BitVec.toInt_eq_toNat_of_lt]
  · rw [BitVec.toNat_ofNat, hmod]
  · rw [BitVec.toNat_ofNat, hmod]
    omega

theorem not_saddOverflow {x y : BitVec 64} (hlow : -2 ^ 63 ≤ x.toInt + y.toInt)
    (hhigh : x.toInt + y.toInt < 2 ^ 63) : ¬ x.saddOverflow y = true := by
  unfold BitVec.saddOverflow
  simp only [Bool.or_eq_true, decide_eq_true_eq, not_or]
  omega

/-- The correction is never made. -/
theorem currentAt_eq (hcur : b.mCurrent = some current) (hin : current < b.mBuffer.length)
    (size : b.mBuffer.length < 2 ^ 63) (hlow : -2 ^ 63 ≤ current + offset.toInt)
    (hhigh : current + offset.toInt < 2 ^ 63) : b.currentAt offset =
      some (((BitVec.ofNat 64 current + offset).umod (BitVec.ofNat 64 b.mBuffer.length)).toNat : Int) := by
  have hcurrent := toInt_ofNat (Nat.lt_trans hin size)
  have hsize := toInt_ofNat size
  have hpos : 0 < (BitVec.ofNat 64 b.mBuffer.length).toInt := by omega
  have hadd : ¬ (BitVec.ofNat 64 current).saddOverflow offset = true := by
    apply not_saddOverflow
    · omega
    · omega
  have hne : ¬ BitVec.ofNat 64 b.mBuffer.length = 0 := by
    intro h0
    rw [h0] at hpos
    exact absurd hpos (by decide)
  have hmod := toInt_umod (x := BitVec.ofNat 64 current + offset) hpos
  unfold currentAt
  rw [hcur, Option.bind_some]
  simp only
  rw [if_neg (not_or.mpr ⟨hadd, hne⟩), if_neg, hmod]
  rw [BitVec.slt_iff_toInt_lt, hmod]
  exact Int.not_lt.mpr (Int.natCast_nonneg _)

/-- The offset leads to the right element when the sum is not negative, or the size divides 2^64. -/
theorem currentAt_element_iff (hcur : b.mCurrent = some current) (hin : current < b.mBuffer.length)
    (size : b.mBuffer.length < 2 ^ 63) (hlow : -2 ^ 63 ≤ current + offset.toInt)
    (hhigh : current + offset.toInt < 2 ^ 63) :
    b.currentAt offset = some ((current + offset.toInt) % b.mBuffer.length) ↔
      0 ≤ current + offset.toInt ∨ b.mBuffer.length ∣ 2 ^ 64 := by
  have hsum : (BitVec.ofNat 64 current + offset).toInt = current + offset.toInt := by
    have hcurrent := toInt_ofNat (Nat.lt_trans hin size)
    rw [BitVec.toInt_add_of_not_saddOverflow, hcurrent]
    apply not_saddOverflow
    · omega
    · omega
  have hlength : (BitVec.ofNat 64 b.mBuffer.length).toNat = b.mBuffer.length := by
    rw [BitVec.toNat_ofNat]
    exact Nat.mod_eq_of_lt (by omega)
  have hiff := toNat_umod_eq_iff (BitVec.ofNat 64 current + offset) (BitVec.ofNat 64 b.mBuffer.length)
  rw [hsum, hlength] at hiff
  rw [currentAt_eq hcur hin size hlow hhigh, Option.some.injEq]
  exact hiff

theorem currentAt_zero (hcur : b.mCurrent = some current) (hin : current < b.mBuffer.length)
    (size : b.mBuffer.length < 2 ^ 63) : b.currentAt 0 = some (current : Int) := by
  have helement : b.currentAt 0 = some ((current + (0 : BitVec 64).toInt) % b.mBuffer.length) := by
    apply (currentAt_element_iff hcur hin size _ _).mpr
    · exact Or.inl (Int.natCast_nonneg _)
    · show (-2 ^ 63 : Int) ≤ current + 0
      omega
    · show (current : Int) + 0 < 2 ^ 63
      omega
  rw [helement]
  show some (((current : Int) + 0) % b.mBuffer.length) = some (current : Int)
  rw [Int.add_zero, Int.emod_eq_of_lt (by omega) (by omega)]

/-- The sum with a turn more, where it does not overflow. -/
theorem toInt_turn (size : b.mBuffer.length < 2 ^ 63)
    (hturn : current + offset.toInt + b.mBuffer.length < 2 ^ 63) :
    (offset + BitVec.ofNat 64 b.mBuffer.length).toInt = offset.toInt + b.mBuffer.length := by
  have hle : -2 ^ 63 ≤ offset.toInt := BitVec.le_toInt offset
  have hsize := toInt_ofNat size
  rw [BitVec.toInt_add_of_not_saddOverflow, hsize]
  apply not_saddOverflow
  · omega
  · omega

/-- The elements are a ring to the right of the first one, and to its left when their number divides
    2^64. A vector has fewer than 2^63 elements. -/
theorem stepsAround_iff (hcur : b.mCurrent = some current) (hin : current < b.mBuffer.length)
    (size : b.mBuffer.length < 2 ^ 63) (hlow : -2 ^ 63 ≤ current + offset.toInt)
    (hhigh : current + offset.toInt < 2 ^ 63) : b.StepsAround current offset ↔
      0 ≤ current + offset.toInt ∨ b.mBuffer.length ∣ 2 ^ 64 := by
  have hiff := currentAt_element_iff hcur hin size hlow hhigh
  constructor
  · intro h
    exact hiff.mp h.element
  · intro h
    refine ⟨hiff.mpr h, ?_, fun hturn => ?_⟩
    · rw [currentAt_zero hcur hin size, hcur]
      rfl
    · have hadd := toInt_turn size hturn
      have hnext : b.currentAt (offset + BitVec.ofNat 64 b.mBuffer.length) =
          some ((current + (offset + BitVec.ofNat 64 b.mBuffer.length).toInt) % b.mBuffer.length) := by
        apply (currentAt_element_iff hcur hin size _ _).mpr
        · exact h.imp_left fun hnonneg => by omega
        · omega
        · omega
      rw [hnext, hiff.mpr h, hadd, ← Int.add_assoc, Int.add_emod_right]

/-- One step to the left of the second of three elements. -/
theorem stepsAround_back : (⟨3, [1, 2, 3], some 1⟩ : CircularBuffer).StepsAround 1 (-1) :=
  (stepsAround_iff rfl (by decide) (by decide) (by decide) (by decide)).mpr (Or.inl (by decide))

/-- One step to the left of the first of three elements leads to itself. -/
theorem not_stepsAround_first : ¬ ∀ (b : CircularBuffer) (current : Nat) (offset : BitVec 64),
    b.mCurrent = some current → current < b.mBuffer.length → b.mBuffer.length < 2 ^ 63 →
    -2 ^ 63 ≤ current + offset.toInt → current + offset.toInt < 2 ^ 63 → b.StepsAround current offset := by
  intro h
  have hfirst := h ⟨3, [1, 2, 3], some 0⟩ 0 (-1) rfl (by decide) (by decide) (by decide) (by decide)
  have hself : (⟨3, [1, 2, 3], some 0⟩ : CircularBuffer).currentAt (-1) = some 0 := by decide
  exact absurd (hself.symm.trans hfirst.element) (by decide)

end CircularBuffer
end StreamFdl
