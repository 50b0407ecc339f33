import Mathlib.Algebra.Ring.Nat
import TypeStub.Number.Binary64

-- Doubles that stay far below infinity.
namespace TypeStub

theorem roundHalfEven_le (num den : Nat) : roundHalfEven num den ≤ num + 1 := by
  have hquotient := Nat.div_le_self num den
  rw [roundHalfEven]
  split <;> omega

theorem scaleRatio_fst_le (num den : Nat) (exponent : Int) :
    (scaleRatio num den exponent).1 ≤ num * 2 ^ exponent.natAbs := by
  rw [scaleRatio]
  split
  · exact Nat.le_of_eq (Nat.shiftLeft_eq ..)
  · exact Nat.le_mul_of_pos_right _ (Nat.two_pow_pos _)

namespace Binary64

theorem exponentFor_le (num den : Nat) :
    exponentFor num den ≤ max ((num.log2 : Int) - den.log2 - 52) smallestExponent := by
  unfold exponentFor
  dsimp only
  split <;> omega

theorem le_exponentFor (num den : Nat) :
    (num.log2 : Int) - den.log2 - 53 ≤ exponentFor num den := by
  unfold exponentFor
  dsimp only
  split <;> omega

theorem ofRatio_eq_finite {num : Nat} (h : num < 2 ^ 200) (den : Nat) :
    ∃ mantissa exponent, ofRatio num den = .finite false mantissa exponent ∧
      mantissa ≤ num * 2 ^ exponent.natAbs + 1 ∧
        (exponent = 0 ∨ exponent = exponentFor num den) := by
  by_cases hzero : num = 0
  · exact ⟨0, 0, by rw [ofRatio, if_pos hzero], Nat.zero_le _, .inl rfl⟩
  have hlog : num.log2 < 200 := (Nat.log2_lt hzero).mpr h
  have hexponent : exponentFor num den < largestExponent := by
    have hle := exponentFor_le num den
    unfold smallestExponent at hle
    unfold largestExponent
    omega
  have hfinite : ¬ (exponentFor num den > largestExponent ∨
      (exponentFor num den = largestExponent ∧ roundHalfEven
        (scaleRatio num den (exponentFor num den)).1
        (scaleRatio num den (exponentFor num den)).2 ≥ mantissaLimit)) := by
    omega
  refine ⟨_, _, by rw [ofRatio, if_neg hzero]; exact if_neg hfinite, ?_, .inr rfl⟩
  calc roundHalfEven _ _
      ≤ (scaleRatio num den (exponentFor num den)).1 + 1 := roundHalfEven_le ..
    _ ≤ num * 2 ^ (exponentFor num den).natAbs + 1 :=
        Nat.add_le_add_right (scaleRatio_fst_le ..) 1

-- A whole number below 2 ^ 64, as a double, divided by another one.
theorem divNat_ofRatio_eq_finite {num : Nat} (h : num < 2 ^ 64) (n : Nat) :
    ∃ mantissa exponent, (ofRatio num 1).divNat n = .finite false mantissa exponent := by
  obtain ⟨mantissa, exponent, hfirst, hmantissa, hexponent⟩ :=
    ofRatio_eq_finite (Nat.lt_trans h (Nat.pow_lt_pow_right (by decide) (by decide))) 1
  have hlog : num.log2 < 64 := by
    by_cases hzero : num = 0
    · exact hzero ▸ by decide
    · exact (Nat.log2_lt hzero).mpr h
  have hlow := le_exponentFor num 1
  have hhigh := exponentFor_le num 1
  have hone : Nat.log2 1 = 0 := by decide
  have hsmall : exponent.natAbs ≤ 53 := by
    unfold smallestExponent at hhigh
    omega
  have hpower : 2 ^ exponent.natAbs ≤ 2 ^ 53 := Nat.pow_le_pow_right (by decide) hsmall
  have hscaled : (scaleRatio mantissa n (-exponent)).1 < 2 ^ 200 := by
    calc (scaleRatio mantissa n (-exponent)).1
        ≤ mantissa * 2 ^ exponent.natAbs := Int.natAbs_neg exponent ▸ scaleRatio_fst_le ..
      _ ≤ (num * 2 ^ 53 + 1) * 2 ^ 53 := Nat.mul_le_mul
          (Nat.le_trans hmantissa (Nat.add_le_add_right (Nat.mul_le_mul_left num hpower) 1)) hpower
      _ < 2 ^ 200 := by omega
  obtain ⟨quotient, exponent', hsecond, -, -⟩ :=
    ofRatio_eq_finite hscaled (scaleRatio mantissa n (-exponent)).2
  exact ⟨quotient, exponent', by rw [hfirst]; exact hsecond⟩

end Binary64

end TypeStub
