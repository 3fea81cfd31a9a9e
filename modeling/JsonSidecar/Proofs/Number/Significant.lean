/-
Module: JsonSidecar.Proofs.Number.Significant
Purpose: How much is lost in rounding to significant digits.  The digits of a positive quotient denote a number that
  differs from it by at most half a unit of the last digit, which is a small part of the quotient itself.
Main exports: Scientific.roundAt_error, Scientific.ofRatio_text_length, Scientific.ofRatio_error
-/
import JsonSidecar.Proofs.Number.Nearest
import JsonSidecar.Proofs.Number.Value
import Mathlib.Algebra.Order.Field.Basic

namespace JsonSidecar.Scientific

/-- The leading digit is one of the quotient. -/
theorem leadingExponent_le {num den : Nat} (positive : 0 < num) (positive' : 0 < den) :
    (10 : ℚ) ^ leadingExponent num den ≤ num / den := by
  obtain ⟨down, up, leading, lower, _⟩ := leadingExponent_spec positive positive'
  have ten : (10 : ℚ) ≠ 0 := by norm_num
  have below : (0 : ℚ) < den := by exact_mod_cast positive'
  have power : (0 : ℚ) < 10 ^ up := by positivity
  have lower' : (den : ℚ) * 10 ^ down ≤ num * 10 ^ up := by exact_mod_cast lower
  rw [leading, zpow_sub₀ ten, zpow_natCast, zpow_natCast, div_le_div_iff₀ power below, mul_comm]
  exact lower'

/-- A power of ten is a quotient of two of which one is trivial. -/
theorem zpow_eq_div (place : Int) : (10 : ℚ) ^ place = 10 ^ place.toNat / 10 ^ (-place).toNat := by
  have ten : (10 : ℚ) ≠ 0 := by norm_num
  have same : place = (place.toNat : Int) - ((-place).toNat : Int) := by omega
  conv_lhs => rw [same]
  rw [zpow_sub₀ ten, zpow_natCast, zpow_natCast]

/-- Rounding in units of a power of ten is off by at most half a unit. -/
theorem roundAt_error (num : Nat) {den : Nat} (positive : 0 < den) (place : Int) :
    2 * |(roundAt num den place : ℚ) * (10 : ℚ) ^ place - num / den| ≤ (10 : ℚ) ^ place := by
  have den' : (0 : ℚ) < den := by exact_mod_cast positive
  have down : (0 : ℚ) < 10 ^ (-place).toNat := by positivity
  have up : (0 : ℚ) < 10 ^ place.toNat := by positivity
  have unit : 0 < den * 10 ^ place.toNat := Nat.mul_pos positive (Nat.pow_pos (by decide))
  obtain ⟨upper, lower⟩ := divNearest_bounds (num * 10 ^ (-place).toNat) unit
  rw [← roundAt_eq] at upper lower
  generalize roundAt num den place = rounded at upper lower
  have upper' : 2 * ((num : ℚ) * 10 ^ (-place).toNat)
      ≤ 2 * (rounded * (den * 10 ^ place.toNat)) + den * 10 ^ place.toNat := by exact_mod_cast upper
  have lower' : 2 * (rounded * ((den : ℚ) * 10 ^ place.toNat))
      ≤ 2 * (num * 10 ^ (-place).toNat) + den * 10 ^ place.toNat := by exact_mod_cast lower
  rw [zpow_eq_div]
  generalize (10 : ℚ) ^ place.toNat = b at upper' lower' up
  generalize (10 : ℚ) ^ (-place).toNat = a at upper' lower' down
  have difference : (rounded : ℚ) * (b / a) - num / den = (rounded * (den * b) - num * a) / (den * a) := by
    field_simp
  have unitOf : b / a = den * b / (den * a) := by field_simp
  rw [difference, unitOf, abs_div, abs_of_pos (mul_pos den' down), ← mul_div_assoc]
  apply (div_le_div_iff_of_pos_right (mul_pos den' down)).2
  rw [← abs_of_pos (show (0 : ℚ) < 2 by norm_num), ← abs_mul, abs_le]
  constructor
  · linarith
  · linarith

variable {precision num den : Nat}

/-- The digits of a rounded quotient are as many as were asked for. -/
theorem ofRatio_text_length (some : 0 < precision) (positive : 0 < num) (positive' : 0 < den) :
    (Decimal.text (ofRatio precision num den).digits).length = precision := by
  obtain ⟨lower, upper⟩ := ofRatio_digits some positive positive'
  have most := Decimal.text_length_le upper some
  have least : 10 ^ (precision - 1) < 10 ^ (Decimal.text (ofRatio precision num den).digits).length :=
    Nat.lt_of_le_of_lt lower (Decimal.lt_pow_text_length _)
  have fewer := (Nat.pow_lt_pow_iff_right (by decide : 1 < 10)).1 least
  omega

/-- The digits denote the quotient as it was rounded, also where rounding up gave one digit more. -/
theorem ofRatio_scaled (some : 0 < precision) (positive : 0 < num) (positive' : 0 < den) :
    scaled (Decimal.text (ofRatio precision num den).digits) (ofRatio precision num den).exponent
      = roundAt num den (leadingExponent num den - (precision - 1 : Nat))
        * (10 : ℚ) ^ (leadingExponent num den - (precision - 1 : Nat)) := by
  have ten : (10 : ℚ) ≠ 0 := by norm_num
  rw [scaled, ofRatio_text_length some positive positive', Decimal.value_text]
  unfold ofRatio
  dsimp only
  split
  · rename_i carried
    rw [carried]
    push_cast
    rw [← zpow_natCast, ← zpow_natCast, ← zpow_add₀ ten, ← zpow_add₀ ten]
    congr 1
    omega
  · rfl

/-- Rounding to significant digits loses at most so much of a quotient. -/
theorem ofRatio_error (some : 0 < precision) (positive : 0 < num) (positive' : 0 < den) :
    2 * 10 ^ (precision - 1)
        * |scaled (Decimal.text (ofRatio precision num den).digits) (ofRatio precision num den).exponent - num / den|
      ≤ (num : ℚ) / den := by
  have ten : (10 : ℚ) ≠ 0 := by norm_num
  have power : (0 : ℚ) < 10 ^ (precision - 1) := by positivity
  rw [ofRatio_scaled some positive positive']
  have error := roundAt_error num positive' (leadingExponent num den - (precision - 1 : Nat))
  generalize |(roundAt num den (leadingExponent num den - (precision - 1 : Nat)) : ℚ)
    * (10 : ℚ) ^ (leadingExponent num den - (precision - 1 : Nat)) - num / den| = off at error
  calc 2 * 10 ^ (precision - 1) * off = 10 ^ (precision - 1) * (2 * off) := by ring
    _ ≤ 10 ^ (precision - 1) * (10 : ℚ) ^ (leadingExponent num den - (precision - 1 : Nat)) :=
      mul_le_mul_of_nonneg_left error (le_of_lt power)
    _ = (10 : ℚ) ^ leadingExponent num den := by
      rw [zpow_sub₀ ten, zpow_natCast]
      field_simp
    _ ≤ (num : ℚ) / den := leadingExponent_le positive positive'

end JsonSidecar.Scientific
