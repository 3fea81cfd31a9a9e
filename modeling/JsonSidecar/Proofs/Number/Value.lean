/-
Module: JsonSidecar.Proofs.Number.Value
Purpose: The number that a literal denotes, as a rational number, and the number that the literal of a layout
  denotes: what the digits denote, whichever way they are laid out.
Main exports: NumberLiteral.absValue, NumberLiteral.value, Scientific.layoutLiteral_absValue
-/
import JsonSidecar.Number.FloatText
import JsonSidecar.Proofs.Number.Scientific
import Mathlib.Algebra.Order.Field.Rat
import Mathlib.Algebra.Order.Field.Power
import Mathlib.Tactic.FieldSimp

namespace JsonSidecar

/-! ### What a literal denotes -/

namespace NumberLiteral

/-- The number that a literal denotes without its sign: the whole digits and the fraction, scaled by the exponent. -/
def absValue (l : NumberLiteral) : ℚ :=
  (Decimal.value l.whole + Decimal.value (l.fraction.getD []) / 10 ^ (l.fraction.getD []).length)
    * 10 ^ l.exponentValue

/-- The number that a literal denotes. -/
def value (l : NumberLiteral) : ℚ := if l.isNegative then -l.absValue else l.absValue

/-- All digits of the mantissa count units of one power of ten. -/
theorem absValue_eq (l : NumberLiteral) :
    l.absValue = Decimal.value (l.whole ++ l.fraction.getD [])
      * (10 : ℚ) ^ (l.exponentValue - (l.fraction.getD []).length) := by
  have ten : (10 : ℚ) ≠ 0 := by norm_num
  rw [absValue, Decimal.value_append, zpow_sub₀ ten, zpow_natCast]
  push_cast
  field_simp

end NumberLiteral

/-! ### What a layout denotes -/

namespace Scientific

/-- Digits of which the first has the exponent `exponent`, as a number. -/
def scaled (digits : Bytes) (exponent : Int) : ℚ :=
  Decimal.value digits * (10 : ℚ) ^ (exponent - (digits.length - 1 : Nat))

theorem scaled_cons (b : UInt8) (rest : Bytes) (exponent : Int) :
    scaled (b :: rest) exponent = Decimal.value (b :: rest) * (10 : ℚ) ^ (exponent - rest.length) := rfl

/-- Zeros at the end do not matter. -/
theorem scaled_append_zeros (b : UInt8) (rest : Bytes) (k : Nat) (exponent : Int) :
    scaled (b :: (rest ++ List.replicate k Byte.zero)) exponent = scaled (b :: rest) exponent := by
  have ten : (10 : ℚ) ≠ 0 := by norm_num
  have places : exponent - ((rest ++ List.replicate k Byte.zero).length : Nat) = exponent - rest.length - (k : Int) := by
    rw [List.length_append, List.length_replicate]
    omega
  rw [scaled_cons, scaled_cons, places, ← List.cons_append, Decimal.value_append, Decimal.value_zeros,
    List.length_replicate, Nat.add_zero, zpow_sub₀ ten (exponent - rest.length), zpow_natCast]
  push_cast
  field_simp

theorem exponentPart_magnitude (exponent : Int) :
    Decimal.value (exponentPart exponent).digits = exponent.natAbs := by
  unfold exponentPart
  dsimp only
  split
  · rw [Decimal.value_append, Decimal.value_text]
    simp [Decimal.value, Byte.digitValue, Byte.zero]
  · exact Decimal.value_text _

theorem exponentPart_value (exponent : Int) (sign : Option UInt8) (whole : Bytes) (fraction : Option Bytes) :
    NumberLiteral.exponentValue ⟨sign, whole, fraction, some (exponentPart exponent)⟩ = exponent := by
  by_cases negative : exponent < 0
  · have signed : (exponentPart exponent).sign = some Byte.minus := by simp [exponentPart, negative]
    simp only [NumberLiteral.exponentValue, signed, exponentPart_magnitude, beq_self_eq_true, if_true]
    omega
  · have signed : (exponentPart exponent).sign = some Byte.plus := by simp [exponentPart, negative]
    have other : (some Byte.plus == some Byte.minus) = false := rfl
    simp only [NumberLiteral.exponentValue, signed, exponentPart_magnitude, other, Bool.false_eq_true, if_false]
    omega

/-- Every layout denotes what its digits denote. -/
theorem layoutLiteral_absValue (precision : Nat) (b : UInt8) (digits : Bytes) (exponent : Int) :
    (layoutLiteral precision b digits exponent).absValue = scaled (b :: digits) exponent := by
  rw [NumberLiteral.absValue_eq, scaled_cons]
  unfold layoutLiteral
  split
  · -- With an exponent mark, the fraction is all digits but the first.
    have fraction : (if digits.isEmpty then none else some digits).getD [] = digits := by
      cases digits with
      | nil => rfl
      | cons d digits => rfl
    rw [exponentPart_value]
    simp only [fraction, List.singleton_append]
  rename_i moderate
  split
  · rename_i nonneg
    obtain ⟨n, rfl⟩ := Int.eq_ofNat_of_zero_le nonneg
    split
    · -- Zeros fill the places in front of the point.
      rename_i few
      simp only [Int.toNat_natCast] at few ⊢
      have whole := scaled_append_zeros b digits (n - digits.length) n
      rw [scaled_cons, scaled_cons] at whole
      rw [← whole]
      simp [NumberLiteral.exponentValue, few]
    · -- The point stands between two of the digits.
      rename_i many
      simp only [Int.toNat_natCast] at many ⊢
      have places : ((digits.drop n).length : Int) = digits.length - n := by
        rw [List.length_drop]
        omega
      simp only [NumberLiteral.exponentValue, Option.getD_some, List.cons_append, List.take_append_drop, places]
      congr 2
      omega
  · -- Zeros stand between the point and the digits.
    rename_i negative
    have zeros : Decimal.value (Byte.zero :: (List.replicate (-exponent - 1).toNat Byte.zero ++ b :: digits))
        = Decimal.value (b :: digits) := by
      rw [← List.cons_append, ← List.replicate_succ, Decimal.value_append, Decimal.value_zeros, Nat.zero_mul,
        Nat.zero_add]
    have places : ((List.replicate (-exponent - 1).toNat Byte.zero ++ b :: digits).length : Int)
        = digits.length - exponent := by
      rw [List.length_append, List.length_replicate, List.length_cons]
      omega
    simp only [NumberLiteral.exponentValue, Option.getD_some, List.singleton_append, zeros, places]
    congr 2
    omega

end Scientific

end JsonSidecar
