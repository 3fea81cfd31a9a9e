/-
Module: JsonSidecar.Proofs.Number.Nearest
Purpose: Rounding to the nearest pattern.  A quotient that differs from a finite value by less than a quarter of the
  least relative distance between values is rounded to that value, in every binade, at the border between two of
  them and among the subnormal values.
Main exports: divNearest_eq, FloatFormat.units_eq, FloatFormat.nearest_of_close
-/
import JsonSidecar.Number.FloatFormat
import Mathlib.Tactic.Ring
import Mathlib.Tactic.Linarith

namespace JsonSidecar

/-! ### Rounding a quotient -/

/-- A quotient less than one half away from a whole number is rounded to it. -/
theorem divNearest_eq {num den k : Nat} (upper : 2 * num < 2 * (k * den) + den)
    (lower : 2 * (k * den) < 2 * num + den) : divNearest num den = k := by
  have division : num / den * den + num % den = num := Nat.div_add_mod' num den
  have positive : 0 < den := by
    rcases Nat.eq_zero_or_pos den with rfl | positive
    · omega
    · exact positive
  have rest : num % den < den := Nat.mod_lt _ positive
  unfold divNearest
  dsimp only
  generalize num / den = quotient at division
  generalize num % den = remainder at division rest
  -- The quotient is the whole number itself or the one in front of it.
  have above : quotient ≤ k := by
    by_contra beyond
    have next : (k + 1) * den ≤ quotient * den := Nat.mul_le_mul_right den (by omega)
    rw [Nat.add_one_mul k] at next
    omega
  have below : k ≤ quotient + 1 := by
    by_contra short
    have next : (quotient + 2) * den ≤ k * den := Nat.mul_le_mul_right den (by omega)
    rw [Nat.add_mul] at next
    omega
  rcases Nat.lt_or_eq_of_le above with less | rfl
  · have same : k = quotient + 1 := by omega
    rw [same, Nat.add_one_mul quotient] at upper lower
    rw [if_neg (by omega), if_pos (by omega), same]
  · rw [if_pos (by omega)]

/-- How far a quotient is from the rounded one, at most: one half. -/
theorem divNearest_bounds (num : Nat) {den : Nat} (positive : 0 < den) :
    2 * num ≤ 2 * (divNearest num den * den) + den ∧ 2 * (divNearest num den * den) ≤ 2 * num + den := by
  have division : num / den * den + num % den = num := Nat.div_add_mod' num den
  have rest : num % den < den := Nat.mod_lt _ positive
  unfold divNearest
  dsimp only
  generalize num / den = quotient at division
  generalize num % den = remainder at division rest
  split
  · omega
  split
  · rw [Nat.add_one_mul quotient]
    omega
  · rename_i notBelow notAbove
    rcases Nat.mod_two_eq_zero_or_one quotient with even | odd
    · rw [even, Nat.add_zero]
      omega
    · rw [odd, Nat.add_one_mul quotient]
      omega

namespace FloatFormat

variable {f : FloatFormat}

/-! ### Patterns and their values -/

/-- The units of a pattern are a mantissa times a power of two, and the pattern is the mantissa on top of the exponent.
    The mantissa has all its bits unless the exponent is the least one. -/
theorem units_eq (magnitude : Nat) :
    ∃ mantissa exponent, f.units magnitude = mantissa * 2 ^ exponent ∧
      magnitude = exponent * 2 ^ f.fractionBits + mantissa ∧ mantissa < 2 * 2 ^ f.fractionBits ∧
      (2 ^ f.fractionBits ≤ mantissa ∨ exponent = 0) := by
  have division := Nat.div_add_mod' magnitude (2 ^ f.fractionBits)
  have fraction : magnitude % 2 ^ f.fractionBits < 2 ^ f.fractionBits := Nat.mod_lt _ (Nat.pow_pos (by decide))
  unfold units
  dsimp only
  split
  · rename_i subnormal
    rw [subnormal, Nat.zero_mul, Nat.zero_add] at division
    refine ⟨magnitude % 2 ^ f.fractionBits, 0, by simp, by omega, by omega, .inr rfl⟩
  · rename_i normal
    obtain ⟨e, exponent⟩ := Nat.exists_eq_succ_of_ne_zero normal
    rw [exponent] at division ⊢
    rw [Nat.succ_sub_one]
    refine ⟨2 ^ f.fractionBits + magnitude % 2 ^ f.fractionBits, e, rfl, ?_, by omega, .inl (by omega)⟩
    rw [Nat.succ_mul e] at division
    omega

/-- Rounding at a power of two that is known to be the right one. -/
theorem nearest_eq {num den mantissa exponent : Nat}
    (scale : (num * 2 ^ f.unitExponent / den).log2 - f.fractionBits = exponent)
    (upper : 2 * (num * 2 ^ f.unitExponent) < 2 * (mantissa * (den * 2 ^ exponent)) + den * 2 ^ exponent)
    (lower : 2 * (mantissa * (den * 2 ^ exponent)) < 2 * (num * 2 ^ f.unitExponent) + den * 2 ^ exponent)
    (finite : exponent * 2 ^ f.fractionBits + mantissa ≤ f.infinityBits) :
    f.nearest num den = exponent * 2 ^ f.fractionBits + mantissa := by
  simp only [nearest, scale, divNearest_eq upper lower, Nat.min_eq_left finite]

/-! ### Values close to a finite one -/

section Close

variable {num den mantissa exponent : Nat} (positive : 0 < den) (bits : mantissa < 2 * 2 ^ f.fractionBits)

include positive bits

/-- Below the first power of two every value is a whole number of units. -/
theorem nearest_subnormal (finite : mantissa ≤ f.infinityBits)
    (upper : 2 * (num * 2 ^ f.unitExponent) < 2 * (mantissa * den) + den)
    (lower : 2 * (mantissa * den) < 2 * (num * 2 ^ f.unitExponent) + den) : f.nearest num den = mantissa := by
  have quotient : num * 2 ^ f.unitExponent / den ≤ mantissa := by
    apply Nat.le_of_lt_succ
    apply (Nat.div_lt_iff_lt_mul positive).2
    rw [Nat.succ_mul mantissa]
    omega
  have scale : (num * 2 ^ f.unitExponent / den).log2 - f.fractionBits = 0 := by
    have small : num * 2 ^ f.unitExponent / den < 2 ^ (f.fractionBits + 1) := by
      rw [Nat.pow_succ]
      omega
    rcases Nat.eq_zero_or_pos (num * 2 ^ f.unitExponent / den) with zero | some
    · rw [zero, Nat.log2_zero, Nat.zero_sub]
    · have log := (Nat.log2_lt (Nat.pos_iff_ne_zero.1 some)).2 small
      omega
  have rounded : f.nearest num den = 0 * 2 ^ f.fractionBits + mantissa :=
    nearest_eq scale (by rwa [Nat.pow_zero, Nat.mul_one]) (by rwa [Nat.pow_zero, Nat.mul_one])
      (by rwa [Nat.zero_mul, Nat.zero_add])
  rwa [Nat.zero_mul, Nat.zero_add] at rounded

/-- A quotient in the binade of a value. -/
theorem nearest_inside (full : 2 ^ f.fractionBits * (den * 2 ^ exponent) ≤ num * 2 ^ f.unitExponent)
    (finite : exponent * 2 ^ f.fractionBits + mantissa ≤ f.infinityBits)
    (upper : 2 * (num * 2 ^ f.unitExponent) < 2 * (mantissa * (den * 2 ^ exponent)) + den * 2 ^ exponent)
    (lower : 2 * (mantissa * (den * 2 ^ exponent)) < 2 * (num * 2 ^ f.unitExponent) + den * 2 ^ exponent) :
    f.nearest num den = exponent * 2 ^ f.fractionBits + mantissa := by
  have least : 2 ^ (f.fractionBits + exponent) ≤ num * 2 ^ f.unitExponent / den := by
    apply (Nat.le_div_iff_mul_le positive).2
    calc 2 ^ (f.fractionBits + exponent) * den = 2 ^ f.fractionBits * (den * 2 ^ exponent) := by ring
      _ ≤ num * 2 ^ f.unitExponent := full
  have greatest : num * 2 ^ f.unitExponent / den < 2 ^ (f.fractionBits + exponent + 1) := by
    apply (Nat.div_lt_iff_lt_mul positive).2
    have next : (mantissa + 1) * (den * 2 ^ exponent) ≤ 2 * 2 ^ f.fractionBits * (den * 2 ^ exponent) :=
      Nat.mul_le_mul_right _ bits
    have unit : 0 < den * 2 ^ exponent := Nat.mul_pos positive (Nat.pow_pos (by decide))
    rw [Nat.add_one_mul mantissa] at next
    calc num * 2 ^ f.unitExponent < mantissa * (den * 2 ^ exponent) + den * 2 ^ exponent := by omega
      _ ≤ 2 * 2 ^ f.fractionBits * (den * 2 ^ exponent) := next
      _ = 2 ^ (f.fractionBits + exponent + 1) * den := by ring
  have nonzero : num * 2 ^ f.unitExponent / den ≠ 0 :=
    Nat.pos_iff_ne_zero.1 (Nat.lt_of_lt_of_le (Nat.pow_pos (by decide)) least)
  have scale : (num * 2 ^ f.unitExponent / den).log2 = f.fractionBits + exponent :=
    (Nat.log2_eq_iff nonzero).2 ⟨least, greatest⟩
  exact nearest_eq (by omega) upper lower finite

end Close

/-- A quotient just below a power of two, in the binade before that of the value: its mantissa overflows there. -/
theorem nearest_border {num den exponent : Nat} (positive : 0 < den)
    (border : num * 2 ^ f.unitExponent < 2 ^ f.fractionBits * (den * 2 ^ (exponent + 1)))
    (finite : (exponent + 1) * 2 ^ f.fractionBits + 2 ^ f.fractionBits ≤ f.infinityBits)
    (lower : 2 * (2 * 2 ^ f.fractionBits * (den * 2 ^ exponent))
      < 2 * (num * 2 ^ f.unitExponent) + den * 2 ^ exponent) :
    f.nearest num den = (exponent + 1) * 2 ^ f.fractionBits + 2 ^ f.fractionBits := by
  have unit : 0 < den * 2 ^ exponent := Nat.mul_pos positive (Nat.pow_pos (by decide))
  have scale : 0 < 2 ^ f.fractionBits := Nat.pow_pos (by decide)
  have double : 2 ^ f.fractionBits * (den * 2 ^ (exponent + 1)) = 2 * 2 ^ f.fractionBits * (den * 2 ^ exponent) := by
    ring
  have least : 2 ^ (f.fractionBits + exponent) ≤ num * 2 ^ f.unitExponent / den := by
    apply (Nat.le_div_iff_mul_le positive).2
    have one : den * 2 ^ exponent ≤ 2 ^ f.fractionBits * (den * 2 ^ exponent) := Nat.le_mul_of_pos_left _ scale
    rw [Nat.mul_assoc 2] at lower
    calc 2 ^ (f.fractionBits + exponent) * den = 2 ^ f.fractionBits * (den * 2 ^ exponent) := by ring
      _ ≤ num * 2 ^ f.unitExponent := by omega
  have greatest : num * 2 ^ f.unitExponent / den < 2 ^ (f.fractionBits + exponent + 1) := by
    apply (Nat.div_lt_iff_lt_mul positive).2
    calc num * 2 ^ f.unitExponent < 2 ^ f.fractionBits * (den * 2 ^ (exponent + 1)) := border
      _ = 2 ^ (f.fractionBits + exponent + 1) * den := by ring
  have nonzero : num * 2 ^ f.unitExponent / den ≠ 0 :=
    Nat.pos_iff_ne_zero.1 (Nat.lt_of_lt_of_le (Nat.pow_pos (by decide)) least)
  have log : (num * 2 ^ f.unitExponent / den).log2 = f.fractionBits + exponent :=
    (Nat.log2_eq_iff nonzero).2 ⟨least, greatest⟩
  have same : (exponent + 1) * 2 ^ f.fractionBits + 2 ^ f.fractionBits
      = exponent * 2 ^ f.fractionBits + 2 * 2 ^ f.fractionBits := by ring
  rw [same] at finite ⊢
  rw [double] at border
  exact nearest_eq (by omega) (by omega) lower finite

/-- A quotient that is close enough to a finite value is rounded to it. -/
theorem nearest_of_close {num den magnitude : Nat} (positive : 0 < den) (finite : magnitude ≤ f.infinityBits)
    (upper : 4 * 2 ^ f.fractionBits * (num * 2 ^ f.unitExponent)
      < 4 * 2 ^ f.fractionBits * (f.units magnitude * den) + f.units magnitude * den)
    (lower : 4 * 2 ^ f.fractionBits * (f.units magnitude * den)
      < 4 * 2 ^ f.fractionBits * (num * 2 ^ f.unitExponent) + f.units magnitude * den) :
    f.nearest num den = magnitude := by
  obtain ⟨mantissa, exponent, value, rfl, bits, normal⟩ := units_eq (f := f) magnitude
  have scale : 0 < 2 ^ f.fractionBits := Nat.pow_pos (by decide)
  have product : f.units (exponent * 2 ^ f.fractionBits + mantissa) * den = mantissa * (den * 2 ^ exponent) := by
    rw [value]
    ring
  rw [product] at upper lower
  -- A mantissa has no more than twice the units that the distance is measured by, so half a unit is left.
  have whole : mantissa * (den * 2 ^ exponent) ≤ 2 * 2 ^ f.fractionBits * (den * 2 ^ exponent) :=
    Nat.mul_le_mul_right _ (Nat.le_of_lt bits)
  have halfAbove : 2 * (num * 2 ^ f.unitExponent) < 2 * (mantissa * (den * 2 ^ exponent)) + den * 2 ^ exponent := by
    apply Nat.lt_of_mul_lt_mul_left (a := 2 * 2 ^ f.fractionBits)
    nlinarith
  have halfBelow : 2 * (mantissa * (den * 2 ^ exponent)) < 2 * (num * 2 ^ f.unitExponent) + den * 2 ^ exponent := by
    apply Nat.lt_of_mul_lt_mul_left (a := 2 * 2 ^ f.fractionBits)
    nlinarith
  rcases Nat.eq_zero_or_pos exponent with rfl | some
  · rw [Nat.pow_zero, Nat.mul_one] at halfAbove halfBelow
    rw [Nat.zero_mul, Nat.zero_add] at finite ⊢
    exact nearest_subnormal positive bits finite halfAbove halfBelow
  · have least : 2 ^ f.fractionBits ≤ mantissa := normal.resolve_right (by omega)
    rcases Nat.lt_or_ge (num * 2 ^ f.unitExponent) (2 ^ f.fractionBits * (den * 2 ^ exponent)) with border | inside
    · -- Only the least mantissa is that close to the binade before.
      have power : mantissa = 2 ^ f.fractionBits := by
        by_contra other
        have next : (2 ^ f.fractionBits + 1) * (den * 2 ^ exponent) ≤ mantissa * (den * 2 ^ exponent) :=
          Nat.mul_le_mul_right _ (by omega)
        rw [Nat.add_one_mul (2 ^ f.fractionBits)] at next
        omega
      obtain ⟨e, rfl⟩ := Nat.exists_eq_succ_of_ne_zero (Nat.pos_iff_ne_zero.1 some)
      rw [power] at finite lower ⊢
      apply nearest_border positive border finite
      apply Nat.lt_of_mul_lt_mul_left (a := 2 * 2 ^ f.fractionBits)
      rw [Nat.succ_eq_add_one, Nat.pow_succ 2 e] at lower
      nlinarith
    · exact nearest_inside positive bits inside finite halfAbove halfBelow

end FloatFormat

end JsonSidecar
