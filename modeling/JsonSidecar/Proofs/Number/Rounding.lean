/-
Module: JsonSidecar.Proofs.Number.Rounding
Purpose: The numbers that finite patterns stand for, in the order of the patterns, and rounding to them.  Consecutive
  magnitudes are neighbouring values, so the pattern that rounding chooses is held against its two neighbours only:
  no finite value is nearer, and of two that are equally near the even pattern is taken.
Main exports: FloatFormat.units_strictMono, FloatFormat.value, FloatFormat.order_le_iff_value_le, FloatFormat.IsRounding,
  FloatFormat.isRounding_withSign_nearest
-/
import JsonSidecar.Proofs.Number.Scientific
import JsonSidecar.Proofs.Number.Nearest
import Mathlib.Order.Monotone.Basic
import Mathlib.Algebra.Order.Field.Rat
import Mathlib.Tactic.FieldSimp
import Mathlib.Tactic.Positivity

namespace JsonSidecar

/-- Halfway between two whole numbers the even one is taken. -/
theorem divNearest_even (num : Nat) {den : Nat} (positive : 0 < den)
    (halfway : 2 * num = 2 * (divNearest num den * den) + den ∨ 2 * (divNearest num den * den) = 2 * num + den) :
    divNearest num den % 2 = 0 := by
  have division : num / den * den + num % den = num := Nat.div_add_mod' num den
  have rest : num % den < den := Nat.mod_lt _ positive
  unfold divNearest at halfway ⊢
  dsimp only at halfway ⊢
  generalize num / den = quotient at division halfway ⊢
  generalize num % den = remainder at division rest halfway ⊢
  split at halfway
  · omega
  split at halfway
  · rw [Nat.add_one_mul quotient] at halfway
    omega
  · rw [if_neg ‹_›, if_neg ‹_›]
    omega

namespace FloatFormat

variable {f : FloatFormat}

/-! ### Neighbouring values -/

theorem units_normal {fraction : Nat} (field : fraction < 2 ^ f.fractionBits) (exponent : Nat) :
    f.units ((exponent + 1) * 2 ^ f.fractionBits + fraction) = (2 ^ f.fractionBits + fraction) * 2 ^ exponent := by
  have quotient : ((exponent + 1) * 2 ^ f.fractionBits + fraction) / 2 ^ f.fractionBits = exponent + 1 := by
    rw [Nat.add_comm, Nat.add_mul_div_right _ _ (Nat.pow_pos (by decide)), Nat.div_eq_of_lt field, Nat.zero_add]
  have remainder : ((exponent + 1) * 2 ^ f.fractionBits + fraction) % 2 ^ f.fractionBits = fraction := by
    rw [Nat.add_comm, Nat.add_mul_mod_self_right, Nat.mod_eq_of_lt field]
  rw [units, quotient, remainder]
  exact if_neg (Nat.succ_ne_zero exponent)

/-- The units of a mantissa on top of an exponent.  The mantissa may have run over into the next exponent. -/
theorem units_of_parts {mantissa exponent : Nat} (bits : mantissa ≤ 2 * 2 ^ f.fractionBits)
    (normal : 2 ^ f.fractionBits ≤ mantissa ∨ exponent = 0) :
    f.units (exponent * 2 ^ f.fractionBits + mantissa) = mantissa * 2 ^ exponent := by
  rcases Nat.lt_or_ge mantissa (2 ^ f.fractionBits) with subnormal | full
  · obtain rfl : exponent = 0 := normal.resolve_left (Nat.not_le.2 subnormal)
    rw [Nat.zero_mul, Nat.zero_add, Nat.pow_zero, Nat.mul_one, units, Nat.div_eq_of_lt subnormal,
      Nat.mod_eq_of_lt subnormal]
    rfl
  rcases Nat.lt_or_eq_of_le bits with less | rfl
  · have field : mantissa - 2 ^ f.fractionBits < 2 ^ f.fractionBits := by omega
    have same : exponent * 2 ^ f.fractionBits + mantissa
        = (exponent + 1) * 2 ^ f.fractionBits + (mantissa - 2 ^ f.fractionBits) := by
      rw [Nat.add_one_mul exponent]
      omega
    rw [same, units_normal field, Nat.add_sub_cancel' full]
  · have same : exponent * 2 ^ f.fractionBits + 2 * 2 ^ f.fractionBits = (exponent + 1 + 1) * 2 ^ f.fractionBits + 0 := by
      ring
    rw [same, units_normal (Nat.pow_pos (by decide))]
    ring

/-- A larger magnitude is a larger value. -/
theorem units_strictMono : StrictMono f.units := by
  refine strictMono_nat_of_lt_succ fun magnitude => ?_
  obtain ⟨mantissa, exponent, value, same, bits, normal⟩ := units_eq (f := f) magnitude
  have next : f.units (exponent * 2 ^ f.fractionBits + (mantissa + 1)) = (mantissa + 1) * 2 ^ exponent :=
    units_of_parts bits (normal.imp_left Nat.le_succ_of_le)
  rw [← Nat.add_assoc, ← same] at next
  rw [value, next]
  exact Nat.mul_lt_mul_of_pos_right (Nat.lt_succ_self _) (Nat.pow_pos (by decide))

@[simp] theorem units_zero : f.units 0 = 0 := by
  have zero : f.units (0 * 2 ^ f.fractionBits + 0) = 0 * 2 ^ 0 := units_of_parts (Nat.zero_le _) (.inr rfl)
  rwa [Nat.zero_mul, Nat.zero_mul] at zero

/-- The values above one are at least a unit of its exponent away. -/
theorem le_units_of_parts_lt {mantissa exponent magnitude : Nat} (bits : mantissa ≤ 2 * 2 ^ f.fractionBits)
    (normal : 2 ^ f.fractionBits ≤ mantissa ∨ exponent = 0)
    (above : exponent * 2 ^ f.fractionBits + mantissa < magnitude) :
    (mantissa + 1) * 2 ^ exponent ≤ f.units magnitude := by
  refine Nat.le_trans ?_ (units_strictMono.monotone (Nat.succ_le_of_lt above))
  rcases Nat.lt_or_eq_of_le bits with less | rfl
  · rw [Nat.succ_eq_add_one, Nat.add_assoc, units_of_parts less (normal.imp_left Nat.le_succ_of_le)]
  · -- the mantissa has run over, so the next value has the next exponent
    have one : 0 < 2 ^ f.fractionBits := Nat.pow_pos (by decide)
    have same : exponent * 2 ^ f.fractionBits + 2 * 2 ^ f.fractionBits + 1
        = (exponent + 1) * 2 ^ f.fractionBits + (2 ^ f.fractionBits + 1) := by ring
    rw [Nat.succ_eq_add_one, same, units_of_parts (by omega) (.inl (Nat.le_succ _)), Nat.pow_succ, Nat.mul_comm _ 2,
      ← Nat.mul_assoc]
    exact Nat.mul_le_mul_right _ (by omega)

/-- The values below one are at least a unit of its exponent away, unless its mantissa is the least of a greater
    exponent. -/
theorem units_of_lt_parts {mantissa exponent magnitude : Nat} (bits : mantissa ≤ 2 * 2 ^ f.fractionBits)
    (normal : 2 ^ f.fractionBits ≤ mantissa ∨ exponent = 0)
    (below : magnitude < exponent * 2 ^ f.fractionBits + mantissa) :
    mantissa = 2 ^ f.fractionBits ∧ exponent ≠ 0 ∧ f.units magnitude < mantissa * 2 ^ exponent ∨
      ∃ lower, mantissa = lower + 1 ∧ f.units magnitude ≤ lower * 2 ^ exponent := by
  by_cases border : mantissa = 2 ^ f.fractionBits ∧ exponent ≠ 0
  · refine .inl ⟨border.1, border.2, ?_⟩
    rw [← units_of_parts bits normal]
    exact units_strictMono below
  · obtain ⟨lower, rfl⟩ : ∃ lower, mantissa = lower + 1 := by
      refine Nat.exists_eq_succ_of_ne_zero ?_
      rintro rfl
      have one : 0 < 2 ^ f.fractionBits := Nat.pow_pos (by decide)
      have zero : exponent = 0 := normal.resolve_left (by omega)
      rw [zero] at below
      omega
    refine .inr ⟨lower, rfl, ?_⟩
    rw [← units_of_parts (Nat.le_of_succ_le bits) (by omega)]
    exact units_strictMono.monotone (Nat.le_of_lt_succ below)

/-- A pattern is even if its mantissa is. -/
theorem parts_mod_two (fraction : 0 < f.fractionBits) (exponent mantissa : Nat) :
    (exponent * 2 ^ f.fractionBits + mantissa) % 2 = mantissa % 2 := by
  obtain ⟨fewer, more⟩ := Nat.exists_eq_succ_of_ne_zero (Nat.ne_of_gt fraction)
  rw [more, Nat.pow_succ, ← Nat.mul_assoc]
  omega

/-! ### The nearest value -/

section Nearest

variable {num den : Nat}

/-- How far a number of units is from a quotient, counted in units of which each is cut in as many parts as the
    denominator says. -/
def distance (f : FloatFormat) (num : Int) (den : Nat) (units : Int) : Nat :=
  (units * den - num * (2 ^ f.unitExponent : Nat)).natAbs

theorem distance_zero : f.distance num den (f.units 0) = num * 2 ^ f.unitExponent := by
  rw [distance, units_zero, Int.natCast_zero, Int.zero_mul, Int.zero_sub, Int.natAbs_neg, ← Int.natCast_mul,
    Int.natAbs_natCast]

/-- The parts of a pattern that rounding gives: the quotient counted in units of the exponent. -/
theorem nearest_parts (num : Nat) (positive : 0 < den) :
    ∃ mantissa exponent, f.nearest num den = min (exponent * 2 ^ f.fractionBits + mantissa) f.infinityBits ∧
      mantissa = divNearest (num * 2 ^ f.unitExponent) (den * 2 ^ exponent) ∧ mantissa ≤ 2 * 2 ^ f.fractionBits ∧
      (exponent ≠ 0 → 2 ^ f.fractionBits ≤ mantissa ∧
        2 ^ f.fractionBits * (den * 2 ^ exponent) ≤ num * 2 ^ f.unitExponent) := by
  unfold nearest
  dsimp only
  generalize num * 2 ^ f.unitExponent = scaled
  obtain ⟨exponent, log⟩ : ∃ exponent, (scaled / den).log2 - f.fractionBits = exponent := ⟨_, rfl⟩
  rw [log]
  have unit : 0 < den * 2 ^ exponent := Nat.mul_pos positive (Nat.pow_pos (by decide))
  refine ⟨_, exponent, rfl, rfl, divNearest_le unit ?_, fun normal => ?_⟩
  · have less : scaled / den < 2 ^ (exponent + f.fractionBits + 1) :=
      Nat.lt_of_lt_of_le Nat.lt_log2_self (Nat.pow_le_pow_right (by decide) (by omega))
    calc scaled ≤ 2 ^ (exponent + f.fractionBits + 1) * den := Nat.le_of_lt ((Nat.div_lt_iff_lt_mul positive).1 less)
      _ = 2 * 2 ^ f.fractionBits * (den * 2 ^ exponent) := by ring
  · have some : scaled / den ≠ 0 := by
      intro zero
      rw [zero, Nat.log2_zero, Nat.zero_sub] at log
      exact normal log.symm
    have whole : (scaled / den).log2 = exponent + f.fractionBits := by omega
    have full : 2 ^ f.fractionBits * (den * 2 ^ exponent) ≤ scaled := by
      calc 2 ^ f.fractionBits * (den * 2 ^ exponent) = 2 ^ (exponent + f.fractionBits) * den := by ring
        _ ≤ scaled := (Nat.le_div_iff_mul_le positive).1 (whole ▸ Nat.log2_self_le some)
    exact ⟨le_divNearest unit full, full⟩

/-- Quotients below a power of two that leaves room are not rounded to infinity. -/
theorem nearest_lt_infinityBits (positive : 0 < den) {reach : Nat}
    (room : (reach + f.unitExponent + 2) * 2 ^ f.fractionBits < f.infinityBits) (small : num < den * 2 ^ reach) :
    f.nearest num den < f.infinityBits := by
  obtain ⟨mantissa, exponent, parts, -, bits, least⟩ := nearest_parts (f := f) num positive
  have below : exponent ≤ reach + f.unitExponent := by
    by_contra beyond
    have reached := (least (by omega)).2
    refine absurd reached (Nat.not_le.2 ?_)
    calc num * 2 ^ f.unitExponent < den * 2 ^ reach * 2 ^ f.unitExponent :=
          Nat.mul_lt_mul_of_pos_right small (Nat.pow_pos (by decide))
      _ = den * 2 ^ (reach + f.unitExponent) := by rw [Nat.mul_assoc, ← Nat.pow_add]
      _ ≤ den * 2 ^ exponent := Nat.mul_le_mul_left _ (Nat.pow_le_pow_right (by decide) (by omega))
      _ ≤ 2 ^ f.fractionBits * (den * 2 ^ exponent) := Nat.le_mul_of_pos_left _ (Nat.pow_pos (by decide))
  have field : exponent * 2 ^ f.fractionBits ≤ (reach + f.unitExponent) * 2 ^ f.fractionBits :=
    Nat.mul_le_mul_right _ below
  rw [Nat.add_mul] at room
  rw [parts]
  omega

/-- Any other value is farther from the quotient than the nearest one, or as far if the nearest pattern is even. -/
theorem nearest_nearer (fraction : 0 < f.fractionBits) (positive : 0 < den)
    (finite : f.nearest num den < f.infinityBits) {magnitude : Nat} (other : magnitude ≠ f.nearest num den) :
    f.distance num den (f.units (f.nearest num den)) < f.distance num den (f.units magnitude) ∨
      f.distance num den (f.units (f.nearest num den)) = f.distance num den (f.units magnitude) ∧
        f.nearest num den % 2 = 0 := by
  obtain ⟨mantissa, exponent, parts, rounded, bits, least⟩ := nearest_parts (f := f) num positive
  replace parts : f.nearest num den = exponent * 2 ^ f.fractionBits + mantissa := by omega
  have normal : 2 ^ f.fractionBits ≤ mantissa ∨ exponent = 0 := by
    by_cases zero : exponent = 0
    · exact .inr zero
    · exact .inl (least zero).1
  rw [parts] at other ⊢
  rw [parts_mod_two fraction]
  have unit : 0 < den * 2 ^ exponent := Nat.mul_pos positive (Nat.pow_pos (by decide))
  have product (mantissa : Nat) : mantissa * 2 ^ exponent * den = mantissa * (den * 2 ^ exponent) := by ring
  have near := divNearest_bounds (num * 2 ^ f.unitExponent) unit
  have halfway := divNearest_even (num * 2 ^ f.unitExponent) unit
  rw [← rounded] at near halfway
  simp only [distance, units_of_parts bits normal, ← Int.natCast_mul, product]
  rcases Nat.lt_or_gt_of_ne other with below | above
  · rcases units_of_lt_parts bits normal below with ⟨border, greater, less⟩ | ⟨lower, rfl, less⟩
    · -- at a power of two the values below lie closer together, but the quotient lies above
      have beyond := (least greater).2
      rw [← border] at beyond
      replace less := Nat.mul_lt_mul_of_pos_right less positive
      rw [product] at less
      omega
    · replace less := Nat.mul_le_mul_right den less
      rw [product] at less
      rw [Nat.add_one_mul lower] at near halfway ⊢
      omega
  · have more := Nat.mul_le_mul_right den (le_units_of_parts_lt bits normal above)
    rw [product, Nat.add_one_mul mantissa] at more
    omega

end Nearest

/-! ### Signs -/

/-- A number with a sign. -/
def signed (negative : Bool) (n : Nat) : Int := if negative then -(n : Int) else n

@[simp] theorem signed_false (n : Nat) : signed false n = n := rfl

@[simp] theorem signed_true (n : Nat) : signed true n = -(n : Int) := rfl

theorem signed_natAbs (n : Int) : signed (n < 0) n.natAbs = n := by
  by_cases negative : n < 0
  · rw [decide_eq_true negative, signed_true]
    omega
  · rw [decide_eq_false negative, signed_false]
    omega

theorem signed_mul (negative : Bool) (n k : Nat) : signed negative n * k = signed negative (n * k) := by
  cases negative with
  | false => exact (Int.natCast_mul n k).symm
  | true => exact (Int.neg_mul ..).trans (congrArg Neg.neg (Int.natCast_mul n k).symm)

theorem infinityBits_lt_signBit : f.infinityBits < f.signBit := by
  have one : 0 < 2 ^ f.fractionBits := Nat.pow_pos (by decide)
  have field : 2 ^ f.exponentBits - 1 < 2 ^ f.exponentBits := Nat.sub_lt (Nat.pow_pos (by decide)) (by decide)
  rw [infinityBits, signBit, Nat.pow_add, Nat.mul_comm (2 ^ f.fractionBits)]
  exact Nat.mul_lt_mul_of_pos_right field one

section Sign

variable {magnitude : Nat} (finite : magnitude < f.infinityBits) (negative : Bool)

include finite

@[simp] theorem magnitude_withSign : f.magnitude (f.withSign negative magnitude) = magnitude := by
  have less : magnitude < f.signBit := finite.trans infinityBits_lt_signBit
  cases negative with
  | false => exact Nat.mod_eq_of_lt less
  | true => exact (Nat.add_mod_left ..).trans (Nat.mod_eq_of_lt less)

@[simp] theorem isNegative_withSign : f.isNegative (f.withSign negative magnitude) = negative := by
  have less : magnitude < f.signBit := finite.trans infinityBits_lt_signBit
  cases negative with
  | false => exact decide_eq_false (Nat.not_le.2 less)
  | true => exact decide_eq_true (Nat.le_add_right ..)

theorem isFinite_withSign : f.isFinite (f.withSign negative magnitude) = true := by
  rw [isFinite, magnitude_withSign finite]
  exact decide_eq_true finite

end Sign

/-! ### Values -/

/-- The units of a finite pattern, with its sign. -/
def amount (f : FloatFormat) (bits : Nat) : Int := signed (f.isNegative bits) (f.units (f.magnitude bits))

/-- The number that a finite pattern stands for. -/
def value (f : FloatFormat) (bits : Nat) : ℚ := f.amount bits / 2 ^ f.unitExponent

theorem order_le_iff_amount_le {a b : Nat} : f.order a ≤ f.order b ↔ f.amount a ≤ f.amount b := by
  have up : f.units (f.magnitude a) ≤ f.units (f.magnitude b) ↔ _ := units_strictMono.le_iff_le
  have down : f.units (f.magnitude b) ≤ f.units (f.magnitude a) ↔ _ := units_strictMono.le_iff_le
  have none : f.units (f.magnitude a) ≤ f.units 0 ↔ _ := units_strictMono.le_iff_le
  have none' : f.units (f.magnitude b) ≤ f.units 0 ↔ _ := units_strictMono.le_iff_le
  rw [units_zero] at none none'
  unfold order amount signed
  split <;> split <;> omega

/-- The order in which patterns are compared is that of their values. -/
theorem order_le_iff_value_le {a b : Nat} : f.order a ≤ f.order b ↔ f.value a ≤ f.value b := by
  have unit : (0 : ℚ) < 2 ^ f.unitExponent := by positivity
  rw [order_le_iff_amount_le, value, value, div_le_div_iff_of_pos_right unit, Int.cast_le]

/-- Patterns that stand in the same place have the same parts, or are zeros. -/
theorem parts_of_order_eq {a b : Nat} (same : f.order a = f.order b) :
    f.isNegative a = f.isNegative b ∧ f.magnitude a = f.magnitude b ∨ f.magnitude a = 0 ∧ f.magnitude b = 0 := by
  unfold order at same
  cases signs : f.isNegative a <;> cases signs' : f.isNegative b <;>
    simp only [signs, signs', Bool.false_eq_true, if_true, if_false] at same
  · exact .inl ⟨rfl, by omega⟩
  · exact .inr (by omega)
  · exact .inr (by omega)
  · exact .inl ⟨rfl, by omega⟩

/-! ### Rounding -/

/-- A pattern is the rounding of a number if no finite value is nearer to it, and if it is even where another value is
    as near. -/
structure IsRounding (f : FloatFormat) (number : ℚ) (bits : Nat) : Prop where
  finite : f.isFinite bits = true
  nearest : ∀ other, f.isFinite other = true → |f.value bits - number| ≤ |f.value other - number|
  even : ∀ other, f.isFinite other = true → f.value other ≠ f.value bits →
    |f.value other - number| = |f.value bits - number| → f.magnitude bits % 2 = 0

/-- A finite value is its own rounding. -/
theorem isRounding_value {bits : Nat} (finite : f.isFinite bits = true) : f.IsRounding (f.value bits) bits where
  finite := finite
  nearest other _ := by
    rw [sub_self, abs_zero]
    exact abs_nonneg _
  even other _ apart same := by
    rw [sub_self, abs_zero, abs_eq_zero, sub_eq_zero] at same
    exact absurd same apart

/-- Distances between numbers, counted in units. -/
theorem abs_value_sub (bits : Nat) (num : Int) {den : Nat} (positive : 0 < den) :
    |f.value bits - num / den| = f.distance num den (f.amount bits) / (den * 2 ^ f.unitExponent) := by
  have den' : (0 : ℚ) < den := by exact_mod_cast positive
  have unit : (0 : ℚ) < 2 ^ f.unitExponent := by positivity
  have cleared : f.value bits - num / den
      = (f.amount bits * den - num * 2 ^ f.unitExponent) / (den * 2 ^ f.unitExponent) := by
    rw [value]
    field_simp
  rw [cleared, abs_div, abs_of_pos (mul_pos den' unit), distance, Nat.cast_natAbs]
  push_cast
  rfl

section Rounded

variable {num den : Nat} (fraction : 0 < f.fractionBits) (positive : 0 < den)
  (finite : f.nearest num den < f.infinityBits) (negative : Bool)

include fraction positive finite

/-- The nearest value keeps its place when both sides take the same sign: zero stands between it and all values of the
    other sign. -/
theorem withSign_nearest_nearer (other : Nat) :
    let rounded := f.amount (f.withSign negative (f.nearest num den))
    f.distance (signed negative num) den rounded < f.distance (signed negative num) den (f.amount other) ∨
      f.distance (signed negative num) den rounded = f.distance (signed negative num) den (f.amount other) ∧
        (f.amount other = rounded ∨ f.nearest num den % 2 = 0) := by
  have from_zero : f.nearest num den ≠ 0 → _ := fun some =>
    nearest_nearer fraction positive finite some.symm
  simp only [amount, isNegative_withSign finite, magnitude_withSign finite]
  by_cases same : f.magnitude other = f.nearest num den
  · rw [same]
    by_cases sign : f.isNegative other = negative
    · rw [sign]
      exact .inr ⟨rfl, .inl rfl⟩
    by_cases none : f.nearest num den = 0
    · rw [none, units_zero]
      cases f.isNegative other <;> cases negative <;> simp
    · have some : 0 < f.units (f.nearest num den) * den := by
        refine Nat.mul_pos ?_ positive
        rw [← units_zero (f := f)]
        exact units_strictMono (Nat.pos_of_ne_zero none)
      specialize from_zero none
      rw [distance_zero] at from_zero
      simp only [distance, signed_mul, ← Int.natCast_mul] at from_zero ⊢
      cases negative <;> simp only [Bool.not_eq_true, Bool.not_eq_false] at sign <;>
        simp only [sign, signed_false, signed_true] <;> omega
  · have nearer := nearest_nearer fraction positive finite same
    simp only [distance, signed_mul, ← Int.natCast_mul] at nearer ⊢
    cases f.isNegative other <;> cases negative <;> simp only [signed_false, signed_true] <;> omega

/-- The nearest pattern with the sign of a quotient is the rounding of the quotient. -/
theorem isRounding_withSign_nearest :
    f.IsRounding ((signed negative num : Int) / den) (f.withSign negative (f.nearest num den)) := by
  have scale : (0 : ℚ) < den * 2 ^ f.unitExponent := by positivity
  have nearer := withSign_nearest_nearer fraction positive finite negative
  constructor
  · exact isFinite_withSign finite negative
  · intro other _
    rw [abs_value_sub _ _ positive, abs_value_sub _ _ positive, div_le_div_iff_of_pos_right scale, Nat.cast_le]
    rcases nearer other with less | ⟨same, _⟩
    · exact Nat.le_of_lt less
    · exact Nat.le_of_eq same
  · intro other _ apart same
    rw [abs_value_sub _ _ positive, abs_value_sub _ _ positive, div_left_inj' scale.ne', Nat.cast_inj] at same
    rw [magnitude_withSign finite]
    rcases nearer other with less | ⟨_, equal | even⟩
    · exact absurd same (Nat.ne_of_gt less)
    · exact absurd (by rw [value, equal, value]) apart
    · exact even

end Rounded

end FloatFormat

end JsonSidecar
