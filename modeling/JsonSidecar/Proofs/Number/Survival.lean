/-
Module: JsonSidecar.Proofs.Number.Survival
Purpose: Floating-point numbers survive their texts.  The digits of a text are so many that what is lost in rounding to
  them is less than what tells two numbers apart, so the number nearest to the text is the one that was written.
Main exports: FloatFormat.nearest_of_near, FloatFormat.ofDecimal_of_near, FloatFormat.text_floatBits
-/
import JsonSidecar.Proofs.Number.FloatText
import JsonSidecar.Proofs.Number.Layout
import JsonSidecar.Proofs.Number.Significant

namespace JsonSidecar

namespace FloatFormat

variable {f : FloatFormat}

/-- A number is near a whole number of units if it differs from it by less than that part of it which is told apart. -/
def Near (f : FloatFormat) (value : ℚ) (units : Nat) : Prop :=
  4 * 2 ^ f.fractionBits * |value * 2 ^ f.unitExponent - units| < units

/-- A number near some units is neither much less nor much more. -/
theorem Near.bounds {value : ℚ} {units : Nat} (near : f.Near value units) :
    (units : ℚ) < 2 * (value * 2 ^ f.unitExponent) ∧ value * 2 ^ f.unitExponent < 2 * units := by
  have scale : (1 : ℚ) ≤ 2 ^ f.fractionBits := one_le_pow₀ (by norm_num)
  have off := abs_nonneg (value * 2 ^ f.unitExponent - (units : ℚ))
  have quarter : 4 * |value * 2 ^ f.unitExponent - units| < units := by
    refine lt_of_le_of_lt ?_ near
    rw [mul_assoc]
    exact mul_le_mul_of_nonneg_left (le_mul_of_one_le_left off scale) (by norm_num)
  obtain ⟨lower, upper⟩ := abs_lt.1 (show |value * 2 ^ f.unitExponent - (units : ℚ)| < units / 4 by linarith)
  constructor
  · linarith
  · linarith

/-- A quotient near a finite value is rounded to it. -/
theorem nearest_of_near {num den magnitude : Nat} (positive : 0 < den) (finite : magnitude ≤ f.infinityBits)
    (near : f.Near (num / den) (f.units magnitude)) : f.nearest num den = magnitude := by
  have den' : (0 : ℚ) < den := by exact_mod_cast positive
  have scale : (0 : ℚ) < 4 * 2 ^ f.fractionBits := by positivity
  have cleared : ((num : ℚ) / den * 2 ^ f.unitExponent - f.units magnitude) * den
      = num * 2 ^ f.unitExponent - f.units magnitude * den := by
    field_simp
  have close : |(num : ℚ) * 2 ^ f.unitExponent - f.units magnitude * den|
      < f.units magnitude * den / (4 * 2 ^ f.fractionBits) := by
    rw [← cleared, abs_mul, abs_of_pos den', lt_div_iff₀ scale, mul_comm, ← mul_assoc]
    exact mul_lt_mul_of_pos_right near den'
  obtain ⟨lower, upper⟩ := abs_lt.1 close
  rw [lt_div_iff₀ scale] at upper
  rw [← neg_div, div_lt_iff₀ scale] at lower
  apply nearest_of_close positive finite
  · have upper' : (4 * 2 ^ f.fractionBits * (num * 2 ^ f.unitExponent) : ℚ)
        < 4 * 2 ^ f.fractionBits * (f.units magnitude * den) + f.units magnitude * den := by linarith
    exact_mod_cast upper'
  · have lower' : (4 * 2 ^ f.fractionBits * (f.units magnitude * den) : ℚ)
        < 4 * 2 ^ f.fractionBits * (num * 2 ^ f.unitExponent) + f.units magnitude * den := by linarith
    exact_mod_cast lower'

/-! ### Reading digits -/

/-- Zeros in front of digits do not matter. -/
theorem value_dropWhile (digits : Bytes) :
    Decimal.value (digits.dropWhile (· == Byte.zero)) = Decimal.value digits := by
  induction digits with
  | nil => rfl
  | cons b rest ih =>
      by_cases zero : b = Byte.zero
      · rw [zero, List.dropWhile_cons_of_pos (by simp), ih, Decimal.value_cons]
        simp [Byte.digitValue, Byte.zero]
      · rw [List.dropWhile_cons_of_neg (by simpa using zero)]

/-- The reach of a format covers twice its greatest and half its least value with a margin of powers of ten. -/
theorem IsStandard.range (standard : f.IsStandard) :
    2 * 2 ^ f.unitExponent ≤ 10 ^ f.unitExponent ∧
      2 * 2 ^ (f.fractionBits + (2 ^ f.exponentBits - 2)) ≤ 2 ^ f.unitExponent * 10 ^ f.unitExponent := by
  rcases standard with rfl | rfl
  · decide +kernel
  · decide +kernel

/-- Digits that denote a number near a finite value are read as it.  The number is within the reach of the format, so
    its exponent decides nothing. -/
theorem ofDecimal_of_near (standard : f.IsStandard) {digits : Bytes} (inside : ∀ b ∈ digits, Byte.isDigit b = true)
    {exponent : Int} {magnitude : Nat} (positive : 0 < f.units magnitude) (finite : magnitude < f.infinityBits)
    (near : f.Near (Decimal.value digits * (10 : ℚ) ^ exponent) (f.units magnitude)) :
    f.ofDecimal digits exponent = magnitude := by
  have one : (1 : ℚ) < 10 := by norm_num
  have unit : (0 : ℚ) < 2 ^ f.unitExponent := by positivity
  have some : (1 : ℚ) ≤ f.units magnitude := by exact_mod_cast positive
  have most : (f.units magnitude : ℚ) < 2 ^ (f.fractionBits + (2 ^ f.exponentBits - 2)) := by
    exact_mod_cast units_lt finite
  obtain ⟨low, high⟩ := standard.range
  have low' : (2 : ℚ) * 2 ^ f.unitExponent ≤ 10 ^ f.unitExponent := by exact_mod_cast low
  have high' : (2 : ℚ) * 2 ^ (f.fractionBits + (2 ^ f.exponentBits - 2)) ≤ 2 ^ f.unitExponent * 10 ^ f.unitExponent := by
    exact_mod_cast high
  obtain ⟨above, below⟩ := near.bounds
  have within : ∀ b ∈ digits.dropWhile (· == Byte.zero), Byte.isDigit b = true :=
    fun b mem => inside b ((List.dropWhile_sublist _).subset mem)
  have first := List.head?_dropWhile_not (· == Byte.zero) digits
  rw [← value_dropWhile] at near above below
  unfold ofDecimal
  dsimp only
  generalize digits.dropWhile (· == Byte.zero) = significant at near above below within first
  cases significant with
  | nil =>
      rw [Decimal.value, List.foldl_nil, Nat.cast_zero, zero_mul, zero_mul, mul_zero] at above
      linarith
  | cons b rest =>
      have leads : b ≠ Byte.zero := by simpa using first
      have least : (10 : ℚ) ^ rest.length ≤ Decimal.value (b :: rest) := by
        exact_mod_cast Decimal.pow_le_value (within b List.mem_cons_self) leads rest
      have greatest : (Decimal.value (b :: rest) : ℚ) < 10 ^ (b :: rest).length := by
        exact_mod_cast Decimal.value_lt within
      have power : (0 : ℚ) < 10 ^ exponent := by positivity
      have top : -(f.unitExponent : Int) < exponent + ((b :: rest).length : Nat) := by
        apply (zpow_lt_zpow_iff_right₀ one).1
        rw [zpow_neg, zpow_natCast, add_comm exponent, zpow_add₀ (by norm_num), zpow_natCast]
        refine lt_trans ?_ (mul_lt_mul_of_pos_right greatest power)
        rw [inv_lt_iff_one_lt_mul₀ (by positivity)]
        nlinarith
      have bottom : exponent + ((b :: rest).length : Nat) ≤ (f.unitExponent : Int) := by
        have smaller : exponent + (rest.length : Nat) < (f.unitExponent : Int) := by
          apply (zpow_lt_zpow_iff_right₀ one).1
          rw [zpow_natCast, add_comm exponent, zpow_add₀ (by norm_num), zpow_natCast]
          refine lt_of_le_of_lt (mul_le_mul_of_nonneg_right least (le_of_lt power)) ?_
          apply lt_of_mul_lt_mul_right (a := 2 ^ f.unitExponent) ?_ (le_of_lt unit)
          linarith
        rw [List.length_cons]
        omega
      have whole : ((Decimal.value (b :: rest) * 10 ^ exponent.toNat : Nat) : ℚ) / (10 ^ (-exponent).toNat : Nat)
          = Decimal.value (b :: rest) * (10 : ℚ) ^ exponent := by
        rw [Scientific.zpow_eq_div]
        push_cast
        rw [mul_div_assoc]
      have rounded : f.nearest (Decimal.value (b :: rest) * 10 ^ exponent.toNat) (10 ^ (-exponent).toNat) = magnitude := by
        apply nearest_of_near (Nat.pow_pos (by decide)) (Nat.le_of_lt finite)
        rw [whole]
        exact near
      rw [if_neg (by simp only [List.isEmpty_cons, Bool.false_or, decide_eq_true_eq]; omega), if_neg (by omega)]
      split
      · rename_i nonneg
        rwa [show (-exponent).toNat = 0 by omega, Nat.pow_zero] at rounded
      · rename_i negative
        rwa [show exponent.toNat = 0 by omega, Nat.pow_zero, Nat.mul_one] at rounded

/-! ### Texts -/

/-- A pattern of the format's size is put together again from its sign and its magnitude. -/
theorem withSign_magnitude {bits : Nat} (word : bits < 2 * f.signBit) :
    f.withSign (f.isNegative bits) (f.magnitude bits) = bits := by
  unfold withSign isNegative magnitude
  split
  · rename_i negative
    have signed : f.signBit ≤ bits := of_decide_eq_true negative
    rw [Nat.mod_eq_sub_mod signed, Nat.mod_eq_of_lt (by omega)]
    omega
  · rename_i positive
    have unsigned : ¬ f.signBit ≤ bits := fun signed => positive (decide_eq_true signed)
    exact Nat.mod_eq_of_lt (by omega)

/-- The parts of a finite pattern. -/
theorem of_classify_finite {bits units : Nat} {negative : Bool} (read : f.classify bits = .finite negative units) :
    negative = f.isNegative bits ∧ units = f.units (f.magnitude bits) ∧ f.magnitude bits < f.infinityBits := by
  unfold classify at read
  split at read
  · cases read
  split at read
  · cases read
  · rename_i notAbove notSame
    cases read
    exact ⟨rfl, rfl, by omega⟩

/-- The digits that a format asks for tell its values apart. -/
theorem IsStandard.digits_suffice (standard : f.IsStandard) : 4 * 2 ^ f.fractionBits < 2 * 10 ^ (f.decimalDigits - 1) := by
  rcases standard with rfl | rfl
  · decide +kernel
  · decide +kernel

/-- The digits of a positive value denote a number near it. -/
theorem scaled_near (standard : f.IsStandard) {units : Nat} (positive : 0 < units) :
    f.Near (Scientific.scaled (Decimal.text (Scientific.ofRatio f.decimalDigits units (2 ^ f.unitExponent)).digits)
      (Scientific.ofRatio f.decimalDigits units (2 ^ f.unitExponent)).exponent) units := by
  have unit : (0 : ℚ) < 2 ^ f.unitExponent := by positivity
  have some : (0 : ℚ) < units := by exact_mod_cast positive
  have error := Scientific.ofRatio_error standard.digits_pos positive (Nat.pow_pos (by decide) : 0 < 2 ^ f.unitExponent)
  have suffice : (4 : ℚ) * 2 ^ f.fractionBits < 2 * 10 ^ (f.decimalDigits - 1) := by
    exact_mod_cast standard.digits_suffice
  push_cast at error
  generalize Scientific.scaled _ _ = value at error ⊢
  have cleared : (value - units / 2 ^ f.unitExponent) * 2 ^ f.unitExponent = value * 2 ^ f.unitExponent - units := by
    field_simp
  unfold Near
  rw [← cleared, abs_mul, abs_of_pos unit]
  rcases eq_or_lt_of_le (abs_nonneg (value - units / 2 ^ f.unitExponent)) with exactly | off
  · rw [← exactly, zero_mul, mul_zero]
    exact some
  · calc 4 * 2 ^ f.fractionBits * (|value - units / 2 ^ f.unitExponent| * 2 ^ f.unitExponent)
        < 2 * 10 ^ (f.decimalDigits - 1) * (|value - units / 2 ^ f.unitExponent| * 2 ^ f.unitExponent) :=
          mul_lt_mul_of_pos_right suffice (mul_pos off unit)
      _ = 2 * 10 ^ (f.decimalDigits - 1) * |value - units / 2 ^ f.unitExponent| * 2 ^ f.unitExponent := by ring
      _ ≤ units / 2 ^ f.unitExponent * 2 ^ f.unitExponent := mul_le_mul_of_nonneg_right error (le_of_lt unit)
      _ = units := div_mul_cancel₀ _ (ne_of_gt unit)

end FloatFormat

/-- A literal that denotes a number near a finite value is read as that value with its sign. -/
theorem NumberLiteral.floatBits_of_near {f : FloatFormat} (standard : f.IsStandard) {l : NumberLiteral}
    (form : l.WellFormed) {magnitude : Nat} (positive : 0 < f.units magnitude) (finite : magnitude < f.infinityBits)
    (near : f.Near l.absValue (f.units magnitude)) : l.floatBits f = f.withSign l.isNegative magnitude := by
  have inside : ∀ b ∈ l.whole ++ l.fraction.getD [], Byte.isDigit b = true := by
    intro b mem
    rcases List.mem_append.1 mem with mem | mem
    · exact form.whole b mem
    · exact form.fraction b mem
  rw [absValue_eq] at near
  unfold floatBits
  dsimp only
  rw [FloatFormat.ofDecimal_of_near standard inside positive finite near]

namespace FloatFormat

variable {f : FloatFormat}

/-- A number that is written by its digits is rendered within the room that there is, and its text is the literal of
    the rendering, which is read as the number. -/
theorem text_floatBits (standard : f.IsStandard) {bits : Nat} (word : bits < 2 * f.signBit)
    (written : f.hasDigits bits = true) :
    ∃ rendering, (Scientific.ofRatio f.decimalDigits (f.units (f.magnitude bits)) (2 ^ f.unitExponent)).rendered?
        = some rendering ∧
      f.text bits = Scientific.layoutRendering f.decimalDigits (f.isNegative bits) rendering ∧
      ∃ l : NumberLiteral, l.Strict ∧ l.text = f.text bits ∧ l.floatBits f = bits := by
  unfold hasDigits at written
  cases read : f.classify bits with
  | nan => simp [read] at written
  | infinite negative => simp [read] at written
  | finite negative units =>
      have other : units ≠ 0 := by simpa [read] using written
      have positive := Nat.pos_of_ne_zero other
      have reach := classify_finite read
      obtain ⟨rfl, same, finite⟩ := of_classify_finite read
      have near := scaled_near standard positive
      obtain ⟨above, digits, exponent⟩ := scientific_spec standard positive reach
      obtain ⟨rendering, rendered, _⟩ := rendered_layout standard positive reach (f.isNegative bits)
      have text : f.text bits = Scientific.layoutRendering f.decimalDigits (f.isNegative bits) rendering := by
        simp only [FloatFormat.text, read, other, if_false, rendered]
      rw [← same]
      refine ⟨rendering, rendered, text, ?_⟩
      rw [text]
      generalize Scientific.ofRatio f.decimalDigits units (2 ^ f.unitExponent) = rounded
        at near above digits exponent rendered
      have whole : rendering = Scientific.rendering (Decimal.text rounded.digits) rounded.exponent := by
        unfold Scientific.rendered? at rendered
        dsimp only at rendered
        split at rendered
        · exact (Option.some.inj rendered).symm
        · cases rendered
      have count := Decimal.text_length_le digits standard.digits_pos
      have few := standard.digits_le_room
      obtain ⟨b, rest, begins, leads⟩ := Decimal.text_begins above
      have inside := Decimal.text_isDigit rounded.digits
      rw [begins] at near count inside whole
      obtain ⟨l, strict, literal, sign, denotes, _⟩ :=
        Scientific.layoutRendering_literal f.decimalDigits
          (show (b :: rest).length ≤ Scientific.digitRoom by unfold Scientific.digitRoom; omega) inside leads
          (show -2 ^ 31 ≤ rounded.exponent by omega) (by omega) (f.isNegative bits)
      have signed : l.isNegative = f.isNegative bits := by
        rw [NumberLiteral.isNegative, sign]
        cases f.isNegative bits with
        | false => rfl
        | true => rfl
      refine ⟨l, strict, by rw [literal, whole], ?_⟩
      rw [← denotes, same] at near
      rw [same] at positive
      rw [l.floatBits_of_near standard strict.toWellFormed positive finite near, signed, withSign_magnitude word]

end FloatFormat

end JsonSidecar
