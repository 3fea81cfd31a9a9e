/-
Module: JsonSidecar.Proofs.Number.Scientific
Purpose: Rounding to significant digits and laying them out.  A positive quotient is rounded to exactly as many
  digits as were asked for, the layout of the digits is a strict number literal, and it has a fixed greatest length.
Main exports: Scientific.ofRatio_digits, Scientific.ofRatio_exponent, Scientific.layout_literal,
  Scientific.layout_length_le
-/
import JsonSidecar.Number.Scientific
import JsonSidecar.Proofs.Lexer.Number
import JsonSidecar.Proofs.Number.Decimal
import Mathlib.Data.List.TakeWhile
import Mathlib.Tactic.Ring

namespace JsonSidecar

/-! ### Rounding -/

theorem divNearest_le {num den k : Nat} (positive : 0 < den) (h : num ≤ k * den) : divNearest num den ≤ k := by
  have quotient : num / den ≤ k := Nat.div_le_of_le_mul (by rw [Nat.mul_comm]; exact h)
  have division : den * (num / den) + num % den = num := Nat.div_add_mod num den
  rcases Nat.lt_or_eq_of_le quotient with below | same
  · unfold divNearest
    dsimp only
    split
    · omega
    split
    · omega
    · omega
  · -- Nothing is left over, so nothing is rounded up.
    have exactly : num % den = 0 := by
      rw [same, Nat.mul_comm] at division
      omega
    simp [divNearest, exactly, positive, same]

theorem le_divNearest {num den k : Nat} (positive : 0 < den) (h : k * den ≤ num) : k ≤ divNearest num den := by
  have quotient : k ≤ num / den := (Nat.le_div_iff_mul_le positive).2 h
  unfold divNearest
  dsimp only
  split
  · exact quotient
  split
  · omega
  · omega

namespace Scientific

/-- The leading exponent as a difference of two powers, between which the quotient lies. -/
theorem leadingExponent_spec {num den : Nat} (positive : 0 < num) (positive' : 0 < den) :
    ∃ down up : Nat, leadingExponent num den = (down : Int) - up ∧ den * 10 ^ down ≤ num * 10 ^ up ∧
      num * 10 ^ up ≤ 10 * (den * 10 ^ down) := by
  unfold leadingExponent
  split
  · rename_i large
    have quotient : 0 < num / den := Nat.div_pos large positive'
    have count := Decimal.digitCount_pos quotient
    obtain ⟨k, digits⟩ : ∃ k, Decimal.digitCount (num / den) = k + 1 :=
      ⟨Decimal.digitCount (num / den) - 1, by omega⟩
    have lower := Decimal.pow_digitCount_le quotient
    have upper := Decimal.lt_pow_digitCount (num / den)
    rw [digits] at lower upper
    refine ⟨k, 0, by omega, ?_, ?_⟩
    · calc den * 10 ^ k ≤ den * (num / den) := Nat.mul_le_mul_left den lower
        _ ≤ num := Nat.mul_div_le num den
        _ = num * 10 ^ 0 := by simp
    · calc num * 10 ^ 0 = num := by simp
        _ ≤ 10 ^ (k + 1) * den := Nat.le_of_lt ((Nat.div_lt_iff_lt_mul positive').1 upper)
        _ = 10 * (den * 10 ^ k) := by ring
  · rename_i small
    have quotient : 0 < (den - 1) / num := Nat.div_pos (by omega) positive
    have count := Decimal.digitCount_pos quotient
    obtain ⟨k, digits⟩ : ∃ k, Decimal.digitCount ((den - 1) / num) = k + 1 :=
      ⟨Decimal.digitCount ((den - 1) / num) - 1, by omega⟩
    have lower := Decimal.pow_digitCount_le quotient
    have upper := Decimal.lt_pow_digitCount ((den - 1) / num)
    rw [digits] at lower upper
    refine ⟨0, k + 1, by omega, ?_, ?_⟩
    · have above := (Nat.div_lt_iff_lt_mul positive).1 upper
      calc den * 10 ^ 0 = den := by simp
        _ ≤ 10 ^ (k + 1) * num := by omega
        _ = num * 10 ^ (k + 1) := by ring
    · have below : num * 10 ^ k ≤ den - 1 :=
        Nat.le_trans (Nat.mul_le_mul_left num lower) (Nat.mul_div_le (den - 1) num)
      calc num * 10 ^ (k + 1) = 10 * (num * 10 ^ k) := by ring
        _ ≤ 10 * (den - 1) := Nat.mul_le_mul_left 10 below
        _ ≤ 10 * (den * 10 ^ 0) := by omega

/-- Rounding scales one side of the quotient. -/
theorem roundAt_eq (num den : Nat) (exponent : Int) :
    roundAt num den exponent
      = divNearest (num * 10 ^ (-exponent).toNat) (den * 10 ^ exponent.toNat) := by
  unfold roundAt
  split
  · rename_i nonneg
    simp [show (-exponent).toNat = 0 by omega]
  · rename_i negative
    simp [show exponent.toNat = 0 by omega]

/-- A positive quotient has as many digits as were asked for, if it is rounded at the place that its leading
    exponent tells; rounding up may reach the next power of ten. -/
theorem roundAt_leading {precision num den : Nat} (some : 0 < precision) (positive : 0 < num)
    (positive' : 0 < den) :
    10 ^ (precision - 1) ≤ roundAt num den (leadingExponent num den - (precision - 1 : Nat)) ∧
      roundAt num den (leadingExponent num den - (precision - 1 : Nat)) ≤ 10 ^ precision := by
  obtain ⟨down, up, leading, lower, upper⟩ := leadingExponent_spec positive positive'
  rw [roundAt_eq]
  generalize place : leadingExponent num den - (precision - 1 : Nat) = exponent
  have scales : exponent.toNat + up + (precision - 1) = (-exponent).toNat + down := by omega
  have scaled : 0 < den * 10 ^ exponent.toNat := Nat.mul_pos positive' (Nat.pow_pos (by decide))
  have cancel : 0 < 10 ^ up := Nat.pow_pos (by decide)
  constructor
  · refine le_divNearest scaled (Nat.le_of_mul_le_mul_right ?_ cancel)
    calc 10 ^ (precision - 1) * (den * 10 ^ exponent.toNat) * 10 ^ up
        = den * 10 ^ (exponent.toNat + up + (precision - 1)) := by ring
      _ = den * 10 ^ down * 10 ^ (-exponent).toNat := by rw [scales]; ring
      _ ≤ num * 10 ^ up * 10 ^ (-exponent).toNat := Nat.mul_le_mul_right _ lower
      _ = num * 10 ^ (-exponent).toNat * 10 ^ up := by ring
  · refine divNearest_le scaled (Nat.le_of_mul_le_mul_right ?_ cancel)
    calc num * 10 ^ (-exponent).toNat * 10 ^ up = num * 10 ^ up * 10 ^ (-exponent).toNat := by ring
      _ ≤ 10 * (den * 10 ^ down) * 10 ^ (-exponent).toNat := Nat.mul_le_mul_right _ upper
      _ = 10 * den * 10 ^ ((-exponent).toNat + down) := by ring
      _ = 10 ^ (precision - 1 + 1) * (den * 10 ^ exponent.toNat) * 10 ^ up := by rw [← scales]; ring
      _ = 10 ^ precision * (den * 10 ^ exponent.toNat) * 10 ^ up := by
        rw [Nat.sub_add_cancel some]

/-- Rounding a positive quotient to a number of digits gives that number of digits. -/
theorem ofRatio_digits {precision num den : Nat} (some : 0 < precision) (positive : 0 < num) (positive' : 0 < den) :
    10 ^ (precision - 1) ≤ (ofRatio precision num den).digits ∧
      (ofRatio precision num den).digits < 10 ^ precision := by
  obtain ⟨lower, upper⟩ := roundAt_leading some positive positive'
  unfold ofRatio
  dsimp only
  split
  · exact ⟨Nat.le_refl _, Nat.pow_lt_pow_right (by decide) (by omega)⟩
  · rename_i other
    exact ⟨lower, Nat.lt_of_le_of_ne upper other⟩

/-- The exponent of a quotient that lies between two powers of ten lies between theirs. -/
theorem ofRatio_exponent (precision : Nat) {num den above below : Nat} (positive : 0 < num) (positive' : 0 < den)
    (upper : num < den * 10 ^ above) (lower : den ≤ num * 10 ^ below) :
    -(below : Int) ≤ (ofRatio precision num den).exponent ∧ (ofRatio precision num den).exponent ≤ above := by
  have leading : -(below : Int) ≤ leadingExponent num den ∧ leadingExponent num den + 1 ≤ above := by
    unfold leadingExponent
    split
    · rename_i large
      have count : Decimal.digitCount (num / den) ≤ above :=
        Decimal.digitCount_le (Nat.div_lt_of_lt_mul upper)
      have quotient := Decimal.digitCount_pos (Nat.div_pos large positive')
      omega
    · rename_i small
      have count : Decimal.digitCount ((den - 1) / num) ≤ below :=
        Decimal.digitCount_le (Nat.div_lt_of_lt_mul (by omega))
      have quotient := Decimal.digitCount_pos (Nat.div_pos (show num ≤ den - 1 by omega) positive)
      omega
  unfold ofRatio
  dsimp only
  split
  · dsimp only
    omega
  · dsimp only
    omega

/-! ### Layout -/

theorem dropTrailingZeros_subset (digits : Bytes) : ∀ b ∈ dropTrailingZeros digits, b ∈ digits := by
  intro b mem
  rw [dropTrailingZeros, List.mem_reverse] at mem
  exact List.mem_reverse.1 ((List.dropWhile_sublist _).subset mem)

theorem dropTrailingZeros_length (digits : Bytes) : (dropTrailingZeros digits).length ≤ digits.length := by
  calc (dropTrailingZeros digits).length
      = (digits.reverse.dropWhile (· == Byte.zero)).length := List.length_reverse
    _ ≤ digits.reverse.length := (List.dropWhile_sublist _).length_le
    _ = digits.length := List.length_reverse

theorem significant_cons (b : UInt8) (rest : Bytes) : significant (b :: rest) = b :: dropTrailingZeros rest := rfl

theorem significant_length (digits : Bytes) : (significant digits).length ≤ digits.length := by
  cases digits with
  | nil => rfl
  | cons b rest =>
      rw [significant_cons, List.length_cons, List.length_cons]
      exact Nat.succ_le_succ (dropTrailingZeros_length rest)

/-- What is dropped are zeros, and none is left at the end. -/
theorem dropTrailingZeros_spec (digits : Bytes) :
    (∃ k, digits = dropTrailingZeros digits ++ List.replicate k Byte.zero) ∧
      (dropTrailingZeros digits).getLast? ≠ some Byte.zero := by
  unfold dropTrailingZeros
  constructor
  · refine ⟨(digits.reverse.takeWhile (· == Byte.zero)).length, ?_⟩
    have zeros : digits.reverse.takeWhile (· == Byte.zero)
        = List.replicate (digits.reverse.takeWhile (· == Byte.zero)).length Byte.zero :=
      List.eq_replicate_of_mem fun b mem => by simpa using List.mem_takeWhile_imp mem
    rw [← List.reverse_replicate, ← zeros, ← List.reverse_append, List.takeWhile_append_dropWhile, List.reverse_reverse]
  · rw [List.getLast?_reverse]
    intro last
    have kept := List.head?_dropWhile_not (· == Byte.zero) digits.reverse
    rw [last] at kept
    simp at kept

/-- The exponent part that the layout writes. -/
def exponentPart (exponent : Int) : ExponentPart :=
  ⟨0x65, some (if exponent < 0 then Byte.minus else Byte.plus),
    (if exponent.natAbs < 10 then [Byte.zero] else []) ++ Decimal.text exponent.natAbs⟩

theorem exponentPart_wellFormed (exponent : Int) : (exponentPart exponent).WellFormed where
  mark := rfl
  sign b same := by
    cases same
    split
    · rfl
    · rfl
  digits b mem := by
    rcases List.mem_append.1 mem with mem | mem
    · split at mem
      · rw [List.mem_singleton.1 mem]
        rfl
      · cases mem
    · exact Decimal.text_isDigit _ b mem
  nonempty := by simp [exponentPart, Decimal.text_ne_nil]

theorem exponentText_eq (exponent : Int) :
    exponentText exponent = NumberLiteral.exponentText (some (exponentPart exponent)) := rfl

theorem exponentText_length {exponent : Int} (small : exponent.natAbs < 1000) :
    (exponentText exponent).length ≤ 5 := by
  by_cases tiny : exponent.natAbs < 10
  · have one := Decimal.text_length_le (k := 1) tiny (by decide)
    simp [exponentText, tiny]
    omega
  · have three := Decimal.text_length_le (k := 3) small (by decide)
    simp [exponentText, tiny]
    omega

/-- The literal that the layout writes for a first digit and the digits that are left behind it. -/
def layoutLiteral (precision : Nat) (b : UInt8) (digits : Bytes) (exponent : Int) : NumberLiteral :=
  if exponent < -4 || (precision : Int) ≤ exponent then
    ⟨none, [b], if digits.isEmpty then none else some digits, some (exponentPart exponent)⟩
  else if 0 ≤ exponent then
    if digits.length ≤ exponent.toNat then
      ⟨none, b :: (digits ++ List.replicate (exponent.toNat - digits.length) Byte.zero), none, none⟩
    else ⟨none, b :: digits.take exponent.toNat, some (digits.drop exponent.toNat), none⟩
  else ⟨none, [Byte.zero], some (List.replicate (-exponent - 1).toNat Byte.zero ++ b :: digits), none⟩

theorem layoutLiteral_text (precision : Nat) (b : UInt8) (rest : Bytes) (exponent : Int) :
    (layoutLiteral precision b (dropTrailingZeros rest) exponent).text = layout precision (b :: rest) exponent := by
  unfold layoutLiteral layout
  dsimp only
  rw [significant_cons]
  generalize dropTrailingZeros rest = digits
  split
  · cases digits with
    | nil => simp [NumberLiteral.text, NumberLiteral.fractionText, exponentText_eq]
    | cons d digits => simp [NumberLiteral.text, NumberLiteral.fractionText, exponentText_eq]
  split
  · simp only [List.length_cons, Nat.add_le_add_iff_right]
    split
    · simp [NumberLiteral.text, NumberLiteral.fractionText, NumberLiteral.exponentText]
    · simp [NumberLiteral.text, NumberLiteral.fractionText, NumberLiteral.exponentText]
  · simp [NumberLiteral.text, NumberLiteral.fractionText, NumberLiteral.exponentText]

theorem layoutLiteral_sign (precision : Nat) (b : UInt8) (digits : Bytes) (exponent : Int) :
    (layoutLiteral precision b digits exponent).sign = none := by
  unfold layoutLiteral
  split
  · rfl
  split
  · split
    · rfl
    · rfl
  · rfl

/-- The literal is strict if its first digit is not zero: the point stands between digits in every layout. -/
theorem layoutLiteral_strict (precision : Nat) {b : UInt8} {digits : Bytes} (exponent : Int)
    (first : Byte.isDigit b = true) (inside : ∀ x ∈ digits, Byte.isDigit x = true) (leads : b ≠ Byte.zero) :
    (layoutLiteral precision b digits exponent).Strict := by
  have leading : ∀ (tail : Bytes) rest, b :: tail = Byte.zero :: rest → rest = [] :=
    fun tail rest same => absurd (List.cons.inj same).1 leads
  have zeros : ∀ k, ∀ x ∈ List.replicate k Byte.zero, Byte.isDigit x = true := by
    intro k x mem
    rw [List.eq_of_mem_replicate mem]
    rfl
  have whole : ∀ {tail : Bytes}, (∀ x ∈ tail, Byte.isDigit x = true) → ∀ x ∈ b :: tail, Byte.isDigit x = true :=
    fun inside => List.forall_mem_cons.2 ⟨first, inside⟩
  unfold layoutLiteral
  split
  · have mark : ∀ e, some (exponentPart exponent) = some e → e.WellFormed := by
      rintro e ⟨⟩
      exact exponentPart_wellFormed exponent
    cases digits with
    | nil => exact .of_unsigned (whole nofun) (by simp) (leading []) nofun nofun mark
    | cons d digits => exact .of_unsigned (whole nofun) (by simp) (leading []) inside (by simp) mark
  split
  · split
    · refine .of_unsigned (whole fun x mem => ?_) (by simp) (leading _) nofun nofun nofun
      rcases List.mem_append.1 mem with mem | mem
      · exact inside x mem
      · exact zeros _ x mem
    · rename_i more
      have behind : digits.drop exponent.toNat ≠ [] := by
        rw [Ne, List.drop_eq_nil_iff]
        exact more
      have taken : ∀ x ∈ digits.take exponent.toNat, Byte.isDigit x = true :=
        fun x mem => inside x (List.mem_of_mem_take mem)
      have dropped : ∀ x ∈ digits.drop exponent.toNat, Byte.isDigit x = true :=
        fun x mem => inside x (List.mem_of_mem_drop mem)
      exact .of_unsigned (whole taken) (by simp) (leading _) dropped (by simpa using behind) nofun
  · refine .of_unsigned (zeros 1) (by simp) (by simp) (fun x mem => ?_) (by simp) nofun
    rcases List.mem_append.1 mem with mem | mem
    · exact zeros _ x mem
    · exact whole inside x mem

/-- The layout of digits is a strict number literal without a sign, if the first digit is not zero. -/
theorem layout_literal (precision : Nat) {b : UInt8} {rest : Bytes} (exponent : Int)
    (inside : ∀ x ∈ b :: rest, Byte.isDigit x = true) (leads : b ≠ Byte.zero) :
    ∃ l : NumberLiteral, l.Strict ∧ l.sign = none ∧ l.text = layout precision (b :: rest) exponent := by
  have kept : ∀ x ∈ dropTrailingZeros rest, Byte.isDigit x = true :=
    fun x mem => inside x (List.mem_cons_of_mem b (dropTrailingZeros_subset rest x mem))
  refine ⟨layoutLiteral precision b (dropTrailingZeros rest) exponent, ?_, ?_, ?_⟩
  · exact layoutLiteral_strict precision exponent (inside b List.mem_cons_self) kept leads
  · exact layoutLiteral_sign precision b _ exponent
  · exact layoutLiteral_text precision b rest exponent

/-- How long the layout gets: with an exponent of up to three digits, six bytes longer than the digits. -/
theorem layout_length_le {precision : Nat} {digits : Bytes} {exponent : Int} (fits : digits.length ≤ precision)
    (small : exponent.natAbs < 1000) : (layout precision digits exponent).length ≤ precision + 6 := by
  have kept := significant_length digits
  have mark := exponentText_length small
  unfold layout
  dsimp only
  split
  · split
    · simp
      omega
    · simp
      omega
  rename_i moderate
  simp only [Bool.or_eq_true, decide_eq_true_eq, not_or, Int.not_lt, Int.not_le] at moderate
  split
  · split
    · simp
      omega
    · simp
      omega
  · simp
    omega

end Scientific

end JsonSidecar
