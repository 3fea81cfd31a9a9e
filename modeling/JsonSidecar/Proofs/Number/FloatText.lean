/-
Module: JsonSidecar.Proofs.Number.FloatText
Purpose: Texts of floating-point numbers.  Every bit pattern but those of no number is written as a strict number
  literal of bounded length, and reading the literal settles what the text cannot tell: the sign of zero
  is lost, and infinity counts as the number that is written for it.
Main exports: FloatFormat.IsStandard, FloatFormat.reread, FloatFormat.text_literal, FloatFormat.text_length_le
-/
import JsonSidecar.Number.FloatText
import JsonSidecar.Proofs.Number.Rendering

namespace JsonSidecar

namespace FloatFormat

/-- The formats that numbers are written in. -/
def IsStandard (f : FloatFormat) : Prop := f = double ∨ f = single

theorem double_isStandard : double.IsStandard := .inl rfl

theorem single_isStandard : single.IsStandard := .inr rfl

/-- What reading the text of a bit pattern comes to, for patterns whose text is exact: there is one pattern that
    is no number, infinity becomes the value next to `1e308`, and zero has no sign. -/
def reread (f : FloatFormat) (bits : Nat) : Nat :=
  match f.classify bits with
  | .nan => f.nanBits
  | .infinite negative => f.withSign negative (f.nearest (10 ^ 308) 1)
  | .finite _ units => if units = 0 then 0 else bits

/-- Whether a pattern is that of a finite number other than zero, which is written by its digits. -/
def hasDigits (f : FloatFormat) (bits : Nat) : Bool :=
  match f.classify bits with
  | .finite _ units => units != 0
  | _ => false

/-- A number written by its digits is left alone. -/
theorem reread_of_hasDigits {f : FloatFormat} {bits : Nat} (digits : f.hasDigits bits = true) :
    f.reread bits = bits := by
  unfold hasDigits at digits
  unfold reread
  cases read : f.classify bits with
  | nan => simp [read] at digits
  | infinite negative => simp [read] at digits
  | finite negative units =>
      have other : units ≠ 0 := by simpa [read] using digits
      simp [other]

/-- In single precision the value next to `1e308` is infinity. -/
example : single.reread single.infinityBits = single.infinityBits := by decide +kernel

/-! ### The reach of a format -/

variable {f : FloatFormat}

/-- The finite values reach up to a power of two that the exponent field tells. -/
theorem units_lt {magnitude : Nat} (finite : magnitude < f.infinityBits) :
    f.units magnitude < 2 ^ (f.fractionBits + (2 ^ f.exponentBits - 2)) := by
  have scale : 0 < 2 ^ f.fractionBits := Nat.pow_pos (by decide)
  have field : magnitude / 2 ^ f.fractionBits < 2 ^ f.exponentBits - 1 :=
    (Nat.div_lt_iff_lt_mul scale).2 finite
  have fraction : magnitude % 2 ^ f.fractionBits < 2 ^ f.fractionBits := Nat.mod_lt _ scale
  unfold units
  dsimp only
  split
  · exact Nat.lt_of_lt_of_le fraction (Nat.pow_le_pow_right (by decide) (Nat.le_add_right _ _))
  · rename_i normal
    obtain ⟨e, exponent⟩ := Nat.exists_eq_succ_of_ne_zero normal
    rw [exponent] at field ⊢
    rw [Nat.succ_sub_one]
    calc (2 ^ f.fractionBits + magnitude % 2 ^ f.fractionBits) * 2 ^ e
        < 2 ^ (f.fractionBits + 1) * 2 ^ e :=
          Nat.mul_lt_mul_of_pos_right (by rw [Nat.pow_succ]; omega) (Nat.pow_pos (by decide))
      _ = 2 ^ (f.fractionBits + 1 + e) := (Nat.pow_add ..).symm
      _ ≤ 2 ^ (f.fractionBits + (2 ^ f.exponentBits - 2)) := Nat.pow_le_pow_right (by decide) (by omega)

theorem IsStandard.digits_pos (standard : f.IsStandard) : 0 < f.decimalDigits := by
  rcases standard with rfl | rfl
  · decide
  · decide

theorem IsStandard.reach (standard : f.IsStandard) :
    2 ^ (f.fractionBits + (2 ^ f.exponentBits - 2)) ≤ 2 ^ f.unitExponent * 10 ^ 998 := by
  rcases standard with rfl | rfl
  · decide +kernel
  · decide +kernel

theorem IsStandard.unit (standard : f.IsStandard) : 2 ^ f.unitExponent ≤ 10 ^ 998 := by
  rcases standard with rfl | rfl
  · decide +kernel
  · decide +kernel

theorem IsStandard.infinity (standard : f.IsStandard) :
    f.ofDecimal (ascii "1") 308 = f.nearest (10 ^ 308) 1 := by
  rcases standard with rfl | rfl
  · decide +kernel
  · decide +kernel

/-- What a finite pattern counts in units, if it is one. -/
theorem classify_finite {bits units : Nat} {negative : Bool} (h : f.classify bits = .finite negative units) :
    units < 2 ^ (f.fractionBits + (2 ^ f.exponentBits - 2)) := by
  unfold classify at h
  split at h
  · cases h
  split at h
  · cases h
  · cases h
    exact units_lt (by omega)

/-- A positive value is rounded to digits that are not all zero, and its exponent has at most three digits. -/
theorem scientific_spec (standard : f.IsStandard) {units : Nat} (positive : 0 < units)
    (small : units < 2 ^ (f.fractionBits + (2 ^ f.exponentBits - 2))) :
    0 < (Scientific.ofRatio f.decimalDigits units (2 ^ f.unitExponent)).digits ∧
      (Scientific.ofRatio f.decimalDigits units (2 ^ f.unitExponent)).digits < 10 ^ f.decimalDigits ∧
      (Scientific.ofRatio f.decimalDigits units (2 ^ f.unitExponent)).exponent.natAbs < 1000 := by
  have unit : 0 < 2 ^ f.unitExponent := Nat.pow_pos (by decide)
  obtain ⟨lower, upper⟩ := Scientific.ofRatio_digits standard.digits_pos positive unit
  have above : units < 2 ^ f.unitExponent * 10 ^ 998 := Nat.lt_of_lt_of_le small standard.reach
  have below : 2 ^ f.unitExponent ≤ units * 10 ^ 998 :=
    Nat.le_trans standard.unit (Nat.le_mul_of_pos_left _ positive)
  obtain ⟨least, greatest⟩ :=
    Scientific.ofRatio_exponent f.decimalDigits positive unit above below
  refine ⟨Nat.lt_of_lt_of_le (Nat.pow_pos (by decide)) lower, upper, by omega⟩

theorem IsStandard.digits_le_room (standard : f.IsStandard) : f.decimalDigits ≤ 37 := by
  rcases standard with rfl | rfl
  · decide
  · decide

/-- There is always room for the rendering of a positive value, and what is laid out of it is the rounded number. -/
theorem rendered_layout (standard : f.IsStandard) {units : Nat} (positive : 0 < units)
    (small : units < 2 ^ (f.fractionBits + (2 ^ f.exponentBits - 2))) (negative : Bool) :
    ∃ rendering, (Scientific.ofRatio f.decimalDigits units (2 ^ f.unitExponent)).rendered? = some rendering ∧
      Scientific.layoutRendering f.decimalDigits negative rendering
        = (if negative then [Byte.minus] else [])
          ++ Scientific.layout f.decimalDigits
            (Decimal.text (Scientific.ofRatio f.decimalDigits units (2 ^ f.unitExponent)).digits)
            (Scientific.ofRatio f.decimalDigits units (2 ^ f.unitExponent)).exponent := by
  obtain ⟨_, digits, exponent⟩ := scientific_spec standard positive small
  generalize Scientific.ofRatio f.decimalDigits units (2 ^ f.unitExponent) = rounded at digits exponent
  have count := Decimal.text_length_le digits standard.digits_pos
  have few := standard.digits_le_room
  have room := Scientific.rendering_length_le (Decimal.text rounded.digits) (k := 3) (by decide) exponent
  have fits : (Scientific.rendering (Decimal.text rounded.digits) rounded.exponent).length
      ≤ Scientific.renderingRoom := by
    unfold Scientific.renderingRoom
    omega
  refine ⟨_, if_pos fits, ?_⟩
  apply Scientific.layoutRendering_rendering f.decimalDigits negative (Decimal.text_isDigit _)
  · unfold Scientific.digitRoom
    omega
  · omega
  · omega

/-! ### Texts as literals -/

/-- A literal with a minus sign in front, if the number is negative. -/
theorem literal_withSign {l : NumberLiteral} (strict : l.Strict) (unsigned : l.sign = none) (negative : Bool) :
    ∃ l' : NumberLiteral, l'.Strict ∧ l'.text = (if negative then [Byte.minus] else []) ++ l.text := by
  cases negative with
  | false => exact ⟨l, strict, rfl⟩
  | true => exact ⟨{ l with sign := some Byte.minus }, strict.negative, by simp [NumberLiteral.text, unsigned]⟩

/-- The literal for infinity. -/
def infinityLiteral (negative : Bool) : NumberLiteral :=
  ⟨if negative then some Byte.minus else none, ascii "1", none, some ⟨0x65, none, ascii "308"⟩⟩

theorem infinityLiteral_strict (negative : Bool) : (infinityLiteral negative).Strict := by
  have digits : ∀ b ∈ ascii "308", Byte.isDigit b = true := by decide +kernel
  have mark : ∀ e, some (⟨0x65, none, ascii "308"⟩ : ExponentPart) = some e → e.WellFormed := by
    rintro e ⟨⟩
    exact ⟨rfl, nofun, digits, by simp [ascii]⟩
  have positive : (infinityLiteral false).Strict :=
    .of_unsigned (List.forall_mem_singleton.2 rfl) (by simp [ascii]) (by simp [ascii]) nofun nofun mark
  cases negative with
  | false => exact positive
  | true => exact positive.negative

theorem infinityLiteral_floatBits (standard : f.IsStandard) (negative : Bool) :
    (infinityLiteral negative).floatBits f = f.withSign negative (f.nearest (10 ^ 308) 1) := by
  rw [← standard.infinity]
  cases negative with
  | false => rfl
  | true => rfl

/-- The digits of a positive value make a strict literal. -/
theorem scientific_literal (standard : f.IsStandard) {units : Nat} (positive : 0 < units)
    (small : units < 2 ^ (f.fractionBits + (2 ^ f.exponentBits - 2))) (negative : Bool) :
    ∃ l : NumberLiteral, l.Strict ∧ l.text = (if negative then [Byte.minus] else [])
      ++ Scientific.layout f.decimalDigits
        (Decimal.text (Scientific.ofRatio f.decimalDigits units (2 ^ f.unitExponent)).digits)
        (Scientific.ofRatio f.decimalDigits units (2 ^ f.unitExponent)).exponent := by
  obtain ⟨above, _, _⟩ := scientific_spec standard positive small
  generalize Scientific.ofRatio f.decimalDigits units (2 ^ f.unitExponent) = rounded at above
  obtain ⟨b, rest, digits, leads⟩ := Decimal.text_begins above
  have inside := Decimal.text_isDigit rounded.digits
  rw [digits] at inside
  obtain ⟨l, strict, unsigned, text⟩ := Scientific.layout_literal f.decimalDigits rounded.exponent inside leads
  obtain ⟨l', strict', text'⟩ := literal_withSign strict unsigned negative
  exact ⟨l', strict', by rw [text', text, digits]⟩

/-- Every text but that of no number is a strict literal, and the literals for infinity and zero are read as `reread`
    says. -/
theorem text_literal (standard : f.IsStandard) {bits : Nat} (number : f.classify bits ≠ .nan) :
    ∃ l : NumberLiteral, l.Strict ∧ l.text = f.text bits ∧
      (f.hasDigits bits = false → l.floatBits f = f.reread bits) := by
  unfold text reread hasDigits
  cases read : f.classify bits with
  | nan => exact absurd read number
  | infinite negative =>
      refine ⟨infinityLiteral negative, infinityLiteral_strict negative, ?_,
        fun _ => infinityLiteral_floatBits standard negative⟩
      cases negative with
      | false => rfl
      | true => rfl
  | finite negative units =>
      dsimp only
      split
      · refine ⟨⟨none, [Byte.zero], none, none⟩, ?_, rfl, fun _ => rfl⟩
        exact .of_unsigned (by simp [Byte.isDigit, Byte.zero]) (by simp) (by simp) nofun nofun nofun
      · rename_i other
        have positive := Nat.pos_of_ne_zero other
        obtain ⟨l, strict, text⟩ := scientific_literal standard positive (classify_finite read) negative
        obtain ⟨rendering, rendered, laidOut⟩ := rendered_layout standard positive (classify_finite read) negative
        exact ⟨l, strict, by rw [text, rendered, ← laidOut], by simp [other]⟩

/-- What is no number is written as `null`. -/
theorem text_nan {bits : Nat} (none : f.classify bits = .nan) : f.text bits = Word.null := by
  rw [text, none]

/-- The text of a number is at most seven bytes longer than its digits: a sign, a point or the zeros in front of
    the digits, and an exponent. -/
theorem text_length_le (standard : f.IsStandard) (bits : Nat) : (f.text bits).length ≤ f.decimalDigits + 7 := by
  unfold text
  cases read : f.classify bits with
  | nan =>
      dsimp only
      show 4 ≤ _
      omega
  | infinite negative =>
      dsimp only
      cases negative with
      | false =>
          show 5 ≤ _
          omega
      | true =>
          show 6 ≤ _
          omega
  | finite negative units =>
      dsimp only
      split
      · simp
      · rename_i other
        have positive := Nat.pos_of_ne_zero other
        obtain ⟨_, digits, exponent⟩ := scientific_spec standard positive (classify_finite read)
        obtain ⟨rendering, rendered, laidOut⟩ := rendered_layout standard positive (classify_finite read) negative
        have layout := Scientific.layout_length_le (Decimal.text_length_le digits standard.digits_pos) exponent
        rw [rendered]
        dsimp only
        rw [laidOut, List.length_append]
        split
        · simp only [List.length_singleton]
          omega
        · simp only [List.length_nil]
          omega

end FloatFormat

end JsonSidecar
