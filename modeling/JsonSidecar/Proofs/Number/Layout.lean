/-
Module: JsonSidecar.Proofs.Number.Layout
Purpose: The layout of a rendering is what C prints with `%.Pg` for the decimal that was rendered, and it denotes
  exactly that decimal.  The rule of C is stated apart from the layout: positional or with an exponent mark, always
  with all `P` digits, and zeros are taken off the end of the fraction afterwards.
Main exports: Scientific.StyleG, Scientific.layout_styleG, Scientific.layoutRendering_exact
-/
import JsonSidecar.Proofs.Number.Rendering
import JsonSidecar.Proofs.Number.Value

namespace JsonSidecar.Scientific

/-! ### The rule of C -/

/-- A fraction without the zeros at its end. -/
def Trims (fraction kept : Bytes) : Prop :=
  (∃ k, fraction = kept ++ List.replicate k Byte.zero) ∧ kept.getLast? ≠ some Byte.zero

/-- A fraction with its point; a fraction that is empty has none. -/
def pointed (fraction : Bytes) : Bytes := if fraction = [] then [] else Byte.dot :: fraction

/-- An exponent behind its mark: always a sign, at least two digits, and no more than it takes. -/
def ExponentField (exponent : Int) (field : Bytes) : Prop :=
  ∃ digits : Bytes, field = exponentMark :: (if exponent < 0 then Byte.minus else Byte.plus) :: digits ∧
    (∀ b ∈ digits, Byte.isDigit b = true) ∧ Decimal.value digits = exponent.natAbs ∧
    (digits.length = 2 ∨ 2 < digits.length ∧ digits.head? ≠ some Byte.zero)

/-- The texts that `%.Pg` may print for significant digits and the exponent of the first of them: positional if the
    exponent is at least minus four and less than the precision, and with an exponent field otherwise. -/
inductive StyleG (precision : Nat) (digits : Bytes) (exponent : Int) : Bytes → Prop where
  | whole {kept : Bytes} : 0 ≤ exponent → exponent < precision → Trims (digits.drop (exponent.toNat + 1)) kept →
      StyleG precision digits exponent (digits.take (exponent.toNat + 1) ++ pointed kept)
  | fraction {kept : Bytes} : -4 ≤ exponent → exponent < 0 →
      Trims (List.replicate (-exponent - 1).toNat Byte.zero ++ digits) kept →
      StyleG precision digits exponent (Byte.zero :: pointed kept)
  | scientific {kept field : Bytes} : exponent < -4 ∨ (precision : Int) ≤ exponent → Trims (digits.drop 1) kept →
      ExponentField exponent field → StyleG precision digits exponent (digits.take 1 ++ pointed kept ++ field)

/-! ### The layout follows the rule -/

/-- The digits of an exponent are two, or as many as it takes. -/
theorem exponentPart_length (exponent : Int) :
    (exponentPart exponent).digits.length = 2 ∨
      2 < (exponentPart exponent).digits.length ∧ (exponentPart exponent).digits.head? ≠ some Byte.zero := by
  have nonempty := List.length_pos_iff.2 (Decimal.text_ne_nil exponent.natAbs)
  unfold exponentPart
  dsimp only
  split
  · rename_i small
    have one := Decimal.text_length_le (k := 1) small (by decide)
    left
    rw [List.length_append, List.length_singleton]
    omega
  · rename_i large
    obtain ⟨b, rest, begins, other⟩ := Decimal.text_begins (show 0 < exponent.natAbs by omega)
    have above := Decimal.lt_pow_text_length exponent.natAbs
    have two : 2 ≤ (Decimal.text exponent.natAbs).length := by
      by_contra few
      have one : (Decimal.text exponent.natAbs).length = 1 := by omega
      rw [one] at above
      omega
    rw [List.nil_append]
    rcases Nat.lt_or_eq_of_le two with more | same
    · refine .inr ⟨more, ?_⟩
      rw [begins, List.head?_cons]
      exact fun zero => other (Option.some.inj zero)
    · exact .inl same.symm

theorem exponentField_text (exponent : Int) : ExponentField exponent (exponentText exponent) :=
  ⟨_, rfl, (exponentPart_wellFormed exponent).digits, exponentPart_magnitude exponent, exponentPart_length exponent⟩

theorem trims_dropTrailingZeros (digits : Bytes) : Trims digits (dropTrailingZeros digits) :=
  dropTrailingZeros_spec digits

/-- Zeros alone leave nothing. -/
theorem trims_zeros (k : Nat) : Trims (List.replicate k Byte.zero) [] := ⟨⟨k, rfl⟩, nofun⟩

/-- What stands in front of a fraction that is left stays with it. -/
theorem Trims.append {fraction kept : Bytes} (trims : Trims fraction kept) (nonempty : kept ≠ []) (front : Bytes) :
    Trims (front ++ fraction) (front ++ kept) := by
  obtain ⟨⟨k, same⟩, last⟩ := trims
  refine ⟨⟨k, by rw [same, List.append_assoc]⟩, ?_⟩
  rwa [List.getLast?_append_of_ne_nil _ nonempty]

/-- If something is left behind a place, it is what is left of the digits behind that place. -/
theorem Trims.drop {digits kept : Bytes} (trims : Trims digits kept) {n : Nat} (more : n < kept.length) :
    digits.take n = kept.take n ∧ Trims (digits.drop n) (kept.drop n) := by
  obtain ⟨⟨k, rfl⟩, last⟩ := trims
  have nonempty : kept.drop n ≠ [] := by
    rw [Ne, List.drop_eq_nil_iff]
    omega
  refine ⟨List.take_append_of_le_length (Nat.le_of_lt more), ⟨k, List.drop_append_of_le_length (Nat.le_of_lt more)⟩, ?_⟩
  rwa [← List.getLast?_append_of_ne_nil (kept.take n) nonempty, List.take_append_drop]

/-- If nothing is left behind a place, zeros fill the digits up to it, and zeros follow. -/
theorem Trims.zeros {digits kept : Bytes} (trims : Trims digits kept) {n : Nat} (few : kept.length ≤ n)
    (inside : n ≤ digits.length) :
    digits.take n = kept ++ List.replicate (n - kept.length) Byte.zero ∧ Trims (digits.drop n) [] := by
  obtain ⟨⟨k, rfl⟩, _⟩ := trims
  rw [List.length_append, List.length_replicate] at inside
  constructor
  · rw [List.take_append, List.take_of_length_le few, List.take_replicate, Nat.min_eq_left (by omega)]
  · rw [List.drop_append, List.drop_eq_nil_iff.2 few, List.nil_append, List.drop_replicate]
    exact trims_zeros _

/-- The layout of digits that begin with one that is not zero is what `%.Pg` prints for them. -/
theorem layout_styleG {precision : Nat} {b : UInt8} {rest : Bytes} (count : (b :: rest).length = precision)
    (leads : b ≠ Byte.zero) (exponent : Int) :
    StyleG precision (b :: rest) exponent (layout precision (b :: rest) exponent) := by
  have trims := trims_dropTrailingZeros rest
  unfold layout
  dsimp only
  rw [significant_cons]
  generalize dropTrailingZeros rest = kept at trims
  split
  · rename_i extreme
    have point : (if (b :: kept).length ≤ 1 then [] else Byte.dot :: (b :: kept).drop 1) = pointed kept := by
      cases kept with
      | nil => rfl
      | cons d kept => rfl
    rw [point]
    apply StyleG.scientific
    · simpa using extreme
    · exact trims
    · exact exponentField_text exponent
  rename_i moderate
  simp only [Bool.or_eq_true, decide_eq_true_eq, not_or, Int.not_lt, Int.not_le] at moderate
  split
  · rename_i nonneg
    have place : exponent.toNat ≤ rest.length := by
      rw [List.length_cons] at count
      omega
    split
    · -- No digit is left behind the point, so the places in front of it are filled up with zeros.
      rename_i few
      rw [List.length_cons, Nat.add_le_add_iff_right] at few
      obtain ⟨front, behind⟩ := trims.zeros few place
      have text : b :: kept ++ List.replicate (exponent.toNat + 1 - (b :: kept).length) Byte.zero
          = (b :: rest).take (exponent.toNat + 1) ++ pointed [] := by
        rw [List.take_succ_cons, front, List.length_cons, Nat.add_sub_add_right]
        simp [pointed]
      rw [text]
      exact .whole nonneg moderate.2 behind
    · -- The point stands between two of the digits that are left.
      rename_i many
      rw [List.length_cons, Nat.add_le_add_iff_right, Nat.not_le] at many
      obtain ⟨front, behind⟩ := trims.drop many
      have nonempty : kept.drop exponent.toNat ≠ [] := by
        rw [Ne, List.drop_eq_nil_iff]
        omega
      have text : (b :: kept).take (exponent.toNat + 1) ++ Byte.dot :: (b :: kept).drop (exponent.toNat + 1)
          = (b :: rest).take (exponent.toNat + 1) ++ pointed (kept.drop exponent.toNat) := by
        rw [List.take_succ_cons, List.take_succ_cons, front, List.drop_succ_cons, pointed, if_neg nonempty]
      rw [text]
      exact .whole nonneg moderate.2 behind
  · -- The point stands in front of all digits, of which the first is left in any case.
    rename_i negative
    have first : Trims (b :: rest) (b :: kept) := by
      cases kept with
      | nil =>
          obtain ⟨⟨k, same⟩, _⟩ := trims
          refine ⟨⟨k, by rw [same]; rfl⟩, ?_⟩
          simpa using leads
      | cons d kept => exact trims.append (by simp) [b]
    have behind := first.append (by simp) (List.replicate (-exponent - 1).toNat Byte.zero)
    have text : Byte.dot :: (List.replicate (-exponent - 1).toNat Byte.zero ++ b :: kept)
        = pointed (List.replicate (-exponent - 1).toNat Byte.zero ++ b :: kept) := by
      rw [pointed, if_neg (by simp)]
    rw [text]
    exact .fraction moderate.1 (by omega) behind

/-! ### The literal of a layout -/

/-- How the literal of a layout looks: it has an exponent only where the rule asks for one, with a sign and two digits
    behind a single digit, and its fraction does not end in zero. -/
structure NormalForm (precision : Nat) (exponent : Int) (l : NumberLiteral) : Prop where
  fixed : l.exponent = none ↔ -4 ≤ exponent ∧ exponent < precision
  mark : ∀ e, l.exponent = some e → l.whole.length = 1 ∧ e.mark = exponentMark ∧ e.sign.isSome ∧ 2 ≤ e.digits.length
  fraction : ∀ digits, l.fraction = some digits → digits ≠ [] ∧ digits.getLast? ≠ some Byte.zero

theorem layoutLiteral_normalForm (precision : Nat) {b : UInt8} {kept : Bytes} (exponent : Int) (leads : b ≠ Byte.zero)
    (last : kept.getLast? ≠ some Byte.zero) : NormalForm precision exponent (layoutLiteral precision b kept exponent) := by
  unfold layoutLiteral
  split
  · rename_i extreme
    simp only [Bool.or_eq_true, decide_eq_true_eq] at extreme
    constructor
    · constructor
      · nofun
      · omega
    · rintro e ⟨⟩
      refine ⟨rfl, rfl, rfl, ?_⟩
      rcases exponentPart_length exponent with two | more
      · exact Nat.le_of_eq two.symm
      · exact Nat.le_of_lt more.1
    · intro digits same
      cases kept with
      | nil => cases same
      | cons d kept =>
          cases same
          exact ⟨List.cons_ne_nil d kept, last⟩
  rename_i moderate
  simp only [Bool.or_eq_true, decide_eq_true_eq, not_or, Int.not_lt, Int.not_le] at moderate
  have fixed : (none : Option ExponentPart) = none ↔ -4 ≤ exponent ∧ exponent < precision :=
    iff_of_true rfl moderate
  split
  · split
    · exact ⟨fixed, nofun, nofun⟩
    · rename_i many
      refine ⟨fixed, nofun, ?_⟩
      rintro digits ⟨⟩
      rw [List.getLast?_drop, if_neg many, Ne, List.drop_eq_nil_iff]
      exact ⟨many, last⟩
  · refine ⟨fixed, nofun, ?_⟩
    rintro digits ⟨⟩
    refine ⟨by simp, ?_⟩
    rw [List.getLast?_append_of_ne_nil _ (List.cons_ne_nil b kept)]
    cases kept with
    | nil => simpa using leads
    | cons d kept => exact last

/-- The sign in front of a layout. -/
def signOf (negative : Bool) : Option UInt8 := if negative then some Byte.minus else none

/-- What is laid out of a rendering is a strict literal in normal form that denotes what was rendered. -/
theorem layoutRendering_literal (precision : Nat) {b : UInt8} {rest : Bytes} (room : (b :: rest).length ≤ digitRoom)
    (inside : ∀ x ∈ b :: rest, Byte.isDigit x = true) (leads : b ≠ Byte.zero) {exponent : Int}
    (least : -2 ^ 31 ≤ exponent) (greatest : exponent < 2 ^ 31) (negative : Bool) :
    ∃ l : NumberLiteral, l.Strict ∧ l.text = layoutRendering precision negative (rendering (b :: rest) exponent) ∧
      l.sign = signOf negative ∧ l.absValue = scaled (b :: rest) exponent ∧ NormalForm precision exponent l := by
  obtain ⟨⟨k, same⟩, last⟩ := dropTrailingZeros_spec rest
  have kept : ∀ x ∈ dropTrailingZeros rest, Byte.isDigit x = true :=
    fun x mem => inside x (List.mem_cons_of_mem b (dropTrailingZeros_subset rest x mem))
  have strict := layoutLiteral_strict precision exponent (inside b List.mem_cons_self) kept leads
  have text := layoutLiteral_text precision b rest exponent
  have unsigned := layoutLiteral_sign precision b (dropTrailingZeros rest) exponent
  have form := layoutLiteral_normalForm precision exponent leads last
  have denotes : (layoutLiteral precision b (dropTrailingZeros rest) exponent).absValue = scaled (b :: rest) exponent := by
    rw [layoutLiteral_absValue, ← scaled_append_zeros b (dropTrailingZeros rest) k exponent, ← same]
  rw [layoutRendering_rendering precision negative inside room least greatest, ← text]
  generalize layoutLiteral precision b (dropTrailingZeros rest) exponent = l at strict unsigned form denotes
  cases negative with
  | false => exact ⟨l, strict, rfl, unsigned, denotes, form⟩
  | true =>
      refine ⟨{ l with sign := some Byte.minus }, strict.negative, ?_, rfl, denotes, form.1, form.2, form.3⟩
      simp [NumberLiteral.text, unsigned]

/-- The layout of a rendering denotes exactly the decimal that was rendered, in the notation that its exponent asks
    for, and is what C prints for it. -/
theorem layoutRendering_exact {precision : Nat} (positive : 0 < precision) (room : precision ≤ digitRoom)
    {digits : Bytes} (count : digits.length = precision) (inside : ∀ x ∈ digits, Byte.isDigit x = true)
    (leads : digits.head? ≠ some Byte.zero) {exponent : Int} (least : -2 ^ 31 ≤ exponent)
    (greatest : exponent < 2 ^ 31) (negative : Bool) :
    ∃ l : NumberLiteral, l.Strict ∧ l.text = layoutRendering precision negative (rendering digits exponent) ∧
      l.value = (if negative then -1 else 1) * (Decimal.value digits / 10 ^ (precision - 1)) * (10 : ℚ) ^ exponent ∧
      NormalForm precision exponent l ∧
      ∃ body, l.text = (signOf negative).toList ++ body ∧ StyleG precision digits exponent body := by
  cases digits with
  | nil =>
      rw [List.length_nil] at count
      omega
  | cons b rest =>
      have leads' : b ≠ Byte.zero := fun zero => leads (by rw [zero, List.head?_cons])
      rw [← count] at room
      obtain ⟨l, strict, text, sign, denotes, form⟩ :=
        layoutRendering_literal precision room inside leads' least greatest negative
      have places : rest.length = precision - 1 := by
        rw [← count, List.length_cons, Nat.add_sub_cancel]
      have ten : (10 : ℚ) ≠ 0 := by norm_num
      refine ⟨l, strict, text, ?_, form, layout precision (b :: rest) exponent, ?_, layout_styleG count leads' exponent⟩
      · rw [NumberLiteral.value, denotes, scaled_cons, zpow_sub₀ ten, zpow_natCast, places]
        cases negative with
        | false =>
            have positive : l.isNegative = false := by rw [NumberLiteral.isNegative, sign]; rfl
            rw [positive]
            simp only [Bool.false_eq_true, if_false]
            ring
        | true =>
            have negative : l.isNegative = true := by rw [NumberLiteral.isNegative, sign]; rfl
            rw [negative]
            simp only [if_true]
            ring
      · rw [text, layoutRendering_rendering precision negative inside room least greatest]
        cases negative with
        | false => rfl
        | true => rfl

/-- Five digits of which two are zeros at the end are laid out without those. -/
theorem layoutRendering_exact_trailing_zeros :
    ∃ l : NumberLiteral, l.Strict ∧ l.text = ascii "-125" ∧ l.value = -125 := by
  have laidOut : layoutRendering 5 true (rendering (ascii "12500") 2) = ascii "-125" := by decide +kernel
  have digits : Decimal.value (ascii "12500") = 12500 := by decide +kernel
  obtain ⟨l, strict, text, value, _⟩ :=
    layoutRendering_exact (by decide) (by decide) (show (ascii "12500").length = 5 by decide +kernel)
      (by decide +kernel) (by decide +kernel) (show (-2 ^ 31 : Int) ≤ 2 by decide) (by decide) true
  refine ⟨l, strict, text.trans laidOut, ?_⟩
  rw [value, digits]
  norm_num

end JsonSidecar.Scientific
