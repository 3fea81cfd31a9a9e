/-
Module: JsonSidecar.Proofs.Number.Decimal
Purpose: Decimal texts of whole numbers: they hold digits only, no zero in front of others, denote the number they
  were written for, and are as long as the number is large.  The texts of integers are number literals.
Main exports: Decimal.text_isDigit, Decimal.text_leading, Decimal.value_text, Decimal.value_append,
  Decimal.text_length_le, Decimal.lt_pow_digitCount, Decimal.pow_digitCount_le, intLiteral_strict
-/
import JsonSidecar.Number.Decimal
import JsonSidecar.Proofs.Lexer.Number
import Mathlib.Data.List.Induction
import Mathlib.Tactic.Ring

namespace JsonSidecar

namespace Decimal

theorem digit_isDigit : ∀ n < 10, Byte.isDigit (Byte.digit n) = true := by
  decide

theorem digitValue_digit : ∀ n < 10, Byte.digitValue (Byte.digit n) = n := by
  decide

/-- What holds of one digit, and of a number if it holds of the number without its last digit, holds of all
    numbers.  The induction is on the count that bounds the digits. -/
theorem digits_induction {motive : Nat → Bytes → Prop} (one : ∀ n < 10, motive n [Byte.digit n])
    (more : ∀ n, 10 ≤ n → ∀ front, motive (n / 10) front → motive n (front ++ [Byte.digit (n % 10)]))
    (bound n : Nat) (enough : n < bound) : motive n (digits bound n) := by
  induction bound generalizing n with
  | zero => omega
  | succ bound ih =>
      rw [digits]
      split
      · rename_i small
        exact one n small
      · rename_i large
        exact more n (by omega) _ (ih (n / 10) (by omega))

theorem text_induction {motive : Nat → Bytes → Prop} (one : ∀ n < 10, motive n [Byte.digit n])
    (more : ∀ n, 10 ≤ n → ∀ front, motive (n / 10) front → motive n (front ++ [Byte.digit (n % 10)])) (n : Nat) :
    motive n (text n) :=
  digits_induction one more (n + 1) n (Nat.lt_succ_self n)

theorem text_isDigit (n : Nat) : ∀ b ∈ text n, Byte.isDigit b = true := by
  refine text_induction (motive := fun _ w => ∀ b ∈ w, Byte.isDigit b = true) ?_ ?_ n
  · intro n small b mem
    rw [List.mem_singleton.1 mem]
    exact digit_isDigit n small
  · intro n _ front inside b mem
    rcases List.mem_append.1 mem with mem | mem
    · exact inside b mem
    · rw [List.mem_singleton.1 mem]
      exact digit_isDigit _ (Nat.mod_lt _ (by decide))

theorem text_ne_nil (n : Nat) : text n ≠ [] := by
  refine text_induction (motive := fun _ w => w ≠ []) ?_ ?_ n
  · simp
  · simp

theorem digit_ne_zero : ∀ n < 10, 0 < n → Byte.digit n ≠ Byte.zero := by
  decide

/-- The digits of a positive number begin with one that is not zero. -/
theorem text_begins {n : Nat} (positive : 0 < n) : ∃ b rest, text n = b :: rest ∧ b ≠ Byte.zero := by
  refine text_induction (motive := fun n w => 0 < n → ∃ b rest, w = b :: rest ∧ b ≠ Byte.zero) ?_ ?_ n positive
  · intro n small positive
    exact ⟨_, [], rfl, digit_ne_zero n small positive⟩
  · intro n large front begins _
    obtain ⟨b, rest, rfl, other⟩ := begins (by omega)
    exact ⟨b, rest ++ [Byte.digit (n % 10)], rfl, other⟩

/-- A zero in front of a number is all of it. -/
theorem text_leading {n : Nat} {rest : Bytes} (zero : text n = Byte.zero :: rest) : rest = [] := by
  rcases Nat.eq_zero_or_pos n with rfl | positive
  · cases zero
    rfl
  · obtain ⟨b, rest', same, other⟩ := text_begins positive
    rw [zero] at same
    cases same
    exact absurd rfl other

theorem value_concat (front : Bytes) (b : UInt8) :
    value (front ++ [b]) = value front * 10 + Byte.digitValue b := by
  simp [value, List.foldl_append]

/-- The text of a number denotes it. -/
@[simp] theorem value_text (n : Nat) : value (text n) = n := by
  refine text_induction (motive := fun n w => value w = n) ?_ ?_ n
  · intro n small
    simp [value, digitValue_digit n small]
  · intro n _ front same
    rw [value_concat, same, digitValue_digit _ (Nat.mod_lt _ (by decide))]
    omega

/-! ### Runs of digits -/

/-- Digits behind others shift what those denote. -/
theorem value_append (front behind : Bytes) :
    value (front ++ behind) = value front * 10 ^ behind.length + value behind := by
  induction behind using List.reverseRecOn with
  | nil => simp [value]
  | append_singleton behind b ih =>
      rw [← List.append_assoc, value_concat, ih, value_concat, List.length_append, List.length_singleton, Nat.pow_succ]
      ring

theorem value_cons (b : UInt8) (rest : Bytes) :
    value (b :: rest) = Byte.digitValue b * 10 ^ rest.length + value rest := by
  have one : value [b] = Byte.digitValue b := by simp [value]
  rw [← one]
  exact value_append [b] rest

/-- Zeros denote nothing. -/
@[simp] theorem value_zeros (k : Nat) : value (List.replicate k Byte.zero) = 0 := by
  induction k with
  | zero => rfl
  | succ k ih =>
      rw [List.replicate_succ', value_concat, ih]
      rfl

theorem digitValue_lt {b : UInt8} (digit : Byte.isDigit b = true) : Byte.digitValue b < 10 := by
  simp only [Byte.isDigit, Bool.and_eq_true, decide_eq_true_eq, UInt8.le_iff_toNat_le] at digit
  have greatest : b.toNat ≤ 57 := digit.2
  unfold Byte.digitValue
  omega

theorem digitValue_pos {b : UInt8} (digit : Byte.isDigit b = true) (other : b ≠ Byte.zero) :
    0 < Byte.digitValue b := by
  simp only [Byte.isDigit, Bool.and_eq_true, decide_eq_true_eq, UInt8.le_iff_toNat_le] at digit
  have least : 48 ≤ b.toNat := digit.1
  have apart : b.toNat ≠ 48 := fun same => other (UInt8.toNat_inj.1 same)
  unfold Byte.digitValue
  omega

/-- Digits denote a number below the power of ten that their count tells. -/
theorem value_lt {digits : Bytes} (inside : ∀ b ∈ digits, Byte.isDigit b = true) :
    value digits < 10 ^ digits.length := by
  induction digits with
  | nil => simp [value]
  | cons b rest ih =>
      have first := digitValue_lt (inside b List.mem_cons_self)
      have behind := ih fun x mem => inside x (List.mem_cons_of_mem b mem)
      rw [value_cons, List.length_cons, Nat.pow_succ]
      calc Byte.digitValue b * 10 ^ rest.length + value rest
          < Byte.digitValue b * 10 ^ rest.length + 10 ^ rest.length := Nat.add_lt_add_left behind _
        _ = (Byte.digitValue b + 1) * 10 ^ rest.length := (Nat.succ_mul ..).symm
        _ ≤ 10 * 10 ^ rest.length := Nat.mul_le_mul_right _ first
        _ = 10 ^ rest.length * 10 := Nat.mul_comm ..

/-- Digits that begin with one that is not zero denote a number of that many digits. -/
theorem pow_le_value {b : UInt8} (digit : Byte.isDigit b = true) (leads : b ≠ Byte.zero) (rest : Bytes) :
    10 ^ rest.length ≤ value (b :: rest) := by
  rw [value_cons]
  calc 10 ^ rest.length ≤ Byte.digitValue b * 10 ^ rest.length :=
        Nat.le_mul_of_pos_left _ (digitValue_pos digit leads)
    _ ≤ Byte.digitValue b * 10 ^ rest.length + value rest := Nat.le_add_right ..

/-! ### How long a number is -/

theorem lt_pow_text_length (n : Nat) : n < 10 ^ (text n).length := by
  refine text_induction (motive := fun n w => n < 10 ^ w.length) ?_ ?_ n
  · intro n small
    simpa using small
  · intro n _ front below
    rw [List.length_append, List.length_singleton, Nat.pow_succ]
    omega

theorem pow_text_length_le {n : Nat} (positive : 0 < n) : 10 ^ ((text n).length - 1) ≤ n := by
  have step : ∀ n, 0 < n → 10 ^ (text n).length ≤ 10 * n := by
    refine text_induction (motive := fun n w => 0 < n → 10 ^ w.length ≤ 10 * n) ?_ ?_
    · intro n _ positive
      rw [List.length_singleton]
      omega
    · intro n large front below _
      have above := below (by omega)
      rw [List.length_append, List.length_singleton, Nat.pow_succ]
      omega
  have nonempty : 0 < (text n).length := List.length_pos_iff.2 (text_ne_nil n)
  obtain ⟨k, length⟩ : ∃ k, (text n).length = k + 1 := ⟨(text n).length - 1, by omega⟩
  have bound := step n positive
  rw [length, Nat.pow_succ] at bound
  rw [length, Nat.add_sub_cancel]
  omega

/-- A number below a power of ten has no more digits than the power. -/
theorem text_length_le {n k : Nat} (small : n < 10 ^ k) (positive : 0 < k) : (text n).length ≤ k := by
  rcases Nat.eq_zero_or_pos n with rfl | above
  · exact positive
  · have lower := Nat.lt_of_le_of_lt (pow_text_length_le above) small
    have fewer := (Nat.pow_lt_pow_iff_right (by decide : 1 < 10)).1 lower
    omega

theorem lt_pow_digitCount (n : Nat) : n < 10 ^ digitCount n := by
  unfold digitCount
  split
  · rename_i zero
    simp [zero]
  · exact lt_pow_text_length n

theorem pow_digitCount_le {n : Nat} (positive : 0 < n) : 10 ^ (digitCount n - 1) ≤ n := by
  rw [digitCount, if_neg (by omega)]
  exact pow_text_length_le positive

theorem digitCount_pos {n : Nat} (positive : 0 < n) : 0 < digitCount n := by
  rw [digitCount, if_neg (by omega)]
  exact List.length_pos_iff.2 (text_ne_nil n)

theorem digitCount_le {n k : Nat} (small : n < 10 ^ k) : digitCount n ≤ k := by
  rcases Nat.eq_zero_or_pos n with rfl | above
  · exact Nat.zero_le k
  · have lower := Nat.lt_of_le_of_lt (pow_digitCount_le above) small
    have fewer := (Nat.pow_lt_pow_iff_right (by decide : 1 < 10)).1 lower
    omega

end Decimal

/-! ### Integers -/

/-- The literal of an integer. -/
def intLiteral (n : Int) : NumberLiteral :=
  ⟨if n < 0 then some Byte.minus else none, Decimal.text n.natAbs, none, none⟩

theorem intLiteral_strict (n : Int) : (intLiteral n).Strict where
  sign b same := by
    simp only [intLiteral] at same
    split at same
    · cases same
      rfl
    · cases same
  whole := Decimal.text_isDigit _
  fraction := by simp [intLiteral]
  mantissa := .inl (Decimal.text_ne_nil _)
  exponent := by simp [intLiteral]
  unsigned := by
    simp only [intLiteral]
    split
    · decide
    · decide
  before := Decimal.text_ne_nil _
  behind := nofun
  leading _ := Decimal.text_leading

theorem intLiteral_text (n : Int) : (intLiteral n).text = Decimal.intText n := by
  unfold intLiteral Decimal.intText
  split
  · simp [NumberLiteral.text, NumberLiteral.fractionText, NumberLiteral.exponentText]
  · simp [NumberLiteral.text, NumberLiteral.fractionText, NumberLiteral.exponentText]

end JsonSidecar
