/-
Module: JsonSidecar.Proofs.Number.Rendering
Purpose: The way from a rounded number to its text leads through a rendering, and nothing is lost on it: the layout
  finds the same digits and the same exponent there, as long as the digits fit the layout and the exponent a word.
Main exports: Scientific.renderedDigits_rendering, Scientific.renderedExponent_rendering,
  Scientific.layoutRendering_rendering, Scientific.rendering_length_le
-/
import JsonSidecar.Proofs.Number.Scientific

namespace JsonSidecar.Scientific

/-! ### The two parts of a rendering -/

/-- The part of a rendering in front of its exponent. -/
def mantissa (digits : Bytes) : Bytes :=
  digits.take 1 ++ (if digits.length ≤ 1 then [] else Byte.dot :: digits.drop 1)

theorem rendering_eq (digits : Bytes) (exponent : Int) :
    rendering digits exponent = mantissa digits ++ exponentMark :: Decimal.intText exponent := rfl

theorem isDigit_ne_mark {b : UInt8} (digit : Byte.isDigit b = true) : (b != exponentMark) = true := by
  rw [bne_iff_ne]
  rintro rfl
  cases digit

section Parts

variable {digits : Bytes} (inside : ∀ b ∈ digits, Byte.isDigit b = true)

include inside

/-- The exponent mark does not occur in front of the exponent. -/
theorem mantissa_ne_mark : ∀ b ∈ mantissa digits, (b != exponentMark) = true := by
  intro b mem
  rcases List.mem_append.1 mem with mem | mem
  · exact isDigit_ne_mark (inside b (List.mem_of_mem_take mem))
  split at mem
  · cases mem
  rcases List.mem_cons.1 mem with rfl | mem
  · rfl
  · exact isDigit_ne_mark (inside b (List.mem_of_mem_drop mem))

/-- Without the point, what stands in front of the exponent are the digits. -/
theorem filter_mantissa : (mantissa digits).filter Byte.isDigit = digits := by
  have front : (digits.take 1).filter Byte.isDigit = digits.take 1 :=
    List.filter_eq_self.2 fun b mem => inside b (List.mem_of_mem_take mem)
  have behind : (digits.drop 1).filter Byte.isDigit = digits.drop 1 :=
    List.filter_eq_self.2 fun b mem => inside b (List.mem_of_mem_drop mem)
  have point : Byte.isDigit Byte.dot = false := rfl
  rw [mantissa, List.filter_append, front]
  split
  · rename_i short
    rw [List.filter_nil, List.append_nil]
    exact List.take_of_length_le short
  · rw [List.filter_cons_of_neg (by simp [point]), behind]
    exact List.take_append_drop 1 digits

theorem takeWhile_rendering (exponent : Int) :
    (rendering digits exponent).takeWhile (· != exponentMark) = mantissa digits := by
  rw [rendering_eq, List.takeWhile_append_of_pos (mantissa_ne_mark inside)]
  simp

theorem dropWhile_rendering (exponent : Int) :
    (rendering digits exponent).dropWhile (· != exponentMark) = exponentMark :: Decimal.intText exponent := by
  rw [rendering_eq, List.dropWhile_append_of_pos (mantissa_ne_mark inside)]
  simp

/-- The layout finds the digits of a rendering, if there are not too many of them. -/
theorem renderedDigits_rendering (few : digits.length ≤ digitRoom) (exponent : Int) :
    renderedDigits (rendering digits exponent) = digits := by
  rw [renderedDigits, takeWhile_rendering inside, filter_mantissa inside]
  exact List.take_of_length_le few

end Parts

/-! ### The exponent as a word -/

/-- Digits that are read in words come to the word of the number they denote. -/
theorem foldl_word (digits : Bytes) (n : Nat) :
    digits.foldl (fun n b => n * 10 + Int32.ofNat (Byte.digitValue b)) (Int32.ofNat n)
      = Int32.ofNat (digits.foldl (fun n b => n * 10 + Byte.digitValue b) n) := by
  induction digits generalizing n with
  | nil => rfl
  | cons b digits ih =>
      have step : Int32.ofNat n * 10 + Int32.ofNat (Byte.digitValue b)
          = Int32.ofNat (n * 10 + Byte.digitValue b) := by
        rw [Int32.ofNat_add, Int32.ofNat_mul]
        rfl
      rw [List.foldl_cons, List.foldl_cons, step, ih]

theorem magnitude_text (n : Nat) :
    ((Decimal.text n).filter Byte.isDigit).foldl (fun n b => n * 10 + Int32.ofNat (Byte.digitValue b)) 0
      = Int32.ofNat n := by
  have digits : (Decimal.text n).filter Byte.isDigit = Decimal.text n :=
    List.filter_eq_self.2 (Decimal.text_isDigit n)
  have value := Decimal.value_text n
  rw [Decimal.value] at value
  rw [digits]
  exact (foldl_word (Decimal.text n) 0).trans (by rw [value])

/-- A number without a sign begins with neither of the signs. -/
theorem text_head?_ne {n : Nat} {sign : UInt8} (other : Byte.isDigit sign = false) :
    ((Decimal.text n).head? == some sign) = false := by
  rw [beq_eq_false_iff_ne]
  intro head
  rw [Decimal.text_isDigit n sign (List.mem_of_mem_head? head)] at other
  cases other

/-- The layout finds the exponent of a rendering, if it is a word: also the least one, whose magnitude is none. -/
theorem renderedExponent_rendering {digits : Bytes} (inside : ∀ b ∈ digits, Byte.isDigit b = true) {exponent : Int}
    (least : -2 ^ 31 ≤ exponent) (greatest : exponent < 2 ^ 31) :
    (renderedExponent (rendering digits exponent)).toInt = exponent := by
  have word : renderedExponent (rendering digits exponent) = Int32.ofInt exponent := by
    simp only [renderedExponent, dropWhile_rendering inside, List.drop_succ_cons, List.drop_zero]
    by_cases negative : exponent < 0
    · have whole : exponent = -(exponent.natAbs : Int) := by omega
      have signed : Decimal.intText exponent = Byte.minus :: Decimal.text exponent.natAbs := if_pos negative
      rw [signed]
      simp only [List.head?_cons, beq_self_eq_true, if_true, Bool.true_or, List.drop_succ_cons, List.drop_zero]
      rw [magnitude_text, ← Int32.ofInt_eq_ofNat, ← Int32.ofInt_neg, ← whole]
    · have whole : (exponent.natAbs : Int) = exponent := by omega
      have unsigned : Decimal.intText exponent = Decimal.text exponent.natAbs := if_neg negative
      have noMinus : ((Decimal.text exponent.natAbs).head? == some Byte.minus) = false := text_head?_ne rfl
      have noPlus : ((Decimal.text exponent.natAbs).head? == some Byte.plus) = false := text_head?_ne rfl
      simp only [unsigned, noMinus, noPlus, Bool.or_self, Bool.false_eq_true, if_false]
      rw [magnitude_text, ← Int32.ofInt_eq_ofNat, whole]
  rw [word]
  exact Int32.toInt_ofInt_of_le least greatest

/-! ### Layouts of renderings -/

/-- What is laid out of a rendering is the number that was rendered. -/
theorem layoutRendering_rendering (precision : Nat) (negative : Bool) {digits : Bytes}
    (inside : ∀ b ∈ digits, Byte.isDigit b = true) (few : digits.length ≤ digitRoom) {exponent : Int}
    (least : -2 ^ 31 ≤ exponent) (greatest : exponent < 2 ^ 31) :
    layoutRendering precision negative (rendering digits exponent)
      = (if negative then [Byte.minus] else []) ++ layout precision digits exponent := by
  rw [layoutRendering, renderedDigits_rendering inside few, renderedExponent_rendering inside least greatest]

/-- How long a rendering is: a point, the exponent mark and a sign beside the digits and those of the exponent. -/
theorem rendering_length_le (digits : Bytes) {exponent : Int} {k : Nat} (some : 0 < k)
    (small : exponent.natAbs < 10 ^ k) : (rendering digits exponent).length ≤ digits.length + k + 3 := by
  have count := Decimal.text_length_le small some
  have signed : (Decimal.intText exponent).length ≤ k + 1 := by
    unfold Decimal.intText
    split
    · simp only [List.length_cons]
      omega
    · omega
  have front : (mantissa digits).length ≤ digits.length + 1 := by
    rw [mantissa, List.length_append, List.length_take]
    split
    · simp only [List.length_nil]
      omega
    · simp only [List.length_cons, List.length_drop]
      omega
  rw [rendering_eq, List.length_append, List.length_cons]
  omega

end JsonSidecar.Scientific
