/-
Module: JsonSidecar.Proofs.Shape
Purpose: The number of elements and of bytes that a shape implies.  Both are the mathematical products wherever those
  fit a word, but for one kind of shape: dimensions whose product goes past a word in front of a dimension of zero.
  There the product on the way is lost, and the order of the dimensions decides.
Main exports: OverflowsBeforeZero, nonzeroDims, shapeCount?_eq_some_iff, shapeCount?_order_iff, Descriptor.counts_exact
-/
import JsonSidecar.Proofs.Decode.Stored
import Mathlib.Algebra.BigOperators.Group.List.Basic
import Mathlib.Algebra.BigOperators.Ring.List

namespace JsonSidecar

/-- The dimensions in front of a dimension of zero have a product that does not fit a word. -/
def OverflowsBeforeZero (shape : List Nat) : Prop :=
  ∃ front behind, shape = front ++ 0 :: behind ∧ wordLimit ≤ front.prod

/-- The dimensions other than zero. -/
def nonzeroDims (shape : List Nat) : List Nat := shape.filter (· ≠ 0)

/-! ### Products of the first dimensions -/

/-- Dimensions other than zero do not undo an overflow in front of them. -/
theorem prod_le_prod_append {front behind : List Nat} (positive : 0 ∉ behind) :
    front.prod ≤ (front ++ behind).prod := by
  have more : 0 < behind.prod := Nat.pos_of_ne_zero (List.prod_ne_zero positive)
  rw [List.prod_append]
  exact Nat.le_mul_of_pos_right _ more

/-- The products of the first dimensions all fit a word if the whole product does, unless a zero hides one that does
    not. -/
theorem fronts_fit_iff {shape : List Nat} :
    (∀ front, front <+: shape → front.prod < wordLimit) ↔ shape.prod < wordLimit ∧ ¬ OverflowsBeforeZero shape := by
  constructor
  · intro fit
    refine ⟨fit shape (List.prefix_refl _), ?_⟩
    rintro ⟨front, behind, rfl, large⟩
    exact absurd (fit front (List.prefix_append _ _)) (Nat.not_lt.2 large)
  · rintro ⟨whole, unhidden⟩ front ⟨rest, rfl⟩
    by_contra large
    rw [Nat.not_lt] at large
    by_cases zero : 0 ∈ rest
    · -- the dimensions up to the first zero behind `front` only make its product larger
      obtain ⟨between, behind, rfl, positive⟩ := List.eq_append_cons_of_mem zero
      exact unhidden ⟨front ++ between, behind, (List.append_assoc ..).symm, large.trans (prod_le_prod_append positive)⟩
    · exact absurd whole (Nat.not_lt.2 (large.trans (prod_le_prod_append zero)))

theorem shapeCount?_eq_some_iff {shape : List Nat} {p : Nat} :
    shapeCount? shape = some p ↔ (shape.prod = p ∧ p < wordLimit) ∧ ¬ OverflowsBeforeZero shape := by
  have fold : shape.foldlM mulWord? 1 = some p ↔
      (∀ front, front <+: shape → 1 * front.prod < wordLimit) ∧ 1 * shape.prod = p :=
    foldlM_mulWord?_eq_some_iff (by decide)
  simp only [Nat.one_mul, fronts_fit_iff] at fold
  rw [shapeCount?, fold]
  constructor
  · rintro ⟨⟨fits, unhidden⟩, rfl⟩
    exact ⟨⟨rfl, fits⟩, unhidden⟩
  · rintro ⟨⟨rfl, fits⟩, unhidden⟩
    exact ⟨⟨fits, unhidden⟩, rfl⟩

/-! ### Order of the dimensions -/

theorem not_overflowsBeforeZero_zero_cons (rest : List Nat) : ¬ OverflowsBeforeZero (0 :: rest) := by
  rintro ⟨front, behind, same, large⟩
  rcases front with _ | ⟨n, front⟩
  · exact absurd large (by decide)
  · obtain ⟨rfl, _⟩ := List.cons.inj same
    rw [List.prod_cons, Nat.zero_mul] at large
    exact absurd large (by decide)

/-- The product in front of a zero is at most that of all dimensions other than zero. -/
theorem OverflowsBeforeZero.prod_nonzeroDims {shape : List Nat} (hidden : OverflowsBeforeZero shape) :
    0 ∈ shape ∧ wordLimit ≤ (nonzeroDims shape).prod := by
  obtain ⟨front, behind, rfl, large⟩ := hidden
  have positive : ∀ n ∈ front, decide (n ≠ 0) = true := by
    intro n mem
    rw [decide_eq_true_eq]
    rintro rfl
    rw [List.prod_eq_zero mem] at large
    exact absurd large (by decide)
  have parts : nonzeroDims (front ++ 0 :: behind) = front ++ nonzeroDims behind := by
    rw [nonzeroDims, List.filter_append, List.filter_eq_self.2 positive, List.filter_cons_of_neg (by simp), nonzeroDims]
  refine ⟨by simp, ?_⟩
  rw [parts]
  exact large.trans (prod_le_prod_append (by simp [nonzeroDims]))

/-- With the zeros at the end all other dimensions are multiplied before the first of them. -/
theorem exists_perm_overflowsBeforeZero {shape : List Nat} (zero : 0 ∈ shape)
    (large : wordLimit ≤ (nonzeroDims shape).prod) :
    ∃ other : List Nat, other.Perm shape ∧ OverflowsBeforeZero other := by
  let zeros := shape.filter fun n => !decide (n ≠ 0)
  have mem : 0 ∈ zeros := List.mem_filter.2 ⟨zero, rfl⟩
  have parts : (nonzeroDims shape ++ zeros).Perm shape := List.filter_append_perm (fun n => decide (n ≠ 0)) shape
  have apart : (nonzeroDims shape ++ 0 :: zeros.erase 0).Perm (nonzeroDims shape ++ zeros) :=
    (List.perm_cons_erase mem).symm.append_left _
  exact ⟨_, apart.trans parts, nonzeroDims shape, _, rfl, large⟩

/-- The order of the dimensions decides exactly if one of them is zero and the others together go past a word. -/
theorem shapeCount?_order_iff {shape : List Nat} :
    (∀ other : List Nat, other.Perm shape → shapeCount? other = shapeCount? shape) ↔
      (0 ∈ shape → (nonzeroDims shape).prod < wordLimit) := by
  constructor
  · intro same zero
    by_contra large
    obtain ⟨last, perm, hidden⟩ := exists_perm_overflowsBeforeZero zero (Nat.not_lt.1 large)
    have first : shapeCount? (0 :: shape.erase 0) = some 0 :=
      shapeCount?_eq_some_iff.2 ⟨⟨by simp, by decide⟩, not_overflowsBeforeZero_zero_cons _⟩
    have counted : shapeCount? last = some 0 := by
      rw [same last perm, ← same _ (List.perm_cons_erase zero).symm, first]
    exact (shapeCount?_eq_some_iff.1 counted).2 hidden
  · intro small other perm
    -- no rearrangement has an overflow in front of a zero, since all have the same dimensions other than zero
    have unhidden : ∀ third : List Nat, third.Perm shape → ¬ OverflowsBeforeZero third := by
      intro third perm hidden
      obtain ⟨zero, large⟩ := hidden.prod_nonzeroDims
      rw [nonzeroDims, (perm.filter _).prod_eq] at large
      exact absurd (small (perm.mem_iff.1 zero)) (Nat.not_lt.2 large)
    refine Option.ext fun p => ?_
    rw [shapeCount?_eq_some_iff, shapeCount?_eq_some_iff, perm.prod_eq]
    exact and_congr_right fun _ => iff_of_true (unhidden other perm) (unhidden shape (List.Perm.refl _))

/-! ### Counts of a descriptor -/

namespace Descriptor

theorem expectedByteLength?_eq_some_iff_prod {d : Descriptor} {n : Nat} :
    d.expectedByteLength? = some n ↔
      (d.shape.prod * d.element.size = n ∧ n < wordLimit) ∧ ¬ OverflowsBeforeZero d.shape := by
  rw [expectedByteLength?, elementCount?, Option.bind_eq_some_iff]
  constructor
  · rintro ⟨count, counted, sized⟩
    obtain ⟨⟨rfl, _⟩, unhidden⟩ := shapeCount?_eq_some_iff.1 counted
    obtain ⟨fits, rfl⟩ := mulWord?_eq_some_iff.1 sized
    exact ⟨⟨rfl, fits⟩, unhidden⟩
  · rintro ⟨⟨rfl, fits⟩, unhidden⟩
    have count : d.shape.prod < wordLimit := (Nat.le_mul_of_pos_right _ d.element.size_pos).trans_lt fits
    exact ⟨_, shapeCount?_eq_some_iff.2 ⟨⟨rfl, count⟩, unhidden⟩, mulWord?_eq_some_iff.2 ⟨fits, rfl⟩⟩

/-- The byte length does not see the order of the dimensions either, if the number of elements does not. -/
theorem expectedByteLength?_congr {d other : Descriptor} (element : other.element = d.element)
    (count : other.elementCount? = d.elementCount?) : other.expectedByteLength? = d.expectedByteLength? := by
  rw [expectedByteLength?, expectedByteLength?, count, element]

/-- The number of elements and the number of bytes, for every shape and element type: each is the product, and is
    there exactly if the product fits a word, but for shapes whose first dimensions overflow in front of a zero.
    Both are the same for every order of the dimensions exactly if there is no zero or the other dimensions fit. -/
theorem counts_exact (d : Descriptor) :
    (∀ p, d.elementCount? = some p ↔ (d.shape.prod = p ∧ p < wordLimit) ∧ ¬ OverflowsBeforeZero d.shape) ∧
      (∀ n, d.expectedByteLength? = some n ↔
        (d.shape.prod * d.element.size = n ∧ n < wordLimit) ∧ ¬ OverflowsBeforeZero d.shape) ∧
      ((∀ other : Descriptor, other.element = d.element → other.shape.Perm d.shape →
          other.elementCount? = d.elementCount? ∧ other.expectedByteLength? = d.expectedByteLength?) ↔
        (0 ∈ d.shape → (nonzeroDims d.shape).prod < wordLimit)) := by
  refine ⟨fun _ => shapeCount?_eq_some_iff, fun _ => expectedByteLength?_eq_some_iff_prod, ?_⟩
  rw [← shapeCount?_order_iff]
  constructor
  · exact fun same shape perm => (same { d with shape } rfl perm).1
  · intro same other element perm
    have count : other.elementCount? = d.elementCount? := same other.shape perm
    exact ⟨count, expectedByteLength?_congr element count⟩

/-- Three dimensions whose product is zero in every order: the number of elements and of bytes is there in one order
    and missing in the other. -/
theorem counts_depend_on_order :
    let late : Descriptor := ⟨.uint8, [2 ^ 63, 2, 0], 0, 0, NumericRange.zero⟩
    let early : Descriptor := { late with shape := [0, 2 ^ 63, 2] }
    late.shape.Perm early.shape ∧ late.shape.prod = 0 ∧ late.elementCount? = none ∧ late.expectedByteLength? = none ∧
      early.elementCount? = some 0 ∧ early.expectedByteLength? = some 0 := by
  decide

end Descriptor

end JsonSidecar
