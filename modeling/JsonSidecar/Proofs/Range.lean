/-
Module: JsonSidecar.Proofs.Range
Purpose: The range recorded for an array.  The elements that count are those whose value in double precision is finite;
  the range is the least and the greatest of these values, wherever they stand and whatever stands between them.
Main exports: Datum.toDouble?, Datum.Converts, Datum.CountsAs, NumericRange.Spans, NumericRange.IsHull,
  NumericRange.of_hull
-/
import JsonSidecar.Proofs.Decode.Integer
import JsonSidecar.Proofs.Floats
import JsonSidecar.Proofs.Number.Rounding

namespace JsonSidecar

namespace FloatFormat

/-! ### Rounding to double precision -/

theorem double_withSign_toNat {magnitude : Nat} (finite : magnitude ≤ double.infinityBits) (negative : Bool) :
    (UInt64.ofNat (double.withSign negative magnitude)).toNat = double.withSign negative magnitude := by
  have less : magnitude < 2 ^ 63 := Nat.lt_of_le_of_lt finite infinityBits_lt_signBit
  rw [UInt64.toNat_ofNat']
  refine Nat.mod_eq_of_lt ?_
  cases negative with
  | false => exact less.trans (by decide)
  | true => exact Nat.add_lt_add_left less (2 ^ 63)

/-- Numbers below a great power of two are finite in double precision. -/
theorem double_nearest_finite {num den : Nat} (positive : 0 < den) (small : num < den * 2 ^ 200) :
    double.nearest num den < double.infinityBits :=
  nearest_lt_infinityBits positive (by decide) small

/-- Integers are rounded, and so far from infinity that all of 64 bits are finite. -/
theorem double_ofInt {n : Int} (small : n.natAbs < 2 ^ 200) :
    double.IsRounding n (UInt64.ofNat (double.ofInt n)).toNat ∧
      double.isNegative (UInt64.ofNat (double.ofInt n)).toNat = decide (n < 0) := by
  have finite : double.nearest n.natAbs 1 < double.infinityBits := double_nearest_finite (by decide) (by omega)
  rw [ofInt, double_withSign_toNat finite.le]
  refine ⟨?_, isNegative_withSign finite _⟩
  have rounding := isRounding_withSign_nearest (by decide) (by decide) finite (decide (n < 0))
  rwa [signed_natAbs, Nat.cast_one, div_one] at rounding

/-- Finite numbers in single precision are rounded to double precision. -/
theorem double_widen {bits : Nat} (finite : single.isFinite bits = true) :
    double.IsRounding (single.value bits) (UInt64.ofNat (widen bits)).toNat ∧
      double.isNegative (UInt64.ofNat (widen bits)).toNat = single.isNegative bits := by
  have small : single.units (single.magnitude bits) < 2 ^ single.unitExponent * 2 ^ 200 :=
    (units_lt (of_decide_eq_true finite)).trans (by decide +kernel)
  rw [widen, classify_of_isFinite finite]
  have finite := double_nearest_finite (Nat.pow_pos (by decide)) small
  dsimp only
  rw [double_withSign_toNat finite.le]
  refine ⟨?_, isNegative_withSign finite _⟩
  have rounding := isRounding_withSign_nearest (by decide) (Nat.pow_pos (by decide)) finite (single.isNegative bits)
  rwa [Nat.cast_pow, Nat.cast_ofNat] at rounding

/-- What is not finite in single precision is not finite in double precision either. -/
theorem double_widen_unbounded {bits : Nat} (unbounded : single.isFinite bits = false) :
    double.isFinite (UInt64.ofNat (widen bits)).toNat = false := by
  have above : single.infinityBits ≤ single.magnitude bits := Nat.not_lt.1 (of_decide_eq_false unbounded)
  rw [widen, classify]
  by_cases nan : single.infinityBits < single.magnitude bits
  · rw [if_pos nan]
    decide +kernel
  · rw [if_neg nan, if_pos (by omega)]
    cases single.isNegative bits <;> decide +kernel

end FloatFormat

/-! ### Values of elements -/

namespace Datum

/-- The number that a scalar stands for, if it stands for one. -/
def number? : Datum → Option ℚ
  | .bool b => some (if b then 1 else 0)
  | .int n => some n
  | .double bits =>
    if FloatFormat.double.isFinite bits.toNat then some (FloatFormat.double.value bits.toNat) else none
  | .single bits =>
    if FloatFormat.single.isFinite bits.toNat then some (FloatFormat.single.value bits.toNat) else none
  | .complex .. => none

/-- Whether a scalar carries a minus sign. -/
def isNegative : Datum → Bool
  | .bool _ | .complex .. => false
  | .int n => n < 0
  | .double bits => FloatFormat.double.isNegative bits.toNat
  | .single bits => FloatFormat.single.isNegative bits.toNat

/-- A scalar in double precision; a complex number has no such value. -/
def toDouble? : Datum → Option UInt64
  | .bool b => some (UInt64.ofNat (FloatFormat.double.ofInt (if b then 1 else 0)))
  | .int n => some (UInt64.ofNat (FloatFormat.double.ofInt n))
  | .double bits => some bits
  | .single bits => some (UInt64.ofNat (FloatFormat.widen bits.toNat))
  | .complex .. => none

/-- What a scalar must be in double precision: its number rounded, with its sign, or nothing finite if it stands for no
    number. -/
structure Converts (d : Datum) (bits : UInt64) : Prop where
  rounded : ∀ q, d.number? = some q →
    FloatFormat.double.IsRounding q bits.toNat ∧ FloatFormat.double.isNegative bits.toNat = d.isNegative
  unbounded : d.number? = none → FloatFormat.double.isFinite bits.toNat = false

/-- An element counts for a range as its value in double precision, if that is finite. -/
def CountsAs (d : Datum) (bits : UInt64) : Prop :=
  d.toDouble? = some bits ∧ FloatFormat.double.isFinite bits.toNat = true

section Converts

variable {d : Datum} {bits : UInt64}

theorem converts_of_some {q : ℚ} (number : d.number? = some q)
    (rounded : FloatFormat.double.IsRounding q bits.toNat ∧ FloatFormat.double.isNegative bits.toNat = d.isNegative) :
    d.Converts bits where
  rounded q' number' := by
    obtain rfl : q = q' := Option.some.inj (number.symm.trans number')
    exact rounded
  unbounded none := nomatch number.symm.trans none

theorem converts_of_none (number : d.number? = none) (unbounded : FloatFormat.double.isFinite bits.toNat = false) :
    d.Converts bits where
  rounded _ some := nomatch number.symm.trans some
  unbounded _ := unbounded

theorem natAbs_lt_of_contains {k : IntKind} {n : Int} (contains : k.contains n = true) : n.natAbs < 2 ^ 200 :=
  (IntKind.natAbs_lt_of_contains contains).trans (by decide)

/-- Every value of an ordered kind has a value in double precision, which is what it must be. -/
theorem toDouble?_converts {k : Scalar} (holds : k.holds d = true) (ordered : k ≠ .complex) :
    ∃ bits, d.toDouble? = some bits ∧ d.Converts bits := by
  cases d with
  | bool b =>
      refine ⟨_, rfl, converts_of_some (q := ((if b then 1 else 0 : Int) : ℚ)) ?_ ?_⟩
      · cases b <;> simp [number?]
      · cases b <;> exact FloatFormat.double_ofInt (by decide)
  | int n =>
      cases k with
      | int kind => exact ⟨_, rfl, converts_of_some rfl (FloatFormat.double_ofInt (natAbs_lt_of_contains holds))⟩
      | _ => cases holds
  | double bits =>
      refine ⟨bits, rfl, ?_⟩
      cases finite : FloatFormat.double.isFinite bits.toNat with
      | true => exact converts_of_some (if_pos finite) ⟨FloatFormat.isRounding_value finite, rfl⟩
      | false => exact converts_of_none (if_neg (by simp [finite])) finite
  | single bits =>
      refine ⟨_, rfl, ?_⟩
      cases finite : FloatFormat.single.isFinite bits.toNat with
      | true => exact converts_of_some (if_pos finite) (FloatFormat.double_widen finite)
      | false => exact converts_of_none (if_neg (by simp [finite])) (FloatFormat.double_widen_unbounded finite)
  | complex re im =>
      cases k with
      | complex => exact absurd rfl ordered
      | _ => cases holds

/-- The values by which elements count are those in double precision, as far as they are finite. -/
theorem rangeValue?_eq {k : Scalar} (holds : k.holds d = true) :
    d.rangeValue? = d.toDouble?.filter fun bits => FloatFormat.double.isFinite bits.toNat := by
  have always {n : Int} (small : n.natAbs < 2 ^ 200) :
      some (UInt64.ofNat (FloatFormat.double.ofInt n)) =
        (some (UInt64.ofNat (FloatFormat.double.ofInt n))).filter fun bits =>
          FloatFormat.double.isFinite bits.toNat := by
    rw [Option.filter_some, if_pos (FloatFormat.double_ofInt small).1.finite]
  cases d with
  | bool b => cases b <;> exact always (by decide)
  | int n =>
      cases k with
      | int kind => exact always (natAbs_lt_of_contains holds)
      | _ => cases holds
  | double bits =>
      rw [rangeValue?, toDouble?, Option.filter_some]
  | single bits =>
      rw [rangeValue?, toDouble?, Option.filter_some]
      cases finite : FloatFormat.single.isFinite bits.toNat with
      | true => rw [if_pos rfl, if_pos (FloatFormat.double_widen finite).1.finite]
      | false =>
          rw [if_neg Bool.false_ne_true, FloatFormat.double_widen_unbounded finite, if_neg Bool.false_ne_true]
  | complex re im => rfl

theorem rangeValue?_eq_some_iff {k : Scalar} (holds : k.holds d = true) :
    d.rangeValue? = some bits ↔ d.CountsAs bits := by
  rw [rangeValue?_eq holds, Option.filter_eq_some_iff, CountsAs]

end Converts

end Datum

/-! ### Least and greatest values -/

/-- The number that a finite value in double precision stands for. -/
def doubleValue (bits : UInt64) : ℚ := FloatFormat.double.value bits.toNat

/-- Two values in double precision are the same but for the sign of zero. -/
def SameButZeroSign (a b : UInt64) : Prop :=
  a = b ∨ FloatFormat.double.magnitude a.toNat = 0 ∧ FloatFormat.double.magnitude b.toNat = 0

namespace NumericRange

variable {values : List UInt64} {r : NumericRange}

/-- The bounds of a range are the least and the greatest of some values. -/
structure Spans (values : List UInt64) (r : NumericRange) : Prop where
  min_mem : r.min ∈ values
  max_mem : r.max ∈ values
  between : ∀ v ∈ values, order r.min ≤ order v ∧ order v ≤ order r.max

theorem spans_singleton (v : UInt64) : Spans [v] ⟨v, v⟩ where
  min_mem := List.mem_singleton.2 rfl
  max_mem := List.mem_singleton.2 rfl
  between _ mem := List.mem_singleton.1 mem ▸ ⟨le_refl _, le_refl _⟩

/-- Widening a range to one more value. -/
theorem Spans.add (spans : Spans values r) (v : UInt64) : Spans (values ++ [v]) (r.add v) := by
  have low : order (r.add v).min ≤ order r.min ∧ order (r.add v).min ≤ order v := by
    dsimp only [NumericRange.add]
    split <;> omega
  have high : order r.max ≤ order (r.add v).max ∧ order v ≤ order (r.add v).max := by
    dsimp only [NumericRange.add]
    split <;> omega
  have old {w : UInt64} (mem : w ∈ values) : w ∈ values ++ [v] := List.mem_append_left _ mem
  have new : v ∈ values ++ [v] := List.mem_append_right _ (List.mem_singleton.2 rfl)
  constructor
  · dsimp only [NumericRange.add]
    split
    · exact new
    · exact old spans.min_mem
  · dsimp only [NumericRange.add]
    split
    · exact new
    · exact old spans.max_mem
  · intro w mem
    rcases List.mem_append.1 mem with before | last
    · obtain ⟨above, below⟩ := spans.between w before
      exact ⟨low.1.trans above, below.trans high.1⟩
    · rw [List.mem_singleton.1 last]
      exact ⟨low.2, high.2⟩

theorem Spans.foldl (spans : Spans values r) (more : List UInt64) :
    Spans (values ++ more) (more.foldl NumericRange.add r) := by
  induction more generalizing values r with
  | nil => rwa [List.append_nil]
  | cons v more ih =>
      have next := ih (spans.add v)
      rwa [List.append_assoc] at next

/-- The range of some values, whichever stands first. -/
theorem ofValues_spans {v : UInt64} (mem : v ∈ values) : Spans values (ofValues values) := by
  cases values with
  | nil => cases mem
  | cons first rest => exact (spans_singleton first).foldl rest

theorem order_le_iff {a b : UInt64} : order a ≤ order b ↔ doubleValue a ≤ doubleValue b :=
  FloatFormat.order_le_iff_value_le

/-- Values that stand in the same place in the order are the same but for the sign of zero. -/
theorem sameButZeroSign_of_order_eq {a b : UInt64} (same : order a = order b) : SameButZeroSign a b := by
  have parts (w : UInt64) : FloatFormat.double.withSign (FloatFormat.double.isNegative w.toNat)
      (FloatFormat.double.magnitude w.toNat) = w.toNat := FloatFormat.withSign_magnitude w.toNat_lt
  rcases FloatFormat.parts_of_order_eq same with ⟨sign, magnitude⟩ | zeros
  · left
    rw [← UInt64.toNat_inj, ← parts a, ← parts b, sign, magnitude]
  · exact .inr zeros

/-- The range does not see in which order the values come. -/
theorem Spans.same {values' : List UInt64} {r' : NumericRange} (spans : Spans values r) (spans' : Spans values' r')
    (perm : values'.Perm values) : SameButZeroSign r'.min r.min ∧ SameButZeroSign r'.max r.max := by
  have low := spans.between _ (perm.mem_iff.1 spans'.min_mem)
  have low' := spans'.between _ (perm.mem_iff.2 spans.min_mem)
  have high := spans.between _ (perm.mem_iff.1 spans'.max_mem)
  have high' := spans'.between _ (perm.mem_iff.2 spans.max_mem)
  exact ⟨sameButZeroSign_of_order_eq (le_antisymm low'.1 low.1), sameButZeroSign_of_order_eq (le_antisymm high.2 high'.2)⟩

/-! ### Ranges of arrays -/

/-- What the range of an array must be: the least and the greatest of the values that count, as numbers, and zeros where
    none counts. -/
structure IsHull (data : List Datum) (r : NumericRange) : Prop where
  encloses : ∀ d ∈ data, ∀ v, d.CountsAs v →
    doubleValue r.min ≤ doubleValue v ∧ doubleValue v ≤ doubleValue r.max
  attained : ∀ d ∈ data, ∀ v, d.CountsAs v →
    (∃ least ∈ data, least.CountsAs r.min) ∧ ∃ greatest ∈ data, greatest.CountsAs r.max
  ordered : doubleValue r.min ≤ doubleValue r.max
  empty : (∀ d ∈ data, ∀ v, ¬ d.CountsAs v) → r = ⟨0, 0⟩

section Array

variable {e : Element} {data : List Datum} (holds : ∀ d ∈ data, e.scalar.holds d = true)

include holds

theorem mem_rangeValues {v : UInt64} : v ∈ data.filterMap Datum.rangeValue? ↔ ∃ d ∈ data, d.CountsAs v := by
  rw [List.mem_filterMap]
  exact exists_congr fun d => and_congr_right fun mem => Datum.rangeValue?_eq_some_iff (holds d mem)

theorem of_eq_zero (none : ∀ d ∈ data, ∀ v, ¬ d.CountsAs v) : of data = ⟨0, 0⟩ := by
  have empty : data.filterMap Datum.rangeValue? = [] := by
    refine List.eq_nil_iff_forall_not_mem.2 fun v mem => ?_
    obtain ⟨d, inside, counts⟩ := (mem_rangeValues holds).1 mem
    exact none d inside v counts
  rw [of, empty]
  rfl

theorem of_spans {d : Datum} {v : UInt64} (mem : d ∈ data) (counts : d.CountsAs v) :
    Spans (data.filterMap Datum.rangeValue?) (of data) :=
  ofValues_spans ((mem_rangeValues holds).2 ⟨d, mem, counts⟩)

theorem of_isHull : IsHull data (of data) where
  encloses d mem v counts := by
    obtain ⟨above, below⟩ := (of_spans holds mem counts).between v ((mem_rangeValues holds).2 ⟨d, mem, counts⟩)
    exact ⟨order_le_iff.1 above, order_le_iff.1 below⟩
  attained d mem v counts :=
    ⟨(mem_rangeValues holds).1 (of_spans holds mem counts).min_mem,
      (mem_rangeValues holds).1 (of_spans holds mem counts).max_mem⟩
  ordered := by
    by_cases some : ∃ d ∈ data, ∃ v, d.CountsAs v
    · obtain ⟨d, mem, v, counts⟩ := some
      have spans := of_spans holds mem counts
      exact order_le_iff.1 (spans.between _ spans.min_mem).2
    · rw [of_eq_zero holds fun d mem v counts => some ⟨d, mem, v, counts⟩]
  empty := of_eq_zero holds

/-- An element that does not count may be left out, wherever it stands. -/
theorem of_left_out {front behind : List Datum} {d : Datum} (parts : data = front ++ d :: behind)
    (idle : ∀ v, ¬ d.CountsAs v) : of data = of (front ++ behind) := by
  have none : d.rangeValue? = none := by
    refine Option.eq_none_iff_forall_ne_some.2 fun v some => ?_
    exact idle v ((Datum.rangeValue?_eq_some_iff (holds d (by simp [parts]))).1 some)
  rw [parts, of, of, List.filterMap_append, List.filterMap_cons_none none, ← List.filterMap_append]

theorem of_perm {other : List Datum} (perm : other.Perm data) :
    SameButZeroSign (of other).min (of data).min ∧ SameButZeroSign (of other).max (of data).max := by
  have values := perm.filterMap Datum.rangeValue?
  by_cases some : ∃ d ∈ data, ∃ v, d.CountsAs v
  · obtain ⟨d, mem, v, counts⟩ := some
    have mem' : v ∈ data.filterMap Datum.rangeValue? := (mem_rangeValues holds).2 ⟨d, mem, counts⟩
    exact (ofValues_spans mem').same (ofValues_spans (values.mem_iff.2 mem')) values
  · have none : ∀ d ∈ data, ∀ v, ¬ d.CountsAs v := fun d mem v counts => some ⟨d, mem, v, counts⟩
    rw [of_eq_zero holds none, of_eq_zero (fun d mem => holds d (perm.mem_iff.1 mem))
      (fun d mem => none d (perm.mem_iff.1 mem))]
    exact ⟨.inl rfl, .inl rfl⟩

/-- The range of every array of every element type.  Every element of an ordered type has a value in double precision,
    which is its number rounded; the range is the hull of those that are finite, and zeros for complex numbers.  What is
    not finite may stand anywhere or be left out, and the order of the elements shows in the sign of a zero at most. -/
theorem of_hull :
    (e ≠ .complex64 → ∀ d ∈ data, ∃ v, d.toDouble? = some v ∧ d.Converts v) ∧
      IsHull data (of data) ∧
      (e = .complex64 → of data = ⟨0, 0⟩) ∧
      (∀ front d behind, data = front ++ d :: behind → (∀ v, ¬ d.CountsAs v) → of data = of (front ++ behind)) ∧
      (∀ other : List Datum, other.Perm data →
        SameButZeroSign (of other).min (of data).min ∧ SameButZeroSign (of other).max (of data).max) := by
  refine ⟨?_, of_isHull holds, ?_, fun _ _ _ parts idle => of_left_out holds parts idle, fun _ perm => of_perm holds perm⟩
  · intro ordered d mem
    refine Datum.toDouble?_converts (holds d mem) ?_
    cases e with
    | complex64 => exact absurd rfl ordered
    | _ => exact nofun
  · rintro rfl
    refine of_eq_zero holds fun d mem v counts => ?_
    have kind := holds d mem
    cases d with
    | complex re im => cases counts.1
    | _ => cases kind

end Array

/-- An array that begins with what is no number and has both infinities: neither changes the range, nor does the order. -/
theorem of_hull_nan_first :
    let nan : Datum := .double 0x7ff8000000000000
    let rest : List Datum :=
      [.double 0x4000000000000000, .double 0xfff0000000000000, .double 0xbff0000000000000, .double 0x7ff0000000000000]
    (∀ d ∈ nan :: rest, Element.float64.scalar.holds d = true) ∧
      of (nan :: rest) = ⟨0xbff0000000000000, 0x4000000000000000⟩ ∧ IsHull (nan :: rest) (of (nan :: rest)) ∧
      of (nan :: rest) = of rest ∧ SameButZeroSign (of (nan :: rest).reverse).min (of (nan :: rest)).min := by
  intro nan rest
  have holds : ∀ d ∈ nan :: rest, Element.float64.scalar.holds d = true := by decide
  obtain ⟨-, hull, -, leftOut, perm⟩ := of_hull holds
  have idle : ∀ v, ¬ nan.CountsAs v := by
    rintro v ⟨same, finite⟩
    rw [← Option.some.inj same] at finite
    exact absurd finite (by decide +kernel)
  exact ⟨holds, by decide +kernel, hull, leftOut [] nan rest rfl idle, (perm _ (List.reverse_perm _)).1⟩

/-- Integers that differ may have one value in double precision. -/
example : of [.int 9007199254740993, .int 9007199254740992] = ⟨0x4340000000000000, 0x4340000000000000⟩ := by
  decide +kernel

end NumericRange

end JsonSidecar
