/-
Module: JsonSidecar.Proofs.Decode.Scalar
Purpose: Scalars, strings and ranges are read back from their texts, up to what the texts of floating-point numbers
  cannot tell.  That a number which is written by its digits comes back bit for bit is a law of its own, which
  the statements take as a hypothesis on the numbers at hand.
Main exports: FloatFormat.ReadsBack, Datum.reread, readFloat_reads, readScalar_reads, readRange_reads
-/
import JsonSidecar.Proofs.Decode.Reads
import JsonSidecar.Proofs.Number.FloatText

namespace JsonSidecar

open Reader

/-! ### Floating-point numbers -/

/-- A number that is written by its digits is read back from its own text. -/
def FloatFormat.ReadsBack (f : FloatFormat) (bits : Nat) : Prop :=
  f.hasDigits bits = true → ∃ later, readFloat f "" (Cursor.start (f.text bits)) = .ok bits later

/-- The text of a number is `null` or begins as a number does. -/
theorem FloatFormat.text_null_or_present {f : FloatFormat} (standard : f.IsStandard) (bits : Nat) :
    f.text bits = Word.null ∨ OpensPresent (f.text bits) := by
  by_cases nan : f.classify bits = .nan
  · exact .inl (f.text_nan nan)
  · obtain ⟨l, strict, text, _⟩ := f.text_literal standard nan
    rw [← text]
    exact .inr (opens_literal strict.toWellFormed)

/-- A number literal is read as the pattern nearest to it. -/
theorem readFloat_literal (f : FloatFormat) (expected : String) {l : NumberLiteral} (form : l.WellFormed) :
    (readFloat f expected).Reads l.text (l.floatBits f) :=
  Reads.present (opens_literal form) ((number_reads expected form).andThen fun _ => rfl)

/-- Every text of a number is read, and it is read as `reread` says if the law holds for the number. -/
theorem readFloat_reads {f : FloatFormat} (standard : f.IsStandard) (expected : String) (bits : Nat) :
    ∃ bits', (readFloat f expected).Reads (f.text bits) bits' ∧ (f.ReadsBack bits → bits' = f.reread bits) := by
  by_cases nan : f.classify bits = .nan
  · refine ⟨f.nanBits, ?_, fun _ => by rw [FloatFormat.reread, nan]⟩
    rw [f.text_nan nan]
    exact Reads.wordHit Word.null (by decide) opens_null
  · obtain ⟨l, strict, text, special⟩ := f.text_literal standard nan
    have form := strict.toWellFormed
    have reads : ∀ expected, (readFloat f expected).Reads (f.text bits) (l.floatBits f) := by
      intro expected
      rw [← text]
      exact readFloat_literal f expected form
    refine ⟨l.floatBits f, reads expected, fun law => ?_⟩
    by_cases digits : f.hasDigits bits = true
    · obtain ⟨later, read⟩ := law digits
      have again := reads "" (Cursor.start (f.text bits)) ⟨(f.text bits).length, []⟩
        ⟨(List.append_nil _).symm, (Nat.zero_add _).symm⟩ .nil
      rw [read] at again
      cases again
      exact (FloatFormat.reread_of_hasDigits digits).symm
    · exact special (by simpa using digits)

/-- What reading the text of a number in double precision comes to. -/
def rereadDouble (bits : UInt64) : UInt64 := UInt64.ofNat (FloatFormat.double.reread bits.toNat)

/-- What reading the text of a number in single precision comes to. -/
def rereadSingle (bits : UInt32) : UInt32 := UInt32.ofNat (FloatFormat.single.reread bits.toNat)

/-- The law for a number in double precision. -/
def DoubleReadsBack (bits : UInt64) : Prop := FloatFormat.double.ReadsBack bits.toNat

/-- The law for a number in single precision. -/
def SingleReadsBack (bits : UInt32) : Prop := FloatFormat.single.ReadsBack bits.toNat

theorem readDouble_reads (bits : UInt64) :
    ∃ bits', readDouble.Reads (doubleText bits) bits' ∧ (DoubleReadsBack bits → bits' = rereadDouble bits) := by
  obtain ⟨n, reads, law⟩ := readFloat_reads FloatFormat.double_isStandard Scalar.double.name bits.toNat
  exact ⟨UInt64.ofNat n, reads.map _, fun back => by rw [law back, rereadDouble]⟩

theorem readSingle_reads (bits : UInt32) :
    ∃ bits', readSingle.Reads (singleText bits) bits' ∧ (SingleReadsBack bits → bits' = rereadSingle bits) := by
  obtain ⟨n, reads, law⟩ := readFloat_reads FloatFormat.single_isStandard Scalar.single.name bits.toNat
  exact ⟨UInt32.ofNat n, reads.map _, fun back => by rw [law back, rereadSingle]⟩

/-! ### Pairs of numbers under two keys -/

/-- The text of an object of two numbers in double precision. -/
theorem readDoubles_reads (expected : String) {first second : Bytes} (plain : ∀ b ∈ first, Quoted.encodeByte b = [b])
    (plain' : ∀ b ∈ second, Quoted.encodeByte b = [b]) {a b a' b' : UInt64}
    (reads : readDouble.Reads (doubleText a) a') (reads' : readDouble.Reads (doubleText b) b') :
    (readDoubles expected [first, second]).Reads (objectText [(first, doubleText a), (second, doubleText b)])
      [(first, some a'), (second, some b')] := by
  refine Reads.objectText expected (.cons ⟨rfl, plain, ?_⟩ (.cons ⟨rfl, plain', ?_⟩ .nil))
  · simpa [orSkip] using reads.map some
  · simpa [orSkip] using reads'.map some

theorem lastOf_pair {first second : Bytes} (other : first ≠ second) (a b : UInt64) :
    lastOf first [(first, some a), (second, some b)] = some a ∧
      lastOf second [(first, some a), (second, some b)] = some b := by
  constructor
  · simp [lastOf, other.symm]
  · simp [lastOf]

/-! ### Integers -/

/-- A negative integer is of signed kinds only, so the sign of its literal is wanted. -/
theorem intLiteral_int? {k : IntKind} {n : Int} (contains : k.contains n = true) :
    (intLiteral n).int? k.signed = some n := by
  have digits : (Decimal.text n.natAbs).isEmpty = false := by simpa using Decimal.text_ne_nil n.natAbs
  simp only [NumberLiteral.int?, intLiteral, digits, NumberLiteral.isNegative, Decimal.value_text]
  by_cases negative : n < 0
  · have signed : k.signed = true := by
      simp only [IntKind.contains, Bool.and_eq_true, decide_eq_true_eq] at contains
      cases sign : k.signed with
      | true => rfl
      | false =>
          have least := contains.1
          simp only [IntKind.least, sign, Bool.false_eq_true, if_false] at least
          omega
    have magnitude : -(n.natAbs : Int) = n := by omega
    simp only [negative, signed, if_true, Option.isSome_none, Bool.or_self, Bool.false_eq_true, if_false,
      beq_self_eq_true, magnitude]
  · have magnitude : (n.natAbs : Int) = n := by omega
    have noSign : ((none : Option UInt8) == some Byte.minus) = false := rfl
    simp only [negative, Option.isSome_none, Bool.or_self, Bool.false_eq_true, if_false, noSign, magnitude]

theorem opens_intText (n : Int) : OpensPresent (Decimal.intText n) := by
  rw [← intLiteral_text]
  exact opens_literal (intLiteral_strict n).toWellFormed

theorem readInt_reads {k : IntKind} {n : Int} (contains : k.contains n = true) :
    (readInt k).Reads (Decimal.intText n) n := by
  refine Reads.afterSpace (opens_intText n).opens fun start => ?_
  rw [← intLiteral_text]
  refine (number_reads k.name (intLiteral_strict n).toWellFormed).andThen fun c => ?_
  simp [intLiteral_int? contains, Option.filter, contains]

/-- A natural number that a kind without sign can hold. -/
theorem readNat_reads {k : IntKind} (unsigned : k.signed = false) {n : Nat} (small : n < 2 ^ k.width.bits) :
    (readInt k).Reads (Decimal.text n) n := by
  have contains : k.contains n = true := by
    simp only [IntKind.contains, IntKind.least, IntKind.greatest, unsigned, Bool.and_eq_true, decide_eq_true_eq]
    have limit : (n : Int) < 2 ^ k.width.bits := by exact_mod_cast small
    constructor
    · simp
    · simp only [Bool.false_eq_true, if_false]
      omega
  exact readInt_reads contains

/-! ### Scalars -/

/-- What reading the text of a scalar comes to. -/
def Datum.reread : Datum → Datum
  | .bool b => .bool b
  | .int n => .int n
  | .double bits => .double (rereadDouble bits)
  | .single bits => .single (rereadSingle bits)
  | .complex re im => .complex (rereadDouble re) (rereadDouble im)

/-- The law for the numbers in a scalar. -/
def Datum.ReadsBack : Datum → Prop
  | .bool _ => True
  | .int _ => True
  | .double bits => DoubleReadsBack bits
  | .single bits => SingleReadsBack bits
  | .complex re im => DoubleReadsBack re ∧ DoubleReadsBack im

theorem readBool_reads (b : Bool) : readBool.Reads (if b then Word.true else Word.false) b := by
  cases b with
  | true => exact Reads.wordHit Word.true (by decide) ⟨0x74, ascii "rue", rfl, rfl⟩
  | false =>
      apply Reads.wordMiss (ascii "rue") (b := 0x66) (w := ascii "alse") (by decide) rfl (by decide)
      exact Reads.wordHit Word.false (by decide) ⟨0x66, ascii "alse", rfl, rfl⟩

theorem readScalar_reads {k : Scalar} {d : Datum} (holds : k.holds d = true) (law : d.ReadsBack) :
    (readScalar k).Reads d.text d.reread := by
  cases k with
  | bool =>
      cases d <;> simp [Scalar.holds] at holds
      exact (readBool_reads _).map _
  | int k =>
      cases d <;> simp [Scalar.holds] at holds
      exact (readInt_reads holds).map _
  | double =>
      cases d <;> simp [Scalar.holds] at holds
      rename_i bits
      obtain ⟨bits', reads, same⟩ := readDouble_reads bits
      rw [same law] at reads
      exact reads.map _
  | single =>
      cases d <;> simp [Scalar.holds] at holds
      rename_i bits
      obtain ⟨bits', reads, same⟩ := readSingle_reads bits
      rw [same law] at reads
      exact reads.map _
  | complex =>
      cases d <;> simp [Scalar.holds] at holds
      rename_i re im
      obtain ⟨re', real, sameReal⟩ := readDouble_reads re
      obtain ⟨im', imag, sameImag⟩ := readDouble_reads im
      rw [sameReal law.1] at real
      rw [sameImag law.2] at imag
      obtain ⟨first, second⟩ := lastOf_pair (show ascii "real" ≠ ascii "imag" by decide) (rereadDouble re)
        (rereadDouble im)
      refine (readDoubles_reads _ (by decide +kernel) (by decide +kernel) real imag).andThen fun c => ?_
      rw [first, second]
      rfl

/-- The law holds for integers of native width, as for all integers. -/
theorem readsBack_of_native {k : Scalar} (native : k.element? = none) {d : Datum} (holds : k.holds d = true) :
    d.ReadsBack := by
  cases k with
  | int k =>
      cases d <;> simp [Scalar.holds] at holds
      trivial
  | _ => cases native

/-- The text of a scalar is `null` or begins as another value does. -/
theorem Datum.text_null_or_present (d : Datum) : d.text = Word.null ∨ OpensPresent d.text := by
  cases d with
  | bool b =>
      cases b with
      | true => exact .inr ⟨0x74, ascii "rue", rfl, rfl, by decide⟩
      | false => exact .inr ⟨0x66, ascii "alse", rfl, rfl, by decide⟩
  | int n => exact .inr (opens_intText n)
  | double bits => exact FloatFormat.text_null_or_present FloatFormat.double_isStandard bits.toNat
  | single bits => exact FloatFormat.text_null_or_present FloatFormat.single_isStandard bits.toNat
  | complex re im => exact .inr ⟨Byte.openBrace, _, rfl, rfl, by decide⟩

theorem Datum.text_opens (d : Datum) : Opens d.text := by
  rcases d.text_null_or_present with null | present
  · rw [null]
    exact opens_null
  · exact present.opens

/-- What reading the text of a range comes to. -/
def NumericRange.reread (r : NumericRange) : NumericRange := ⟨rereadDouble r.min, rereadDouble r.max⟩

/-- The law for the bounds of a range. -/
def NumericRange.ReadsBack (r : NumericRange) : Prop := DoubleReadsBack r.min ∧ DoubleReadsBack r.max

/-- Every text of a range is read, also that of a range for which the law is not known. -/
theorem readRange_reads (r : NumericRange) :
    ∃ r', readRange.Reads r.text r' ∧ (r.ReadsBack → r' = r.reread) := by
  obtain ⟨min, first, sameMin⟩ := readDouble_reads r.min
  obtain ⟨max, second, sameMax⟩ := readDouble_reads r.max
  obtain ⟨lastMin, lastMax⟩ := lastOf_pair (show ascii "min" ≠ ascii "max" by decide) min max
  refine ⟨⟨min, max⟩, ?_, fun law => by rw [sameMin law.1, sameMax law.2, NumericRange.reread]⟩
  refine (readDoubles_reads _ (by decide +kernel) (by decide +kernel) first second).andThen fun c => ?_
  rw [lastMin, lastMax]
  rfl

theorem readString_reads {bytes : Bytes} (valid : Utf8.isValid bytes = true) :
    readString.Reads (Quoted.encode bytes) bytes := by
  refine Reads.afterSpace (opens_quoted bytes).opens fun start => ?_
  refine (stringBytes_reads Ty.stringName bytes).andThen fun c => ?_
  rw [if_pos valid]
  rfl

end JsonSidecar
