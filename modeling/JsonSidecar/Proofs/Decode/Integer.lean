/-
Module: JsonSidecar.Proofs.Decode.Integer
Purpose: Which texts integers are read from.  A number without a point and without an exponent is an integer of a kind
  if its value lies in the range of the kind, and if its sign is one that the kind has; everything else is refused,
  a number of another form where it begins.
Main exports: IntegerText, WordText, NumberLiteral.Longest, readInt_recognises, readInt_exact
-/
import JsonSidecar.Proofs.Decode.Deferred
import JsonSidecar.Proofs.Decode.Recognises
import JsonSidecar.Proofs.Decode.Scalar
import JsonSidecar.Proofs.Encode.Capacity

namespace JsonSidecar

open Reader

/-! ### Texts of integers -/

/-- The texts of an integer of a kind: digits, with any number of zeros in front, and perhaps a sign.  A minus sign is
    for signed kinds only, also in front of zero. -/
def IntegerText (k : IntKind) (n : Int) (w : Bytes) : Prop :=
  k.contains n = true ∧ ∃ sign digits : Bytes, w = sign ++ digits ∧ digits ≠ [] ∧
    (∀ b ∈ digits, Byte.isDigit b = true) ∧
    ((sign = [] ∨ sign = [Byte.plus]) ∧ n = Decimal.value digits ∨
      sign = [Byte.minus] ∧ k.signed = true ∧ n = -(Decimal.value digits : Int))

/-- The texts of a whole number that fits a word of 64 bits: digits, with any number of zeros in front, and perhaps a
    plus sign. -/
def WordText (n : Nat) (w : Bytes) : Prop :=
  n < wordLimit ∧ ∃ sign digits : Bytes, w = sign ++ digits ∧ (sign = [] ∨ sign = [Byte.plus]) ∧ digits ≠ [] ∧
    (∀ b ∈ digits, Byte.isDigit b = true) ∧ Decimal.value digits = n

/-- A kind without sign that holds all words of 64 bits. -/
structure IntKind.IsWord (k : IntKind) : Prop where
  unsigned : k.signed = false
  bits : k.width.bits = 64

theorem IntKind.IsWord.contains_iff {k : IntKind} (word : k.IsWord) (n : Nat) :
    k.contains n = true ↔ n < wordLimit := by
  simp only [contains, least, greatest, word.unsigned, word.bits, Bool.and_eq_true, decide_eq_true_eq, Bool.false_eq_true,
    if_false]
  unfold wordLimit
  omega

/-- In a kind that holds all words the integers are the words. -/
theorem IntegerText.word_iff {k : IntKind} (word : k.IsWord) {n : Int} {w : Bytes} :
    IntegerText k n w ↔ ∃ m : Nat, WordText m w ∧ (m : Int) = n := by
  constructor
  · rintro ⟨fits, sign, digits, same, nonempty, inside, ⟨signs, rfl⟩ | ⟨_, signed, _⟩⟩
    · exact ⟨_, ⟨(word.contains_iff _).1 fits, sign, digits, same, signs, nonempty, inside, rfl⟩, rfl⟩
    · rw [word.unsigned] at signed
      cases signed
  · rintro ⟨_, ⟨fits, sign, digits, same, signs, nonempty, inside, rfl⟩, rfl⟩
    exact ⟨(word.contains_iff _).2 fits, sign, digits, same, nonempty, inside, .inl ⟨signs, rfl⟩⟩

/-! ### Literals of integers -/

/-- A literal is an integer exactly if it has no point and no exponent and its sign is wanted. -/
theorem NumberLiteral.int?_eq_some_iff {l : NumberLiteral} {signed : Bool} {n : Int} :
    l.int? signed = some n ↔ l.whole ≠ [] ∧ l.fraction = none ∧ l.exponent = none ∧
      (l.isNegative = false ∧ n = Decimal.value l.whole ∨
        l.isNegative = true ∧ signed = true ∧ n = -(Decimal.value l.whole : Int)) := by
  unfold int?
  split
  · rename_i excluded
    simp only [Bool.or_eq_true, List.isEmpty_iff, Option.isSome_iff_ne_none] at excluded
    constructor
    · nofun
    · rintro ⟨whole, fraction, exponent, _⟩
      rcases excluded with (empty | point) | mark
      · exact absurd empty whole
      · exact absurd fraction point
      · exact absurd exponent mark
  · rename_i allowed
    simp only [Bool.or_eq_true, List.isEmpty_iff, Option.isSome_iff_ne_none, not_or, Classical.not_not] at allowed
    obtain ⟨⟨whole, fraction⟩, exponent⟩ := allowed
    simp only [whole, fraction, exponent, ne_eq, not_false_eq_true, true_and]
    cases l.isNegative <;> cases signed <;> simp [eq_comm]

/-- An integer literal from its sign and its digits. -/
theorem NumberLiteral.wellFormed_of_digits {sign : Option UInt8} {digits : Bytes}
    (signs : ∀ b, sign = some b → Byte.isSign b = true) (nonempty : digits ≠ [])
    (inside : ∀ b ∈ digits, Byte.isDigit b = true) : (⟨sign, digits, none, none⟩ : NumberLiteral).WellFormed :=
  ⟨signs, inside, by simp, .inl nonempty, by simp⟩

/-- The texts of integers are those of the literals that stand for one of the kind. -/
theorem integerText_iff {k : IntKind} {n : Int} {w : Bytes} :
    IntegerText k n w ↔ ∃ l : NumberLiteral, (l.WellFormed ∧ w = l.text) ∧
      (l.int? k.signed).filter k.contains = some n := by
  simp only [Option.filter_eq_some_iff, NumberLiteral.int?_eq_some_iff]
  constructor
  · rintro ⟨fits, sign, digits, rfl, nonempty, inside, value⟩
    rcases value with ⟨rfl | rfl, rfl⟩ | ⟨rfl, signed, rfl⟩
    · refine ⟨⟨none, digits, none, none⟩, ⟨NumberLiteral.wellFormed_of_digits nofun nonempty inside, ?_⟩,
        ⟨nonempty, rfl, rfl, .inl ⟨rfl, rfl⟩⟩, fits⟩
      simp [NumberLiteral.text, NumberLiteral.fractionText, NumberLiteral.exponentText]
    · refine ⟨⟨some Byte.plus, digits, none, none⟩, ⟨NumberLiteral.wellFormed_of_digits ?_ nonempty inside, ?_⟩,
        ⟨nonempty, rfl, rfl, .inl ⟨rfl, rfl⟩⟩, fits⟩
      · rintro b ⟨⟩
        rfl
      · simp [NumberLiteral.text, NumberLiteral.fractionText, NumberLiteral.exponentText]
    · refine ⟨⟨some Byte.minus, digits, none, none⟩, ⟨NumberLiteral.wellFormed_of_digits ?_ nonempty inside, ?_⟩,
        ⟨nonempty, rfl, rfl, .inr ⟨rfl, signed, rfl⟩⟩, fits⟩
      · rintro b ⟨⟩
        rfl
      · simp [NumberLiteral.text, NumberLiteral.fractionText, NumberLiteral.exponentText]
  · rintro ⟨l, ⟨form, rfl⟩, ⟨whole, fraction, exponent, value⟩, fits⟩
    refine ⟨fits, l.sign.toList, l.whole, ?_, whole, form.whole, ?_⟩
    · simp [NumberLiteral.text, fraction, exponent, NumberLiteral.fractionText, NumberLiteral.exponentText]
    · cases sign : l.sign with
      | none =>
          refine .inl ⟨.inl rfl, ?_⟩
          simpa [NumberLiteral.isNegative, sign] using value
      | some b =>
          have either := form.sign b sign
          simp only [Byte.isSign, Bool.or_eq_true, beq_iff_eq] at either
          rcases either with rfl | rfl
          · refine .inl ⟨.inr rfl, ?_⟩
            simpa [NumberLiteral.isNegative, sign, Byte.plus, Byte.minus] using value
          · refine .inr ⟨rfl, ?_⟩
            simpa [NumberLiteral.isNegative, sign] using value

/-- The reader of integers reads exactly their texts. -/
theorem Reader.readInt_recognises (k : IntKind) : (readInt k).Recognises EndsToken (IntegerText k) := by
  rw [readInt_eq]
  refine ((number_recognises k.name).checked k.name _).congr fun n w => ?_
  simp only [accept_eq_ok, integerText_iff]

/-- Integers of a kind that holds all words are the texts of words. -/
theorem Reader.readWord_recognises {k : IntKind} (word : k.IsWord) :
    (readInt k).Recognises EndsToken fun n w => ∃ m : Nat, WordText m w ∧ (m : Int) = n :=
  (readInt_recognises k).congr fun _ _ => IntegerText.word_iff word

/-! ### Numbers where they stand -/

/-- The number at a place: no longer literal begins there, and no exponent mark without digits stands behind it. -/
structure NumberLiteral.Longest (l : NumberLiteral) (c later : Cursor) : Prop where
  form : l.WellFormed
  spans : c.Spans l.text later
  munched : Munched l.text later.rest

theorem NumberLiteral.scan_eq_ok_iff_longest {l : NumberLiteral} {c later : Cursor} :
    scan c = .ok l later ↔ l.Longest c later := by
  rw [scan_eq_ok_iff]
  constructor
  · rintro ⟨form, spans, stops⟩
    refine ⟨form, spans, munched_iff.2 fun l' form' same => ?_⟩
    rw [text_injective form' form same]
    exact stops
  · rintro ⟨form, spans, munched⟩
    exact ⟨form, spans, munched_iff.1 munched l form rfl⟩

/-- What becomes of the number behind white space. -/
theorem readInt_apply (k : IntKind) (c : Cursor) :
    readInt k c =
      match NumberLiteral.scan c.skipSpace with
      | .fail error stop => .fail ⟨k.name, .malformed error, stop.pos⟩ stop
      | .ok l later =>
        match (l.int? k.signed).filter k.contains with
        | some n => .ok n later
        | none => .fail ⟨k.name, .notOfKind l.text k.name, c.skipSpace.pos⟩ later := by
  rw [readInt_eq, Recognises.checked_apply, number, lexed, Cursor.skipSpace_skipSpace]
  cases NumberLiteral.scan c.skipSpace with
  | fail error stop => rfl
  | ok l later =>
      simp only [Outcome.mapError_ok, Outcome.bind_ok]
      cases (l.int? k.signed).filter k.contains <;> rfl

/-- An integer is read exactly where the number behind white space is a text of it. -/
theorem readInt_eq_ok_iff {k : IntKind} {c later : Cursor} {n : Int} :
    readInt k c = .ok n later ↔
      ∃ w, c.skipSpace.Spans w later ∧ Munched w later.rest ∧ IntegerText k n w := by
  rw [readInt_apply]
  constructor
  · intro read
    cases scanned : NumberLiteral.scan c.skipSpace with
    | fail error stop =>
        rw [scanned] at read
        cases read
    | ok l stop =>
        rw [scanned] at read
        cases found : (l.int? k.signed).filter k.contains with
        | none =>
            simp only [found] at read
            cases read
        | some n' =>
            simp only [found] at read
            cases read
            have longest := NumberLiteral.scan_eq_ok_iff_longest.1 scanned
            exact ⟨l.text, longest.spans, longest.munched, integerText_iff.2 ⟨l, ⟨longest.form, rfl⟩, found⟩⟩
  · rintro ⟨w, spans, munched, text⟩
    obtain ⟨l, ⟨form, rfl⟩, found⟩ := integerText_iff.1 text
    have scanned := NumberLiteral.scan_eq_ok_iff_longest.2 ⟨form, spans, munched⟩
    simp only [scanned, found]

/-- A number that is no integer of the kind is refused where it begins. -/
theorem readInt_refuses {k : IntKind} {c later : Cursor} {l : NumberLiteral} (longest : l.Longest c.skipSpace later)
    (other : ∀ n, ¬ IntegerText k n l.text) :
    readInt k c = .fail ⟨k.name, .notOfKind l.text k.name, c.skipSpace.pos⟩ later := by
  have scanned := NumberLiteral.scan_eq_ok_iff_longest.2 longest
  have missed : (l.int? k.signed).filter k.contains = none :=
    Option.eq_none_iff_forall_ne_some.2 fun n found => other n (integerText_iff.2 ⟨l, ⟨longest.form, rfl⟩, found⟩)
  rw [readInt_apply, scanned]
  simp only [missed]

/-- Where no number stands, the failure is that of the scanner. -/
theorem readInt_misses {k : IntKind} {c : Cursor}
    (none : ∀ (l : NumberLiteral) later, ¬ l.Longest c.skipSpace later) :
    ∃ error stop, readInt k c = .fail ⟨k.name, .malformed error, stop.pos⟩ stop := by
  rw [readInt_apply]
  cases scanned : NumberLiteral.scan c.skipSpace with
  | ok l later => exact absurd (NumberLiteral.scan_eq_ok_iff_longest.1 scanned) (none l later)
  | fail error stop => exact ⟨error, stop, rfl⟩

/-- The size of every integer of a kind fits a word. -/
theorem IntKind.natAbs_lt_of_contains {k : IntKind} {n : Int} (contains : k.contains n = true) :
    n.natAbs < wordLimit := by
  simp only [IntKind.contains, Bool.and_eq_true, decide_eq_true_eq] at contains
  obtain ⟨least, greatest⟩ := contains
  obtain ⟨signed, width⟩ := k
  cases signed <;> cases width <;> simp [IntKind.least, IntKind.greatest, Width.bits] at least greatest <;>
    unfold wordLimit <;> omega

variable {S : Type} (schema : Schema S) (store : Option BlobView)

/-- The reader of an integer type is that of its kind. -/
theorem Ty.read_int (k : IntKind) (c : Cursor) :
    (Ty.scalar (.int k)).read schema store c = (readInt k c).map fun n => Val.scalar (.int n) := by
  show ((readInt k c).map Datum.int).map Val.scalar = _
  cases readInt k c <;> rfl

/-- An integer is read exactly if the number behind white space is the text of an integer of the kind; that integer is
    the value, and the cursor comes to stand behind the number.  A number that is no such text is refused where it
    begins, and without a number the scanner tells what is missing.  What is written for an integer of the kind, from
    the least to the greatest, has at most twenty digits and is read as that integer, as a text of its own and in
    front of anything that does not go on with a number. -/
theorem readInt_exact (k : IntKind) (c : Cursor) :
    (∀ v later, (Ty.scalar (.int k)).read schema store c = .ok v later ↔
      ∃ n w, v = .scalar (.int n) ∧ c.skipSpace.Spans w later ∧ Munched w later.rest ∧ IntegerText k n w) ∧
    (∀ l later, NumberLiteral.Longest l c.skipSpace later → (∀ n, ¬ IntegerText k n l.text) →
      (Ty.scalar (.int k)).read schema store c
        = .fail ⟨k.name, .notOfKind l.text k.name, c.skipSpace.pos⟩ later) ∧
    ((∀ l later, ¬ NumberLiteral.Longest l c.skipSpace later) →
      ∃ error stop, (Ty.scalar (.int k)).read schema store c = .fail ⟨k.name, .malformed error, stop.pos⟩ stop) ∧
    ∀ n, k.least ≤ n → n ≤ k.greatest →
      (Decimal.text n.natAbs).length ≤ 20 ∧
      encodeInline schema (.scalar (.int k)) (.scalar (.int n)) = Decimal.intText n ∧
      decode schema store (.scalar (.int k)) (Decimal.intText n) = .ok (.scalar (.int n)) ∧
      ((Ty.scalar (.int k)).read schema store).Reads (Decimal.intText n) (.scalar (.int n)) := by
  rw [Ty.read_int]
  refine ⟨fun v later => ?_, fun l later longest other => ?_, fun none => ?_, fun n least greatest => ?_⟩
  · simp only [Outcome.map_eq_ok, readInt_eq_ok_iff]
    constructor
    · rintro ⟨n, ⟨w, spans, munched, text⟩, rfl⟩
      exact ⟨n, w, rfl, spans, munched, text⟩
    · rintro ⟨n, w, rfl, spans, munched, text⟩
      exact ⟨n, ⟨w, spans, munched, text⟩, rfl⟩
  · rw [readInt_refuses longest other]
    rfl
  · obtain ⟨error, stop, read⟩ := readInt_misses (k := k) none
    exact ⟨error, stop, by rw [read]; rfl⟩
  · have contains : k.contains n = true := by simp [IntKind.contains, least, greatest]
    have reads : ((Ty.scalar (.int k)).read schema store).Reads (Decimal.intText n) (.scalar (.int n)) :=
      ((readInt_reads contains).map Datum.int).map Val.scalar
    refine ⟨wordText_length_le (IntKind.natAbs_lt_of_contains contains), ?_, ?_, reads⟩
    · simp [encodeInline, Val.segments, Datum.text]
    · have read := reads (Cursor.start (Decimal.intText n)) ⟨(Decimal.intText n).length, []⟩
        ⟨(List.append_nil _).symm, (Nat.zero_add _).symm⟩ .nil
      exact decode_of_read read rfl

/-- A minus sign in front of zero is refused for a kind without sign, and the greatest integer of that kind is read
    back. -/
theorem readInt_exact_minus_zero :
    let schema : Schema Empty := nofun
    let k : IntKind := ⟨false, .w8⟩
    let c : Cursor := ⟨4, ascii " -0]"⟩
    (Ty.scalar (.int k)).read schema none c = .fail ⟨k.name, .notOfKind (ascii "-0") k.name, 5⟩ ⟨7, ascii "]"⟩ ∧
      decode schema none (.scalar (.int k)) (Decimal.intText 255) = .ok (.scalar (.int 255)) := by
  intro schema k c
  obtain ⟨_, refused, _, written⟩ := readInt_exact schema none k c
  have longest : NumberLiteral.Longest ⟨some Byte.minus, [Byte.zero], none, none⟩ c.skipSpace ⟨7, ascii "]"⟩ :=
    NumberLiteral.scan_eq_ok_iff_longest.1 (by decide)
  have other (n : Int) : ¬ IntegerText k n (ascii "-0") := by
    rintro ⟨_, sign, digits, same, _, inside, ⟨rfl | rfl, _⟩ | ⟨_, signed, _⟩⟩
    · obtain rfl : ascii "-0" = digits := same
      exact absurd (inside Byte.minus (by decide)) (by decide)
    · exact absurd (List.cons.inj same).1 (by decide)
    · cases signed
  exact ⟨refused _ _ longest other, (written 255 (by decide) (by decide)).2.2.1⟩

end JsonSidecar
