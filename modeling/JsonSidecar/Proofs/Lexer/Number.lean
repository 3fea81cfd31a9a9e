/-
Module: JsonSidecar.Proofs.Lexer.Number
Purpose: The scanner of number literals against the literals themselves.  What it accepts is the text of a
  well-formed literal, and it accepts the text of every well-formed literal that does not go on behind.  Which
  bytes a literal does not go on into is told by its parts, and told again without them: no longer literal
  begins there.
Main exports: NumberLiteral.WellFormed, NumberLiteral.Strict, NumberLiteral.Stops, NumberLiteral.scan_eq_ok_iff,
  NumberLiteral.stops_iff
-/
import JsonSidecar.Lexer.Number
import JsonSidecar.Proofs.Cursor

namespace JsonSidecar

/-- An exponent part as a number literal may have it. -/
structure ExponentPart.WellFormed (e : ExponentPart) : Prop where
  mark : Byte.isExponentMark e.mark = true
  sign : ∀ b, e.sign = some b → Byte.isSign b = true
  digits : ∀ b ∈ e.digits, Byte.isDigit b = true
  nonempty : e.digits ≠ []

/-- A number literal of the grammar: every part holds the bytes it is made for, and there is a digit
    before the point or behind it. -/
structure NumberLiteral.WellFormed (l : NumberLiteral) : Prop where
  sign : ∀ b, l.sign = some b → Byte.isSign b = true
  whole : ∀ b ∈ l.whole, Byte.isDigit b = true
  fraction : ∀ b ∈ l.fraction.getD [], Byte.isDigit b = true
  mantissa : l.whole ≠ [] ∨ l.fraction.getD [] ≠ []
  exponent : ∀ e, l.exponent = some e → e.WellFormed

/-- A number literal as strict readers take it: no plus sign in front, digits on both sides of the point, and no
    zero in front of other digits. -/
structure NumberLiteral.Strict (l : NumberLiteral) : Prop extends l.WellFormed where
  unsigned : l.sign ≠ some Byte.plus
  before : l.whole ≠ []
  behind : l.fraction ≠ some []
  leading : ∀ rest, l.whole = Byte.zero :: rest → rest = []

/-- The bytes behind a literal do not go on with it.  Digits go on with every literal, an exponent mark with one
    that has no exponent, and a point with one that has no fraction either. -/
structure NumberLiteral.Stops (l : NumberLiteral) (rest : Bytes) : Prop where
  digit : ∀ b, rest.head? = some b → Byte.isDigit b = false
  mark : l.exponent = none → ∀ b, rest.head? = some b → Byte.isExponentMark b = false
  dot : l.fraction = none → l.exponent = none → ∀ b, rest.head? = some b → b ≠ Byte.dot

namespace NumberLiteral

/-- A literal without a sign is strict if its parts are. -/
theorem Strict.of_unsigned {whole : Bytes} {fraction : Option Bytes} {exponent : Option ExponentPart}
    (digits : ∀ b ∈ whole, Byte.isDigit b = true) (before : whole ≠ [])
    (leading : ∀ rest, whole = Byte.zero :: rest → rest = [])
    (digits' : ∀ b ∈ fraction.getD [], Byte.isDigit b = true) (behind : fraction ≠ some [])
    (form : ∀ e, exponent = some e → e.WellFormed) :
    (⟨none, whole, fraction, exponent⟩ : NumberLiteral).Strict where
  sign := nofun
  whole := digits
  fraction := digits'
  mantissa := .inl before
  exponent := form
  unsigned := nofun
  before := before
  behind := behind
  leading := leading

/-- A minus sign may stand in front of a strict literal. -/
theorem Strict.negative {l : NumberLiteral} (strict : l.Strict) : { l with sign := some Byte.minus }.Strict where
  sign b same := by
    cases same
    rfl
  whole := strict.whole
  fraction := strict.fraction
  mantissa := strict.mantissa
  exponent := strict.exponent
  unsigned := by simp [Byte.minus, Byte.plus]
  before := strict.before
  behind := strict.behind
  leading := strict.leading

/-! ### What the parts of a literal are followed by -/

/-- The classes of bytes that a number literal is made of are disjoint where its scanner decides. -/
theorem isSign_not_digit {b : UInt8} (h : Byte.isSign b = true) : Byte.isDigit b = false := by
  simp only [Byte.isSign, Bool.or_eq_true, beq_iff_eq] at h
  rcases h with rfl | rfl <;> decide

theorem isExponentMark_not_digit {b : UInt8} (h : Byte.isExponentMark b = true) :
    Byte.isDigit b = false := by
  simp only [Byte.isExponentMark, Bool.or_eq_true, beq_iff_eq] at h
  rcases h with rfl | rfl <;> decide

theorem isExponentMark_ne_dot {b : UInt8} (h : Byte.isExponentMark b = true) : b ≠ Byte.dot := by
  simp only [Byte.isExponentMark, Bool.or_eq_true, beq_iff_eq] at h
  rcases h with rfl | rfl <;> decide

theorem isDigit_not_sign {b : UInt8} (h : Byte.isDigit b = true) : Byte.isSign b = false := by
  cases sign : Byte.isSign b with
  | false => rfl
  | true => rw [isSign_not_digit sign] at h; cases h

/-- Where no number goes on, no literal does. -/
theorem Stops.of_endsToken {rest : Bytes} (ends : EndsToken rest) (l : NumberLiteral) : l.Stops rest := by
  have parts : ∀ b, rest.head? = some b →
      (Byte.isDigit b = false ∧ b ≠ Byte.dot) ∧ Byte.isExponentMark b = false := by
    intro b head
    have out := ends b head
    simp only [Byte.continuesNumber, Bool.or_eq_false_iff, beq_eq_false_iff_ne] at out
    exact out
  exact ⟨fun b head => (parts b head).1.1, fun _ b head => (parts b head).2, fun _ _ b head => (parts b head).1.2⟩

/-- Whether a literal goes on is told by the first byte behind it. -/
theorem Stops.of_head? {l : NumberLiteral} {rest rest' : Bytes} (stops : l.Stops rest)
    (head : ∀ b, rest'.head? = some b → rest.head? = some b) : l.Stops rest' where
  digit b first := stops.digit b (head b first)
  mark none b first := stops.mark none b (head b first)
  dot noFraction none b first := stops.dot noFraction none b (head b first)

/-! ### The parts -/

theorem scanSign_append {sign : Option UInt8} (h : ∀ b, sign = some b → Byte.isSign b = true) {rest : Bytes}
    (stop : ∀ b, rest.head? = some b → Byte.isSign b = false) (pos : Nat) :
    scanSign ⟨pos, sign.toList ++ rest⟩ = (sign, ⟨pos + sign.toList.length, rest⟩) := by
  cases sign with
  | some b => simp [scanSign, Cursor.passIf?, Cursor.peek?, h b rfl]
  | none =>
      cases rest with
      | nil => simp [scanSign, Cursor.passIf?]
      | cons b rest => simp [scanSign, Cursor.passIf?, stop b rfl]

theorem scanDigits_append {digits rest : Bytes} (h : ∀ b ∈ digits, Byte.isDigit b = true)
    (stop : ∀ b, rest.head? = some b → Byte.isDigit b = false) (pos : Nat) :
    scanDigits ⟨pos, digits ++ rest⟩ = (digits, ⟨pos + digits.length, rest⟩) := by
  obtain ⟨skipped, taken⟩ := Cursor.skipWhile_append h stop pos
  simp [scanDigits, Cursor.skipDigits, skipped, taken]

theorem scanFraction_append {fraction : Option Bytes} {rest : Bytes}
    (h : ∀ b ∈ fraction.getD [], Byte.isDigit b = true)
    (stop : ∀ b, rest.head? = some b → Byte.isDigit b = false ∧ (fraction = none → b ≠ Byte.dot)) (pos : Nat) :
    scanFraction ⟨pos, fractionText fraction ++ rest⟩
      = (fraction, ⟨pos + (fractionText fraction).length, rest⟩) := by
  cases fraction with
  | some digits =>
      have inside : ∀ b ∈ digits, Byte.isDigit b = true := h
      have scanned := scanDigits_append inside (fun b head => (stop b head).1) (pos + 1)
      simp [scanFraction, fractionText, scanned, Nat.add_assoc, Nat.add_comm 1]
  | none =>
      cases rest with
      | nil => simp [scanFraction, fractionText, Cursor.eat?, Cursor.passIf?]
      | cons b rest =>
          simp [scanFraction, fractionText, Cursor.eat?_cons_of_ne ((stop b rfl).2 rfl)]

theorem scanExponent_append {exponent : Option ExponentPart}
    (h : ∀ e, exponent = some e → e.WellFormed) {rest : Bytes}
    (digit : ∀ b, rest.head? = some b → Byte.isDigit b = false)
    (mark : exponent = none → ∀ b, rest.head? = some b → Byte.isExponentMark b = false) (pos : Nat) :
    scanExponent ⟨pos, exponentText exponent ++ rest⟩
      = .ok exponent ⟨pos + (exponentText exponent).length, rest⟩ := by
  cases exponent with
  | some e =>
      have form := h e rfl
      have digitsHead : ∀ b, (e.digits ++ rest).head? = some b → Byte.isSign b = false := by
        intro b head
        cases digits : e.digits with
        | nil => exact absurd digits form.nonempty
        | cons d ds =>
            have same : d = b := by simpa [digits] using head
            rw [← same]
            exact isDigit_not_sign (form.digits d (by simp [digits]))
      have signed := scanSign_append form.sign digitsHead (pos + 1)
      have scanned := scanDigits_append form.digits digit
        (pos + 1 + e.sign.toList.length)
      have filled : e.digits.isEmpty = false := by simpa using form.nonempty
      simp [scanExponent, exponentText, Cursor.passIf?, form.mark, signed, scanned, filled]
      omega
  | none =>
      cases rest with
      | nil => simp [scanExponent, exponentText, Cursor.passIf?]
      | cons b rest => simp [scanExponent, exponentText, Cursor.passIf?, mark rfl b rfl]

/-! ### Whole literals -/

/-- What stands behind the digits in front of the point is no digit. -/
theorem afterWhole_not_digit {l : NumberLiteral} (form : l.WellFormed) {rest : Bytes} (stops : l.Stops rest)
    (b : UInt8)
    (head : (fractionText l.fraction ++ (exponentText l.exponent ++ rest)).head? = some b) :
    Byte.isDigit b = false := by
  cases fraction : l.fraction with
  | some digits =>
      simp only [fraction, fractionText, List.cons_append, List.head?_cons, Option.some.injEq] at head
      rw [← head]
      decide
  | none =>
      cases exponent : l.exponent with
      | some e =>
          simp only [fraction, exponent, fractionText, exponentText, List.nil_append, List.cons_append,
            List.head?_cons, Option.some.injEq] at head
          rw [← head]
          exact isExponentMark_not_digit (form.exponent e exponent).mark
      | none =>
          simp only [fraction, exponent, fractionText, exponentText, List.nil_append] at head
          exact stops.digit b head

/-- What stands behind the mantissa continues neither its digits nor its point. -/
theorem afterMantissa_stops {l : NumberLiteral} (form : l.WellFormed) {rest : Bytes} (stops : l.Stops rest)
    (b : UInt8) (head : (exponentText l.exponent ++ rest).head? = some b) :
    Byte.isDigit b = false ∧ (l.fraction = none → b ≠ Byte.dot) := by
  cases exponent : l.exponent with
  | some e =>
      simp only [exponent, exponentText, List.cons_append, List.head?_cons, Option.some.injEq] at head
      have mark := (form.exponent e exponent).mark
      rw [← head]
      exact ⟨isExponentMark_not_digit mark, fun _ => isExponentMark_ne_dot mark⟩
  | none =>
      simp only [exponent, exponentText, List.nil_append] at head
      exact ⟨stops.digit b head, fun noFraction => stops.dot noFraction exponent b head⟩

/-- What stands behind the sign is no sign. -/
theorem afterSign_not_sign {l : NumberLiteral} (form : l.WellFormed) (rest : Bytes) (b : UInt8)
    (head : (l.whole ++ (fractionText l.fraction ++ rest)).head? = some b) : Byte.isSign b = false := by
  cases whole : l.whole with
  | cons d ds =>
      have same : d = b := by simpa [whole] using head
      rw [← same]
      exact isDigit_not_sign (form.whole d (by simp [whole]))
  | nil =>
      -- Without digits in front of the point there is a point, because there are digits somewhere.
      cases fraction : l.fraction with
      | some digits =>
          have same : Byte.dot = b := by simpa [whole, fraction, fractionText] using head
          rw [← same]
          decide
      | none =>
          have mantissa := form.mantissa
          simp [whole, fraction] at mantissa

/-- The text of a well-formed literal is scanned as that literal, up to where it does not go on. -/
theorem scan_text {l : NumberLiteral} (form : l.WellFormed) {rest : Bytes} (stops : l.Stops rest)
    (pos : Nat) : scan ⟨pos, l.text ++ rest⟩ = .ok l ⟨pos + l.text.length, rest⟩ := by
  have signed := scanSign_append form.sign
    (afterSign_not_sign form (exponentText l.exponent ++ rest)) pos
  have whole := scanDigits_append form.whole (afterWhole_not_digit form stops)
    (pos + l.sign.toList.length)
  have fraction := scanFraction_append form.fraction (afterMantissa_stops form stops)
    (pos + l.sign.toList.length + l.whole.length)
  have exponent := scanExponent_append form.exponent stops.digit stops.mark
    (pos + l.sign.toList.length + l.whole.length + (fractionText l.fraction).length)
  have mantissa : (l.whole.isEmpty && (l.fraction.getD []).isEmpty) = false := by
    rcases form.mantissa with some | some
    · simp [some]
    · simp [some]
  simp only [scan, text, List.append_assoc, signed, whole, fraction, exponent, mantissa,
    Bool.false_eq_true, if_false, Outcome.map_ok]
  simp [Nat.add_assoc]

/-! ### What the scanner accepts -/

theorem scanSign_sound (c : Cursor) :
    c.Spans (scanSign c).1.toList (scanSign c).2 ∧
      ∀ b, (scanSign c).1 = some b → Byte.isSign b = true := by
  cases c with
  | mk pos rest =>
      cases rest with
      | nil => simp [scanSign, Cursor.passIf?, Cursor.Spans]
      | cons b rest =>
          cases sign : Byte.isSign b with
          | true => simp [scanSign, Cursor.passIf?, Cursor.peek?, Cursor.Spans, sign]
          | false => simp [scanSign, Cursor.passIf?, Cursor.Spans, sign]

theorem scanDigits_sound (c : Cursor) :
    c.Spans (scanDigits c).1 (scanDigits c).2 ∧ ∀ b ∈ (scanDigits c).1, Byte.isDigit b = true :=
  ⟨Cursor.skipWhile_spans _ c, List.all_eq_true.1 List.all_takeWhile⟩

theorem scanDigits_stops (c : Cursor) (b : UInt8) (head : (scanDigits c).2.rest.head? = some b) :
    Byte.isDigit b = false := by
  have first := List.head?_dropWhile_not Byte.isDigit c.rest
  have same : (c.rest.dropWhile Byte.isDigit).head? = some b := head
  rw [same] at first
  simpa using first

theorem scanFraction_sound (c : Cursor) :
    c.Spans (fractionText (scanFraction c).1) (scanFraction c).2 ∧
      ∀ b ∈ (scanFraction c).1.getD [], Byte.isDigit b = true := by
  unfold scanFraction
  cases eaten : c.eat? Byte.dot with
  | none => simp [fractionText, Cursor.Spans]
  | some after =>
      obtain ⟨spans, digits⟩ := scanDigits_sound after
      exact ⟨(Cursor.eat?_spans eaten).cons spans, digits⟩

theorem scanExponent_sound {c later : Cursor} {exponent : Option ExponentPart}
    (h : scanExponent c = .ok exponent later) :
    c.Spans (exponentText exponent) later ∧ ∀ e, exponent = some e → e.WellFormed := by
  cases c with
  | mk pos rest =>
      cases rest with
      | nil =>
          cases h
          simp [exponentText, Cursor.Spans]
      | cons mark rest =>
          cases isMark : Byte.isExponentMark mark with
          | false =>
              simp only [scanExponent, Cursor.passIf?, isMark, Bool.false_eq_true, if_false] at h
              cases h
              simp [exponentText, Cursor.Spans]
          | true =>
              simp only [scanExponent, Cursor.passIf?, isMark, if_true] at h
              split at h
              · cases h
              · rename_i filled
                cases h
                obtain ⟨signSpans, sign⟩ := scanSign_sound ⟨pos + 1, rest⟩
                obtain ⟨digitSpans, digits⟩ := scanDigits_sound (scanSign ⟨pos + 1, rest⟩).2
                have first : (⟨pos, mark :: rest⟩ : Cursor).Spans [mark] ⟨pos + 1, rest⟩ := by
                  simp [Cursor.Spans]
                refine ⟨first.cons (signSpans.trans digitSpans), ?_⟩
                intro e same
                cases same
                exact ⟨isMark, sign, digits, by simpa using filled⟩

/-- Whatever the scanner accepts is the text of a well-formed literal. -/
theorem scan_sound {c later : Cursor} {l : NumberLiteral} (h : scan c = .ok l later) :
    c.Spans l.text later ∧ l.WellFormed := by
  simp only [scan] at h
  split at h
  · cases h
  · rename_i mantissa
    obtain ⟨exponent, scanned, same⟩ := Outcome.map_eq_ok.1 h
    obtain ⟨signSpans, sign⟩ := scanSign_sound c
    obtain ⟨wholeSpans, whole⟩ := scanDigits_sound (scanSign c).2
    obtain ⟨fractionSpans, fraction⟩ := scanFraction_sound (scanDigits (scanSign c).2).2
    obtain ⟨exponentSpans, exponentForm⟩ := scanExponent_sound scanned
    subst same
    constructor
    · have spans := signSpans.trans (wholeSpans.trans (fractionSpans.trans exponentSpans))
      simpa [text, List.append_assoc] using spans
    · refine ⟨sign, whole, fraction, ?_, exponentForm⟩
      by_cases empty : (scanDigits (scanSign c).2).1 = []
      · refine .inr fun none => mantissa ?_
        rw [empty, none]
        rfl
      · exact .inl empty

/-! ### Where the scanner stops -/

theorem scanFraction_stops {c : Cursor} (digit : ∀ b, c.rest.head? = some b → Byte.isDigit b = false) (b : UInt8)
    (head : (scanFraction c).2.rest.head? = some b) :
    Byte.isDigit b = false ∧ ((scanFraction c).1 = none → b ≠ Byte.dot) := by
  unfold scanFraction at head ⊢
  cases eaten : c.eat? Byte.dot with
  | some after =>
      simp only [eaten] at head
      exact ⟨scanDigits_stops after b head, nofun⟩
  | none =>
      simp only [eaten] at head
      refine ⟨digit b head, fun _ same => ?_⟩
      obtain ⟨pos, rest⟩ := c
      cases rest with
      | nil => cases head
      | cons x rest =>
          cases head
          rw [same, Cursor.eat?_cons_self] at eaten
          cases eaten

/-- Behind an exponent there is no digit.  Where there is none the cursor has not moved, and no mark stands
    there. -/
theorem scanExponent_stops {c later : Cursor} {exponent : Option ExponentPart}
    (h : scanExponent c = .ok exponent later) :
    (exponent = none ∧ later = c ∧ ∀ b, c.rest.head? = some b → Byte.isExponentMark b = false) ∨
      ((∃ e, exponent = some e) ∧ ∀ b, later.rest.head? = some b → Byte.isDigit b = false) := by
  obtain ⟨pos, rest⟩ := c
  cases rest with
  | nil =>
      cases h
      exact .inl ⟨rfl, rfl, by simp⟩
  | cons mark rest =>
      cases isMark : Byte.isExponentMark mark with
      | false =>
          simp only [scanExponent, Cursor.passIf?, isMark, Bool.false_eq_true, if_false] at h
          cases h
          exact .inl ⟨rfl, rfl, by simpa using isMark⟩
      | true =>
          simp only [scanExponent, Cursor.passIf?, isMark, if_true] at h
          split at h
          · cases h
          · cases h
            exact .inr ⟨⟨_, rfl⟩, scanDigits_stops _⟩

/-- The scanner stops where the literal does not go on. -/
theorem scan_stops {c later : Cursor} {l : NumberLiteral} (h : scan c = .ok l later) : l.Stops later.rest := by
  simp only [scan] at h
  split at h
  · cases h
  · obtain ⟨exponent, scanned, rfl⟩ := Outcome.map_eq_ok.1 h
    have mantissa := scanFraction_stops (scanDigits_stops (scanSign c).2)
    rcases scanExponent_stops scanned with ⟨rfl, rfl, mark⟩ | ⟨⟨e, rfl⟩, digit⟩
    · exact ⟨fun b head => (mantissa b head).1, fun _ => mark,
        fun noFraction _ b head => (mantissa b head).2 noFraction⟩
    · exact ⟨digit, nofun, nofun⟩

/-- A literal is scanned exactly where its text stands and does not go on. -/
theorem scan_eq_ok_iff {c later : Cursor} {l : NumberLiteral} :
    scan c = .ok l later ↔ l.WellFormed ∧ c.Spans l.text later ∧ l.Stops later.rest := by
  constructor
  · intro h
    obtain ⟨spans, form⟩ := scan_sound h
    exact ⟨form, spans, scan_stops h⟩
  · rintro ⟨form, spans, stops⟩
    obtain ⟨start, stop⟩ := spans.places
    rw [start, stop]
    exact scan_text form stops c.pos

/-! ### The longest literal -/

/-- A literal with no text behind it is scanned whole, so a text has one literal only. -/
theorem text_injective {l l' : NumberLiteral} (form : l.WellFormed) (form' : l'.WellFormed)
    (same : l.text = l'.text) : l = l' := by
  have first := scan_text form (.of_endsToken .nil l) 0
  have second := scan_text form' (.of_endsToken .nil l') 0
  rw [same, second] at first
  cases first
  rfl

/-- A byte that goes on with a literal, other than an exponent mark, makes a longer literal. -/
theorem exists_longer {l : NumberLiteral} (form : l.WellFormed) {b : UInt8}
    (goesOn : Byte.isDigit b = true ∨ (b = Byte.dot ∧ l.fraction = none ∧ l.exponent = none)) :
    ∃ longer : NumberLiteral, longer.WellFormed ∧ longer.text = l.text ++ [b] := by
  obtain ⟨sign, whole, fraction, exponent⟩ := l
  have more : ∀ digits : Bytes, (∀ x ∈ digits, Byte.isDigit x = true) → Byte.isDigit b = true →
      ∀ x ∈ digits ++ [b], Byte.isDigit x = true := by
    intro digits inside digit x mem
    rcases List.mem_append.1 mem with mem | mem
    · exact inside x mem
    · rw [List.mem_singleton.1 mem]
      exact digit
  rcases goesOn with digit | ⟨rfl, noFraction, noExponent⟩
  · cases exponent with
    | some e =>
        have part := form.exponent e rfl
        refine ⟨⟨sign, whole, fraction, some { e with digits := e.digits ++ [b] }⟩,
          ⟨form.sign, form.whole, form.fraction, form.mantissa, ?_⟩, by simp [text, exponentText]⟩
        rintro _ ⟨⟩
        exact ⟨part.mark, part.sign, more e.digits part.digits digit, by simp⟩
    | none =>
        cases fraction with
        | some digits =>
            exact ⟨⟨sign, whole, some (digits ++ [b]), none⟩,
              ⟨form.sign, form.whole, more digits form.fraction digit, .inr (by simp), by simp⟩,
              by simp [text, exponentText, fractionText]⟩
        | none =>
            exact ⟨⟨sign, whole ++ [b], none, none⟩,
              ⟨form.sign, more whole form.whole digit, by simp, .inl (by simp), by simp⟩,
              by simp [text, exponentText, fractionText]⟩
  · cases noFraction
    cases noExponent
    have filled : whole ≠ [] := by simpa using form.mantissa
    exact ⟨⟨sign, whole, some [], none⟩, ⟨form.sign, form.whole, by simp, .inl filled, by simp⟩,
      by simp [text, exponentText, fractionText]⟩

/-- A literal does not go on exactly where it is the longest one, and where no exponent mark stands behind a
    mantissa. -/
theorem stops_iff {l : NumberLiteral} (form : l.WellFormed) {rest : Bytes} :
    l.Stops rest ↔
      (∀ longer : NumberLiteral, longer.WellFormed → longer.text <+: l.text ++ rest →
        longer.text.length ≤ l.text.length) ∧
      (l.exponent = none → ∀ b, rest.head? = some b → Byte.isExponentMark b = false) := by
  constructor
  · intro stops
    refine ⟨fun longer form' inside => Nat.le_of_not_lt fun more => ?_, stops.mark⟩
    -- The longer literal is the shorter one and a part of what follows, before which the shorter one stops.
    obtain ⟨ahead, same⟩ :=
      List.prefix_of_prefix_length_le (List.prefix_append l.text rest) inside (Nat.le_of_lt more)
    have part : ahead <+: rest := by
      rw [← same] at inside
      exact (List.prefix_append_right_inj l.text).1 inside
    have head : ∀ b, ahead.head? = some b → rest.head? = some b := by
      obtain ⟨tail, rfl⟩ := part
      intro b first
      simp [first]
    have shorter := scan_text form (stops.of_head? head) 0
    have whole := scan_text form' (.of_endsToken .nil longer) 0
    rw [List.append_nil, ← same, shorter] at whole
    have none : ahead = [] := congrArg Cursor.rest (Outcome.ok.inj whole).2
    rw [← same, none, List.append_nil] at more
    exact Nat.lt_irrefl _ more
  · rintro ⟨longest, mark⟩
    have none : ∀ b, rest.head? = some b →
        ¬ (Byte.isDigit b = true ∨ (b = Byte.dot ∧ l.fraction = none ∧ l.exponent = none)) := by
      intro b head goesOn
      obtain ⟨longer, form', same⟩ := exists_longer form goesOn
      obtain ⟨tail, rfl⟩ := List.head?_eq_some_iff.1 head
      have short := longest longer form' ⟨tail, by rw [same, List.append_assoc]; rfl⟩
      rw [same, List.length_append] at short
      exact Nat.not_succ_le_self _ short
    refine ⟨fun b head => ?_, mark, fun noFraction noExponent b head dot => ?_⟩
    · exact Bool.eq_false_iff.2 fun digit => none b head (.inl digit)
    · exact none b head (.inr ⟨dot, noFraction, noExponent⟩)

end NumberLiteral

end JsonSidecar
