/-
Module: JsonSidecar.Proofs.Decode.Recognises
Purpose: What it means that a reader reads exactly the texts of a grammar.  Whatever the reader accepts behind white
  space is spelled as the grammar says, and whatever the grammar spells is read, as long as what follows cannot go
  on with it.  The forms that readers are put together in carry this over from their parts.
Main exports: Reader.Recognises, Reader.Recognises.eq_ok_iff, Enclosed, MemberText, FloatText
-/
import JsonSidecar.Proofs.Decode.Reads
import JsonSidecar.Proofs.Lexer.Denotes

namespace JsonSidecar

open Reader

variable {α β : Type}

/-- The reader reads exactly the texts that are spelled, in front of what may follow them. -/
structure Reader.Recognises (follows : Bytes → Prop) (reader : Reader α) (spelled : α → Bytes → Prop) : Prop where
  opens {a : α} {w : Bytes} : spelled a w → Opens w
  sound {c later : Cursor} {a : α} : reader c = .ok a later → ∃ w, c.skipSpace.Spans w later ∧ spelled a w
  complete {c later : Cursor} {a : α} {w : Bytes} : spelled a w → c.skipSpace.Spans w later → follows later.rest →
    reader c = .ok a later

/-- Nothing is asked of what follows. -/
def Anything (_rest : Bytes) : Prop := True

theorem Reader.accept_eq_ok {reason : Reason} {value : Option α} {a : α} :
    accept reason value = .ok a ↔ value = some a := by
  cases value <;> simp [accept]

namespace Reader.Recognises

variable {follows : Bytes → Prop} {reader : Reader α} {spelled spelled' : α → Bytes → Prop}

/-- In front of anything, reading succeeds exactly where a spelled text stands behind white space. -/
theorem eq_ok_iff (recognises : reader.Recognises Anything spelled) {c later : Cursor} {a : α} :
    reader c = .ok a later ↔ ∃ w, c.skipSpace.Spans w later ∧ spelled a w := by
  constructor
  · exact recognises.sound
  · rintro ⟨w, spans, spells⟩
    exact recognises.complete spells spans trivial

/-- Reading up to a given place succeeds exactly if the text up to there is spelled. -/
theorem eq_ok_of_spans (recognises : reader.Recognises Anything spelled) {c later : Cursor} {a : α} {w : Bytes}
    (spans : c.skipSpace.Spans w later) : reader c = .ok a later ↔ spelled a w := by
  rw [recognises.eq_ok_iff]
  constructor
  · rintro ⟨w', spans', spells⟩
    exact spans.span_eq.symm.trans spans'.span_eq ▸ spells
  · intro spells
    exact ⟨w, spans, spells⟩

theorem weaken (recognises : reader.Recognises Anything spelled) : reader.Recognises follows spelled where
  opens := recognises.opens
  sound := recognises.sound
  complete spells spans _ := recognises.complete spells spans trivial

theorem congr (recognises : reader.Recognises follows spelled) (same : ∀ a w, spelled a w ↔ spelled' a w) :
    reader.Recognises follows spelled' where
  opens spells := recognises.opens ((same _ _).2 spells)
  sound read := by
    obtain ⟨w, spans, spells⟩ := recognises.sound read
    exact ⟨w, spans, (same _ _).1 spells⟩
  complete spells := recognises.complete ((same _ _).2 spells)

/-! ### Forms -/

theorem map (recognises : reader.Recognises follows spelled) (f : α → β) :
    Recognises follows (f <$> reader) fun b w => ∃ a, spelled a w ∧ f a = b where
  opens spells := by
    obtain ⟨a, spells, _⟩ := spells
    exact recognises.opens spells
  sound read := by
    rw [Scan.map_apply] at read
    obtain ⟨a, read, same⟩ := Outcome.map_eq_ok.1 read
    obtain ⟨w, spans, spells⟩ := recognises.sound read
    exact ⟨w, spans, a, spells, same⟩
  complete spells spans ends := by
    obtain ⟨a, spells, rfl⟩ := spells
    rw [Scan.map_apply, recognises.complete spells spans ends]
    rfl

/-- A checked value is read behind white space, and what is refused is reported where it begins. -/
theorem checked_apply (expected : String) (reader : Reader α) (verdict : α → Except Reason β) (c : Cursor) :
    Reader.checked expected reader verdict c = (reader c.skipSpace).bind fun a later =>
      match verdict a with
      | .ok b => .ok b later
      | .error reason => .fail ⟨expected, reason, c.skipSpace.pos⟩ later := by
  have still : Reader.checked expected reader verdict c = Reader.checked expected reader verdict c.skipSpace := by
    simp only [Reader.checked, Scan.bind_apply, Scan.skipSpace_apply, Outcome.bind_ok, Cursor.skipSpace_skipSpace]
  exact still.trans (peek_checked expected reader verdict c)

theorem checked (recognises : reader.Recognises follows spelled) (expected : String)
    (verdict : α → Except Reason β) :
    Recognises follows (Reader.checked expected reader verdict) fun b w => ∃ a, spelled a w ∧ verdict a = .ok b where
  opens spells := by
    obtain ⟨a, spells, _⟩ := spells
    exact recognises.opens spells
  sound {c later b} read := by
    rw [checked_apply] at read
    obtain ⟨a, after, read, passed⟩ := Outcome.bind_eq_ok.1 read
    obtain ⟨w, spans, spells⟩ := recognises.sound read
    rw [Cursor.skipSpace_skipSpace] at spans
    cases found : verdict a with
    | error reason =>
        rw [found] at passed
        cases passed
    | ok b' =>
        rw [found] at passed
        cases passed
        exact ⟨w, spans, a, spells, found⟩
  complete {c later b w} spells spans ends := by
    obtain ⟨a, spells, passed⟩ := spells
    have read : reader c.skipSpace = .ok a later :=
      recognises.complete spells (by rwa [Cursor.skipSpace_skipSpace]) ends
    rw [checked_apply, read, Outcome.bind_ok, passed]

/-- What the check refuses is reported where it begins. -/
theorem checked_fail (recognises : reader.Recognises Anything spelled) {expected : String}
    {verdict : α → Except Reason β} {a : α} {w : Bytes} {reason : Reason} (spells : spelled a w)
    (refused : verdict a = .error reason) {c later : Cursor} (spans : c.skipSpace.Spans w later) :
    Reader.checked expected reader verdict c = .fail ⟨expected, reason, c.skipSpace.pos⟩ later := by
  have read : reader c.skipSpace = .ok a later :=
    recognises.complete spells (by rwa [Cursor.skipSpace_skipSpace]) trivial
  rw [checked_apply, read, Outcome.bind_ok, refused]

theorem judged (recognises : reader.Recognises follows spelled) (expected : String)
    (verdict : α → Except Reason β) :
    Recognises follows (Reader.judged expected reader verdict) fun b w => ∃ a, spelled a w ∧ verdict a = .ok b where
  opens spells := by
    obtain ⟨a, spells, _⟩ := spells
    exact recognises.opens spells
  sound {c later b} read := by
    obtain ⟨a, after, read, passed⟩ := Outcome.bind_eq_ok.1 read
    obtain ⟨w, spans, spells⟩ := recognises.sound read
    dsimp only at passed
    cases found : verdict a with
    | error reason =>
        rw [found] at passed
        cases passed
    | ok b' =>
        rw [found] at passed
        cases passed
        exact ⟨w, spans, a, spells, found⟩
  complete {c later b w} spells spans ends := by
    obtain ⟨a, spells, passed⟩ := spells
    rw [Reader.judged, Scan.bind_apply, recognises.complete spells spans ends, Outcome.bind_ok, passed]
    rfl

/-- `null`, or else a value that does not begin like it. -/
theorem nullOr (recognises : reader.Recognises follows spelled) (present : ∀ a w, spelled a w → OpensPresent w)
    (found : α) :
    Recognises follows (wordOr Word.null found reader) fun a w => w = Word.null ∧ a = found ∨ spelled a w where
  opens spells := by
    rcases spells with ⟨rfl, _⟩ | spells
    · exact opens_null
    · exact recognises.opens spells
  sound {c later a} read := by
    obtain ⟨matched, after, met, read⟩ := Outcome.bind_eq_ok.1 read
    cases matched with
    | true =>
        cases read
        exact ⟨Word.null, Cursor.eatAll?_spans (word_eq_ok (by decide) met), .inl ⟨rfl, rfl⟩⟩
    | false =>
        rw [word_eq_false met] at read
        obtain ⟨w, spans, spells⟩ := recognises.sound read
        exact ⟨w, spans, .inr spells⟩
  complete {c later a w} spells spans ends := by
    rcases spells with ⟨rfl, rfl⟩ | spells
    · have hit : word Word.null c = .ok true later := by
        simp only [word, matchWord?, matchPattern?_eq_eatAll? (show Byte.space ∉ Word.null by decide), spans.eatAll?]
      rw [wordOr, Scan.bind_apply, hit]
      rfl
    · obtain ⟨b, tail, same, _, other⟩ := present a w spells
      have miss : word Word.null c = .ok false c := by
        have eaten : c.skipSpace.eat? 0x6e = none := by
          rw [same] at spans
          exact spans.eat?_of_ne other
        have solid : (0x6e : UInt8) ≠ Byte.space := by decide
        simp only [word, matchWord?, show Word.null = 0x6e :: ascii "ull" from rfl, matchPattern?, if_neg solid, eaten,
          Option.bind_none]
      rw [wordOr, Scan.bind_apply, miss]
      exact recognises.complete spells spans ends

end Reader.Recognises

/-! ### Tokens -/

namespace Reader

theorem number_recognises (expected : String) :
    (number expected).Recognises EndsToken fun l w => l.WellFormed ∧ w = l.text where
  opens spells := by
    obtain ⟨form, rfl⟩ := spells
    exact (opens_literal form).opens
  sound read := by
    obtain ⟨spans, form⟩ := NumberLiteral.scan_sound (lexed_eq_ok read)
    exact ⟨_, spans, form, rfl⟩
  complete spells spans ends := by
    obtain ⟨form, rfl⟩ := spells
    rw [number, lexed, NumberLiteral.scan_spans form spans ends]
    rfl

theorem stringBytes_recognises (expected : String) :
    (stringBytes expected).Recognises Anything fun bytes w => Quoted.Denotes w bytes where
  opens spells := by
    obtain ⟨tail, same⟩ := spells.begins
    exact ⟨Byte.quote, tail, same, rfl⟩
  sound read := Quoted.read_eq_ok_iff.1 (lexed_eq_ok read)
  complete spells spans _ := by
    rw [stringBytes, lexed, Quoted.read_of_denotes spells spans]
    rfl

/-- The texts of values that may be passed over. -/
def Passed (w : Bytes) : Prop := ∃ tree : Skeleton, tree.Spells w ∧ tree.depth ≤ maxNesting

theorem passValue_recognises (expected : String) :
    (passValue expected).Recognises EndsToken fun _ w => Passed w where
  opens spells := by
    obtain ⟨tree, spells, _⟩ := spells
    exact spells.opens
  sound {c later a} read := by
    obtain ⟨tree, space, w, spans, blank, spells, shallow, _⟩ := skipValue_eq_ok_iff.1 (lexed_eq_ok read)
    obtain ⟨mid, before, text⟩ := spans.split
    have start : c.skipSpace = mid := before.skipSpace_eq blank fun b head => by
      obtain ⟨x, tail, rfl, opens⟩ := spells.opens
      rw [text.head?] at head
      cases head
      exact Byte.opensValue_not_space opens
    exact ⟨w, by rwa [start], tree, spells, by omega⟩
  complete {c later a w} spells spans ends := by
    obtain ⟨tree, spells, shallow⟩ := spells
    have skipped : skipValue 0 c = .ok () later := by
      have all := (Cursor.skipSpace_spans c).trans spans
      refine skipValue_eq_ok_iff.2 ⟨tree, _, w, all, blank_skipped c, spells, by omega, ?_⟩
      exact munched_iff.2 fun l _ _ => .of_endsToken ends l
    rw [passValue, lexed, skipped]
    rfl

end Reader

/-! ### Containers -/

/-- The text of a list with its opening and its closing byte. -/
def Enclosed (opening close : UInt8) (spelled : α → Bytes → Prop) (as : List α) (w : Bytes) : Prop :=
  ∃ u, w = opening :: u ∧ ListText close spelled as u

/-- The text of a member: a literal that denotes the key, a colon, and the value, with white space between them. -/
def MemberText (spelled : Bytes → β → Bytes → Prop) (member : Bytes × β) (w : Bytes) : Prop :=
  ∃ key behind before u, w = key ++ behind ++ Byte.colon :: (before ++ u) ∧ Quoted.Denotes key member.1 ∧
    Blank behind ∧ Blank before ∧ spelled member.1 member.2 u

namespace Reader

/-- The items of a list are read in the texts they are spelled in. -/
theorem Recognises.enclosed {item : Reader α} {spelled : α → Bytes → Prop}
    (recognises : item.Recognises EndsToken spelled) {opening close : UInt8}
    (opens : Byte.opensValue opening = true) (closes : ClosesList close) (other : Byte.opensValue close = false)
    (expected : String) (reason : Reason) (missing : Cursor → Failure) :
    Recognises Anything
      (do
        expect expected opening reason
        Scan.itemsUpTo close missing item)
      (Enclosed opening close spelled) where
  opens spells := by
    obtain ⟨u, rfl, _⟩ := spells
    exact ⟨opening, u, rfl, opens⟩
  sound {c later as} read := by
    obtain ⟨_, mid, opened, read⟩ := Outcome.bind_eq_ok.1 read
    have run := Items.of_items read
    obtain ⟨u, spans, text⟩ : ∃ u, mid.Spans u later ∧ ListText close spelled as u :=
      run.listText fun a _ c later accepted => by
        obtain ⟨w, spans, spells⟩ := recognises.sound accepted
        rw [Cursor.skipSpace_skipSpace] at spans
        exact ⟨w, spans, spells⟩
    exact ⟨opening :: u, (Cursor.eat?_spans (expect_eq_ok opened)).cons spans, u, rfl, text⟩
  complete {c later as w} spells spans _ := by
    obtain ⟨u, rfl, text⟩ := spells
    obtain ⟨mid, opened, inside⟩ := spans.eat?
    have run : Items close item.Accepts as mid later := text.items closes (fun a _ v _ spells => by
      have begins := recognises.opens spells
      refine ⟨begins.beginsItem other, fun c later spans ends => ?_⟩
      exact recognises.complete spells (by rwa [begins.skipSpace spans]) ends) inside
    have enough : as.length < mid.rest.length + 1 := by
      have count := listText_length text
      have lengths := congrArg List.length inside.1
      rw [List.length_append] at lengths
      omega
    have opening' : expect expected opening reason c = .ok () mid := Scan.expect_eq_ok.2 opened
    rw [Scan.bind_apply, opening', Outcome.bind_ok]
    exact run.items_eq enough

theorem inlineList_recognises (expected : String) {item : Reader α} {spelled : α → Bytes → Prop}
    (recognises : item.Recognises EndsToken spelled) :
    (inlineList expected item).Recognises Anything (Enclosed Byte.openBracket Byte.closeBracket spelled) :=
  recognises.enclosed rfl closesList_bracket rfl expected _ _

variable {value : Bytes → Reader β} {spelled : Bytes → β → Bytes → Prop}

theorem member_recognises (expected : String) (recognises : ∀ key, (value key).Recognises EndsToken (spelled key)) :
    (member expected value).Recognises EndsToken (MemberText spelled) where
  opens spells := by
    obtain ⟨key, behind, before, u, rfl, denotes, _⟩ := spells
    obtain ⟨tail, rfl⟩ := denotes.begins
    exact ⟨Byte.quote, _, rfl, rfl⟩
  sound {c later m} read := by
    obtain ⟨key, afterColon, named, read⟩ := Outcome.bind_eq_ok.1 read
    obtain ⟨_, afterKey, quoted, named⟩ := Outcome.bind_eq_ok.1 named
    obtain ⟨_, _, colon, named⟩ := Outcome.bind_eq_ok.1 named
    cases named
    obtain ⟨v, _, read, same⟩ := Outcome.bind_eq_ok.1 read
    cases same
    obtain ⟨literal, first, denotes⟩ := (stringBytes_recognises expected).sound quoted
    obtain ⟨u, second, spells⟩ := (recognises key).sound read
    refine ⟨_, ?_, literal, _, _, u, rfl, denotes, blank_skipped afterKey, blank_skipped afterColon, spells⟩
    exact (first.trans (Cursor.skipSpace_spans afterKey)).trans
      ((Cursor.eat?_spans (expect_eq_ok colon)).cons ((Cursor.skipSpace_spans afterColon).trans second))
  complete {c later m w} spells spans ends := by
    obtain ⟨literal, behind, before, u, rfl, denotes, blank, blank', spells⟩ := spells
    obtain ⟨beforeColon, front, rest⟩ := spans.split
    obtain ⟨afterKey, quoted, space⟩ := front.split
    obtain ⟨afterColon, colon, rest⟩ := rest.eat?
    obtain ⟨beforeValue, space', inner⟩ := rest.split
    have stop : afterKey.skipSpace = beforeColon := space.skipSpace_eq blank fun b head => by
      obtain ⟨pos, tail, same, _⟩ := Cursor.eat?_eq_some colon
      rw [same] at head
      cases head
      rfl
    have skipped : afterColon.skipSpace = beforeValue := space'.skipSpace_eq blank' fun b head => by
      obtain ⟨x, tail, rfl, opens⟩ := (recognises m.1).opens spells
      rw [inner.head?] at head
      cases head
      exact Byte.opensValue_not_space opens
    have named : memberKey expected c = .ok m.1 afterColon := by
      have key := (stringBytes_recognises expected).complete denotes quoted trivial
      have pointed : expect expected Byte.colon (.malformed .expectedColon) afterKey = .ok () afterColon :=
        Scan.expect_eq_ok.2 (by rw [stop]; exact colon)
      rw [memberKey, Scan.bind_apply, key, Outcome.bind_ok, Scan.bind_apply, pointed]
      rfl
    have read := (recognises m.1).complete spells (by rwa [skipped]) ends
    rw [member, Scan.bind_apply, named, Outcome.bind_ok, Scan.bind_apply, read]
    rfl

theorem object_recognises (expected : String) (recognises : ∀ key, (value key).Recognises EndsToken (spelled key)) :
    (object expected value).Recognises Anything (Enclosed Byte.openBrace Byte.closeBrace (MemberText spelled)) :=
  (member_recognises expected recognises).enclosed rfl closesList_brace rfl expected _ _

end Reader

/-! ### Numbers -/

/-- The texts of a floating-point number: that of any number to which the pattern is nearest, and `null` for the
    pattern that stands for no number. -/
def FloatText (f : FloatFormat) (bits : Nat) (w : Bytes) : Prop :=
  w = Word.null ∧ bits = f.nanBits ∨ ∃ l : NumberLiteral, l.WellFormed ∧ w = l.text ∧ bits = l.floatBits f

theorem readFloat_recognises (f : FloatFormat) (expected : String) :
    (readFloat f expected).Recognises EndsToken (FloatText f) := by
  have literal := (number_recognises expected).map (NumberLiteral.floatBits f)
  refine (literal.nullOr ?_ f.nanBits).congr fun bits w => ?_
  · rintro bits w ⟨l, ⟨form, rfl⟩, _⟩
    exact opens_literal form
  · constructor
    · rintro (null | ⟨l, ⟨form, text⟩, same⟩)
      · exact .inl null
      · exact .inr ⟨l, form, text, same.symm⟩
    · rintro (null | ⟨l, form, text, same⟩)
      · exact .inl null
      · exact .inr ⟨l, ⟨form, text⟩, same.symm⟩

end JsonSidecar
