/-
Module: JsonSidecar.Proofs.Decode.Layout
Purpose: What it means that a reader does not see the layout of a text.  Whatever it accepts is a layout of a document,
  and in every other layout of that document, at any place, it finds the same value.  Tokens are found as they are;
  the forms that readers are put together in carry the property over from their parts.
Main exports: Reader.Finds, Reader.Relayable, Reader.Relayable.recognises, Reader.Plain.relayable
-/
import JsonSidecar.Proofs.Decode.Recognises
import JsonSidecar.Proofs.Lexer.Document

namespace JsonSidecar

open Reader

variable {α β γ : Type}

/-- The reader finds the value in the text, wherever the text stands behind white space. -/
def Reader.Finds (reader : Reader α) (w : Bytes) (a : α) : Prop :=
  ∀ c later : Cursor, c.skipSpace.Spans w later → EndsToken later.rest → reader c = .ok a later

/-- What the reader accepts is a layout of a document of this shape, in all layouts of which it finds the same. -/
def Reader.Relayable (shape : Document → Prop) (reader : Reader α) : Prop :=
  ∀ c a later, reader c = .ok a later →
    ∃ d w, shape d ∧ c.skipSpace.Spans w later ∧ d.Spells w ∧ ∀ w', d.Spells w' → reader.Finds w' a

namespace Reader

variable {shape shape' : Document → Prop} {reader : Reader α} {w : Bytes} {a : α}

/-- The layouts of documents in which a reader finds a value, seen or not. -/
def Lays (shape : Document → Prop) (reader : Reader α) (a : α) (w : Bytes) : Prop :=
  ∃ d : Document, shape d ∧ d.Spells w ∧ ∀ w', d.Spells w' → reader.Finds w' a

namespace Relayable

/-- A reader that does not see the layout reads exactly the layouts. -/
theorem recognises_lays (relayable : reader.Relayable shape) : reader.Recognises EndsToken (Lays shape reader) where
  opens spells := by
    obtain ⟨d, _, spells, _⟩ := spells
    exact spells.opens
  sound read := by
    obtain ⟨d, w, shaped, spans, spells, finds⟩ := relayable _ _ _ read
    exact ⟨w, spans, d, shaped, spells, finds⟩
  complete spells spans ends := by
    obtain ⟨d, _, spells, finds⟩ := spells
    exact finds _ spells _ _ spans ends

/-- A reader that does not see the layout reads exactly the texts in which it finds something, at any place. -/
theorem recognises (relayable : reader.Relayable shape) :
    reader.Recognises EndsToken fun a w => Opens w ∧ reader.Finds w a where
  opens spells := spells.1
  sound read := by
    obtain ⟨d, w, _, spans, spells, finds⟩ := relayable _ _ _ read
    exact ⟨w, spans, spells.opens, finds w spells⟩
  complete spells spans ends := spells.2 _ _ spans ends

theorem weaken (relayable : reader.Relayable shape) (weaker : ∀ d, shape d → shape' d) :
    reader.Relayable shape' := by
  intro c a later read
  obtain ⟨d, w, shaped, rest⟩ := relayable c a later read
  exact ⟨d, w, weaker d shaped, rest⟩

/-- A reader that goes on from what another one read, without moving. -/
theorem through {reader' : Reader β} (relayable : reader.Relayable shape)
    (h : ∀ c b later, reader' c = .ok b later →
      ∃ c' a, c'.skipSpace = c.skipSpace ∧ reader c' = .ok a later ∧ ∀ w, reader.Finds w a → reader'.Finds w b) :
    reader'.Relayable shape := by
  intro c b later read
  obtain ⟨c', a, same, read, finds⟩ := h c b later read
  obtain ⟨d, w, shaped, spans, spells, found⟩ := relayable c' a later read
  exact ⟨d, w, shaped, same ▸ spans, spells, fun w' spells' => finds w' (found w' spells')⟩

end Relayable

/-! ### Checks -/

theorem Finds.map (finds : reader.Finds w a) (f : α → β) : Finds (f <$> reader) w (f a) := by
  intro c later spans ends
  rw [Scan.map_apply, finds c later spans ends]
  rfl

theorem Relayable.map (relayable : reader.Relayable shape) (f : α → β) : Relayable shape (f <$> reader) := by
  refine relayable.through fun c b later read => ?_
  rw [Scan.map_apply] at read
  obtain ⟨a, inner, rfl⟩ := Outcome.map_eq_ok.1 read
  exact ⟨c, a, rfl, inner, fun w finds => finds.map f⟩

theorem Relayable.checked (relayable : reader.Relayable shape) (expected : String) (verdict : α → Except Reason β) :
    Relayable shape (Reader.checked expected reader verdict) := by
  refine relayable.through fun c b later read => ?_
  rw [Recognises.checked_apply] at read
  obtain ⟨a, after, read, passed⟩ := Outcome.bind_eq_ok.1 read
  cases judged : verdict a with
  | error reason =>
      rw [judged] at passed
      cases passed
  | ok b' =>
      rw [judged] at passed
      cases passed
      refine ⟨c.skipSpace, a, Cursor.skipSpace_skipSpace c, read, fun w finds c' later' spans ends => ?_⟩
      rw [Recognises.checked_apply, finds c'.skipSpace later' (by rwa [Cursor.skipSpace_skipSpace]) ends,
        Outcome.bind_ok, judged]

theorem Relayable.judged (relayable : reader.Relayable shape) (expected : String) (verdict : α → Except Reason β) :
    Relayable shape (Reader.judged expected reader verdict) := by
  refine relayable.through fun c b later read => ?_
  obtain ⟨a, after, read, passed⟩ := Outcome.bind_eq_ok.1 read
  dsimp only at passed
  cases judged : verdict a with
  | error reason =>
      rw [judged] at passed
      cases passed
  | ok b' =>
      rw [judged] at passed
      cases passed
      refine ⟨c, a, rfl, read, fun w finds c' later' spans ends => ?_⟩
      rw [Reader.judged, Scan.bind_apply, finds c' later' spans ends, Outcome.bind_ok, judged]
      rfl

/-! ### First bytes -/

theorem word_solid {pattern : Bytes} (mem : pattern ∈ [Word.true, Word.false, Word.null]) : Byte.space ∉ pattern := by
  simp only [List.mem_cons, List.not_mem_nil, or_false] at mem
  rcases mem with rfl | rfl | rfl <;> decide

theorem word_found {pattern : Bytes} (mem : pattern ∈ [Word.true, Word.false, Word.null]) {c later : Cursor}
    (spans : c.skipSpace.Spans pattern later) : word pattern c = .ok true later := by
  simp only [word, matchWord?, matchPattern?_eq_eatAll? (word_solid mem), spans.eatAll?]

/-- Where the text of another value stands, a word is not found. -/
theorem word_missed {pattern : Bytes} (mem : pattern ∈ [Word.true, Word.false, Word.null]) {tree : Skeleton}
    (spells : tree.Spells w) (other : w ≠ pattern) {c later : Cursor} (spans : c.skipSpace.Spans w later) :
    word pattern c = .ok false c := by
  obtain ⟨b, tail, rfl, _⟩ := spells.opens
  have missed : Cursor.eatAll? pattern c.skipSpace = none := by
    refine Option.eq_none_iff_forall_ne_some.2 fun stop eaten => spells.head_ne_word mem other ?_
    have front := Cursor.eatAll?_spans eaten
    obtain ⟨x, tail', rfl, _⟩ := Skeleton.Spells.opens (.word mem)
    exact spans.head?.symm.trans front.head?
  simp only [word, matchWord?, matchPattern?_eq_eatAll? (word_solid mem), missed]

/-- A word, or else a value that is not written as the word. -/
theorem Relayable.wordOr (relayable : reader.Relayable shape) {pattern : Bytes}
    (mem : pattern ∈ [Word.true, Word.false, Word.null]) (found : α) (hit : shape' (.token pattern))
    (miss : ∀ d : Document, shape d → ¬ d.Spells pattern → shape' d) :
    Relayable shape' (Reader.wordOr pattern found reader) := by
  have token : Skeleton.Spells .token pattern := .word mem
  intro c a later read
  obtain ⟨matched, after, met, read⟩ := Outcome.bind_eq_ok.1 read
  cases matched with
  | true =>
      cases read
      refine ⟨.token pattern, pattern, hit, Cursor.eatAll?_spans (word_eq_ok (word_solid mem) met), .token token, ?_⟩
      intro w' spells c' later' spans ends
      rw [Document.Spells.eq_of_token (.token token) token spells] at spans
      rw [Reader.wordOr, Scan.bind_apply, word_found mem spans]
      rfl
  | false =>
      rw [word_eq_false met] at read met
      obtain ⟨d, w, shaped, spans, spells, finds⟩ := relayable c a later read
      have other : ¬ d.Spells pattern := by
        intro same
        rw [same.eq_of_token token spells] at spans
        rw [word_found mem spans] at met
        cases met
      refine ⟨d, w, miss d shaped other, spans, spells, fun w' spells' c' later' spans' ends => ?_⟩
      obtain ⟨tree, value⟩ := spells'.skeleton
      have different : w' ≠ pattern := by
        rintro rfl
        exact other spells'
      rw [Reader.wordOr, Scan.bind_apply, word_missed mem value different spans']
      exact finds w' spells' c' later' spans' ends

theorem Relayable.afterPeek {next : Option UInt8 → Reader α} (relayable : ∀ b, (next b).Relayable shape) :
    Relayable shape (peek >>= next) := by
  intro c a later read
  obtain ⟨b, after, peeked, read⟩ := Outcome.bind_eq_ok.1 read
  cases peeked
  obtain ⟨d, w, shaped, spans, spells, finds⟩ := relayable _ _ _ _ read
  rw [Cursor.skipSpace_skipSpace] at spans
  refine ⟨d, w, shaped, spans, spells, fun w' spells' c' later' spans' ends => ?_⟩
  have same : c'.skipSpace.peek? = c.skipSpace.peek? := by
    have heads := spells.head_eq spells'
    obtain ⟨x, tail, rfl, _⟩ := spells.opens
    obtain ⟨x', tail', rfl, _⟩ := spells'.opens
    exact spans'.head?.trans (heads.symm.trans spans.head?.symm)
  rw [Scan.bind_apply, peek, Outcome.bind_ok, same]
  exact finds w' spells' _ _ (by rwa [Cursor.skipSpace_skipSpace]) ends

/-! ### Tokens -/

theorem fail_relayable (expected : String) (reason : Reason) : Relayable shape (fail expected reason : Reader α) :=
  fun _ _ _ read => absurd read fail_ne_ok

/-- A token has no other layout. -/
theorem Recognises.relayable_of_token {spelled : α → Bytes → Prop} (recognises : reader.Recognises EndsToken spelled)
    (token : ∀ a w, spelled a w → Skeleton.Spells .token w) : Relayable Document.Plain reader := by
  intro c a later read
  obtain ⟨w, spans, spells⟩ := recognises.sound read
  have here := token a w spells
  refine ⟨.token w, w, .token w, spans, .token here, fun w' spells' c' later' spans' ends => ?_⟩
  rw [Document.Spells.eq_of_token (.token here) here spells'] at spans'
  exact recognises.complete spells spans' ends

theorem number_relayable (expected : String) : Relayable Document.Plain (number expected) := by
  refine (number_recognises expected).relayable_of_token ?_
  rintro l w ⟨form, rfl⟩
  exact .number form

theorem stringBytes_relayable (expected : String) : Relayable Document.Plain (stringBytes expected) :=
  (stringBytes_recognises expected).weaken.relayable_of_token fun _ _ denotes => .string denotes.isLiteral

theorem passValue_relayable (expected : String) : Relayable Document.Plain (passValue expected) := by
  have recognises := passValue_recognises expected
  intro c a later read
  obtain ⟨w, spans, tree, spells, shallow⟩ := recognises.sound read
  obtain ⟨d, spells, plain, all⟩ := spells.exists_document
  exact ⟨d, w, plain, spans, spells, fun w' spells' c' later' spans' ends =>
    recognises.complete ⟨tree, all w' spells', shallow⟩ spans' ends⟩

/-- A text that is kept stays as it is. -/
theorem captured_relayable (expected : String) (f : Bytes → α) :
    Relayable (fun d => ∃ w, d = .kept w) (captured expected f) := by
  have recognises := passValue_recognises expected
  have opened (c : Cursor) : captured expected f c
      = (passValue expected c.skipSpace).bind fun _ later => .ok (f (c.skipSpace.span later)) later := rfl
  intro c a later read
  rw [opened] at read
  obtain ⟨_, _, passed, same⟩ := Outcome.bind_eq_ok.1 read
  cases same
  obtain ⟨w, spans, tree, spells, shallow⟩ := recognises.sound passed
  rw [Cursor.skipSpace_skipSpace] at spans
  refine ⟨.kept w, w, ⟨w, rfl⟩, spans, .kept spells, fun w' spells' c' later' spans' ends => ?_⟩
  cases spells' with
  | kept =>
      have passed : passValue expected c'.skipSpace = .ok () later' :=
        recognises.complete ⟨tree, spells, shallow⟩ (by rwa [Cursor.skipSpace_skipSpace]) ends
      rw [opened, passed, Outcome.bind_ok, spans.span_eq, spans'.span_eq]

/-! ### Containers -/

/-- The items of a list may be laid out anew. -/
theorem Relayable.inlineList (relayable : reader.Relayable shape) (expected : String) :
    Relayable (fun d => ∃ items, d = .array items ∧ ∀ item ∈ items, shape item)
      (Reader.inlineList expected reader) := by
  have recognises := inlineList_recognises expected relayable.recognises_lays
  intro c as later read
  obtain ⟨w, spans, u, rfl, text⟩ := recognises.sound read
  obtain ⟨items, layout, all⟩ := text.exists_forall₂ (q := Document.Spells)
    (r := fun a (d : Document) => shape d ∧ ∀ w', d.Spells w' → reader.Finds w' a) fun a _ v _ lays => by
      obtain ⟨d, shaped, spells, finds⟩ := lays
      exact ⟨d, spells, shaped, finds⟩
  refine ⟨.array items, _, ⟨items, rfl, fun item mem => ?_⟩, spans, .array layout, ?_⟩
  · obtain ⟨a, _, shaped, _⟩ := exists_of_forall₂ all mem
    exact shaped
  · intro w' spells' c' later' spans' _
    cases spells' with
    | array layout' =>
        have text' := layout'.of_forall₂ all.flip fun d a v _ related spells =>
          (⟨d, related.1, spells, related.2⟩ : Lays shape reader a v)
        exact recognises.complete ⟨_, rfl, text'⟩ spans' trivial

/-- The members of an object may be laid out anew, each with its key as it is written. -/
theorem Relayable.object {value : Bytes → Reader β} {shape : Bytes → Document → Prop}
    (relayable : ∀ key, (value key).Relayable (shape key)) (expected : String) :
    Relayable
      (fun d => ∃ members, d = .object members ∧ ∀ m ∈ members, ∃ key, Quoted.Denotes m.1 key ∧ shape key m.2)
      (Reader.object expected value) := by
  have recognises := object_recognises expected fun key => (relayable key).recognises_lays
  intro c ms later read
  obtain ⟨w, spans, u, rfl, text⟩ := recognises.sound read
  obtain ⟨members, layout, all⟩ := text.exists_forall₂ (q := Document.SpellsMember)
    (r := fun m d => Quoted.Denotes d.1 m.1 ∧ shape m.1 d.2 ∧ ∀ w', d.2.Spells w' → (value m.1).Finds w' m.2)
    fun m _ v _ member => by
      obtain ⟨literal, behind, before, u, rfl, denotes, blank, blank', d, shaped, spells, finds⟩ := member
      exact ⟨(literal, d), .mk denotes.isLiteral blank blank' spells, denotes, shaped, finds⟩
  refine ⟨.object members, _, ⟨members, rfl, fun d mem => ?_⟩, spans, .object layout, ?_⟩
  · obtain ⟨m, _, denotes, shaped, _⟩ := exists_of_forall₂ all mem
    exact ⟨m.1, denotes, shaped⟩
  · intro w' spells' c' later' spans' _
    cases spells' with
    | @object _ u' layout' =>
        have text' : ListText Byte.closeBrace (MemberText fun key => Lays (shape key) (value key)) ms u' := by
          refine layout'.of_forall₂ all.flip ?_
          rintro d m v _ ⟨denotes, shaped, finds⟩ spells
          cases spells with
          | mk _ blank blank' spells => exact ⟨_, _, _, _, rfl, denotes, blank, blank', _, shaped, spells, finds⟩
        exact recognises.complete ⟨_, rfl, text'⟩ spans' trivial

/-- A value between white space in front of a byte that ends it is read, up to that byte. -/
theorem Finds.between (finds : reader.Finds w a) (opens : Opens w) {before behind rest : Bytes} {x : UInt8}
    (blank : Blank before) (blank' : Blank behind) (visible : Byte.isSpace x = false)
    (endsNumber : Byte.continuesNumber x = false) {c later : Cursor}
    (spans : c.Spans (before ++ w ++ behind ++ x :: rest) later) :
    ∃ after, reader c = .ok a after ∧ after.skipSpace.Spans (x :: rest) later := by
  have begins : BeginsItem Byte.closeBracket w := opens.beginsItem rfl
  have passed (place after : Cursor) (spans : place.Spans w after) (ends : EndsToken after.rest) (c : Cursor)
      (same : c.skipSpace = place) : reader c = .ok a after := finds c after (by rwa [same]) ends
  obtain ⟨_, after, read, rests⟩ := begins.between blank blank' visible endsNumber passed spans
  exact ⟨after, read c rfl, rests⟩

/-- The two values of a pair may be laid out anew. -/
theorem Relayable.twoOf {second : Reader β} {shape' : Document → Prop} (relayable : reader.Relayable shape)
    (relayable' : second.Relayable shape') (expected : String) (f : α → β → γ) :
    Relayable (fun d => ∃ d₁ d₂, d = .pair d₁ d₂ ∧ shape d₁ ∧ shape' d₂) (Reader.twoOf expected f reader second) := by
  intro c v later read
  obtain ⟨_, afterOpening, opening, read⟩ := Outcome.bind_eq_ok.1 read
  obtain ⟨a, afterFirst, first, read⟩ := Outcome.bind_eq_ok.1 read
  obtain ⟨_, afterComma, comma, read⟩ := Outcome.bind_eq_ok.1 read
  obtain ⟨b, afterSecond, second', read⟩ := Outcome.bind_eq_ok.1 read
  obtain ⟨_, afterClosing, closing, read⟩ := Outcome.bind_eq_ok.1 read
  cases read
  obtain ⟨d₁, u₁, shaped₁, spans₁, spells₁, finds₁⟩ := relayable _ _ _ first
  obtain ⟨d₂, u₂, shaped₂, spans₂, spells₂, finds₂⟩ := relayable' _ _ _ second'
  refine ⟨.pair d₁ d₂, _, ⟨d₁, d₂, rfl, shaped₁, shaped₂⟩, ?_, .pair (blank_skipped afterOpening) spells₁
    (blank_skipped afterFirst) (blank_skipped afterComma) spells₂ (blank_skipped afterSecond), ?_⟩
  · have front := ((Cursor.skipSpace_spans afterOpening).trans spans₁).trans (Cursor.skipSpace_spans afterFirst)
    have behind := ((Cursor.skipSpace_spans afterComma).trans spans₂).trans (Cursor.skipSpace_spans afterSecond)
    have tail := (Cursor.eat?_spans (expect_eq_ok comma)).cons
      (behind.trans (Cursor.eat?_spans (expect_eq_ok closing)))
    exact (Cursor.eat?_spans (expect_eq_ok opening)).cons (front.trans tail)
  · intro w' spells' c' later' spans' _
    cases spells' with
    | pair blank spells₁' blank₂ blank' spells₂' blank₂' =>
        obtain ⟨inside, opening', rest⟩ := spans'.eat?
        obtain ⟨afterFirst', first', rest⟩ :=
          (finds₁ _ spells₁').between spells₁'.opens blank blank₂ rfl rfl rest
        obtain ⟨afterComma', comma', rest⟩ := rest.eat?
        obtain ⟨afterSecond', second', rest⟩ :=
          (finds₂ _ spells₂').between spells₂'.opens blank' blank₂' rfl rfl rest
        have steps {b : UInt8} {reason : Reason} {c later : Cursor} (eaten : c.skipSpace.eat? b = some later) :
            expect expected b reason c = .ok () later := Scan.expect_eq_ok.2 eaten
        simp only [Reader.twoOf, Scan.bind_apply, steps opening', Outcome.bind_ok, first', steps comma', second',
          steps rest.eat?_last, Scan.pure_apply]

/-! ### All readers without records -/

/-- What is put together without records, pairs and kept texts does not see the layout. -/
theorem Plain.relayable {reader : Reader α} (plain : Plain reader) : Relayable Document.Plain reader := by
  induction plain with
  | fail expected _ => exact fail_relayable expected _
  | number expected => exact number_relayable expected
  | stringBytes expected => exact stringBytes_relayable expected
  | passValue expected => exact passValue_relayable expected
  | map f _ ih => exact ih.map f
  | wordOr mem found _ ih => exact ih.wordOr mem found (.token _) fun _ plain _ => plain
  | afterPeek _ ih => exact .afterPeek ih
  | checked expected _ _ ih => exact ih.checked expected _
  | judged expected _ _ ih => exact ih.judged expected _
  | inlineList expected _ ih =>
      refine (ih.inlineList expected).weaken ?_
      rintro _ ⟨items, rfl, plain⟩
      exact .array plain
  | object expected _ ih =>
      refine (Relayable.object ih expected).weaken ?_
      rintro _ ⟨members, rfl, plain⟩
      refine .object fun m mem => ?_
      obtain ⟨_, _, plain⟩ := plain m mem
      exact plain

end Reader

end JsonSidecar
