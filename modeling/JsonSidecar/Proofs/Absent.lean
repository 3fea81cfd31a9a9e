/-
Module: JsonSidecar.Proofs.Absent
Purpose: When a kept value is absent, and when its text is read as the absence of a value.  The test trims the form feed
  too, with which the readers stop, and takes a text of nothing but blanks for absent.  On all other texts the test and
  the readers agree, also where the text stands among others in a list.
Main exports: SpellsNull, Captured.isNull_iff, decode_none_iff, Captured.Holds, decode_kept_iff, isNull_iff_decode
-/
import JsonSidecar.Captured
import JsonSidecar.Proofs.Decode.Deferred
import JsonSidecar.Proofs.Decode.Layout
import JsonSidecar.Proofs.RoundTrip
import Mathlib.Data.List.DropRight

namespace JsonSidecar

open Reader

variable {S σ : Type}

/-! ### Texts that are tested -/

/-- The word `null` with white space around it. -/
def SpellsNull (text : Bytes) : Prop :=
  ∃ before behind, Blank before ∧ Blank behind ∧ text = before ++ Word.null ++ behind

namespace Captured

theorem isBlank_iff {b : UInt8} : isBlank b = true ↔ Byte.isSpace b = true ∨ b = 0x0c := by
  simp [isBlank]

/-- What is trimmed off a text, in front and behind. -/
theorem exists_trimmed (text : Bytes) :
    ∃ before behind, (∀ b ∈ before, isBlank b = true) ∧ (∀ b ∈ behind, isBlank b = true) ∧
      text = before ++ trimmed text ++ behind := by
  have front : text = text.takeWhile isBlank ++ text.dropWhile isBlank := List.takeWhile_append_dropWhile.symm
  have back : text.dropWhile isBlank = trimmed text ++ (text.dropWhile isBlank).rtakeWhile isBlank :=
    (List.rdropWhile_append_rtakeWhile ..).symm
  refine ⟨text.takeWhile isBlank, (text.dropWhile isBlank).rtakeWhile isBlank, ?_, ?_, ?_⟩
  · exact fun b mem => List.mem_takeWhile_imp mem
  · exact fun b mem => List.mem_rtakeWhile_imp mem
  · rw [List.append_assoc, ← back, ← front]

theorem trimmed_null {before behind : Bytes} (blank : ∀ b ∈ before, isBlank b = true)
    (blank' : ∀ b ∈ behind, isBlank b = true) : trimmed (before ++ Word.null ++ behind) = Word.null := by
  have front : (before ++ (Word.null ++ behind)).dropWhile isBlank = Word.null ++ behind :=
    List.dropWhile_append_of_pos blank
  have back : (behind.reverse ++ Word.null.reverse).dropWhile isBlank = Word.null.reverse :=
    List.dropWhile_append_of_pos fun b mem => blank' b (List.mem_reverse.1 mem)
  rw [trimmed, List.append_assoc, front, List.reverse_append, back, List.reverse_reverse]

/-- A kept value is absent if its text is made of blanks, perhaps with the word `null` among them. -/
theorem isNull_iff {v : Captured} :
    v.isNull = true ↔ (∀ b ∈ v.text, isBlank b = true) ∨
      ∃ before behind, (∀ b ∈ before, isBlank b = true) ∧ (∀ b ∈ behind, isBlank b = true) ∧
        v.text = before ++ Word.null ++ behind := by
  have test : v.isNull = true ↔ trimmed v.text = [] ∨ trimmed v.text = Word.null := by
    simp [isNull]
  rw [test]
  constructor
  · obtain ⟨before, behind, blank, blank', same⟩ := exists_trimmed v.text
    rintro (nothing | null)
    · left
      rw [nothing, List.append_nil] at same
      rw [same]
      intro b mem
      exact (List.mem_append.1 mem).elim (blank b) (blank' b)
    · rw [null] at same
      exact .inr ⟨before, behind, blank, blank', same⟩
  · rintro (blank | ⟨before, behind, blank, blank', same⟩)
    · left
      rw [trimmed, List.dropWhile_eq_nil_iff.2 blank]
      rfl
    · exact .inr (same ▸ trimmed_null blank blank')

theorem blank_of_isBlank {w : Bytes} (blank : ∀ b ∈ w, isBlank b = true) (plain : 0x0c ∉ w) : Blank w := by
  intro b mem
  rcases isBlank_iff.1 (blank b mem) with space | rfl
  · exact space
  · exact absurd mem plain

end Captured

theorem Blank.isBlank {w : Bytes} (blank : Blank w) : ∀ b ∈ w, Captured.isBlank b = true :=
  fun b mem => Captured.isBlank_iff.2 (.inl (blank b mem))

theorem Blank.not_mem {w : Bytes} (blank : Blank w) {b : UInt8} (visible : Byte.isSpace b = false) : b ∉ w := by
  intro mem
  rw [blank b mem] at visible
  cases visible

/-- The texts in which the word stands alone are those of absent values with something to be read and no form feed. -/
theorem spellsNull_iff {v : Captured} : SpellsNull v.text ↔ v.isNull = true ∧ 0x0c ∉ v.text ∧ ¬ Blank v.text := by
  constructor
  · rintro ⟨before, behind, blank, blank', same⟩
    refine ⟨Captured.isNull_iff.2 (.inr ⟨before, behind, blank.isBlank, blank'.isBlank, same⟩), ?_, ?_⟩
    · have letters : (0x0c : UInt8) ∉ Word.null := by decide
      simp [same, blank.not_mem, blank'.not_mem, letters, Byte.isSpace]
    · intro all
      have letter : (0x6e : UInt8) ∈ v.text := by simp [same, Word.null, ascii]
      exact all.not_mem rfl letter
  · rintro ⟨absent, plain, visible⟩
    rcases Captured.isNull_iff.1 absent with blank | ⟨before, behind, blank, blank', same⟩
    · exact absurd (Captured.blank_of_isBlank blank plain) visible
    · rw [same, List.mem_append, List.mem_append] at plain
      push Not at plain
      exact ⟨before, behind, Captured.blank_of_isBlank blank plain.1.1, Captured.blank_of_isBlank blank' plain.2, same⟩

/-! ### Texts that are read -/

/-- The absence of a value is read where the word stands. -/
theorem readWith_option_none {schema : Schema S} {store : Option BlobView} {record : S → Reader Val} {t : Ty S}
    {c later : Cursor} :
    (Ty.option t).readWith schema store record c = .ok .none later ↔ c.skipSpace.Spans Word.null later := by
  rw [Ty.readWith]
  constructor
  · intro read
    obtain ⟨matched, after, met, read⟩ := Outcome.bind_eq_ok.1 read
    cases matched with
    | true =>
        cases read
        exact Cursor.eatAll?_spans (word_eq_ok (by decide) met)
    | false =>
        obtain ⟨content, _, same⟩ := Outcome.map_eq_ok.1 read
        cases same
  · intro spans
    rw [Scan.bind_apply, word_found (by decide) spans]
    rfl

/-- A text is read as the absence of a value exactly if the word stands alone in it. -/
theorem decode_none_iff {schema : Schema S} {store : Option BlobView} {t : Ty S} {text : Bytes} :
    decode schema store (.option t) text = .ok .none ↔ SpellsNull text := by
  rw [decode_eq_ok_iff]
  simp only [Ty.read, readWith_option_none]
  constructor
  · rintro ⟨stop, spans, blank⟩
    have all := (Cursor.skipSpace_spans (Cursor.start text)).trans spans
    exact ⟨_, stop.rest, blank_skipped (Cursor.start text), blank, all.1⟩
  · rintro ⟨before, behind, blank, blank', rfl⟩
    have spans : (Cursor.start (before ++ Word.null ++ behind)).Spans (before ++ Word.null) ⟨_, behind⟩ := ⟨rfl, rfl⟩
    obtain ⟨mid, space, word⟩ := spans.split
    have start := space.skipSpace_eq blank fun b head => by
      rw [word.head?] at head
      cases head
      rfl
    rw [start]
    exact ⟨_, word, blank'⟩

/-! ### Kept values in a list -/

namespace Captured

/-- A kept value as a value of its type. -/
def val (v : Captured) : Val := .json v.text v.attached

/-- What is written for a kept value. -/
def written (v : Captured) : Bytes := if v.text.isEmpty then Word.null else v.text

/-- The one value that the text of a kept value holds, which is `null` where there is no text. -/
inductive Holds : Captured → Bytes → Prop where
  | empty (attached : Bool) : Holds ⟨[], attached⟩ Word.null
  | value {before raw behind : Bytes} (attached : Bool) : Blank before → IsCompleteValue raw → Blank behind →
      Holds ⟨before ++ raw ++ behind, attached⟩ raw

/-- Whatever is written for a value is a complete value with white space around it. -/
theorem Holds.written {v : Captured} {raw : Bytes} (holds : v.Holds raw) :
    IsCompleteValue raw ∧ ∃ before behind, Blank before ∧ Blank behind ∧ v.written = before ++ raw ++ behind := by
  cases holds with
  | empty attached => exact ⟨isCompleteValue_null, [], [], by simp [Blank], by simp [Blank], rfl⟩
  | @value before raw behind attached blank complete blank' =>
      refine ⟨complete, before, behind, blank, blank', if_neg ?_⟩
      obtain ⟨tree, spells⟩ := complete.spells
      obtain ⟨b, tail, rfl, _⟩ := spells.opens
      simp

/-- An absent value holds `null` if there is no text or the word stands alone in it. -/
theorem holds_null {v : Captured} (fit : v.text = [] ∨ SpellsNull v.text) : v.Holds Word.null := by
  obtain ⟨text, attached⟩ := v
  rcases fit with rfl | ⟨before, behind, blank, blank', rfl⟩
  · exact .empty attached
  · exact .value attached blank isCompleteValue_null blank'

end Captured

/-- Text is appended by a session without regard to the store, and nothing fails. -/
theorem EncodeSession.pushSegments_texts [BlobStore σ] (s : EncodeSession σ) {segments : List Segment}
    (texts : ∀ segment ∈ segments, ∃ bytes, segment = .text bytes) (placed : StoredArray → Nat → Prop) :
    ∃ w, s.pushSegments segments = s.push w ∧ Written placed segments w := by
  induction segments generalizing s with
  | nil => exact ⟨[], by simp [pushSegments, push], .nil⟩
  | cons segment rest ih =>
      obtain ⟨bytes, rfl⟩ := texts segment List.mem_cons_self
      obtain ⟨w, same, written⟩ := ih (s.push bytes) fun segment mem => texts segment (List.mem_cons_of_mem _ mem)
      refine ⟨bytes ++ w, ?_, .text written⟩
      rw [pushSegments_cons, pushSegment, same]
      simp [push]

theorem segments_enclosed_texts {opening closing : UInt8} {ws : List Bytes} :
    ∀ segment ∈ enclosed opening closing (ws.map fun w => [Segment.text w]), ∃ bytes, segment = .text bytes := by
  have inside : ∀ segment ∈ separatedSegments (ws.map fun w => [Segment.text w]), ∃ bytes, segment = .text bytes := by
    induction ws with
    | nil => simp [separatedSegments]
    | cons w rest ih =>
        cases rest with
        | nil => simp [separatedSegments]
        | cons next rest => simpa [separatedSegments] using ih
  intro segment mem
  simp only [enclosed, List.mem_cons, List.mem_append, List.not_mem_nil, or_false] at mem
  rcases mem with rfl | mem | rfl
  · exact ⟨_, rfl⟩
  · exact inside segment mem
  · exact ⟨_, rfl⟩

/-- A list of kept values is written as their texts in brackets, whatever the store. -/
theorem encode_kept [BlobStore σ] (schema : Schema S) (sink : Option σ) (threshold : Nat) (values : List Captured) :
    (encode schema sink threshold (.list .json) (.list (values.map Captured.val))).1
      = .ok (Byte.openBracket :: (separated (values.map Captured.written) ++ [Byte.closeBracket])) := by
  have segments : Val.segments schema (EncodeSession.start sink threshold).placement (.list .json)
      (.list (values.map Captured.val)) = enclosed Byte.openBracket Byte.closeBracket
        ((values.map Captured.written).map fun w => [Segment.text w]) := by
    rw [Val.segments_list rfl, List.map_map, List.map_map]
    rfl
  obtain ⟨w, pushed, written⟩ := (EncodeSession.start sink threshold).pushSegments_texts segments_enclosed_texts
    (fun _ _ => False)
  obtain ⟨ws, all, rfl⟩ := written.enclosed_map
  have same : values.map Captured.written = ws := eq_of_forall₂ all fun a _ b _ written => written.text_eq.symm
  rw [encode, EncodeSession.write, segments, pushed, same]
  rfl

/-! ### Reading the list -/

variable {schema : Schema S} {store : Option BlobView}

/-- A value that is kept is the text up to where it ends. -/
theorem readJson_eq_ok {c later : Cursor} {v : Val} (read : readJson store c = .ok v later) :
    ∃ raw, c.skipSpace.Spans raw later ∧ v = .json raw store.isSome := by
  simp only [readJson, Scan.bind_apply, Scan.skipSpace_apply, Scan.here_apply, Outcome.bind_ok] at read
  obtain ⟨_, after, passed, same⟩ := Outcome.bind_eq_ok.1 read
  obtain ⟨raw, spans, _⟩ := (passValue_recognises Ty.jsonName).sound passed
  rw [Cursor.skipSpace_skipSpace] at spans
  cases same
  exact ⟨raw, spans, by rw [spans.span_eq]⟩

namespace Captured.Holds

variable {v : Captured} {raw rest : Bytes} {c later stop : Cursor} {as : List Val}

/-- Between separators a kept value is one item of the list. -/
theorem between (store : Option BlobView) (holds : v.Holds raw) {x : UInt8} (visible : Byte.isSpace x = false)
    (endsNumber : Byte.continuesNumber x = false) (spans : c.Spans (v.written ++ x :: rest) later) :
    c.skipSpace.eat? Byte.closeBracket = none ∧
      ∃ after, (readJson store).Accepts (.json raw store.isSome) c.skipSpace after ∧
        after.skipSpace.Spans (x :: rest) later := by
  obtain ⟨complete, before, behind, blank, blank', same⟩ := holds.written
  obtain ⟨tree, spells⟩ := complete.spells
  rw [same] at spans
  exact (spells.opens.beginsItem rfl).between blank blank' visible endsNumber (readJson_reads store complete) spans

/-- In front of a comma a run over a list is one behind the comma, with the kept value in front. -/
theorem exists_next (store : Option BlobView) (holds : v.Holds raw)
    (spans : c.Spans (v.written ++ Byte.comma :: rest) later) :
    ∃ next : Cursor, next.Spans rest later ∧ ∀ as stop,
      Items Byte.closeBracket (readJson store).Accepts as c stop ↔
        ∃ as', as = .json raw store.isSome :: as' ∧ Items Byte.closeBracket (readJson store).Accepts as' next stop := by
  obtain ⟨isOpen, after, first, behind⟩ := holds.between store rfl rfl spans
  obtain ⟨next, comma, tail⟩ := behind.eat?
  refine ⟨next, tail, fun as stop => ⟨fun run => ?_, ?_⟩⟩
  · cases run with
    | done closed =>
        rw [isOpen] at closed
        cases closed
    | last _ first' noComma _ =>
        cases first.symm.trans first'
        rw [comma] at noComma
        cases noComma
    | more _ first' comma' others =>
        cases first.symm.trans first'
        cases comma.symm.trans comma'
        exact ⟨_, rfl, others⟩
  · rintro ⟨as', rfl, others⟩
    exact .more isOpen first comma others

end Captured.Holds

/-- What is written for kept values is passed as a list of what they hold. -/
theorem items_of_holds {values : List Captured} {raws : List Bytes} (all : List.Forall₂ Captured.Holds values raws)
    {c later : Cursor} (spans : c.Spans (separated (values.map Captured.written) ++ [Byte.closeBracket]) later) :
    Items Byte.closeBracket (readJson store).Accepts (raws.map fun raw => .json raw store.isSome) c later := by
  induction all generalizing c with
  | nil =>
      have start : c.skipSpace = c := spans.skipSpace_self rfl
      exact .done (by rw [start]; exact spans.eat?_last)
  | @cons v raw values raws holds all ih =>
      cases all with
      | nil =>
          obtain ⟨isOpen, after, first, behind⟩ := holds.between store rfl rfl spans
          exact .last isOpen first (behind.eat?_of_ne (by decide)) behind.eat?_last
      | cons holds' all =>
          simp only [List.map_cons, separated, List.append_assoc, List.cons_append] at spans
          obtain ⟨next, tail, runs⟩ := holds.exists_next store spans
          exact (runs _ _).2 ⟨_, rfl, ih tail⟩

/-- The bytes that stand between the items of a list and behind the last. -/
def separates (b : UInt8) : Bool := b == Byte.comma || b == Byte.closeBracket

theorem eq_of_separates {w w' rest rest' : Bytes} {x y : UInt8} (same : w ++ x :: rest = w' ++ y :: rest')
    (inside : ∀ b ∈ w, separates b = false) (inside' : ∀ b ∈ w', separates b = false) (ends : separates x = true)
    (ends' : separates y = true) : w = w' := by
  have upTo : ∀ {w rest : Bytes} {x : UInt8}, (∀ b ∈ w, separates b = false) → separates x = true →
      (w ++ x :: rest).takeWhile (fun b => !separates b) = w := by
    intro w rest x inside ends
    rw [List.takeWhile_append_of_pos fun b mem => by simp [inside b mem], List.takeWhile_cons_of_neg (by simp [ends]),
      List.append_nil]
  rw [← upTo inside ends, same, upTo inside' ends']

theorem separates_of_isBlank {b : UInt8} (blank : Captured.isBlank b = true) : separates b = false := by
  rcases Captured.isBlank_iff.1 blank with space | rfl
  · simp only [Byte.isSpace, Bool.or_eq_true, beq_iff_eq] at space
    rcases space with ((rfl | rfl) | rfl) | rfl <;> rfl
  · rfl

theorem not_separates_null {before behind : Bytes} (blank : ∀ b ∈ before, Captured.isBlank b = true)
    (blank' : ∀ b ∈ behind, Captured.isBlank b = true) :
    ∀ b ∈ before ++ Word.null ++ behind, separates b = false := by
  have word : (Word.null.all fun b => !separates b) = true := by decide
  have letters : ∀ b ∈ Word.null, separates b = false := by simpa using word
  intro b mem
  rcases List.mem_append.1 mem with mem | mem
  · exact (List.mem_append.1 mem).elim (fun mem => separates_of_isBlank (blank b mem)) (letters b)
  · exact separates_of_isBlank (blank' b mem)

/-- No separator stands in the text of an absent value. -/
theorem Captured.not_separates {v : Captured} (absent : v.isNull = true) : ∀ b ∈ v.text, separates b = false := by
  rcases isNull_iff.1 absent with blank | ⟨before, behind, blank, blank', same⟩
  · exact fun b mem => separates_of_isBlank (blank b mem)
  · exact same ▸ not_separates_null blank blank'

/-- An absent value in front of a separator is an item `null` only if the word stands alone in its text. -/
theorem spellsNull_of_items {v : Captured} (absent : v.isNull = true) {x : UInt8} (ends : separates x = true)
    {rest : Bytes} {c later stop : Cursor} (spans : c.Spans (v.text ++ x :: rest) later) {others : List Val}
    (run : Items Byte.closeBracket (readJson store).Accepts (.json Word.null store.isSome :: others) c stop) :
    SpellsNull v.text := by
  obtain ⟨after, y, next, first, ends', separator⟩ :
      ∃ after y next, (readJson store).Accepts (.json Word.null store.isSome) c.skipSpace after ∧
        separates y = true ∧ after.skipSpace.eat? y = some next := by
    cases run with
    | last _ first _ closed => exact ⟨_, _, _, first, rfl, closed⟩
    | more _ first comma _ => exact ⟨_, _, _, first, rfl, comma⟩
  obtain ⟨raw, word, same⟩ := readJson_eq_ok first
  cases same
  rw [Cursor.skipSpace_skipSpace] at word
  have front := ((Cursor.skipSpace_spans c).trans word).trans (Cursor.skipSpace_spans after)
  have blank := blank_skipped c
  have blank' := blank_skipped after
  have bytes : v.text ++ x :: (rest ++ later.rest)
      = c.rest.takeWhile Byte.isSpace ++ Word.null ++ after.rest.takeWhile Byte.isSpace ++ y :: next.rest := by
    have read : c.rest = _ := (front.trans (Cursor.eat?_spans separator)).1
    have whole : c.rest = v.text ++ x :: rest ++ later.rest := spans.1
    rw [← List.cons_append, ← List.append_assoc, ← whole]
    simpa using read
  have same := eq_of_separates bytes (Captured.not_separates absent)
    (not_separates_null blank.isBlank blank'.isBlank) ends ends'
  exact ⟨_, _, blank, blank', same⟩

/-- Where an absent value comes back as `null` from its place in a list, it had no text or the word stands alone in
    it. -/
theorem fit_of_items {before after : List Captured} {befores : List Bytes}
    (all : List.Forall₂ Captured.Holds before befores) {v : Captured} (absent : v.isNull = true) {c later stop : Cursor}
    (spans : c.Spans (separated ((before ++ v :: after).map Captured.written) ++ [Byte.closeBracket]) later)
    {others : List Val}
    (run : Items Byte.closeBracket (readJson store).Accepts
      (befores.map (fun raw => .json raw store.isSome) ++ .json Word.null store.isSome :: others) c stop) :
    v.text = [] ∨ SpellsNull v.text := by
  induction all generalizing c with
  | nil =>
      by_cases nothing : v.text = []
      · exact .inl nothing
      · have shown : v.written = v.text := if_neg (by simpa using nothing)
        right
        cases after with
        | nil =>
            rw [List.nil_append, List.map_singleton, shown] at spans
            exact spellsNull_of_items absent (x := Byte.closeBracket) rfl spans run
        | cons u after =>
            simp only [List.nil_append, List.map_cons, separated, List.append_assoc, List.cons_append, shown] at spans
            exact spellsNull_of_items absent (x := Byte.comma) rfl spans run
  | @cons u raw before befores holds _ ih =>
      obtain ⟨w, ws, tail⟩ : ∃ w ws, (before ++ v :: after).map Captured.written = w :: ws := by
        cases before <;> exact ⟨_, _, rfl⟩
      simp only [List.cons_append, List.map_cons, tail, separated, List.append_assoc] at spans
      obtain ⟨next, spans', runs⟩ := holds.exists_next store spans
      obtain ⟨as, same, others⟩ := (runs _ _).1 run
      cases same
      exact ih (tail ▸ spans') others

theorem readJson_onward (v : Val) (c later : Cursor) (accepted : (readJson store).Accepts v c later) :
    later.rest.length ≤ c.rest.length := by
  obtain ⟨raw, spans, _⟩ := readJson_eq_ok accepted
  have lengths := congrArg List.length ((Cursor.skipSpace_spans c).trans spans).1
  rw [List.length_append] at lengths
  omega

/-- A list of kept values is decoded where a run over its items leaves nothing but white space. -/
theorem decode_kept_iff {w : Bytes} {as : List Val} :
    decode schema store (.list .json) (Byte.openBracket :: w) = .ok (.list as) ↔
      ∃ stop, Items Byte.closeBracket (readJson store).Accepts as ⟨1, w⟩ stop ∧ Blank stop.rest := by
  rw [decode_eq_ok_iff]
  refine exists_congr fun stop => and_congr_left' ?_
  have expected : expect (Ty.name schema (.list .json)) Byte.openBracket .expectedBracket
      (Cursor.start (Byte.openBracket :: w)) = .ok () ⟨1, w⟩ := Scan.expect_eq_ok.2 rfl
  rw [Ty.read, Val.readWith_list rfl, Scan.map_apply, inlineList, Scan.bind_apply, expected, Outcome.bind_ok,
    Ty.readWith]
  constructor
  · intro read
    obtain ⟨as', read, same⟩ := Outcome.map_eq_ok.1 read
    cases same
    exact .of_items read
  · intro run
    refine Outcome.map_eq_ok.2 ⟨as, run.items_eq ?_, rfl⟩
    have count := run.length_le readJson_onward
    simp at count ⊢
    omega

/-- The test for an absent value agrees with the readers except on two kinds of texts.  A text is read as the absence of
    a value, whatever the value would be, exactly if the test says so and the text has no form feed and is not made of
    white space alone.  An absent value in a list comes back as `null` from its place, with all its neighbours as they
    were, exactly if its text is of that kind or empty. -/
theorem isNull_iff_decode [BlobStore σ] (schema : Schema S) (store : Option BlobView) (v : Captured) :
    (∀ t : Ty S, decode schema store (.option t) v.text = .ok .none ↔
      v.isNull = true ∧ 0x0c ∉ v.text ∧ ¬ Blank v.text) ∧
    ∀ (before after : List Captured) (befores afters : List Bytes), v.isNull = true →
      List.Forall₂ Captured.Holds before befores → List.Forall₂ Captured.Holds after afters →
      ∀ (sink : Option σ) (threshold : Nat), ∃ text,
        (encode schema sink threshold (.list .json) (.list ((before ++ v :: after).map Captured.val))).1 = .ok text ∧
        (decode schema store (.list .json) text
            = .ok (.list ((befores ++ Word.null :: afters).map fun raw => .json raw store.isSome)) ↔
          v.text = [] ∨ 0x0c ∉ v.text ∧ ¬ Blank v.text) := by
  refine ⟨fun t => decode_none_iff.trans spellsNull_iff, ?_⟩
  intro before after befores afters absent all all' sink threshold
  refine ⟨_, encode_kept schema sink threshold _, ?_⟩
  have fits : v.text = [] ∨ 0x0c ∉ v.text ∧ ¬ Blank v.text ↔ v.text = [] ∨ SpellsNull v.text := by
    rw [spellsNull_iff]
    simp [absent]
  have spans : ∀ w : Bytes, Cursor.Spans ⟨1, w⟩ w ⟨1 + w.length, []⟩ := fun w => ⟨(List.append_nil w).symm, rfl⟩
  rw [decode_kept_iff, fits]
  constructor
  · rintro ⟨stop, run, _⟩
    rw [List.map_append, List.map_cons] at run
    exact fit_of_items all absent (spans _) run
  · intro fit
    have holds := List.rel_append all (List.Forall₂.cons (Captured.holds_null fit) all')
    exact ⟨_, items_of_holds holds (spans _), by simp [Blank]⟩

/-- The word with white space around it, kept between a number and a list. -/
theorem isNull_iff_decode_between_values :
    let schema : Schema Empty := nofun
    let v : Captured := ⟨ascii " null\n", true⟩
    let values : List Captured := [⟨ascii "1", false⟩, v, ⟨ascii "[2]", false⟩]
    decode schema none (.option .string) v.text = .ok .none ∧
      ∃ text,
        (encode schema (none : Option Collection) 0 (.list .json) (.list (values.map Captured.val))).1 = .ok text ∧
        decode schema none (.list .json) text
          = .ok (.list [.json (ascii "1") false, .json Word.null false, .json (ascii "[2]") false]) := by
  intro schema v values
  have absent : v.isNull = true := by decide
  have fit : 0x0c ∉ v.text ∧ ¬ Blank v.text := ⟨by decide, fun blank => absurd (blank 0x6e (by decide)) (by decide)⟩
  have holds : ∀ raw : Bytes, IsCompleteValue raw → Captured.Holds ⟨raw, false⟩ raw := by
    intro raw complete
    have nothing : Blank [] := List.forall_mem_nil _
    have alone := Captured.Holds.value false nothing complete nothing
    rwa [List.nil_append, List.append_nil] at alone
  have one : IsCompleteValue (ascii "1") := ⟨rfl, fun b head => by cases head; rfl⟩
  have list : IsCompleteValue (ascii "[2]") := ⟨rfl, fun b head => by cases head; rfl⟩
  obtain ⟨read, kept⟩ := @isNull_iff_decode Empty Collection _ schema none v
  obtain ⟨text, wrote, back⟩ :=
    kept [_] [_] [_] [_] absent (.cons (holds _ one) .nil) (.cons (holds _ list) .nil) none 0
  exact ⟨(read .string).2 ⟨absent, fit⟩, text, wrote, back.2 (.inr fit)⟩

/-- A space alone is absent for the test.  It is not read as the absence of a number, and between two numbers it spoils
    the list. -/
theorem isNull_space_not_decoded :
    let schema : Schema Empty := nofun
    let v : Captured := ⟨ascii " ", false⟩
    let values : List Captured := [⟨ascii "1", false⟩, v, ⟨ascii "2", false⟩]
    v.text ≠ [] ∧ v.isNull = true ∧
      (decode schema none (.option (.scalar (.int ⟨false, .w8⟩))) v.text).isOk = false ∧
      (encode schema (none : Option Collection) 0 (.list .json) (.list (values.map Captured.val))).1
        = .ok (ascii "[1, ,2]") ∧
      (decode schema none (.list .json) (ascii "[1, ,2]")).isOk = false := by
  intro schema v values
  exact ⟨by decide, by decide, by decide +kernel, encode_kept schema none 0 values, by decide +kernel⟩

end JsonSidecar
