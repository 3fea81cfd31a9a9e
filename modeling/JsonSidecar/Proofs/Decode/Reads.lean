/-
Module: JsonSidecar.Proofs.Decode.Reads
Purpose: What it means that a reader reads back a text.  The text may stand anywhere, as long as no number goes on
  behind it, and the reader stops where it ends; readers that read back the parts of a container read back
  the container.
Main exports: Reader.Reads, Reader.Reads.list, Reader.Reads.object, OpensPresent
-/
import JsonSidecar.Proofs.Decode.Skippable
import JsonSidecar.Proofs.Lexer.Grammar
import JsonSidecar.Text.Compose
import Mathlib.Data.List.Forall2

namespace JsonSidecar

variable {α β : Type}

/-- The reader reads the text `w` as `a`, wherever the text stands. -/
def Reader.Reads (reader : Reader α) (w : Bytes) (a : α) : Prop :=
  ∀ c later : Cursor, c.Spans w later → EndsToken later.rest → reader c = .ok a later

/-- The text begins as a value does that is not `null`. -/
def OpensPresent (w : Bytes) : Prop := ∃ b tail, w = b :: tail ∧ Byte.opensValue b = true ∧ b ≠ 0x6e

theorem OpensPresent.opens {w : Bytes} (present : OpensPresent w) : Opens w := by
  obtain ⟨b, tail, same, opens, _⟩ := present
  exact ⟨b, tail, same, opens⟩

theorem OpensPresent.ne_null {w : Bytes} (present : OpensPresent w) : w ≠ Word.null := by
  rintro rfl
  obtain ⟨b, tail, same, _, other⟩ := present
  cases same
  exact other rfl

theorem opens_null : Opens Word.null := ⟨0x6e, ascii "ull", rfl, rfl⟩

theorem Opens.skipSpace {w : Bytes} (opens : Opens w) {c later : Cursor} (spans : c.Spans w later) :
    c.skipSpace = c := by
  obtain ⟨b, tail, rfl, opens⟩ := opens
  exact spans.skipSpace_self (Byte.opensValue_not_space opens)

namespace Reader

/-! ### Steps -/

namespace Reads

variable {reader : Reader α} {w : Bytes} {a : α}

theorem map (reads : reader.Reads w a) (f : α → β) : Reads (f <$> reader) w (f a) := by
  intro c later spans ends
  rw [Scan.map_apply, reads c later spans ends]
  rfl

/-- Going on without moving. -/
theorem andThen (reads : reader.Reads w a) {next : α → Reader β} {b : β} (still : ∀ c, next a c = .ok b c) :
    Reads (reader >>= next) w b := by
  intro c later spans ends
  rw [Scan.bind_apply, reads c later spans ends]
  exact still later

/-- Passing over white space, of which there is none. -/
theorem afterSpace {next : Unit → Cursor → Reader α} (opens : Opens w)
    (reads : ∀ start, Reads (next () start) w a) :
    Reads (do
      let u ← Scan.skipSpace
      let start ← Scan.here
      next u start) w a := by
  intro c later spans ends
  have same : c.skipSpace = c := opens.skipSpace spans
  simp only [Scan.bind_apply, Scan.skipSpace_apply, Scan.here_apply, Outcome.bind_ok, same]
  exact reads c c later spans ends

/-- Looking at the first byte. -/
theorem afterPeek {b : UInt8} {next : Option UInt8 → Reader α} (visible : Byte.isSpace b = false)
    (reads : Reads (next (some b)) (b :: w) a) : Reads (peek >>= next) (b :: w) a := by
  intro c later spans ends
  have same : c.skipSpace = c := spans.skipSpace_self visible
  have first : c.peek? = some b := spans.head?
  simp only [Scan.bind_apply, peek, Outcome.bind_ok, same, first]
  exact reads c later spans ends

theorem afterHere {next : Cursor → Reader α} (reads : ∀ start, Reads (next start) w a) :
    Reads (Scan.here >>= next) w a := by
  intro c later spans ends
  exact reads c c later spans ends

end Reads

/-! ### Words and tokens -/

/-- A word in front of the cursor is found. -/
theorem word_hit {pattern : Bytes} (solid : Byte.space ∉ pattern) (opens : Opens pattern) {c later : Cursor}
    (spans : c.Spans pattern later) : word pattern c = .ok true later := by
  have same : c.skipSpace = c := opens.skipSpace spans
  simp only [word, matchWord?, same, matchPattern?_eq_eatAll? solid, spans.eatAll?]

/-- A text with another first byte is not the word. -/
theorem word_miss {x b : UInt8} {pattern w : Bytes} (solid : x ≠ Byte.space) (visible : Byte.isSpace b = false)
    (other : b ≠ x) {c later : Cursor} (spans : c.Spans (b :: w) later) :
    word (x :: pattern) c = .ok false c := by
  have same : c.skipSpace = c := spans.skipSpace_self visible
  have eaten : c.eat? x = none := spans.eat?_of_ne other
  simp [word, matchWord?, matchPattern?, same, solid, eaten]

theorem Reads.wordHit (pattern : Bytes) (solid : Byte.space ∉ pattern) (opens : Opens pattern) {found : α}
    {other : Reader α} :
    Reads (do
      let matched ← word pattern
      if matched then return found
      other) pattern found := by
  intro c later spans ends
  rw [Scan.bind_apply, word_hit solid opens spans]
  rfl

theorem Reads.wordMiss (pattern : Bytes) {x b : UInt8} {w : Bytes} (solid : x ≠ Byte.space)
    (visible : Byte.isSpace b = false) (different : b ≠ x) {found a : α} {other : Reader α}
    (reads : other.Reads (b :: w) a) :
    Reads (do
      let matched ← word (x :: pattern)
      if matched then return found
      other) (b :: w) a := by
  intro c later spans ends
  rw [Scan.bind_apply, word_miss solid visible different spans]
  exact reads c later spans ends

/-- A text that is not `null` is left to the reader behind the test for it. -/
theorem Reads.present {w : Bytes} (present : OpensPresent w) {found a : α} {other : Reader α}
    (reads : other.Reads w a) :
    Reads (do
      let matched ← word Word.null
      if matched then return found
      other) w a := by
  obtain ⟨b, tail, rfl, opens, different⟩ := present
  exact wordMiss (ascii "ull") (by decide) (Byte.opensValue_not_space opens) different reads

theorem opens_literal {l : NumberLiteral} (form : l.WellFormed) : OpensPresent l.text := by
  obtain ⟨b, tail, same, begins⟩ := Skeleton.number_begins form
  exact ⟨b, tail, same, by simp [Byte.opensValue, begins], Skeleton.beginsNumber_ne begins rfl⟩

theorem number_reads (expected : String) {l : NumberLiteral} (form : l.WellFormed) :
    (number expected).Reads l.text l := by
  intro c later spans ends
  rw [number, lexed, (opens_literal form).opens.skipSpace spans, NumberLiteral.scan_spans form spans ends]
  rfl

theorem opens_quoted (bytes : Bytes) : OpensPresent (Quoted.encode bytes) :=
  ⟨Byte.quote, _, Quoted.encode_eq bytes, rfl, by decide⟩

theorem stringBytes_reads (expected : String) (bytes : Bytes) :
    (stringBytes expected).Reads (Quoted.encode bytes) bytes := by
  intro c later spans _
  rw [stringBytes, (opens_quoted bytes).opens.skipSpace spans, lexed]
  obtain ⟨start, stop⟩ := spans.places
  rw [start, stop, Quoted.read_encode]
  rfl

/-- A byte that must stand here. -/
theorem expect_spans {b : UInt8} (expected : String) (reason : Reason) (visible : Byte.isSpace b = false)
    {w : Bytes} {c later : Cursor} (spans : c.Spans (b :: w) later) :
    ∃ mid, expect expected b reason c = .ok () mid ∧ mid.Spans w later := by
  obtain ⟨mid, eaten, rest⟩ := spans.eat?
  refine ⟨mid, Scan.expect_eq_ok.2 ?_, rest⟩
  rw [spans.skipSpace_self visible]
  exact eaten

/-! ### Containers -/

/-- Items with commas between them make the text of a list. -/
theorem listText_separated (close : UInt8) {spelled : α → Bytes → Prop} {as : List α} {ws : List Bytes}
    (all : List.Forall₂ spelled as ws) : ListText close spelled as (separated ws ++ [close]) := by
  have blank : Blank [] := by simp [Blank]
  induction all with
  | nil => exact .done blank
  | @cons a w as ws first rest ih =>
      cases rest with
      | nil =>
          have text : ListText close spelled [a] _ := .last blank first blank
          simpa [separated] using text
      | cons second rest =>
          have text := ListText.more blank first blank ih
          simpa [separated] using text

theorem listText_length {close : UInt8} {spelled : α → Bytes → Prop} {as : List α} {w : Bytes}
    (text : ListText close spelled as w) : as.length ≤ w.length := by
  induction text with
  | done => simp
  | last =>
      simp
      omega
  | more _ _ _ _ ih =>
      simp
      omega

/-- The items of a list are read back one by one. -/
theorem Reads.items {close : UInt8} (closes : ClosesList close) {missing : Cursor → Failure} {item : Reader α}
    {as : List α} {ws : List Bytes}
    (all : List.Forall₂ (fun a w => item.Reads w a ∧ BeginsItem close w) as ws) :
    Reads (Scan.itemsUpTo close missing item) (separated ws ++ [close]) as := by
  intro c later spans _
  have text := listText_separated close all
  have run : Items close item.Accepts as c later := by
    refine text.items closes ?_ spans
    rintro a _ u _ ⟨reads, begins⟩
    exact ⟨begins, fun c later spans ends => reads c later spans ends⟩
  have count := listText_length text
  have length := congrArg List.length spans.1
  rw [List.length_append] at length
  exact run.items_eq (by omega)

/-- A list is read back if its items are. -/
theorem Reads.list (expected : String) {item : Reader α} {as : List α} {ws : List Bytes}
    (all : List.Forall₂ (fun a w => item.Reads w a ∧ Opens w) as ws) :
    (inlineList expected item).Reads (arrayText ws) as := by
  intro c later spans ends
  obtain ⟨mid, opening, rest⟩ := expect_spans expected .expectedBracket rfl spans
  rw [inlineList, Scan.bind_apply, opening]
  refine Reads.items closesList_bracket (all.imp ?_) mid later rest ends
  rintro a w ⟨reads, opens⟩
  exact ⟨reads, opens.beginsItem rfl⟩

/-- A member is read back if its value is. -/
theorem Reads.member (expected : String) {value : Bytes → Reader β} {key w : Bytes} {b : β}
    (reads : (value key).Reads w b) :
    (member expected value).Reads (Quoted.encode key ++ Byte.colon :: w) (key, b) := by
  intro c later spans ends
  obtain ⟨beforeColon, quoted, rest⟩ := spans.split
  obtain ⟨mid, colon, content⟩ :=
    expect_spans expected (.malformed .expectedColon) rfl rest
  have named : memberKey expected c = .ok key mid := by
    have string := stringBytes_reads expected key c beforeColon quoted (by rw [rest.1]; exact .cons rfl _)
    rw [memberKey, Scan.bind_apply, string, Outcome.bind_ok, Scan.bind_apply, colon]
    rfl
  rw [Reader.member, Scan.bind_apply, named, Outcome.bind_ok, Scan.bind_apply, reads mid later content ends]
  rfl

/-- An object is read back if its members are. -/
theorem Reads.object (expected : String) {value : Bytes → Reader β} {members : List (Bytes × β)} {ws : List Bytes}
    (all : List.Forall₂ (fun m w => ∃ u, (value m.1).Reads u m.2 ∧ w = Quoted.encode m.1 ++ Byte.colon :: u)
      members ws) :
    (object expected value).Reads (Byte.openBrace :: (separated ws ++ [Byte.closeBrace])) members := by
  intro c later spans ends
  obtain ⟨mid, opening, rest⟩ := expect_spans expected .expectedBrace rfl spans
  rw [Reader.object, Scan.bind_apply, opening]
  refine Reads.items closesList_brace (all.imp ?_) mid later rest ends
  rintro ⟨key, b⟩ w ⟨u, reads, rfl⟩
  exact ⟨.member expected reads, Byte.quote, _, by rw [Quoted.encode_eq, List.cons_append], rfl, by decide⟩

/-- An object whose keys need no escapes. -/
theorem Reads.objectText (expected : String) {value : Bytes → Reader β} {members : List (Bytes × β)}
    {texts : List (Bytes × Bytes)}
    (all : List.Forall₂ (fun m t => m.1 = t.1 ∧ (∀ b ∈ t.1, Quoted.encodeByte b = [b]) ∧ (value t.1).Reads t.2 m.2)
      members texts) :
    (Reader.object expected value).Reads (JsonSidecar.objectText texts) members := by
  apply Reads.object expected
  rw [List.forall₂_map_right_iff]
  apply all.imp
  rintro ⟨key, b⟩ ⟨_, u⟩ ⟨rfl, plain, reads⟩
  exact ⟨u, reads, Quoted.keyText_append plain u⟩

end Reader

end JsonSidecar
