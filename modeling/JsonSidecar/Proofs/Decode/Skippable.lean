/-
Module: JsonSidecar.Proofs.Decode.Skippable
Purpose: Reading a value and passing over it never disagree on where it ends.  A reader is skippable if all that
  it accepts has a skeleton between the same two places; the property is shown part by part, tokens first,
  then the two container loops, and holds of whatever is put together from these.
Main exports: Reader.Skippable, Reader.Alike.skippable, Ty.readWith_skippable, skipValue_of_read
-/
import JsonSidecar.Proofs.Decode.Alike
import JsonSidecar.Proofs.Lexer.Skip

namespace JsonSidecar

open Reader Skeleton

variable {α β γ : Type}

/-- Whatever the reader accepts is passed over, and it ends at the same place. -/
def Reader.Skippable (reader : Reader α) : Prop :=
  ∀ c a later, reader c = .ok a later → ∃ tree, Passes skipNested Spells tree c later

/-! ### Steps of readers -/

namespace Reader

theorem lexed_eq_ok {expected : String} {scan : Scan LexError α} {c later : Cursor} {a : α}
    (h : lexed expected scan c = .ok a later) : scan c = .ok a later :=
  Outcome.mapError_eq_ok.1 h

theorem expect_eq_ok {expected : String} {b : UInt8} {reason : Reason} {c later : Cursor} {u : Unit}
    (h : expect expected b reason c = .ok u later) : c.skipSpace.eat? b = some later :=
  Scan.expect_eq_ok.1 h

theorem failAt_ne_ok {expected : String} {reason : Reason} {offset : Nat} {c later : Cursor} {a : α} :
    failAt expected reason offset c ≠ .ok a later := by
  intro h
  cases h

theorem fail_ne_ok {expected : String} {reason : Reason} {c later : Cursor} {a : α} :
    fail expected reason c ≠ .ok a later := by
  intro h
  cases h

/-- A pattern without spaces is matched byte by byte. -/
theorem matchPattern?_eq_eatAll? {pattern : Bytes} (solid : Byte.space ∉ pattern) (c : Cursor) :
    matchPattern? pattern c = Cursor.eatAll? pattern c := by
  induction pattern generalizing c with
  | nil => rfl
  | cons b pattern ih =>
      simp only [List.mem_cons, not_or] at solid
      rw [matchPattern?, if_neg (Ne.symm solid.1), Cursor.eatAll?]
      congr 1
      funext c
      exact ih solid.2 c

theorem word_eq_ok {pattern : Bytes} (solid : Byte.space ∉ pattern) {c later : Cursor}
    (h : word pattern c = .ok true later) : Cursor.eatAll? pattern c.skipSpace = some later := by
  unfold word at h
  cases matched : matchWord? pattern c with
  | none => simp [matched] at h
  | some next =>
      simp only [matched] at h
      cases h
      rw [← matchPattern?_eq_eatAll? solid]
      exact matched

theorem word_eq_false {pattern : Bytes} {c later : Cursor} (h : word pattern c = .ok false later) :
    later = c := by
  unfold word at h
  cases matched : matchWord? pattern c with
  | none =>
      simp only [matched] at h
      cases h
      rfl
  | some next => simp [matched] at h

theorem Skippable.map {reader : Reader α} (skippable : reader.Skippable) (f : α → β) :
    Skippable (f <$> reader) := by
  intro c b later h
  rw [Scan.map_apply] at h
  obtain ⟨a, read, _⟩ := Outcome.map_eq_ok.1 h
  exact skippable c a later read

/-- A reader that goes on from a value without moving the cursor. -/
theorem Skippable.bind {reader : Reader α} (skippable : reader.Skippable) {next : α → Reader β}
    (still : ∀ a c b later, next a c = .ok b later → later = c) : Skippable (reader >>= next) := by
  intro c b later h
  obtain ⟨a, after, read, h⟩ := Outcome.bind_eq_ok.1 h
  rw [still a after b later h]
  exact skippable c a after read

/-- A reader that passes over white space first. -/
theorem Skippable.afterSpace {next : Unit → Cursor → Reader α} (skippable : ∀ start, (next () start).Skippable) :
    Skippable (do
      let u ← Scan.skipSpace
      let start ← Scan.here
      next u start) := by
  intro c a later h
  obtain ⟨_, _, space, h⟩ := Outcome.bind_eq_ok.1 h
  cases space
  obtain ⟨_, _, here, h⟩ := Outcome.bind_eq_ok.1 h
  cases here
  obtain ⟨tree, passes⟩ := skippable _ _ _ _ h
  exact ⟨tree, passes_skipSpace.1 passes⟩

/-- A word, or else another value. -/
theorem Skippable.wordOr {pattern : Bytes} (mem : pattern ∈ [Word.true, Word.false, Word.null])
    {found : α} {other : Reader α} (skippable : other.Skippable) :
    Skippable (Reader.wordOr pattern found other) := by
  intro c a later h
  obtain ⟨matched, after, met, h⟩ := Outcome.bind_eq_ok.1 h
  cases matched with
  | true =>
      cases h
      have solid : Byte.space ∉ pattern := by
        simp only [List.mem_cons, List.not_mem_nil, or_false] at mem
        rcases mem with rfl | rfl | rfl <;> decide
      exact ⟨.token, .word mem (word_eq_ok solid met)⟩
  | false =>
      rw [word_eq_false met] at h
      exact skippable c a later h

/-! ### Tokens and containers -/

theorem number_skippable (expected : String) : (number expected).Skippable := by
  intro c l later h
  exact ⟨.token, .number (lexed_eq_ok h)⟩

theorem stringBytes_skip {expected : String} {c later : Cursor} {bytes : Bytes}
    (h : stringBytes expected c = .ok bytes later) : Quoted.skip c.skipSpace = .ok () later := by
  obtain ⟨_, skipped, _⟩ := Outcome.map_eq_ok.1 (lexed_eq_ok h)
  exact skipped

theorem stringBytes_skippable (expected : String) : (stringBytes expected).Skippable := by
  intro c bytes later h
  exact ⟨.token, .string (stringBytes_skip h)⟩

theorem passValue_skippable (expected : String) : (passValue expected).Skippable := by
  intro c u later h
  exact skipNested_passes (lexed_eq_ok h)

theorem inlineList_skippable {expected : String} {item : Reader α} (skippable : item.Skippable) :
    (inlineList expected item).Skippable := by
  intro c as later h
  obtain ⟨_, after, opening, h⟩ := Outcome.bind_eq_ok.1 h
  obtain ⟨trees, _, run⟩ := (Items.of_items h).imp fun a _ c later read => skippable c a later read
  exact ⟨.array trees, .array (expect_eq_ok opening) run⟩

theorem object_skippable {expected : String} {value : Bytes → Reader β} (skippable : ∀ key, (value key).Skippable) :
    (object expected value).Skippable := by
  intro c members later h
  obtain ⟨_, after, opening, h⟩ := Outcome.bind_eq_ok.1 h
  obtain ⟨trees, _, run⟩ := (Items.of_items h).imp fun m _ c later read => by
    obtain ⟨key, afterColon, named, read⟩ := Outcome.bind_eq_ok.1 read
    obtain ⟨_, afterKey, quoted, named⟩ := Outcome.bind_eq_ok.1 named
    obtain ⟨_, _, colon, named⟩ := Outcome.bind_eq_ok.1 named
    cases named
    obtain ⟨v, _, read, same⟩ := Outcome.bind_eq_ok.1 read
    cases same
    obtain ⟨tree, passes⟩ := skippable key _ _ _ read
    exact ⟨tree, Passes.member (stringBytes_skip quoted) (expect_eq_ok colon) passes⟩
  exact ⟨.object trees, .object (expect_eq_ok opening) run⟩

/-- A reader that looks at the byte behind white space first. -/
theorem Skippable.afterPeek {next : Option UInt8 → Reader α} (skippable : ∀ b, (next b).Skippable) :
    Skippable (peek >>= next) := by
  intro c a later h
  obtain ⟨b, after, peeked, h⟩ := Outcome.bind_eq_ok.1 h
  cases peeked
  obtain ⟨tree, passes⟩ := skippable _ _ _ _ h
  exact ⟨tree, passes_skipSpace.1 passes⟩

theorem Skippable.checked {expected : String} {reader : Reader α} {verdict : α → Except Reason β}
    (skippable : reader.Skippable) : (Reader.checked expected reader verdict).Skippable := by
  refine .afterSpace fun start => skippable.bind fun a c b later h => ?_
  cases judged : verdict a with
  | ok b =>
      simp only [judged] at h
      cases h
      rfl
  | error reason =>
      simp only [judged] at h
      exact absurd h failAt_ne_ok

theorem Skippable.judged {expected : String} {reader : Reader α} {verdict : α → Except Reason β}
    (skippable : reader.Skippable) : (Reader.judged expected reader verdict).Skippable := by
  refine skippable.bind fun a c b later h => ?_
  cases judged : verdict a with
  | ok b =>
      simp only [judged] at h
      cases h
      rfl
  | error reason =>
      simp only [judged] at h
      exact absurd h fail_ne_ok

theorem captured_skippable (expected : String) (f : Bytes → α) : (captured expected f).Skippable := by
  refine Skippable.afterSpace fun start => (passValue_skippable _).bind fun _ c a later h => ?_
  cases h
  rfl

/-- Two values between brackets are a list of two without a comma behind the second. -/
theorem twoOf_skippable {expected : String} {f : α → β → γ} {first : Reader α} {second : Reader β}
    (skippable : first.Skippable) (skippable' : second.Skippable) : (twoOf expected f first second).Skippable := by
  intro c v later h
  obtain ⟨_, afterOpening, opening, h⟩ := Outcome.bind_eq_ok.1 h
  obtain ⟨a, afterFirst, readFirst, h⟩ := Outcome.bind_eq_ok.1 h
  obtain ⟨_, afterComma, comma, h⟩ := Outcome.bind_eq_ok.1 h
  obtain ⟨b, afterSecond, readSecond, h⟩ := Outcome.bind_eq_ok.1 h
  obtain ⟨_, afterClosing, closing, h⟩ := Outcome.bind_eq_ok.1 h
  cases h
  obtain ⟨tree, passes⟩ := skippable _ _ _ readFirst
  obtain ⟨tree', passes'⟩ := skippable' _ _ _ readSecond
  have closed := expect_eq_ok closing
  have noComma : afterSecond.skipSpace.eat? Byte.comma = none := by
    obtain ⟨pos, rest, same, _⟩ := Cursor.eat?_eq_some closed
    rw [same]
    exact Cursor.eat?_cons_of_ne (by decide) pos rest
  refine ⟨.array [tree, tree'], .array (expect_eq_ok opening) ?_⟩
  refine .more (passes.eat?_none rfl) (passes_skipSpace.2 passes) (expect_eq_ok comma) ?_
  exact .last (passes'.eat?_none rfl) (passes_skipSpace.2 passes') noComma closed

/-- Whatever is put together from tokens, containers and checks is skippable, if the records in it are. -/
theorem Alike.skippable {S : Type} {record record' : S → Reader Val} {reader reader' : Reader α}
    (alike : Alike record record' reader reader') (records : ∀ s, (record s).Skippable) : reader.Skippable := by
  induction alike with
  | record s => exact records s
  | fail expected reported => exact fun _ _ _ h => absurd h fail_ne_ok
  | number expected => exact number_skippable expected
  | stringBytes expected => exact stringBytes_skippable expected
  | passValue expected => exact passValue_skippable expected
  | captured expected f => exact captured_skippable expected f
  | map f _ ih => exact ih.map f
  | wordOr mem found _ ih => exact .wordOr mem ih
  | afterPeek _ ih => exact .afterPeek ih
  | checked expected _ _ ih => exact ih.checked
  | judged expected _ _ ih => exact ih.judged
  | inlineList expected _ ih => exact inlineList_skippable ih
  | object expected _ ih => exact object_skippable ih
  | twoOf expected f _ _ ih ih' => exact twoOf_skippable ih ih'

theorem Plain.skippable {reader : Reader α} (plain : Plain reader) : reader.Skippable :=
  (plain.alike : Alike (S := Empty) nofun nofun reader reader).skippable nofun

end Reader

/-! ### All types -/

section Types

variable {S : Type} (store : Option BlobView) (schema : Schema S)

theorem Ty.readWith_skippable {record : S → Reader Val} (skippable : ∀ s, (record s).Skippable) (t : Ty S) :
    (t.readWith schema store record).Skippable :=
  Alike.skippable (t.readWith_alike store schema : Alike record record _ _) skippable

theorem readRecord_skippable (bound : Nat) (s : S) : (readRecord schema store bound s).Skippable := by
  induction bound generalizing s with
  | zero => exact fun _ _ _ h => absurd h fail_ne_ok
  | succ bound ih => exact (readRecord_alike store schema bound bound s).skippable ih

theorem Ty.read_skippable (t : Ty S) : (t.read schema store).Skippable := by
  intro c v later h
  exact t.readWith_skippable store schema (readRecord_skippable store schema c.rest.length) c v later h

variable {schema store}

/-- Whatever a type reads has a skeleton, and passing over it ends where reading it ended, unless the skeleton
    is nested more deeply than is passed over at all. -/
theorem skipValue_of_read {t : Ty S} {c later : Cursor} {v : Val} (h : t.read schema store c = .ok v later) :
    ∃ tree : Skeleton, tree.Spells (c.skipSpace.span later) ∧
      ((tree.depth ≤ maxNesting ∧ skipValue 0 c = .ok () later) ∨
        (maxNesting < tree.depth ∧ ∃ stop, skipValue 0 c = .fail .tooDeep stop)) := by
  obtain ⟨tree, passes⟩ := t.read_skippable store schema c v later h
  obtain ⟨w, spans, spells⟩ := passes.text
  refine ⟨tree, by rw [spans.span_eq]; exact spells, ?_⟩
  rcases Nat.lt_or_ge maxNesting tree.depth with deep | shallow
  · exact .inr ⟨deep, passes.beyond _ deep⟩
  · exact .inl ⟨shallow, passes.within _ (Nat.lt_succ_of_le shallow)⟩

/-- A record inside a record of its own type, with a comma behind the last member and a member that is passed
    over. -/
theorem skipValue_of_read_nested_record :
    let schema : Schema Unit := fun _ =>
      ⟨"chain", [⟨ascii "head", .scalar (.int ⟨true, .w32⟩), .scalar (.int 0)⟩,
        ⟨ascii "tail", .option (.boxed (.record ())), .none⟩]⟩
    let c : Cursor := ⟨3, ascii " \x7b\"tail\": \x7b\"head\":7,\x7d, \"other\":[1,],\"head\":-2\x7d ]"⟩
    ∃ v later, (Ty.record ()).read schema none c = .ok v later ∧
      ∃ tree : Skeleton, tree.Spells (c.skipSpace.span later) ∧
        ((tree.depth ≤ maxNesting ∧ skipValue 0 c = .ok () later) ∨
          (maxNesting < tree.depth ∧ ∃ stop, skipValue 0 c = .fail .tooDeep stop)) := by
  intro schema c
  have passed : ((Ty.record ()).read schema none c).map (fun _ => ()) = .ok () ⟨49, ascii " ]"⟩ := by decide +kernel
  obtain ⟨v, read, _⟩ := Outcome.map_eq_ok.1 passed
  exact ⟨_, _, read, skipValue_of_read read⟩

end Types

end JsonSidecar
