/-
Module: JsonSidecar.Proofs.Decode.Deferred
Purpose: A value that is kept as text and read later reads as it would have read where it stood.  A reader never looks
  past the value that is passed over ahead of it, so on the text of that value alone it finds the same, and a
  failure only moves by where the value began.
Main exports: Reader.Embeds, Reader.Alike.embeds, decode_captured
-/
import JsonSidecar.Proofs.Decode.LeadingSpace
import JsonSidecar.Proofs.Decode.Skippable
import JsonSidecar.Proofs.Lexer.Embed
import Mathlib.Data.List.TakeWhile

namespace JsonSidecar

open Reader Skeleton

variable {S α β γ : Type}

/-! ### Outcomes in a longer text -/

/-- A failure as it is told in a longer text, with `shift` bytes in front. -/
def Failure.embed (shift : Nat) (e : Failure) : Failure := { e with offset := e.offset + shift }

/-- What reading comes to in a longer text, with `shift` bytes in front and `tail` behind. -/
def Outcome.embed (shift : Nat) (tail : Bytes) : Outcome Failure α → Outcome Failure α
  | .ok a c => .ok a (c.embed shift tail)
  | .fail e c => .fail (e.embed shift) (c.embed shift tail)

variable {shift : Nat} {tail : Bytes}

namespace Outcome

@[simp] theorem embed_ok (a : α) (c : Cursor) :
    (Outcome.ok a c).embed shift tail = .ok a (c.embed shift tail) := rfl

@[simp] theorem embed_fail (e : Failure) (c : Cursor) :
    (Outcome.fail e c : Outcome Failure α).embed shift tail = .fail (e.embed shift) (c.embed shift tail) := rfl

theorem embed_map (r : Outcome Failure α) (f : α → β) :
    (r.map f).embed shift tail = (r.embed shift tail).map f := by
  cases r <;> rfl

/-- Going on in the longer text is going on in the shorter one, if every next step is. -/
theorem embed_bind {r r' : Outcome Failure α} {f f' : α → Cursor → Outcome Failure β}
    (same : r = r'.embed shift tail)
    (next : ∀ a c, r' = .ok a c → f a (c.embed shift tail) = (f' a c).embed shift tail) :
    r.bind f = (r'.bind f').embed shift tail := by
  cases r' with
  | fail e c =>
      rw [same]
      rfl
  | ok a c =>
      rw [same]
      exact next a c rfl

end Outcome

/-! ### Places where the end of the part does not show -/

/-- From here no reader looks past the part: a value that is passed over lies ahead, in the part and in the whole, or
    a byte of the part with which no value begins. -/
inductive Ahead (shift : Nat) (tail : Bytes) (c : Cursor) : Prop where
  | value {later : Cursor} : skipValue 0 c = .ok () later →
      skipValue 0 (c.embed shift tail) = .ok () (later.embed shift tail) → Ahead shift tail c
  | other {pos : Nat} {b : UInt8} {rest : Bytes} : c.skipSpace = ⟨pos, b :: rest⟩ → Byte.opensValue b = false →
      Ahead shift tail c

theorem skipNested_skipSpace {levels : Nat} {c later : Cursor} (h : skipNested levels c.skipSpace = .ok () later) :
    skipNested levels c = .ok () later := by
  cases levels with
  | zero => cases h
  | succ levels =>
      simp only [skipNested, Cursor.skipSpace_skipSpace] at h ⊢
      exact h

theorem skipValue_zero (c : Cursor) : skipValue 0 c = skipNested (maxNesting + 1) c := rfl

theorem skipValue_skipSpace (c : Cursor) : skipValue 0 c.skipSpace = skipValue 0 c := by
  simp only [skipValue_zero, skipNested, Cursor.skipSpace_skipSpace]

/-- What is passed over begins behind white space as a value does. -/
theorem skipNested_begins {levels : Nat} {c later : Cursor} (h : skipNested levels c = .ok () later) :
    ∃ pos b rest, c.skipSpace = ⟨pos, b :: rest⟩ ∧ Byte.opensValue b = true := by
  obtain ⟨tree, passes⟩ := skipNested_passes h
  obtain ⟨w, spans, spells⟩ := passes.text
  obtain ⟨b, rest, rfl, opens⟩ := spells.opens
  exact ⟨_, b, rest ++ later.rest, spans.places.1, opens⟩

namespace Ahead

variable {c : Cursor} (ahead : Ahead shift tail c)

include ahead

theorem visible : ∃ pos b rest, c.skipSpace = ⟨pos, b :: rest⟩ := by
  cases ahead with
  | value passed _ =>
      obtain ⟨pos, b, rest, start, _⟩ := skipNested_begins passed
      exact ⟨pos, b, rest, start⟩
  | other start _ => exact ⟨_, _, _, start⟩

theorem passed {pos : Nat} {b : UInt8} {rest : Bytes} (start : c.skipSpace = ⟨pos, b :: rest⟩)
    (opens : Byte.opensValue b = true) :
    ∃ later : Cursor, skipValue 0 c = .ok () later ∧
      skipValue 0 (c.embed shift tail) = .ok () (later.embed shift tail) := by
  cases ahead with
  | value passed passed' => exact ⟨_, passed, passed'⟩
  | other start' closed =>
      rw [start] at start'
      cases start'
      rw [opens] at closed
      cases closed

/-- White space ends at the same place in the part and in the whole. -/
theorem skipSpace_eq : (c.embed shift tail).skipSpace = c.skipSpace.embed shift tail := by
  obtain ⟨pos, b, rest, start⟩ := ahead.visible
  exact Cursor.skipSpace_embed start

theorem skipSpace : Ahead shift tail c.skipSpace := by
  cases ahead with
  | @value later passed passed' =>
      obtain ⟨pos, b, rest, start, _⟩ := skipNested_begins passed
      have whole : skipValue 0 (c.skipSpace.embed shift tail) = .ok () (later.embed shift tail) := by
        rw [← Cursor.skipSpace_embed start, skipValue_skipSpace, passed']
      exact .value (by rw [skipValue_skipSpace, passed]) whole
  | other start closed => exact .other (by rw [Cursor.skipSpace_skipSpace, start]) closed

end Ahead

/-- In front of a value of the part with more of the part behind it. -/
theorem Ahead.of_skipNested {levels : Nat} (le : levels ≤ maxNesting + 1) {c later : Cursor}
    (h : skipNested levels c = .ok () later) (more : later.rest ≠ []) : Ahead shift tail c :=
  .value (skipNested_mono le h) (skipNested_mono le (skipNested_embed h more))

/-- Behind the opening bracket of a value that is passed over, its items are. -/
theorem Ahead.items {c inside : Cursor} (ahead : Ahead shift tail c)
    (opening : c.skipSpace.eat? Byte.openBracket = some inside) :
    ∃ units later, Items Byte.closeBracket (skipNested maxNesting).Accepts units inside later := by
  obtain ⟨pos, rest, start, rfl⟩ := Cursor.eat?_eq_some opening
  obtain ⟨later, passed, _⟩ := ahead.passed start rfl
  rw [skipValue_zero, skipNested_succ start, if_neg (by decide), if_pos rfl] at passed
  obtain ⟨units, scanned, _⟩ := Outcome.map_eq_ok.1 passed
  exact ⟨units, later, .of_items scanned⟩

/-- Behind the opening brace of a value that is passed over, its members are. -/
theorem Ahead.members {c inside : Cursor} (ahead : Ahead shift tail c)
    (opening : c.skipSpace.eat? Byte.openBrace = some inside) :
    ∃ units later, Items Byte.closeBrace (skipMemberWith (skipNested maxNesting)).Accepts units inside later := by
  obtain ⟨pos, rest, start, rfl⟩ := Cursor.eat?_eq_some opening
  obtain ⟨later, passed, _⟩ := ahead.passed start rfl
  rw [skipValue_zero, skipNested_succ start, if_neg (by decide), if_neg (by decide), if_pos rfl] at passed
  obtain ⟨units, scanned, _⟩ := Outcome.map_eq_ok.1 passed
  exact ⟨units, later, .of_items scanned⟩

/-- At the items of a list: either the list ends, which no value begins with, or a value is passed over. -/
theorem Ahead.of_items {close : UInt8} (closes : Byte.opensValue close = false) {units : List Unit}
    {c later : Cursor} (run : Items close (skipNested maxNesting).Accepts units c later) :
    Ahead shift tail c := by
  have item : ∀ {after : Cursor}, skipNested maxNesting c.skipSpace = .ok () after → after.rest ≠ [] →
      Ahead shift tail c := by
    intro after passed more
    exact .of_skipNested (Nat.le_succ maxNesting) (skipNested_skipSpace passed) more
  cases run with
  | done closed =>
      obtain ⟨pos, rest, start, _⟩ := Cursor.eat?_eq_some closed
      exact .other start closes
  | last _ first _ closed => exact item first (Items.rest_ne_nil_of_eat? closed)
  | more _ first comma _ => exact item first (Items.rest_ne_nil_of_eat? comma)

/-! ### Readers on a part and on the whole -/

/-- On a part of at most `n` bytes the second reader does what the first one does on the whole. -/
def Reader.Embeds (shift : Nat) (tail : Bytes) (n : Nat) (reader reader' : Reader α) : Prop :=
  ∀ c : Cursor, c.rest.length ≤ n → Ahead shift tail c →
    reader (c.embed shift tail) = (reader' c).embed shift tail

namespace Reader

theorem expect_embed {expected : String} {b : UInt8} {reason : Reason} {c : Cursor} {pos : Nat} {x : UInt8}
    {rest : Bytes} (start : c.skipSpace = ⟨pos, x :: rest⟩) :
    expect expected b reason (c.embed shift tail) = (expect expected b reason c).embed shift tail := by
  have space : (c.embed shift tail).skipSpace = c.skipSpace.embed shift tail := Cursor.skipSpace_embed start
  have eaten : ((⟨pos, x :: rest⟩ : Cursor).embed shift tail).eat? b
      = ((⟨pos, x :: rest⟩ : Cursor).eat? b).map (Cursor.embed shift tail) := Cursor.eat?_embed b
  simp only [expect, Scan.expect, space, start, eaten]
  cases (⟨pos, x :: rest⟩ : Cursor).eat? b <;> rfl

variable {n : Nat}

theorem fail_embeds (expected : String) (reason : Reason) :
    Embeds shift tail n (fail expected reason : Reader α) (fail expected reason) :=
  fun _ _ _ => rfl

theorem number_embeds (expected : String) : Embeds shift tail n (number expected) (number expected) := by
  intro c _ ahead
  obtain ⟨pos, b, rest, start⟩ := ahead.visible
  have space := ahead.skipSpace_eq
  simp only [number, lexed, space]
  by_cases begins : beginsNumber b = true
  · obtain ⟨later, _, passed⟩ := ahead.passed start (by simp [Byte.opensValue, begins])
    have start' : (c.embed shift tail).skipSpace = ⟨pos + shift, b :: (rest ++ tail)⟩ := by
      rw [space, start]
      rfl
    rw [skipValue_zero, skipNested_number start' begins, space] at passed
    obtain ⟨l, scanned, _⟩ := Outcome.map_eq_ok.1 passed
    rw [scanned, NumberLiteral.scan_of_embed scanned]
    rfl
  · rw [start, Cursor.embed, List.cons_append]
    simp only [NumberLiteral.scan_of_not_begins (by simpa using begins)]
    rfl

theorem stringBytes_embeds (expected : String) :
    Embeds shift tail n (stringBytes expected) (stringBytes expected) := by
  intro c _ ahead
  obtain ⟨pos, b, rest, start⟩ := ahead.visible
  have space := ahead.skipSpace_eq
  simp only [stringBytes, lexed, space]
  by_cases quote : b = Byte.quote
  · subst quote
    obtain ⟨later, passed, _⟩ := ahead.passed start rfl
    rw [skipValue_zero, skipNested_succ start, if_pos rfl, ← start] at passed
    have scanned : Quoted.read c.skipSpace = .ok (Quoted.scan c.skipSpace).1 later :=
      Outcome.map_eq_ok.2 ⟨(), passed, rfl⟩
    rw [scanned, Quoted.read_embed scanned]
    rfl
  · rw [start, Cursor.embed, List.cons_append]
    simp only [Quoted.read_of_ne_quote quote]
    rfl

theorem passValue_embeds (expected : String) : Embeds shift tail n (passValue expected) (passValue expected) := by
  intro c _ ahead
  simp only [passValue, lexed]
  cases ahead with
  | value passed passed' =>
      rw [passed, passed']
      rfl
  | @other pos b rest start closed =>
      have start' : (c.embed shift tail).skipSpace = ⟨pos + shift, b :: (rest ++ tail)⟩ := by
        rw [Cursor.skipSpace_embed start, start]
        rfl
      rw [skipValue_zero, skipValue_zero, skipNested_of_not_opens start closed, skipNested_of_not_opens start' closed]
      rfl

theorem captured_embeds (expected : String) (f : Bytes → α) :
    Embeds shift tail n (captured expected f) (captured expected f) := by
  intro c short ahead
  have short' : c.skipSpace.rest.length ≤ n := Nat.le_trans (Items.skipSpace_length_le c) short
  have passed := passValue_embeds (n := n) expected c.skipSpace short' ahead.skipSpace
  simp only [captured, Scan.bind_apply, Scan.skipSpace_apply, Scan.here_apply, Outcome.bind_ok, ahead.skipSpace_eq]
  refine Outcome.embed_bind passed fun _ later h => ?_
  obtain ⟨tree, passes⟩ := passValue_skippable expected _ _ _ h
  obtain ⟨w, spans, _⟩ := passes.text
  rw [Cursor.skipSpace_skipSpace] at spans
  rw [Scan.pure_apply, Scan.pure_apply, spans.span_eq, spans.embed.span_eq]
  rfl

theorem Embeds.map {reader reader' : Reader α} (embeds : Embeds shift tail n reader reader') (f : α → β) :
    Embeds shift tail n (f <$> reader) (f <$> reader') := by
  intro c short ahead
  rw [Scan.map_apply, Scan.map_apply, embeds c short ahead, Outcome.embed_map]

/-- A word is found in the part where it is found in the whole. -/
theorem word_embed {pattern : Bytes} (mem : pattern ∈ [Word.true, Word.false, Word.null]) {c : Cursor}
    (ahead : Ahead shift tail c) : word pattern (c.embed shift tail) = (word pattern c).embed shift tail := by
  obtain ⟨pos, b, rest, start⟩ := ahead.visible
  have space := ahead.skipSpace_eq
  have solid : Byte.space ∉ pattern := by
    simp only [List.mem_cons, List.not_mem_nil, or_false] at mem
    rcases mem with rfl | rfl | rfl <;> decide
  obtain ⟨x, letters, spelled, opens⟩ := Spells.opens (.word mem)
  simp only [word, matchWord?, matchPattern?_eq_eatAll? solid, space]
  by_cases same : x = b
  · subst same
    obtain ⟨later, passed, passed'⟩ := ahead.passed start opens
    have first : pattern.head? = some x := by rw [spelled]; rfl
    have start' : (c.embed shift tail).skipSpace = ⟨pos + shift, x :: (rest ++ tail)⟩ := by
      rw [space, start]
      rfl
    rw [skipValue_zero, skipNested_word mem start first] at passed
    rw [skipValue_zero, skipNested_word mem start' first, space] at passed'
    rw [skipExact_eq_ok passed, skipExact_eq_ok passed']
    rfl
  · have missed : ∀ (place : Nat) (behind : Bytes), Cursor.eatAll? pattern ⟨place, b :: behind⟩ = none := by
      intro place behind
      rw [spelled, Cursor.eatAll?, Cursor.eat?_cons_of_ne (Ne.symm same)]
      rfl
    rw [start, missed, Cursor.embed, List.cons_append, missed]
    rfl

theorem Embeds.wordOr {pattern : Bytes} (mem : pattern ∈ [Word.true, Word.false, Word.null]) (found : α)
    {other other' : Reader α} (embeds : Embeds shift tail n other other') :
    Embeds shift tail n (Reader.wordOr pattern found other) (Reader.wordOr pattern found other') := by
  intro c short ahead
  refine Outcome.embed_bind (word_embed mem ahead) fun matched later h => ?_
  cases matched with
  | true => rfl
  | false =>
      rw [word_eq_false h]
      exact embeds c short ahead

theorem Embeds.afterPeek {next next' : Option UInt8 → Reader α} (embeds : ∀ b, Embeds shift tail n (next b) (next' b)) :
    Embeds shift tail n (peek >>= next) (peek >>= next') := by
  intro c short ahead
  obtain ⟨pos, b, rest, start⟩ := ahead.visible
  have peeked : peek (c.embed shift tail) = (peek c).embed shift tail := by
    simp only [peek, ahead.skipSpace_eq, start]
    rfl
  refine Outcome.embed_bind peeked fun x later h => ?_
  cases h
  exact embeds _ _ (Nat.le_trans (Items.skipSpace_length_le c) short) ahead.skipSpace

theorem Embeds.checked {expected : String} {reader reader' : Reader α} {verdict : α → Except Reason β}
    (embeds : Embeds shift tail n reader reader') :
    Embeds shift tail n (Reader.checked expected reader verdict) (Reader.checked expected reader' verdict) := by
  intro c short ahead
  have short' : c.skipSpace.rest.length ≤ n := Nat.le_trans (Items.skipSpace_length_le c) short
  simp only [Reader.checked, Scan.bind_apply, Scan.skipSpace_apply, Scan.here_apply, Outcome.bind_ok,
    ahead.skipSpace_eq]
  refine Outcome.embed_bind (embeds _ short' ahead.skipSpace) fun a later _ => ?_
  cases verdict a <;> rfl

theorem Embeds.judged {expected : String} {reader reader' : Reader α} {verdict : α → Except Reason β}
    (embeds : Embeds shift tail n reader reader') :
    Embeds shift tail n (Reader.judged expected reader verdict) (Reader.judged expected reader' verdict) := by
  intro c short ahead
  refine Outcome.embed_bind (embeds c short ahead) fun a later _ => ?_
  dsimp only
  cases verdict a <;> rfl

/-! ### Lists -/

/-- A scanner passes over the items of a part that the second reader reads, and the first reader does the same in
    the whole, in front of more of the part. -/
structure ItemEmbeds (shift : Nat) (tail : Bytes) (n : Nat) (skip : Scan LexError Unit) (item item' : Reader α) :
    Prop where
  onward : ∀ c after, skip c = .ok () after → after.rest.length ≤ c.rest.length
  visible : ∀ c after, skip c = .ok () after → ∃ pos b rest, c.skipSpace = ⟨pos, b :: rest⟩
  same : ∀ c after : Cursor, skip c = .ok () after → after.rest ≠ [] → c.rest.length ≤ n →
    item (c.embed shift tail) = (item' c).embed shift tail ∧ ∀ a stop, item' c = .ok a stop → stop = after

/-- The loop over a list finds the same items in the part and in the whole.  The induction is on the run of the
    scanner over the part. -/
theorem items_embed {close : UInt8} {skip : Scan LexError Unit} {item item' : Reader α} {missing : Cursor → Failure}
    (items : ItemEmbeds shift tail n skip item item') {units : List Unit} {c later : Cursor}
    (run : Items close skip.Accepts units c later) (short : c.rest.length ≤ n) {bound bound' : Nat}
    (enough : units.length < bound) (enough' : units.length < bound') :
    Scan.items close missing item bound (c.embed shift tail)
      = (Scan.items close missing item' bound' c).embed shift tail := by
  induction run generalizing bound bound' with
  | @done c later closed =>
      obtain ⟨bound, rfl⟩ := Nat.exists_eq_succ_of_ne_zero (Nat.ne_zero_of_lt enough)
      obtain ⟨bound', rfl⟩ := Nat.exists_eq_succ_of_ne_zero (Nat.ne_zero_of_lt enough')
      simp only [Scan.items, closed, Cursor.eat?_skipSpace_embed_some closed, Outcome.embed_ok]
  | @last u c after later isOpen first noComma closed =>
      obtain ⟨bound, rfl⟩ := Nat.exists_eq_succ_of_ne_zero (Nat.ne_zero_of_lt enough)
      obtain ⟨bound', rfl⟩ := Nat.exists_eq_succ_of_ne_zero (Nat.ne_zero_of_lt enough')
      obtain ⟨pos, b, rest, start⟩ := items.visible _ _ first
      rw [Cursor.skipSpace_skipSpace] at start
      obtain ⟨pos', rest', behind, _⟩ := Cursor.eat?_eq_some closed
      have more : after.rest ≠ [] := Items.rest_ne_nil_of_eat? closed
      obtain ⟨same, stops⟩ := items.same _ _ first more (Nat.le_trans (Items.skipSpace_length_le c) short)
      have isOpen' : (c.embed shift tail).skipSpace.eat? close = none := by
        rw [Cursor.eat?_skipSpace_embed start, isOpen, Option.map_none]
      have noComma' : (after.embed shift tail).skipSpace.eat? Byte.comma = none := by
        rw [Cursor.eat?_skipSpace_embed behind, noComma, Option.map_none]
      rw [Scan.items_open isOpen, Scan.items_open isOpen', Cursor.skipSpace_embed start]
      refine Outcome.embed_bind same fun a stop read => ?_
      cases stops a stop read
      simp only [Scan.afterItem, noComma, noComma', closed, Cursor.eat?_skipSpace_embed_some closed, Outcome.embed_ok]
  | @more u others c after next later isOpen first comma others ih =>
      obtain ⟨bound, rfl⟩ := Nat.exists_eq_succ_of_ne_zero (Nat.ne_zero_of_lt enough)
      obtain ⟨bound', rfl⟩ := Nat.exists_eq_succ_of_ne_zero (Nat.ne_zero_of_lt enough')
      obtain ⟨pos, b, rest, start⟩ := items.visible _ _ first
      rw [Cursor.skipSpace_skipSpace] at start
      have more : after.rest ≠ [] := Items.rest_ne_nil_of_eat? comma
      have short' : c.skipSpace.rest.length ≤ n := Nat.le_trans (Items.skipSpace_length_le c) short
      obtain ⟨same, stops⟩ := items.same _ _ first more short'
      have isOpen' : (c.embed shift tail).skipSpace.eat? close = none := by
        rw [Cursor.eat?_skipSpace_embed start, isOpen, Option.map_none]
      rw [Scan.items_open isOpen, Scan.items_open isOpen', Cursor.skipSpace_embed start]
      refine Outcome.embed_bind same fun a stop read => ?_
      cases stops a stop read
      have onward := items.onward _ _ first
      have passed := Items.eat?_length comma
      have blank := Items.skipSpace_length_le after
      have tailSame := ih (by omega) (Nat.lt_of_succ_lt_succ enough) (Nat.lt_of_succ_lt_succ enough')
      simp only [Scan.afterItem, comma, Cursor.eat?_skipSpace_embed_some comma, Outcome.embed_map, tailSame]

/-- The loop over a list, counted by the bytes ahead, which are fewer in the part. -/
theorem itemsUpTo_embed {close : UInt8} {skip : Scan LexError Unit} {item item' : Reader α}
    {missing : Cursor → Failure} (items : ItemEmbeds shift tail n skip item item') {units : List Unit}
    {c later : Cursor} (run : Items close skip.Accepts units c later) (short : c.rest.length ≤ n) :
    Scan.itemsUpTo close missing item (c.embed shift tail)
      = (Scan.itemsUpTo close missing item' c).embed shift tail := by
  have count := run.length_le fun _ c after accepted => items.onward c after accepted
  have longer : c.rest.length ≤ (c.embed shift tail).rest.length := by
    rw [Cursor.embed, List.length_append]
    exact Nat.le_add_right ..
  exact items_embed items run short (by omega) (by omega)

/-- Readers of values follow what is passed over. -/
theorem Embeds.item {reader reader' : Reader α} (embeds : Embeds shift tail n reader reader')
    (skippable : reader.Skippable) {levels : Nat} (le : levels ≤ maxNesting + 1) :
    ItemEmbeds shift tail n (skipNested levels) reader reader' where
  onward c after passed := by
    obtain ⟨tree, passes⟩ := skipNested_passes passed
    exact passes.onward
  visible c after passed := by
    obtain ⟨pos, b, rest, start, _⟩ := skipNested_begins passed
    exact ⟨pos, b, rest, start⟩
  same c after passed more short := by
    have same := embeds c short (.of_skipNested le passed more)
    refine ⟨same, fun a stop read => ?_⟩
    rw [read] at same
    obtain ⟨tree, passes⟩ := skippable _ _ _ same
    exact Cursor.embed_injective (passes.stop_eq (skipNested_embed passed more)).symm

theorem memberKey_embed (shift : Nat) (tail : Bytes) (expected : String) {c afterKey afterColon : Cursor}
    (quoted : Quoted.skip c.skipSpace = .ok () afterKey)
    (colon : afterKey.skipSpace.eat? Byte.colon = some afterColon) :
    ∃ key, memberKey expected c = .ok key afterColon ∧
      memberKey expected (c.embed shift tail) = .ok key (afterColon.embed shift tail) := by
  have scanned : Quoted.read c.skipSpace = .ok (Quoted.scan c.skipSpace).1 afterKey :=
    Outcome.map_eq_ok.2 ⟨(), quoted, rfl⟩
  obtain ⟨pos, b, rest, start⟩ := Quoted.begins_of_skip quoted
  have space : (c.embed shift tail).skipSpace = c.skipSpace.embed shift tail := Cursor.skipSpace_embed start
  have found : expect expected Byte.colon (.malformed .expectedColon) afterKey = .ok () afterColon :=
    Scan.expect_eq_ok.2 colon
  have found' : expect expected Byte.colon (.malformed .expectedColon) (afterKey.embed shift tail)
      = .ok () (afterColon.embed shift tail) :=
    Scan.expect_eq_ok.2 (Cursor.eat?_skipSpace_embed_some colon)
  refine ⟨(Quoted.scan c.skipSpace).1, ?_, ?_⟩
  · simp only [memberKey, stringBytes, lexed, Scan.bind_apply, scanned, Outcome.mapError_ok, Outcome.bind_ok, found]
    rfl
  · simp only [memberKey, stringBytes, lexed, Scan.bind_apply, space, Quoted.read_embed scanned,
      Outcome.mapError_ok, Outcome.bind_ok, found']
    rfl

/-- Readers of members follow what is passed over, if the readers of their values do. -/
theorem Embeds.member {expected : String} {value value' : Bytes → Reader β}
    (embeds : ∀ key, Embeds shift tail n (value key) (value' key)) (skippable : ∀ key, (value key).Skippable)
    {levels : Nat} (le : levels ≤ maxNesting + 1) :
    ItemEmbeds shift tail n (skipMemberWith (skipNested levels)) (Reader.member expected value)
      (Reader.member expected value') where
  onward c after passed := by
    obtain ⟨afterKey, afterColon, quoted, colon, inner⟩ := skipMemberWith_eq_ok passed
    obtain ⟨tree, passes⟩ := skipNested_passes inner
    exact (Passes.member quoted colon passes).onward
  visible c after passed := by
    obtain ⟨afterKey, afterColon, quoted, colon, inner⟩ := skipMemberWith_eq_ok passed
    exact Quoted.begins_of_skip quoted
  same c after passed more short := by
    obtain ⟨afterKey, afterColon, quoted, colon, inner⟩ := skipMemberWith_eq_ok passed
    obtain ⟨key, named, named'⟩ := memberKey_embed shift tail expected quoted colon
    have short' : afterColon.rest.length ≤ n := Nat.le_trans (afterColon_onward quoted colon) short
    obtain ⟨same, stops⟩ := ((embeds key).item (skippable key) le).same _ _ inner more short'
    simp only [Reader.member, Scan.bind_apply, named, named', Outcome.bind_ok]
    refine ⟨Outcome.embed_bind same fun v stop _ => rfl, fun m stop read => ?_⟩
    obtain ⟨v, _, read, ended⟩ := Outcome.bind_eq_ok.1 read
    cases ended
    exact stops v stop read

/-! ### Containers -/

/-- What an opening byte leaves of a part is shorter. -/
theorem inside_length {b : UInt8} {c inside : Cursor} (opening : c.skipSpace.eat? b = some inside)
    (short : c.rest.length ≤ n + 1) : inside.rest.length ≤ n := by
  have passed := Items.eat?_length opening
  have blank := Items.skipSpace_length_le c
  omega

theorem Embeds.inlineList {expected : String} {item item' : Reader α} (embeds : Embeds shift tail n item item')
    (skippable : item.Skippable) :
    Embeds shift tail n (Reader.inlineList expected item) (Reader.inlineList expected item') := by
  intro c short ahead
  obtain ⟨pos, b, rest, start⟩ := ahead.visible
  refine Outcome.embed_bind (expect_embed start) fun _ inside h => ?_
  have opening := Reader.expect_eq_ok h
  obtain ⟨units, later, run⟩ := ahead.items opening
  have short' : inside.rest.length ≤ n := inside_length opening (Nat.le_succ_of_le short)
  exact itemsUpTo_embed (embeds.item skippable (Nat.le_succ maxNesting)) run short'

/-- An object reads the same in the part and in the whole, if the values of its members do on shorter parts. -/
theorem Embeds.object {expected : String} {value value' : Bytes → Reader β}
    (embeds : ∀ key, Embeds shift tail n (value key) (value' key)) (skippable : ∀ key, (value key).Skippable) :
    Embeds shift tail (n + 1) (Reader.object expected value) (Reader.object expected value') := by
  intro c short ahead
  obtain ⟨pos, b, rest, start⟩ := ahead.visible
  refine Outcome.embed_bind (expect_embed start) fun _ inside h => ?_
  have opening := Reader.expect_eq_ok h
  obtain ⟨units, later, run⟩ := ahead.members opening
  exact itemsUpTo_embed (Embeds.member embeds skippable (Nat.le_succ maxNesting)) run (inside_length opening short)

theorem Embeds.of_le {m : Nat} {reader reader' : Reader α} (embeds : Embeds shift tail n reader reader') (le : m ≤ n) :
    Embeds shift tail m reader reader' :=
  fun c short ahead => embeds c (Nat.le_trans short le) ahead

/-- Behind a value that was read in a list stands a byte of the list, and behind a comma the rest of the list. -/
theorem Embeds.behind {reader reader' : Reader α} (embeds : Embeds shift tail n reader reader')
    (skippable : reader.Skippable) {close : UInt8} (closes : Byte.opensValue close = false) {units : List Unit}
    {c later : Cursor} (run : Items close (skipNested maxNesting).Accepts units c later) (short : c.rest.length ≤ n)
    {a : α} {stop : Cursor} (read : reader' c = .ok a stop) :
    (∃ pos b rest, stop.skipSpace = ⟨pos, b :: rest⟩) ∧
      ∀ next, stop.skipSpace.eat? Byte.comma = some next →
        next.rest.length ≤ n ∧ ∃ others, Items close (skipNested maxNesting).Accepts others next later := by
  have same := embeds c short (.of_items closes run)
  have follows := embeds.item skippable (Nat.le_succ maxNesting)
  have stops : ∀ after, skipNested maxNesting c.skipSpace = .ok () after → after.rest ≠ [] → stop = after := by
    intro after passed more
    exact (follows.same c after (skipNested_skipSpace passed) more short).2 a stop read
  cases run with
  | done closed =>
      -- A reader accepts nothing that begins with the closing byte.
      rw [read] at same
      obtain ⟨tree, passes⟩ := skippable _ _ _ same
      have open' := passes.eat?_none closes
      rw [Cursor.eat?_skipSpace_embed_some closed] at open'
      cases open'
  | @last u _ after _ isOpen first noComma closed =>
      cases stops after first (Items.rest_ne_nil_of_eat? closed)
      obtain ⟨pos, rest, start, _⟩ := Cursor.eat?_eq_some closed
      refine ⟨⟨pos, close, rest, start⟩, fun next comma => ?_⟩
      rw [noComma] at comma
      cases comma
  | @more u others _ after next _ isOpen first comma run =>
      cases stops after first (Items.rest_ne_nil_of_eat? comma)
      obtain ⟨pos, rest, start, _⟩ := Cursor.eat?_eq_some comma
      refine ⟨⟨pos, Byte.comma, rest, start⟩, fun next' comma' => ?_⟩
      rw [comma] at comma'
      cases comma'
      have onward := follows.onward _ _ first
      have blank := Items.skipSpace_length_le c
      exact ⟨inside_length comma (by omega), others, run⟩

theorem Embeds.twoOf {expected : String} {f : α → β → γ} {first first' : Reader α} {second second' : Reader β}
    (embeds : Embeds shift tail n first first') (embeds' : Embeds shift tail n second second')
    (skippable : first.Skippable) (skippable' : second.Skippable) :
    Embeds shift tail n (Reader.twoOf expected f first second) (Reader.twoOf expected f first' second') := by
  have closes : Byte.opensValue Byte.closeBracket = false := rfl
  intro c short ahead
  obtain ⟨pos, b, rest, start⟩ := ahead.visible
  refine Outcome.embed_bind (expect_embed start) fun _ inside opening => ?_
  have opening := Reader.expect_eq_ok opening
  obtain ⟨units, later, run⟩ := ahead.items opening
  have short := inside_length opening (Nat.le_succ_of_le short)
  refine Outcome.embed_bind (embeds inside short (.of_items closes run)) fun a afterFirst read => ?_
  obtain ⟨⟨pos, b, rest, start⟩, others⟩ := embeds.behind skippable closes run short read
  refine Outcome.embed_bind (expect_embed start) fun _ next comma => ?_
  obtain ⟨short, others, run⟩ := others next (Reader.expect_eq_ok comma)
  refine Outcome.embed_bind (embeds' next short (.of_items closes run)) fun b afterSecond read => ?_
  obtain ⟨⟨pos, _, rest, start⟩, _⟩ := embeds'.behind skippable' closes run short read
  exact Outcome.embed_bind (expect_embed start) fun _ last closed => rfl

/-! ### All readers -/

/-- Whatever is put together from tokens, containers and checks reads the same in the part and in the whole, if the
    records in it do. -/
theorem Alike.embeds {record record' : S → Reader Val} {reader reader' : Reader α}
    (alike : Alike record record' reader reader') (skippable : ∀ s, (record s).Skippable)
    (records : ∀ s, Embeds shift tail n (record s) (record' s)) : Embeds shift tail n reader reader' := by
  induction alike with
  | record s => exact records s
  | fail expected reported => exact fail_embeds expected _
  | number expected => exact number_embeds expected
  | stringBytes expected => exact stringBytes_embeds expected
  | passValue expected => exact passValue_embeds expected
  | captured expected f => exact captured_embeds expected f
  | map f _ ih => exact ih.map f
  | wordOr mem found _ ih => exact .wordOr mem found ih
  | afterPeek _ ih => exact .afterPeek ih
  | checked expected _ _ ih => exact ih.checked
  | judged expected _ _ ih => exact ih.judged
  | inlineList expected alike ih => exact ih.inlineList (alike.skippable skippable)
  | object expected alike ih =>
      exact (Embeds.object ih fun key => (alike key).skippable skippable).of_le (Nat.le_succ n)
  | twoOf expected f alike alike' ih ih' =>
      exact ih.twoOf ih' (alike.skippable skippable) (alike'.skippable skippable)

end Reader

/-! ### All types -/

section Types

variable (schema : Schema S) (store : Option BlobView)

/-- Records read the same in the part and in the whole, with any bounds that cover the part.  The induction is on the
    length of the part, of which a record takes at least its opening brace. -/
theorem readRecord_embeds {n bound bound' : Nat} (le : n ≤ bound) (le' : n ≤ bound') (s : S) :
    Embeds shift tail n (readRecord schema store bound s) (readRecord schema store bound' s) := by
  induction n generalizing bound bound' s with
  | zero =>
      intro c short ahead
      obtain ⟨pos, b, rest, start⟩ := ahead.visible
      have blank := Items.skipSpace_length_le c
      rw [start, List.length_cons] at blank
      omega
  | succ n ih =>
      obtain ⟨bound, rfl⟩ := Nat.exists_eq_succ_of_ne_zero (Nat.ne_zero_of_lt le)
      obtain ⟨bound', rfl⟩ := Nat.exists_eq_succ_of_ne_zero (Nat.ne_zero_of_lt le')
      have skippable := readRecord_skippable store schema bound
      have records := fun s => ih (Nat.le_of_succ_le_succ le) (Nat.le_of_succ_le_succ le') s
      have alike : ∀ f : Field S, Alike (readRecord schema store bound) (readRecord schema store bound') _ _ :=
        fun f => f.type.readWith_alike store schema
      refine Embeds.map (.object (fun key => ?_) fun key => ?_) _
      · exact (fieldValue_alike alike key).embeds skippable records
      · exact (fieldValue_alike alike key).skippable skippable

variable {schema store}

/-- A text decodes to the value that is read in it with nothing but white space behind. -/
theorem decode_eq_ok_iff {t : Ty S} {text : Bytes} {v : Val} :
    decode schema store t text = .ok v ↔
      ∃ stop, t.read schema store (Cursor.start text) = .ok v stop ∧ Blank stop.rest := by
  have blank_iff (c : Cursor) : c.skipSpace.atEnd = true ↔ Blank c.rest := by
    simp [Cursor.atEnd, Cursor.skipSpace, Cursor.skipWhile, Blank, List.dropWhile_eq_nil_iff]
  unfold decode
  simp only [Scan.bind_apply]
  cases t.read schema store (Cursor.start text) with
  | fail failure stop => simp
  | ok v' stop =>
      by_cases ended : stop.skipSpace.atEnd = true
      · simp [finish, ended, ← blank_iff]
      · simp [finish, ended, ← blank_iff, Reader.fail, failAt, Scan.fail]

/-- A value behind which a text ends is what the text decodes to. -/
theorem decode_of_read {t : Ty S} {text : Bytes} {v : Val} {stop : Cursor}
    (read : t.read schema store (Cursor.start text) = .ok v stop) (atEnd : stop.rest = []) :
    decode schema store t text = .ok v :=
  decode_eq_ok_iff.2 ⟨stop, read, by simp [atEnd, Blank]⟩

/-- A failure of reading is what the text fails with. -/
theorem decode_of_fail {t : Ty S} {text : Bytes} {failure : Failure} {stop : Cursor}
    (read : t.read schema store (Cursor.start text) = .fail failure stop) :
    decode schema store t text = .error (failure.inText text) := by
  simp only [decode, Scan.bind_apply, read, Outcome.bind_fail]

/-- The place of a part at which all that is left is what follows the part is its end. -/
theorem Cursor.rest_of_embed_self {later stop : Cursor} (ended : later = stop.embed shift later.rest) :
    stop.rest = [] := by
  have rest : later.rest = stop.rest ++ later.rest := congrArg Cursor.rest ended
  exact List.append_left_eq_self.1 rest.symm

/-- A type reads from the text of a value that is passed over what it reads where the value stands. -/
theorem Ty.read_embed (t : Ty S) {c later : Cursor} {raw : Bytes} (spans : c.skipSpace.Spans raw later)
    (skipped : skipValue 0 c = .ok () later) :
    t.read schema store c = (t.read schema store (Cursor.start raw)).embed c.skipSpace.pos later.rest := by
  have place : (Cursor.start raw).embed c.skipSpace.pos later.rest = c.skipSpace := by
    rw [Cursor.start, Cursor.embed, Nat.zero_add]
    exact spans.places.1.symm
  have part : raw.length ≤ c.rest.length := by
    have lengths := congrArg List.length spans.1
    have blank := Items.skipSpace_length_le c
    rw [List.length_append] at lengths
    omega
  have ahead : Ahead c.skipSpace.pos later.rest (Cursor.start raw) := by
    have whole : skipNested (maxNesting + 1) ((Cursor.start raw).embed c.skipSpace.pos later.rest) = .ok () later := by
      rw [place, ← skipValue_zero, skipValue_skipSpace]
      exact skipped
    obtain ⟨stop, same, passed⟩ := skipNested_of_embed whole (Nat.le_refl _)
    exact .value passed (same ▸ whole)
  have records : ∀ s, Embeds c.skipSpace.pos later.rest raw.length (readRecord schema store c.rest.length s)
      (readRecord schema store raw.length s) := readRecord_embeds schema store part (Nat.le_refl _)
  have alike : Alike (readRecord schema store c.rest.length) (readRecord schema store raw.length) _ _ :=
    t.readWith_alike store schema
  have same := alike.embeds (readRecord_skippable store schema _) records (Cursor.start raw) (Nat.le_refl _) ahead
  rw [place, t.readWith_skipsSpace schema store (readRecord_skipsSpace schema store _)] at same
  exact same

/-- Reading a value as kept text and decoding that text later is reading it in its place: a type reads a value where
    it stands exactly if it decodes the kept text to that value, both end at the same place, and a failure of the one
    is the failure of the other, moved by where the kept text began. -/
theorem decode_captured {t : Ty S} {c later : Cursor} (skipped : skipValue 0 c = .ok () later) :
    ∃ raw, Ty.json.read schema store c = .ok (.json raw store.isSome) later ∧
      (∀ v stop, t.read schema store c = .ok v stop ↔ stop = later ∧ decode schema store t raw = .ok v) ∧
      ∀ failure, (∃ stop, t.read schema store c = .fail failure stop) ↔
        ∃ error, decode schema store t raw = .error error ∧
          failure = ⟨error.failure.expected, error.failure.reason, error.failure.offset + c.skipSpace.pos⟩ := by
  obtain ⟨tree, passes⟩ := skipNested_passes skipped
  obtain ⟨raw, spans, _⟩ := passes.text
  have same : t.read schema store c = (t.read schema store (Cursor.start raw)).embed c.skipSpace.pos later.rest :=
    t.read_embed spans skipped
  refine ⟨raw, ?_, ?_⟩
  · have passed : passValue Ty.jsonName c.skipSpace = .ok () later := by
      rw [passValue, lexed, skipValue_skipSpace, skipped]
      rfl
    show readJson store c = _
    simp only [readJson, Scan.bind_apply, Scan.skipSpace_apply, Scan.here_apply, Outcome.bind_ok, passed,
      Scan.pure_apply, spans.span_eq]
  · cases inner : t.read schema store (Cursor.start raw) with
    | ok v stop =>
        rw [inner, Outcome.embed_ok] at same
        obtain ⟨_, passes'⟩ := t.read_skippable store schema c v _ same
        have ended : later = stop.embed c.skipSpace.pos later.rest := passes'.stop_eq skipped
        have decoded := decode_of_read inner (Cursor.rest_of_embed_self ended)
        rw [same, ← ended, decoded]
        constructor
        · intro v' stop'
          constructor
          · rintro ⟨⟩
            exact ⟨rfl, rfl⟩
          · rintro ⟨rfl, ⟨⟩⟩
            rfl
        · intro failure
          constructor
          · rintro ⟨_, ⟨⟩⟩
          · rintro ⟨_, ⟨⟩, _⟩
    | fail failure stop =>
        rw [inner, Outcome.embed_fail] at same
        rw [same, decode_of_fail inner]
        constructor
        · intro v' stop'
          constructor
          · rintro ⟨⟩
          · rintro ⟨_, ⟨⟩⟩
        · intro failure'
          constructor
          · rintro ⟨_, ⟨⟩⟩
            exact ⟨_, rfl, rfl⟩
          · rintro ⟨_, ⟨⟩, rfl⟩
            exact ⟨_, rfl⟩

/-- A list with a trailing comma in front of more text, kept and read as numbers of which one is out of range. -/
theorem decode_captured_trailing_comma :
    let schema : Schema Empty := nofun
    let c : Cursor := ⟨2, ascii " [7, 300 ,] ,8]"⟩
    skipValue 0 c = .ok () ⟨13, ascii " ,8]"⟩ ∧
      ∃ raw, Ty.json.read schema none c = .ok (.json raw false) ⟨13, ascii " ,8]"⟩ ∧
        (∀ v stop, (Ty.list (.scalar (.int ⟨false, .w8⟩))).read schema none c = .ok v stop ↔
          stop = ⟨13, ascii " ,8]"⟩ ∧
            decode schema none (Ty.list (.scalar (.int ⟨false, .w8⟩))) raw = .ok v) ∧
        ∀ failure, (∃ stop, (Ty.list (.scalar (.int ⟨false, .w8⟩))).read schema none c = .fail failure stop) ↔
          ∃ error, decode schema none (Ty.list (.scalar (.int ⟨false, .w8⟩))) raw = .error error ∧
            failure = ⟨error.failure.expected, error.failure.reason, error.failure.offset + 3⟩ := by
  intro schema c
  have skipped : skipValue 0 c = .ok () ⟨13, ascii " ,8]"⟩ := by decide +kernel
  exact ⟨skipped, decode_captured skipped⟩

end Types

end JsonSidecar
