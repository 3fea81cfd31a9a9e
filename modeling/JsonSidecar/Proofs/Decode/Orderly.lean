/-
Module: JsonSidecar.Proofs.Decode.Orderly
Purpose: How readers fail.  A precise reader moves on in its text and stops at a seam, and when it fails it names what
  was wrong at a seam that it came to.  Tokens, loops and checks are precise, and so is whatever is put together from
  them.  What is precise is orderly: a failure lies between where the reader began and the end of the text.
Main exports: Reader.Orderly, Reader.Precise, Reader.Alike.precise, Ty.read_precise, Ty.read_orderly
-/
import JsonSidecar.Proofs.Decode.Alike
import JsonSidecar.Proofs.Lexer.Onward

namespace JsonSidecar

open Reader Cursor

variable {S α β γ : Type}

/-! ### Orderly and precise outcomes -/

/-- What reading from a cursor comes to: the cursor has moved on, and a failure names what was wrong at a place of the
    text that is not behind the beginning. -/
structure Outcome.Orderly (c : Cursor) (r : Outcome Failure α) : Prop where
  reaches : c.Reaches r.cursor
  failure : ∀ e stop, r = .fail e stop →
    e.reason.Reported ∧ c.pos ≤ e.offset ∧ e.offset ≤ c.pos + c.rest.length

/-- What reading from a cursor comes to, more exactly: the cursor has moved on to a seam, and a failure names what was
    wrong at a seam. -/
structure Outcome.Precise (c : Cursor) (r : Outcome Failure α) : Prop where
  reaches : c.ReachesSeam r.cursor
  failure : ∀ e stop, r = .fail e stop → e.reason.Reported ∧ ∃ place, c.ReachesSeam place ∧ e.offset = place.pos

namespace Outcome

theorem precise_ok {c later : Cursor} (reaches : c.ReachesSeam later) (a : α) :
    (Outcome.ok a later : Outcome Failure α).Precise c where
  reaches := reaches
  failure := nofun

/-- A failure at a seam that was reached, reported where the cursor stands or elsewhere on the way. -/
theorem precise_fail {c place stop : Cursor} (reaches : c.ReachesSeam place) (reaches' : c.ReachesSeam stop)
    (expected : String) {reason : Reason} (reported : reason.Reported) :
    (Outcome.fail ⟨expected, reason, place.pos⟩ stop : Outcome Failure α).Precise c where
  reaches := reaches'
  failure := by
    rintro e _ ⟨⟩
    exact ⟨reported, place, reaches, rfl⟩

namespace Precise

theorem orderly {c : Cursor} {r : Outcome Failure α} (precise : r.Precise c) : r.Orderly c where
  reaches := precise.reaches.reaches
  failure e stop failed := by
    obtain ⟨reported, place, reaches, offset⟩ := precise.failure e stop failed
    rw [offset, ← reaches.reaches.end_eq]
    exact ⟨reported, reaches.reaches.pos_le, Nat.le_add_right ..⟩

/-- What is precise from a later seam is precise from here. -/
theorem of_reachesSeam {c d : Cursor} {r : Outcome Failure α} (precise : r.Precise d) (reaches : c.ReachesSeam d) :
    r.Precise c where
  reaches := reaches.trans precise.reaches
  failure e stop failed := by
    obtain ⟨reported, place, reaches', offset⟩ := precise.failure e stop failed
    exact ⟨reported, place, reaches.trans reaches', offset⟩

theorem bind {c : Cursor} {r : Outcome Failure α} {f : α → Cursor → Outcome Failure β} (precise : r.Precise c)
    (next : ∀ a later, r = .ok a later → c.ReachesSeam later → (f a later).Precise c) : (r.bind f).Precise c := by
  cases r with
  | ok a later => exact next a later rfl precise.reaches
  | fail e stop =>
      refine ⟨precise.reaches, ?_⟩
      rintro _ _ ⟨⟩
      exact precise.failure e stop rfl

theorem map {c : Cursor} {r : Outcome Failure α} (precise : r.Precise c) (f : α → β) : (r.map f).Precise c := by
  cases r with
  | ok a later => exact precise_ok precise.reaches _
  | fail e stop =>
      refine ⟨precise.reaches, ?_⟩
      rintro _ _ ⟨⟩
      exact precise.failure e stop rfl

end Precise

end Outcome

/-- Wherever the reader is run, its outcome is orderly. -/
def Reader.Orderly (reader : Reader α) : Prop := ∀ c : Cursor, (reader c).Orderly c

/-- Wherever the reader is run, its outcome is precise. -/
def Reader.Precise (reader : Reader α) : Prop := ∀ c : Cursor, (reader c).Precise c

namespace Reader

open Outcome

theorem Precise.orderly {reader : Reader α} (precise : reader.Precise) : reader.Orderly :=
  fun c => (precise c).orderly

/-! ### Tokens -/

theorem fail_precise (expected : String) {reason : Reason} (reported : reason.Reported) :
    (fail expected reason : Reader α).Precise :=
  fun c => precise_fail (.refl c) (.refl c) expected reported

theorem lexed_precise (expected : String) {scan : Scan LexError α} (tidy : scan.Tidy) :
    (lexed expected scan).Precise := by
  intro c
  have reaches := tidy c
  unfold lexed
  cases scanned : scan c with
  | ok a later =>
      rw [scanned] at reaches
      exact precise_ok reaches a
  | fail e stop =>
      rw [scanned] at reaches
      exact precise_fail reaches reaches expected trivial

theorem expect_precise (expected : String) {b : UInt8} (ascii : b < 0x80) {reason : Reason}
    (reported : reason.Reported) : (expect expected b reason).Precise := by
  intro c
  unfold expect Scan.expect
  cases eaten : c.skipSpace.eat? b with
  | some later => exact precise_ok (.skipSpace_eat? eaten ascii) ()
  | none => exact precise_fail (.skipSpace c) (.skipSpace c) expected reported

theorem number_precise (expected : String) : (number expected).Precise :=
  fun c => (lexed_precise expected NumberLiteral.scan_tidy _).of_reachesSeam (.skipSpace c)

theorem stringBytes_precise (expected : String) : (stringBytes expected).Precise :=
  fun c => (lexed_precise expected Quoted.read_tidy _).of_reachesSeam (.skipSpace c)

theorem passValue_precise (expected : String) : (passValue expected).Precise :=
  lexed_precise expected (skipNested_tidy _)

theorem finish_precise (expected : String) : (finish expected).Precise := by
  intro c
  unfold finish
  split
  · exact precise_ok (.skipSpace c) ()
  · exact precise_fail (.skipSpace c) (.skipSpace c) expected trivial

theorem word_precise {pattern : Bytes} (ascii : ∀ b ∈ pattern, b < 0x80) : (word pattern).Precise := by
  intro c
  unfold word
  cases matched : matchWord? pattern c with
  | some later => exact precise_ok (matchWord?_reachesSeam ascii matched) true
  | none => exact precise_ok (.refl c) false

theorem peek_precise : peek.Precise := fun c => precise_ok (.skipSpace c) _

theorem number_orderly (expected : String) : (number expected).Orderly := (number_precise expected).orderly

theorem finish_orderly (expected : String) : (finish expected).Orderly := (finish_precise expected).orderly

/-! ### Ways to put readers together -/

theorem Precise.map {reader : Reader α} (precise : reader.Precise) (f : α → β) : Precise (f <$> reader) := by
  intro c
  rw [Scan.map_apply]
  exact (precise c).map f

theorem Precise.bind {reader : Reader α} (precise : reader.Precise) {next : α → Reader β}
    (precise' : ∀ a, (next a).Precise) : Precise (reader >>= next) :=
  fun c => (precise c).bind fun a later _ reaches => (precise' a later).of_reachesSeam reaches

theorem Precise.wordOr {other : Reader α} (precise : other.Precise) {pattern : Bytes}
    (ascii : ∀ b ∈ pattern, b < 0x80) (found : α) : (Reader.wordOr pattern found other).Precise := by
  refine (word_precise ascii).bind fun matched => ?_
  cases matched with
  | true => exact fun c => precise_ok (.refl c) found
  | false => exact precise

/-- What a check refuses is reported where the value begins, behind the white space in front of it. -/
theorem Precise.checked {reader : Reader α} {verdict : α → Except Reason β} (precise : reader.Precise)
    (expected : String) (reported : ∀ a reason, verdict a = .error reason → reason.Reported) :
    (Reader.checked expected reader verdict).Precise := by
  intro c
  refine Outcome.Precise.of_reachesSeam ?_ (.skipSpace c)
  refine (precise c.skipSpace).bind fun a later _ reaches => ?_
  dsimp only
  cases judged : verdict a with
  | ok b => exact precise_ok reaches b
  | error reason => exact precise_fail (.refl _) reaches expected (reported a reason judged)

theorem Precise.judged {reader : Reader α} {verdict : α → Except Reason β} (precise : reader.Precise)
    (expected : String) (reported : ∀ a reason, verdict a = .error reason → reason.Reported) :
    (Reader.judged expected reader verdict).Precise := by
  refine precise.bind fun a => ?_
  cases judged : verdict a with
  | ok b => exact fun c => precise_ok (.refl c) b
  | error reason => exact fail_precise expected (reported a reason judged)

theorem captured_precise (expected : String) (f : Bytes → α) : (captured expected f).Precise := by
  intro c
  refine Outcome.Precise.of_reachesSeam ?_ (.skipSpace c)
  exact (passValue_precise expected c.skipSpace).bind fun _ later _ reaches => precise_ok reaches _

/-- The loop over a list is precise, if its items are. -/
theorem items_precise {close : UInt8} (ascii : close < 0x80) {expected : String} {error : LexError} {item : Reader α}
    (precise : item.Precise) (bound : Nat) :
    Reader.Precise (Scan.items close (fun stop => ⟨expected, .malformed error, stop.pos⟩) item bound) := by
  induction bound with
  | zero => exact fun c => precise_fail (.refl c) (.refl c) expected trivial
  | succ bound ih =>
      intro c
      cases closed : c.skipSpace.eat? close with
      | some later =>
          simp only [Scan.items, closed]
          exact precise_ok (.skipSpace_eat? closed ascii) []
      | none =>
          rw [Scan.items_open closed]
          refine ((precise c.skipSpace).of_reachesSeam (.skipSpace c)).bind fun a after _ reaches => ?_
          refine Outcome.Precise.of_reachesSeam ?_ reaches
          unfold Scan.afterItem
          cases comma : after.skipSpace.eat? Byte.comma with
          | some next => exact ((ih next).map _).of_reachesSeam (.skipSpace_eat? comma (by decide))
          | none =>
              cases ended : after.skipSpace.eat? close with
              | some later => exact precise_ok (.skipSpace_eat? ended ascii) [a]
              | none => exact precise_fail (.skipSpace after) (.skipSpace after) expected trivial

theorem Precise.inlineList {item : Reader α} (precise : item.Precise) (expected : String) :
    (Reader.inlineList expected item).Precise :=
  (expect_precise expected (by decide) (by trivial)).bind fun _ c => items_precise (by decide) precise _ c

theorem memberKey_precise (expected : String) : (memberKey expected).Precise :=
  (stringBytes_precise expected).bind fun key =>
    (expect_precise expected (by decide) (by trivial)).bind fun _ c => precise_ok (.refl c) key

theorem Precise.member {value : Bytes → Reader β} (precise : ∀ key, (value key).Precise) (expected : String) :
    (Reader.member expected value).Precise :=
  (memberKey_precise expected).bind fun name => (precise name).bind fun v c => precise_ok (.refl c) (name, v)

theorem Precise.object {value : Bytes → Reader β} (precise : ∀ key, (value key).Precise) (expected : String) :
    (Reader.object expected value).Precise :=
  (expect_precise expected (by decide) (by trivial)).bind fun _ c =>
    items_precise (by decide) (.member precise expected) _ c

theorem Precise.twoOf {first : Reader α} {second : Reader β} (precise : first.Precise) (precise' : second.Precise)
    (expected : String) (f : α → β → γ) : (Reader.twoOf expected f first second).Precise :=
  (expect_precise expected (by decide) (by trivial)).bind fun _ => precise.bind fun a =>
    (expect_precise expected (by decide) (by trivial)).bind fun _ => precise'.bind fun b =>
      (expect_precise expected (by decide) (by trivial)).bind fun _ c => precise_ok (.refl c) (f a b)

/-- Whatever is put together from tokens, containers and checks is precise, if the records in it are. -/
theorem Alike.precise {record record' : S → Reader Val} {reader reader' : Reader α}
    (alike : Alike record record' reader reader') (records : ∀ s, (record s).Precise) : reader.Precise := by
  induction alike with
  | record s => exact records s
  | fail expected reported => exact fail_precise expected reported
  | number expected => exact number_precise expected
  | stringBytes expected => exact stringBytes_precise expected
  | passValue expected => exact passValue_precise expected
  | captured expected f => exact captured_precise expected f
  | map f _ ih => exact ih.map f
  | wordOr mem found _ ih => exact ih.wordOr (Word.ascii mem) found
  | afterPeek _ ih => exact peek_precise.bind ih
  | checked expected reported _ ih => exact ih.checked expected reported
  | judged expected reported _ ih => exact ih.judged expected reported
  | inlineList expected _ ih => exact ih.inlineList expected
  | object expected _ ih => exact .object ih expected
  | twoOf expected f _ _ ih ih' => exact ih.twoOf ih' expected f

end Reader

/-! ### All types -/

section Types

variable (schema : Schema S) (store : Option BlobView)

theorem Ty.readWith_precise {record : S → Reader Val} (precise : ∀ s, (record s).Precise) (t : Ty S) :
    (t.readWith schema store record).Precise :=
  Alike.precise (t.readWith_alike store schema : Alike record record _ _) precise

theorem readRecord_precise (bound : Nat) (s : S) : (readRecord schema store bound s).Precise := by
  induction bound generalizing s with
  | zero => exact fun c => Outcome.precise_fail (.skipSpace c) (.skipSpace c) _ trivial
  | succ bound ih => exact (readRecord_alike store schema bound bound s).precise ih

/-- Reading a type is precise, whatever the type. -/
theorem Ty.read_precise (t : Ty S) : (t.read schema store).Precise := by
  intro c
  exact t.readWith_precise schema store (readRecord_precise schema store c.rest.length) c

theorem Ty.read_orderly (t : Ty S) : (t.read schema store).Orderly := (t.read_precise schema store).orderly

end Types

end JsonSidecar
