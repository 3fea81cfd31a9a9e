/-
Module: JsonSidecar.Proofs.Lexer.Onward
Purpose: Scanners only move on, and stop at seams.  Wherever a scan ends, whether it succeeds or fails in the middle of
  a token, the cursor it leaves is a later place of the same text, and no character reaches over that place.  What a
  token is made of is ASCII text, up to the contents of string literals, and these are left at ASCII bytes only.
Main exports: Cursor.Reaches, Cursor.ReachesSeam, Scan.Tidy, NumberLiteral.scan_tidy, Quoted.scan_tidy,
  skipNested_tidy
-/
import JsonSidecar.Proofs.Lexer.Skip
import JsonSidecar.Proofs.Text.Parts

namespace JsonSidecar

open Utf8 (Seam)

variable {ε α β : Type}

/-! ### Later places of a text -/

namespace Cursor

/-- The second cursor is the first one or a later place in its text. -/
def Reaches (c later : Cursor) : Prop := ∃ w, c.Spans w later

theorem Spans.reaches {c later : Cursor} {w : Bytes} (spans : c.Spans w later) : c.Reaches later := ⟨w, spans⟩

namespace Reaches

theorem trans {a b c : Cursor} (first : a.Reaches b) (second : b.Reaches c) : a.Reaches c := by
  obtain ⟨u, first⟩ := first
  obtain ⟨w, second⟩ := second
  exact (first.trans second).reaches

theorem pos_le {c later : Cursor} (reaches : c.Reaches later) : c.pos ≤ later.pos := by
  obtain ⟨w, _, pos⟩ := reaches
  rw [pos]
  exact Nat.le_add_right ..

/-- All places of a text are as far from its end as there are bytes ahead. -/
theorem end_eq {c later : Cursor} (reaches : c.Reaches later) :
    later.pos + later.rest.length = c.pos + c.rest.length := by
  obtain ⟨w, rest, pos⟩ := reaches
  rw [rest, pos, List.length_append, Nat.add_assoc]

end Reaches

/-! ### Later seams of a text -/

/-- The second cursor is the first one, or a later seam of its text. -/
def ReachesSeam (c later : Cursor) : Prop := ∃ w, c.Spans w later ∧ Seam w later.rest

namespace ReachesSeam

theorem reaches {c later : Cursor} (reaches : c.ReachesSeam later) : c.Reaches later := by
  obtain ⟨w, spans, _⟩ := reaches
  exact spans.reaches

theorem refl (c : Cursor) : c.ReachesSeam c := ⟨[], Spans.refl c, .start _⟩

theorem trans {a b c : Cursor} (first : a.ReachesSeam b) (second : b.ReachesSeam c) : a.ReachesSeam c := by
  obtain ⟨u, spans, seam⟩ := first
  obtain ⟨w, spans', seam'⟩ := second
  rw [spans'.1] at seam
  exact ⟨u ++ w, spans.trans spans', seam'.append_left seam⟩

/-- Behind ASCII text there is a seam. -/
theorem of_ascii {c later : Cursor} {w : Bytes} (spans : c.Spans w later) (ascii : ∀ b ∈ w, b < 0x80) :
    c.ReachesSeam later := by
  refine ⟨w, spans, ?_⟩
  rcases List.eq_nil_or_concat' w with rfl | ⟨front, b, rfl⟩
  · exact .start _
  · exact .behind front (ascii b (by simp)) _

theorem skipSpace (c : Cursor) : c.ReachesSeam c.skipSpace := by
  refine .of_ascii (skipSpace_spans c) fun b mem => ?_
  have blank : Byte.isSpace b = true := List.all_eq_true.1 List.all_takeWhile b mem
  simp only [Byte.isSpace, Bool.or_eq_true, beq_iff_eq] at blank
  rcases blank with ((rfl | rfl) | rfl) | rfl <;> decide

theorem eat? {b : UInt8} {c later : Cursor} (h : c.eat? b = some later) (ascii : b < 0x80) : c.ReachesSeam later :=
  .of_ascii (eat?_spans h) (by simpa using ascii)

theorem skipSpace_eat? {b : UInt8} {c later : Cursor} (h : c.skipSpace.eat? b = some later) (ascii : b < 0x80) :
    c.ReachesSeam later :=
  (skipSpace c).trans (eat? h ascii)

end ReachesSeam

end Cursor

open Cursor

/-- Wherever the scan of a text ends, it ends at a later seam of the text. -/
def Scan.Tidy (scan : Scan ε α) : Prop := ∀ c : Cursor, c.ReachesSeam (scan c).cursor

namespace Outcome

@[simp] theorem cursor_map (r : Outcome ε α) (f : α → β) : (r.map f).cursor = r.cursor := by
  cases r <;> rfl

/-- Going on from a later seam ends at a later seam. -/
theorem bind_reachesSeam {c : Cursor} {r : Outcome ε α} {f : α → Cursor → Outcome ε β} (first : c.ReachesSeam r.cursor)
    (next : ∀ a later, r = .ok a later → later.ReachesSeam (f a later).cursor) :
    c.ReachesSeam (r.bind f).cursor := by
  cases r with
  | ok a later => exact first.trans (next a later rfl)
  | fail e stop => exact first

end Outcome

/-! ### Numbers -/

namespace Byte

theorem isDigit_ascii {b : UInt8} (digit : isDigit b = true) : b < 0x80 := by
  simp only [isDigit, Bool.and_eq_true, decide_eq_true_eq] at digit
  exact UInt8.lt_of_le_of_lt digit.2 (by decide)

theorem isSign_ascii {b : UInt8} (sign : isSign b = true) : b < 0x80 := by
  simp only [isSign, Bool.or_eq_true, beq_iff_eq] at sign
  rcases sign with rfl | rfl <;> decide

theorem isExponentMark_ascii {b : UInt8} (mark : isExponentMark b = true) : b < 0x80 := by
  simp only [isExponentMark, Bool.or_eq_true, beq_iff_eq] at mark
  rcases mark with rfl | rfl <;> decide

theorem hexValue?_ascii {b : UInt8} {n : Nat} (hex : hexValue? b = some n) : b < 0x80 := by
  unfold hexValue? at hex
  split at hex
  · exact isDigit_ascii ‹_›
  split at hex
  · rename_i lower
    simp only [Bool.and_eq_true, decide_eq_true_eq] at lower
    exact UInt8.lt_of_le_of_lt lower.2 (by decide)
  split at hex
  · rename_i upper
    simp only [Bool.and_eq_true, decide_eq_true_eq] at upper
    exact UInt8.lt_of_le_of_lt upper.2 (by decide)
  · cases hex

end Byte

namespace NumberLiteral

theorem scanSign_tidy (c : Cursor) : c.ReachesSeam (scanSign c).2 := by
  obtain ⟨spans, sign⟩ := scanSign_sound c
  exact .of_ascii spans fun b mem => Byte.isSign_ascii (sign b (by simpa using mem))

theorem scanDigits_tidy (c : Cursor) : c.ReachesSeam (scanDigits c).2 := by
  obtain ⟨spans, digits⟩ := scanDigits_sound c
  exact .of_ascii spans fun b mem => Byte.isDigit_ascii (digits b mem)

theorem scanFraction_tidy (c : Cursor) : c.ReachesSeam (scanFraction c).2 := by
  unfold scanFraction
  cases eaten : c.eat? Byte.dot with
  | none => exact .refl c
  | some after => exact (ReachesSeam.eat? eaten (by decide)).trans (scanDigits_tidy after)

/-- A mark without digits is reported where it stands. -/
theorem scanExponent_tidy : Scan.Tidy scanExponent := by
  rintro ⟨pos, rest⟩
  cases rest with
  | nil => exact .refl _
  | cons mark rest =>
      cases isMark : Byte.isExponentMark mark with
      | false =>
          simp only [scanExponent, Cursor.passIf?, isMark, Bool.false_eq_true, if_false]
          exact .refl _
      | true =>
          have one : (⟨pos, mark :: rest⟩ : Cursor).ReachesSeam ⟨pos + 1, rest⟩ :=
            .of_ascii (w := [mark]) ⟨rfl, rfl⟩ (by simpa using Byte.isExponentMark_ascii isMark)
          simp only [scanExponent, Cursor.passIf?, isMark, if_true]
          split
          · exact .refl _
          · exact (one.trans (scanSign_tidy _)).trans (scanDigits_tidy _)

theorem scan_tidy : Scan.Tidy scan := by
  intro c
  simp only [scan]
  split
  · exact .refl c
  · rw [Outcome.cursor_map]
    exact (((scanSign_tidy c).trans (scanDigits_tidy _)).trans (scanFraction_tidy _)).trans (scanExponent_tidy _)

end NumberLiteral

/-! ### String literals -/

namespace Quoted

/-- A byte is out of place in a string literal if it is a control byte, or if it stands in a numeric escape. -/
theorem step_stop {state : State} {b : UInt8} {error : LexError} (stop : step state b = .stop error) :
    b < 0x80 ∨ state ≠ .plain := by
  cases state with
  | plain =>
      simp only [step] at stop
      split at stop
      · cases stop
      split at stop
      · cases stop
      split at stop
      · rename_i control
        exact .inl (UInt8.lt_trans (by simpa [Byte.isControl] using control) (by decide))
      · cases stop
  | escaped => exact .inr (by simp)
  | numeric left code wide => exact .inr (by simp)

/-- Within an escape there stand ASCII bytes. -/
theorem step_next {state next : State} {b : UInt8} {content : Bytes} (moved : step state b = .next content next) :
    b < 0x80 ∨ next = .plain := by
  cases state with
  | plain =>
      simp only [step] at moved
      split at moved
      · cases moved
      split at moved
      · rename_i backslash
        exact .inl (backslash ▸ by decide)
      split at moved
      · cases moved
      · cases moved
        exact .inr rfl
  | escaped =>
      by_cases narrow : b = 0x78
      · exact .inl (narrow ▸ by decide)
      by_cases wide : b = 0x75
      · exact .inl (wide ▸ by decide)
      obtain ⟨yielded, taken⟩ := escape_plain narrow wide
      rw [step, taken] at moved
      cases moved
      exact .inr rfl
  | numeric left code wide =>
      simp only [step] at moved
      cases hex : Byte.hexValue? b with
      | none =>
          rw [hex] at moved
          cases moved
      | some d => exact .inl (Byte.hexValue?_ascii hex)

/-- Where a literal ends or the scan of it stops, there is a seam, if there is one at its present place or else no
    escape is in progress.  In the middle of a character no escape begins and no byte is out of place. -/
theorem body_seam (state : State) (pos : Nat) (front rest : Bytes) (held : state ≠ .plain → ∀ v, Seam front v) :
    ∃ w, (⟨pos, rest⟩ : Cursor).Spans w (body state pos rest).2.cursor ∧
      Seam (front ++ w) (body state pos rest).2.cursor.rest := by
  induction rest generalizing state pos front with
  | nil => exact ⟨[], Spans.refl _, .finish _⟩
  | cons b rest ih =>
      have one : (⟨pos, b :: rest⟩ : Cursor).Spans [b] ⟨pos + 1, rest⟩ := ⟨rfl, rfl⟩
      simp only [body]
      cases taken : step state b with
      | close => exact ⟨[b], one, .behind front ((step_eq_close taken).2 ▸ by decide) rest⟩
      | stop error =>
          refine ⟨[], Spans.refl _, ?_⟩
          rw [List.append_nil]
          rcases step_stop taken with ascii | inside
          · exact .before front ascii rest
          · exact held inside _
      | next content next =>
          obtain ⟨w, spans, seam⟩ := ih next (pos + 1) (front ++ [b]) fun inside v =>
            .behind front ((step_next taken).resolve_right inside) v
          exact ⟨b :: w, one.cons spans, by simpa using seam⟩

theorem scan_tidy (c : Cursor) : c.ReachesSeam (scan c).2.cursor := by
  unfold scan
  cases eaten : c.eat? Byte.quote with
  | none => exact .refl c
  | some after =>
      obtain ⟨w, spans, seam⟩ := body_seam .plain after.pos [Byte.quote] after.rest (absurd rfl)
      exact ⟨Byte.quote :: w, (eat?_spans eaten).cons spans, seam⟩

theorem skip_tidy : Scan.Tidy skip := scan_tidy

theorem read_tidy : Scan.Tidy read := by
  intro c
  rw [read, Outcome.cursor_map]
  exact scan_tidy c

end Quoted

/-! ### Words -/

/-- The fixed words are ASCII text. -/
theorem Word.ascii {word : Bytes} (mem : word ∈ [Word.true, Word.false, Word.null]) : ∀ b ∈ word, b < 0x80 := by
  simp only [List.mem_cons, List.not_mem_nil, or_false] at mem
  rcases mem with rfl | rfl | rfl <;> decide +kernel

theorem skipExact_tidy {word : Bytes} (ascii : ∀ b ∈ word, b < 0x80) : Scan.Tidy (skipExact word) := by
  intro c
  unfold skipExact
  cases eaten : Cursor.eatAll? word c with
  | none => exact .refl c
  | some later => exact .of_ascii (eatAll?_spans eaten) ascii

theorem matchPattern?_reachesSeam {pattern : Bytes} (ascii : ∀ b ∈ pattern, b < 0x80) {c later : Cursor}
    (h : matchPattern? pattern c = some later) : c.ReachesSeam later := by
  induction pattern generalizing c with
  | nil =>
      cases h
      exact .refl _
  | cons b pattern ih =>
      have others : ∀ x ∈ pattern, x < 0x80 := fun x mem => ascii x (List.mem_cons_of_mem b mem)
      rw [matchPattern?] at h
      split at h
      · exact (ReachesSeam.skipSpace c).trans (ih others h)
      · obtain ⟨next, eaten, rest⟩ := Option.bind_eq_some_iff.1 h
        exact (ReachesSeam.eat? eaten (ascii b (by simp))).trans (ih others rest)

theorem matchWord?_reachesSeam {pattern : Bytes} (ascii : ∀ b ∈ pattern, b < 0x80) {c later : Cursor}
    (h : matchWord? pattern c = some later) : c.ReachesSeam later :=
  (ReachesSeam.skipSpace c).trans (matchPattern?_reachesSeam ascii h)

/-! ### Containers -/

theorem Scan.expect_tidy {b : UInt8} (ascii : b < 0x80) (missing : Cursor → ε) : (Scan.expect b missing).Tidy := by
  intro c
  unfold Scan.expect
  cases eaten : c.skipSpace.eat? b with
  | none => exact .skipSpace c
  | some later => exact .skipSpace_eat? eaten ascii

theorem Scan.items_tidy {close : UInt8} (ascii : close < 0x80) {missing : Cursor → ε} {item : Scan ε α}
    (tidy : item.Tidy) (bound : Nat) : (Scan.items close missing item bound).Tidy := by
  induction bound with
  | zero => exact fun c => .refl c
  | succ bound ih =>
      intro c
      cases closed : c.skipSpace.eat? close with
      | some later =>
          simp only [Scan.items, closed]
          exact .skipSpace_eat? closed ascii
      | none =>
          rw [Scan.items_open closed]
          refine Outcome.bind_reachesSeam ((ReachesSeam.skipSpace c).trans (tidy _)) fun a after _ => ?_
          unfold Scan.afterItem
          cases comma : after.skipSpace.eat? Byte.comma with
          | some next =>
              simp only [Outcome.cursor_map]
              exact (ReachesSeam.skipSpace_eat? comma (by decide)).trans (ih next)
          | none =>
              cases ended : after.skipSpace.eat? close with
              | some later => exact .skipSpace_eat? ended ascii
              | none => exact .skipSpace after

theorem skipMemberWith_tidy {value : Scan LexError Unit} (tidy : value.Tidy) : (skipMemberWith value).Tidy := by
  intro c
  refine Outcome.bind_reachesSeam ((ReachesSeam.skipSpace c).trans (Quoted.skip_tidy _)) fun _ afterKey _ => ?_
  exact Outcome.bind_reachesSeam (Scan.expect_tidy (by decide) _ afterKey) fun _ afterColon _ => tidy afterColon

theorem skipNested_tidy (levels : Nat) : (skipNested levels).Tidy := by
  induction levels with
  | zero => exact fun c => .refl c
  | succ levels ih =>
      intro c
      cases start : c.skipSpace with
      | mk pos rest =>
          have space : c.ReachesSeam ⟨pos, rest⟩ := start ▸ ReachesSeam.skipSpace c
          cases rest with
          | nil =>
              rw [skipNested]
              simp only [start]
              exact space
          | cons b rest =>
              have one (ascii : b < 0x80) : c.ReachesSeam ⟨pos + 1, rest⟩ :=
                space.trans (.of_ascii (w := [b]) ⟨rfl, rfl⟩ (by simpa using ascii))
              rw [Skeleton.skipNested_succ start]
              split
              · exact space.trans (Quoted.skip_tidy _)
              split
              · rename_i bracket
                rw [Outcome.cursor_map]
                exact (one (bracket ▸ by decide)).trans (Scan.items_tidy (by decide) ih _ _)
              split
              · rename_i brace
                rw [Outcome.cursor_map]
                exact (one (brace ▸ by decide)).trans (Scan.items_tidy (by decide) (skipMemberWith_tidy ih) _ _)
              split
              · exact space.trans (skipExact_tidy (Word.ascii (by simp)) _)
              split
              · exact space.trans (skipExact_tidy (Word.ascii (by simp)) _)
              split
              · exact space.trans (skipExact_tidy (Word.ascii (by simp)) _)
              split
              · rw [Outcome.cursor_map]
                exact space.trans (NumberLiteral.scan_tidy _)
              · exact space

end JsonSidecar
