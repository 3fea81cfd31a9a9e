/-
Module: JsonSidecar.Proofs.Lexer.Embed
Purpose: A text as a part of a longer one.  `Cursor.embed` is a place of the part as a place of the whole, and every
  scanner finds the same in both, as far as it stops in front of a byte of the part: only the end of the part can
  be told from the bytes behind it.
Main exports: Cursor.embed, NumberLiteral.scan_of_embed, Quoted.read_embed, skipNested_embed, skipNested_of_embed
-/
import JsonSidecar.Proofs.Lexer.Grammar

namespace JsonSidecar

/-! ### Places -/

namespace Cursor

/-- The same place in a longer text, with `shift` bytes in front of its text and `tail` behind it. -/
def embed (shift : Nat) (tail : Bytes) (c : Cursor) : Cursor := ⟨c.pos + shift, c.rest ++ tail⟩

variable {shift : Nat} {tail : Bytes}

theorem embed_injective {c later : Cursor} (same : c.embed shift tail = later.embed shift tail) : c = later := by
  have pos : c.pos + shift = later.pos + shift := congrArg Cursor.pos same
  have rest : c.rest ++ tail = later.rest ++ tail := congrArg Cursor.rest same
  cases c
  cases later
  rw [Cursor.mk.injEq]
  exact ⟨Nat.add_right_cancel pos, List.append_cancel_right rest⟩

theorem Spans.embed {c later : Cursor} {w : Bytes} (spans : c.Spans w later) :
    (c.embed shift tail).Spans w (later.embed shift tail) := by
  rcases spans with ⟨rest, pos⟩
  constructor
  · show c.rest ++ tail = w ++ (later.rest ++ tail)
    rw [rest, List.append_assoc]
  · show later.pos + shift = c.pos + shift + w.length
    rw [pos, Nat.add_right_comm]

/-- What is reached in the whole in front of all that follows the part is reached in the part. -/
theorem Spans.of_embed {c later : Cursor} {w : Bytes} (spans : (c.embed shift tail).Spans w later)
    (inside : tail.length ≤ later.rest.length) : ∃ stop : Cursor, later = stop.embed shift tail ∧ c.Spans w stop := by
  rcases spans with ⟨rest, pos⟩
  have bytes : c.rest ++ tail = w ++ later.rest := rest
  have place : later.pos = c.pos + shift + w.length := pos
  obtain ⟨ahead, front, behind⟩ : ∃ ahead, c.rest = w ++ ahead ∧ later.rest = ahead ++ tail := by
    rcases List.append_eq_append_iff.1 bytes with ⟨more, front, behind⟩ | split
    · have none : more = [] := by
        have lengths := congrArg List.length behind
        rw [List.length_append] at lengths
        exact List.length_eq_zero_iff.1 (by omega)
      rw [none, List.append_nil] at front
      rw [none, List.nil_append] at behind
      exact ⟨[], by rw [front, List.append_nil], by rw [behind, List.nil_append]⟩
    · exact split
  refine ⟨⟨c.pos + w.length, ahead⟩, ?_, front, rfl⟩
  cases later
  rw [Cursor.embed, Cursor.mk.injEq]
  exact ⟨place.trans (Nat.add_right_comm ..), behind⟩

/-- White space ends in the part if anything follows it there. -/
theorem skipSpace_embed {c : Cursor} {pos : Nat} {b : UInt8} {rest : Bytes} (start : c.skipSpace = ⟨pos, b :: rest⟩) :
    (c.embed shift tail).skipSpace = c.skipSpace.embed shift tail := by
  refine (skipSpace_spans c).embed.skipSpace_eq (blank_skipped c) fun x head => ?_
  have first : x = b := by
    rw [start] at head
    exact (Option.some.inj head).symm
  rw [first]
  exact skipSpace_rest_head (congrArg Cursor.rest start)

theorem eat?_embed {pos : Nat} {x : UInt8} {rest : Bytes} (b : UInt8) :
    ((⟨pos, x :: rest⟩ : Cursor).embed shift tail).eat? b
      = ((⟨pos, x :: rest⟩ : Cursor).eat? b).map (Cursor.embed shift tail) := by
  by_cases same : x = b
  · subst same
    rw [eat?_cons_self, Option.map_some, embed, List.cons_append, eat?_cons_self, embed, Nat.add_right_comm]
  · rw [eat?_cons_of_ne same, Option.map_none, embed, List.cons_append, eat?_cons_of_ne same]

theorem eat?_skipSpace_embed {c : Cursor} {pos : Nat} {x : UInt8} {rest : Bytes}
    (start : c.skipSpace = ⟨pos, x :: rest⟩) (b : UInt8) :
    (c.embed shift tail).skipSpace.eat? b = (c.skipSpace.eat? b).map (Cursor.embed shift tail) := by
  rw [skipSpace_embed start, start, eat?_embed]

/-- A byte of the part is passed over in the whole. -/
theorem eat?_skipSpace_embed_some {c later : Cursor} {b : UInt8} (h : c.skipSpace.eat? b = some later) :
    (c.embed shift tail).skipSpace.eat? b = some (later.embed shift tail) := by
  obtain ⟨pos, rest, start, _⟩ := eat?_eq_some h
  rw [eat?_skipSpace_embed start, h, Option.map_some]

end Cursor

variable {shift : Nat} {tail : Bytes}

/-! ### Tokens -/

namespace NumberLiteral

/-- A number of the whole that ends inside the part is a number of the part. -/
theorem scan_of_embed {c later : Cursor} {l : NumberLiteral}
    (h : scan (c.embed shift tail) = .ok l (later.embed shift tail)) : scan c = .ok l later := by
  obtain ⟨form, spans, stops⟩ := scan_eq_ok_iff.1 h
  have inside : tail.length ≤ (later.embed shift tail).rest.length := by
    rw [Cursor.embed, List.length_append]
    exact Nat.le_add_left ..
  obtain ⟨stop, same, part⟩ := spans.of_embed inside
  cases Cursor.embed_injective same
  refine scan_eq_ok_iff.2 ⟨form, part, stops.of_head? fun b head => ?_⟩
  obtain ⟨rest, first⟩ := List.head?_eq_some_iff.1 head
  rw [Cursor.embed, first]
  rfl

/-- Where no number begins, none is scanned. -/
theorem scan_of_not_begins {b : UInt8} (other : beginsNumber b = false) (pos : Nat) (rest : Bytes) :
    scan ⟨pos, b :: rest⟩ = .fail .expectedNumber ⟨pos, b :: rest⟩ := by
  simp only [beginsNumber, Bool.or_eq_false_iff, beq_eq_false_iff_ne] at other
  obtain ⟨⟨sign, dot⟩, digit⟩ := other
  simp [scan, scanSign, Cursor.passIf?, sign, scanDigits, Cursor.skipDigits, Cursor.skipWhile_cons_of_not digit,
    digit, scanFraction, Cursor.eat?_cons_of_ne dot]

end NumberLiteral

namespace Quoted

/-- The rest of a literal that is closed in a text is the same wherever the text stands. -/
theorem body_embed {state : State} {pos : Nat} {rest : Bytes} {later : Cursor}
    (h : (body state pos rest).2 = .ok () later) :
    body state (pos + shift) (rest ++ tail) = ((body state pos rest).1, .ok () (later.embed shift tail)) := by
  induction rest generalizing state pos with
  | nil => cases h
  | cons b rest ih =>
      simp only [body, List.cons_append] at h ⊢
      cases taken : step state b with
      | stop error => simp [taken] at h
      | close =>
          simp only [taken] at h ⊢
          cases h
          rw [Cursor.embed, Nat.add_right_comm]
      | next content next =>
          simp only [taken] at h ⊢
          rw [Nat.add_right_comm, ih h]

/-- A literal reads the same wherever its text stands. -/
theorem read_embed {c later : Cursor} {bytes : Bytes} (h : read c = .ok bytes later) :
    read (c.embed shift tail) = .ok bytes (later.embed shift tail) := by
  obtain ⟨_, closed, content⟩ := Outcome.map_eq_ok.1 h
  obtain ⟨pos, rest⟩ := c
  cases rest with
  | nil => cases h
  | cons x rest =>
      by_cases quote : x = Byte.quote
      · subst quote
        simp only [scan, Cursor.eat?_cons_self] at closed content
        simp only [read, scan, Cursor.embed, List.cons_append, Cursor.eat?_cons_self]
        rw [Nat.add_right_comm, body_embed closed, ← content]
        rfl
      · simp [scan, Cursor.eat?_cons_of_ne quote] at closed

theorem read_of_ne_quote {b : UInt8} (other : b ≠ Byte.quote) (pos : Nat) (rest : Bytes) :
    read ⟨pos, b :: rest⟩ = .fail .expectedString ⟨pos, b :: rest⟩ := by
  simp [read, scan, Cursor.eat?_cons_of_ne other]

end Quoted

/-! ### Values that are passed over -/

theorem Munched.embed {w rest : Bytes} (munched : Munched w rest) (more : rest ≠ []) : Munched w (rest ++ tail) := by
  rw [munched_iff] at munched ⊢
  intro l form same
  apply (munched l form same).of_head?
  intro b head
  cases rest with
  | nil => exact absurd rfl more
  | cons x rest => exact head

theorem Munched.of_embed {w rest : Bytes} (munched : Munched w (rest ++ tail)) : Munched w rest := by
  rw [munched_iff] at munched ⊢
  intro l form same
  apply (munched l form same).of_head?
  intro b head
  obtain ⟨rest, first⟩ := List.head?_eq_some_iff.1 head
  rw [first]
  rfl

/-- A value of the part in front of more of the part is passed over in the whole. -/
theorem skipNested_embed {levels : Nat} {c later : Cursor} (h : skipNested levels c = .ok () later)
    (more : later.rest ≠ []) :
    skipNested levels (c.embed shift tail) = .ok () (later.embed shift tail) := by
  obtain ⟨tree, space, w, spans, blank, spells, shallow, munched⟩ := skipNested_eq_ok_iff.1 h
  exact skipNested_eq_ok_iff.2 ⟨tree, space, w, spans.embed, blank, spells, shallow, munched.embed more⟩

/-- A value of the whole that ends inside the part is passed over in the part. -/
theorem skipNested_of_embed {levels : Nat} {c later : Cursor}
    (h : skipNested levels (c.embed shift tail) = .ok () later) (inside : tail.length ≤ later.rest.length) :
    ∃ stop : Cursor, later = stop.embed shift tail ∧ skipNested levels c = .ok () stop := by
  obtain ⟨tree, space, w, spans, blank, spells, shallow, munched⟩ := skipNested_eq_ok_iff.1 h
  obtain ⟨stop, rfl, part⟩ := spans.of_embed inside
  exact ⟨stop, rfl, skipNested_eq_ok_iff.2 ⟨tree, space, w, part, blank, spells, shallow, munched.of_embed⟩⟩

/-- What is passed over at some limit of nesting is passed over at every higher one. -/
theorem skipNested_mono {levels more : Nat} (le : levels ≤ more) {c later : Cursor}
    (h : skipNested levels c = .ok () later) : skipNested more c = .ok () later := by
  obtain ⟨tree, space, w, spans, blank, spells, shallow, munched⟩ := skipNested_eq_ok_iff.1 h
  exact skipNested_eq_ok_iff.2 ⟨tree, space, w, spans, blank, spells, Nat.lt_of_lt_of_le shallow le, munched⟩

/-- Where no value begins, none is passed over. -/
theorem skipNested_of_not_opens {c : Cursor} {pos : Nat} {b : UInt8} {rest : Bytes}
    (start : c.skipSpace = ⟨pos, b :: rest⟩) (other : Byte.opensValue b = false) (levels : Nat) :
    skipNested (levels + 1) c = .fail .expectedValue ⟨pos, b :: rest⟩ := by
  simp only [Byte.opensValue, Bool.or_eq_false_iff, beq_eq_false_iff_ne] at other
  obtain ⟨⟨⟨⟨⟨⟨quote, bracket⟩, brace⟩, yes⟩, no⟩, null⟩, number⟩ := other
  rw [Skeleton.skipNested_succ start, if_neg quote, if_neg bracket, if_neg brace, if_neg yes, if_neg no, if_neg null,
    number]
  rfl

end JsonSidecar
