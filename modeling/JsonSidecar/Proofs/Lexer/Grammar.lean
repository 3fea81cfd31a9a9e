/-
Module: JsonSidecar.Proofs.Lexer.Grammar
Purpose: Every text of the grammar is passed over.  With the other direction this makes the grammar exact: a value
  is passed over where its text stands, within the limit of nesting, and a number as far as it goes.  So a
  complete value can be put into a longer text: what was passed over as a whole text is passed over in front
  of anything in which no number goes on.
Main exports: Skeleton.Spells.passes, Munched, skipValue_eq_ok_iff, skipValue_inside
-/
import JsonSidecar.Proofs.Lexer.Skip

namespace JsonSidecar

open Skeleton

theorem closesList_bracket : ClosesList Byte.closeBracket := ⟨rfl, by decide, rfl⟩

theorem closesList_brace : ClosesList Byte.closeBrace := ⟨rfl, by decide, rfl⟩

/-- A value can be the item of any list whose end is not the beginning of a value. -/
theorem Opens.beginsItem {w : Bytes} (opens : Opens w) {close : UInt8} (other : Byte.opensValue close = false) :
    BeginsItem close w := by
  obtain ⟨b, tail, rfl, opens⟩ := opens
  exact ⟨b, tail, rfl, Byte.opensValue_not_space opens, Byte.opensValue_ne opens other⟩

/-- A number literal is scanned wherever it stands. -/
theorem NumberLiteral.scan_spans {l : NumberLiteral} (form : l.WellFormed) {c later : Cursor}
    (spans : c.Spans l.text later) (ends : EndsToken later.rest) : scan c = .ok l later :=
  scan_eq_ok_iff.2 ⟨form, spans, .of_endsToken ends l⟩

/-- A word is eaten wherever it stands. -/
theorem Cursor.Spans.eatAll? {w : Bytes} {c later : Cursor} (spans : c.Spans w later) :
    Cursor.eatAll? w c = some later := by
  obtain ⟨start, stop⟩ := spans.places
  rw [start, stop]
  exact Cursor.eatAll?_append w c.pos later.rest

namespace Skeleton

/-- The text of a value begins where white space ends. -/
theorem Spells.skipSpace_self {tree : Skeleton} {w : Bytes} (spells : tree.Spells w) {c later : Cursor}
    (spans : c.Spans w later) : c.skipSpace = c := by
  obtain ⟨b, tail, rfl, opens⟩ := spells.opens
  exact spans.skipSpace_self (Byte.opensValue_not_space opens)

/-- The text of a member is passed over, if that of its value is. -/
theorem SpellsMember.passes {tree : Skeleton} {w : Bytes} (spells : SpellsMember tree w)
    (value : ∀ u, u.length < w.length → tree.Spells u → ∀ c later : Cursor, c.Spans u later →
      EndsToken later.rest → Passes skipNested Spells tree c later)
    {c later : Cursor} (spans : c.Spans w later) (ends : EndsToken later.rest) :
    Passes (fun levels => skipMemberWith (skipNested levels)) SpellsMember tree c later := by
  cases spells with
  | @mk _ key behind before u literal blank blank' content =>
      obtain ⟨beforeColon, front, rest⟩ := spans.split
      obtain ⟨afterKey, quoted, space⟩ := front.split
      obtain ⟨afterColon, colon, rest⟩ := rest.eat?
      obtain ⟨beforeValue, space', inner⟩ := rest.split
      have start : c.skipSpace = c := by
        obtain ⟨inside, rfl, _⟩ := literal
        exact quoted.skipSpace_self rfl
      have stop : afterKey.skipSpace = beforeColon := space.skipSpace_eq blank fun b head => by
        obtain ⟨pos, tail, same, _⟩ := Cursor.eat?_eq_some colon
        rw [same] at head
        cases head
        rfl
      have skipped : afterColon.skipSpace = beforeValue := space'.skipSpace_eq blank' fun b head => by
        obtain ⟨x, tail, rfl, opens⟩ := content.opens
        rw [inner.head?] at head
        cases head
        exact Byte.opensValue_not_space opens
      have passed := value u (by simp; omega) content beforeValue later inner ends
      refine .member (by rw [start]; exact Quoted.skip_literal literal quoted) (by rw [stop]; exact colon) ?_
      exact passes_skipSpace.1 (by rw [skipped]; exact passed)

/-- Every text of the grammar is passed over, up to the depth of its skeleton, if it is not a number that goes on.
    The induction is on the length of the text; inside a container no number goes on. -/
theorem Spells.passes {tree : Skeleton} {w : Bytes} (spells : tree.Spells w) {c later : Cursor}
    (spans : c.Spans w later) (stops : ∀ l : NumberLiteral, l.WellFormed → l.text = w → l.Stops later.rest) :
    Passes skipNested Spells tree c later := by
  induction length : w.length using Nat.strongRecOn generalizing tree w c later with
  | ind n ih =>
      have start := spells.skipSpace_self spans
      cases spells with
      | word mem => exact .word mem (by rw [start]; exact spans.eatAll?)
      | @number l form =>
          refine .number (l := l) ?_
          rw [start]
          exact NumberLiteral.scan_eq_ok_iff.2 ⟨form, spans, stops l form rfl⟩
      | string literal => exact .string (by rw [start]; exact Quoted.skip_literal literal spans)
      | @array items u text =>
          obtain ⟨inside, opening, rest⟩ := spans.eat?
          refine .array (by rw [start]; exact opening) (text.items closesList_bracket ?_ rest)
          intro tree _ v shorter spells
          refine ⟨spells.opens.beginsItem rfl, fun c later spans ends => ?_⟩
          exact ih v.length (by simp at length; omega) spells spans (fun l _ _ => .of_endsToken ends l) rfl
      | @object members u text =>
          obtain ⟨inside, opening, rest⟩ := spans.eat?
          refine .object (by rw [start]; exact opening) (text.items closesList_brace ?_ rest)
          intro tree _ v shorter spells
          constructor
          · cases spells with
            | mk literal =>
                obtain ⟨content, rfl, _⟩ := literal
                exact ⟨Byte.quote, _, rfl, rfl, by decide⟩
          · intro c later spans ends
            refine spells.passes (fun u shorter' spells c later spans ends => ?_) spans ends
            exact ih u.length (by simp at length; omega) spells spans (fun l _ _ => .of_endsToken ends l) rfl

end Skeleton

/-! ### The grammar is exact -/

/-- A text in front of others is read as far as it goes, if it is a number: no longer number begins with it there,
    and behind a mantissa there is no exponent mark, which would have to be followed by digits. -/
def Munched (w rest : Bytes) : Prop :=
  ∀ l : NumberLiteral, l.WellFormed → l.text = w →
    (∀ longer : NumberLiteral, longer.WellFormed → longer.text <+: w ++ rest → longer.text.length ≤ w.length) ∧
    (l.exponent = none → ∀ b, rest.head? = some b → Byte.isExponentMark b = false)

theorem munched_iff {w rest : Bytes} :
    Munched w rest ↔ ∀ l : NumberLiteral, l.WellFormed → l.text = w → l.Stops rest := by
  constructor
  · rintro munched l form rfl
    exact (NumberLiteral.stops_iff form).2 (munched l form rfl)
  · rintro stops l form rfl
    exact (NumberLiteral.stops_iff form).1 (stops l form rfl)

/-- Numbers are passed over as far as they go. -/
theorem munched_of_skipNested {levels : Nat} {c later : Cursor} {w : Bytes}
    (h : skipNested levels c = .ok () later) (spans : c.skipSpace.Spans w later) : Munched w later.rest := by
  rw [munched_iff]
  rintro l form rfl
  cases levels with
  | zero => cases h
  | succ levels =>
      rw [skipNested_numberText form spans] at h
      obtain ⟨l', scanned, _⟩ := Outcome.map_eq_ok.1 h
      obtain ⟨form', spans', stops⟩ := NumberLiteral.scan_eq_ok_iff.1 scanned
      have same : l = l' := NumberLiteral.text_injective form form' (spans.span_eq.symm.trans spans'.span_eq)
      rw [same]
      exact stops

/-- Passing over a value succeeds exactly where white space and a text of the grammar stand that is nested less
    deeply than the limit, and it ends behind that text. -/
theorem skipNested_eq_ok_iff {levels : Nat} {c later : Cursor} :
    skipNested levels c = .ok () later ↔
      ∃ (tree : Skeleton) (space w : Bytes), c.Spans (space ++ w) later ∧ Blank space ∧ tree.Spells w ∧
        tree.depth < levels ∧ Munched w later.rest := by
  constructor
  · intro h
    obtain ⟨tree, passes⟩ := skipNested_passes h
    obtain ⟨w, spans, spells⟩ := passes.text
    refine ⟨tree, _, w, (Cursor.skipSpace_spans c).trans spans, blank_skipped c, spells, ?_,
      munched_of_skipNested h spans⟩
    -- At a limit within the depth of the skeleton the scan would have failed.
    apply Nat.lt_of_not_le
    intro deep
    obtain ⟨stop, failed⟩ := passes.beyond levels deep
    rw [failed] at h
    cases h
  · rintro ⟨tree, space, w, spans, blank, spells, shallow, munched⟩
    obtain ⟨mid, before, text⟩ := spans.split
    have start : c.skipSpace = mid := by
      apply before.skipSpace_eq blank
      intro b head
      obtain ⟨x, tail, rfl, opens⟩ := spells.opens
      rw [text.head?] at head
      cases head
      exact Byte.opensValue_not_space opens
    have passes := spells.passes text (munched_iff.1 munched)
    rw [← start, passes_skipSpace] at passes
    exact passes.within levels shallow

/-- Passing over a value that lies in `depth` containers succeeds exactly where white space and a text of the
    grammar stand, whose innermost part lies in no more containers than allowed, and it ends behind that text. -/
theorem skipValue_eq_ok_iff {depth : Nat} {c later : Cursor} :
    skipValue depth c = .ok () later ↔
      ∃ (tree : Skeleton) (space w : Bytes), c.Spans (space ++ w) later ∧ Blank space ∧ tree.Spells w ∧
        depth + tree.depth ≤ maxNesting ∧ Munched w later.rest := by
  have limit : ∀ tree : Skeleton, tree.depth < maxNesting + 1 - depth ↔ depth + tree.depth ≤ maxNesting := by
    intro tree
    omega
  simp only [skipValue, skipNested_eq_ok_iff, limit]

/-- In the deepest place allowed there may be an empty container, but no scalar inside it. -/
example : skipValue 512 (Cursor.start (ascii "[ ] ")) = .ok () ⟨3, ascii " "⟩ ∧
    skipValue 512 (Cursor.start (ascii "[0]")) = .fail .tooDeep ⟨1, ascii "0]"⟩ := by
  decide

/-- A value that makes a whole text is passed over inside a longer one. -/
theorem skipValue_inside {raw : Bytes} {stop : Cursor} (whole : skipValue 0 (Cursor.start raw) = .ok () stop)
    (bare : (Cursor.start raw).skipSpace = Cursor.start raw) (atEnd : stop.rest = []) {c later : Cursor}
    (spans : c.Spans raw later) (ends : EndsToken later.rest) : skipValue 0 c = .ok () later := by
  obtain ⟨tree, passes⟩ := skipNested_passes whole
  obtain ⟨w, text, spells⟩ := passes.text
  have same : w = raw := by
    have bytes := text.1
    rw [bare, atEnd, List.append_nil] at bytes
    exact bytes.symm
  subst same
  -- The limit that let the whole text pass is beyond the depth of the skeleton.
  have shallow : tree.depth < maxNesting + 1 - 0 := by
    refine Nat.lt_of_not_le fun deep => ?_
    obtain ⟨stop', failed⟩ := passes.beyond _ deep
    rw [skipValue, failed] at whole
    cases whole
  exact (spells.passes spans fun l _ _ => .of_endsToken ends l).within _ shallow

end JsonSidecar
