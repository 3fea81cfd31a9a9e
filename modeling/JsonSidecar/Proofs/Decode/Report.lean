/-
Module: JsonSidecar.Proofs.Decode.Report
Purpose: The mark in a report stands under what failed.  Whatever type is read from whatever bytes, reading fails at a
  seam of the text.  So the characters in front of the failure are read alike in the text up to there and in the whole
  text, and the mark, whose column counts the ones, stands under the character of the other that begins there.
Main exports: decode_fails_at_seam, Marks, report_marks_failure
-/
import JsonSidecar.Proofs.Decode.Orderly

namespace JsonSidecar

open Reader Cursor

variable {S : Type}

/-- Where a text is not read, the failure lies at a seam of it. -/
theorem decode_fails_at_seam {schema : Schema S} {store : Option BlobView} {t : Ty S} {text : Bytes}
    {error : DecodeError} (failed : decode schema store t text = .error error) :
    error = error.failure.inText text ∧ error.failure.offset ≤ text.length ∧
      Utf8.Seam (text.take error.failure.offset) (text.drop error.failure.offset) := by
  have precise : Reader.Precise (t.read schema store >>= fun v => finish (t.name schema) >>= fun _ => pure v) :=
    (t.read_precise schema store).bind fun v => (finish_precise _).bind fun _ c => Outcome.precise_ok (.refl c) v
  unfold decode at failed
  dsimp only at failed
  split at failed
  · cases failed
  · rename_i failure stop outcome
    cases failed
    obtain ⟨_, place, ⟨w, spans, seam⟩, offset⟩ := (precise (start text)).failure failure stop outcome
    have bytes : text = w ++ place.rest := spans.1
    have length : failure.offset = w.length := by rw [offset, spans.2, start, Nat.zero_add]
    have same : (failure.inText text).failure = failure := rfl
    rw [same, length, bytes, List.length_append, List.take_left, List.drop_left]
    exact ⟨rfl, Nat.le_add_right .., seam⟩

namespace DecodeError

/-- Two lines that show a text and mark a place in it.  The first has one character for each part of the text: the
    character that the part is leniently read as, or a blank for a control character.  The mark in the second stands
    under the character whose bytes begin at the place, or behind all characters if the place is the end of the text. -/
structure Marks (text : Bytes) (offset : Nat) (echo caret : List Char) : Prop where
  whole : (Utf8.parts text).flatten = text
  characters : (Utf8.parts text).map Utf8.lossy = (Utf8.lossy text).map ([·])
  shown : echo = (Utf8.lossy text).map fun c => if isControlChar c then ' ' else c
  visible : ∀ c ∈ echo, isControlChar c = false
  place : ∃ before after, Utf8.parts text = before ++ after ∧ before.flatten.length = offset ∧
    caret = List.replicate before.length ' ' ++ ['^'] ∧ (after = [] ↔ offset = text.length)

theorem echo_visible (text : Bytes) : ∀ c ∈ echo text, isControlChar c = false := by
  intro c mem
  obtain ⟨char, _, rfl⟩ := List.mem_map.1 mem
  split
  · decide
  · rename_i visible
    exact eq_false_of_ne_true visible

/-- At a seam the two lines mark the offset. -/
theorem marks_of_seam {text : Bytes} {offset : Nat} (inside : offset ≤ text.length)
    (seam : Utf8.Seam (text.take offset) (text.drop offset)) : Marks text offset (echo text) (caret text offset) where
  whole := Utf8.flatten_parts text
  characters := Utf8.parts_lossy text
  shown := rfl
  visible := echo_visible text
  place := by
    have cut := seam.parts_append
    rw [List.take_append_drop] at cut
    refine ⟨Utf8.parts (text.take offset), Utf8.parts (text.drop offset), cut, ?_, ?_, ?_⟩
    · rw [Utf8.flatten_parts, List.length_take_of_le inside]
    · rw [caret, column, Nat.min_eq_left inside, Utf8.length_lossy]
    · rw [Utf8.parts_eq_nil_iff, List.drop_eq_nil_iff]
      exact ⟨Nat.le_antisymm inside, fun atEnd => Nat.le_of_eq atEnd.symm⟩

end DecodeError

/-- The mark points at what failed.  Where a short text is not read, be it valid text or not, the report ends with the
    text on one line and a mark under the failure on the next. -/
theorem report_marks_failure (schema : Schema S) (store : Option BlobView) (t : Ty S) {text : Bytes}
    (short : text.length < echoLimit) {error : DecodeError} (failed : decode schema store t text = .error error) :
    let echo := DecodeError.echo text
    let caret := DecodeError.caret text error.failure.offset
    error.report = error.failure.headline ++ "\n" ++ String.ofList echo ++ "\n" ++ String.ofList caret ∧
      DecodeError.Marks text error.failure.offset echo caret := by
  obtain ⟨shown, inside, seam⟩ := decode_fails_at_seam failed
  have kept : error.text = some text := by
    rw [shown, Failure.inText, if_pos short]
  intro echo caret
  exact ⟨by rw [DecodeError.report, kept], DecodeError.marks_of_seam inside seam⟩

/-- The failure lies behind a character of two bytes and a byte that begins none, so the mark stands in column 5
    though the offset is 6. -/
theorem report_marks_failure_behind_wide_character :
    let schema : Schema Empty := nofun
    let text := ascii "\"" ++ [0xc3, 0xa9, 0xff] ++ ascii "\" 7"
    let error := Failure.inText ⟨Ty.bytesName, .trailingText, 6⟩ text
    text.length < echoLimit ∧ decode schema none .bytes text = .error error ∧
      error.report = error.failure.headline ++ "\n\"é\uFFFD\" 7\n     ^" ∧
      DecodeError.Marks text 6 "\"é\uFFFD\" 7".toList "     ^".toList := by
  intro schema text error
  have short : text.length < echoLimit := by decide +kernel
  have failed : decode schema none .bytes text = .error error := rfl
  have echo : DecodeError.echo text = "\"é\uFFFD\" 7".toList := by decide +kernel
  have caret : DecodeError.caret text 6 = "     ^".toList := by decide +kernel
  obtain ⟨report, marks⟩ := report_marks_failure schema none .bytes short failed
  exact ⟨short, failed, report.trans (by decide +kernel), echo ▸ caret ▸ marks⟩

end JsonSidecar
