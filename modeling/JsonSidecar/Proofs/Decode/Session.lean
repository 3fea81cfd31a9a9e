/-
Module: JsonSidecar.Proofs.Decode.Session
Purpose: The failure that a decode in progress keeps.  However readers are run one after another, what is kept is the
  first failure that one of them came to; a type that is read fails exactly if it leaves a failure behind, and the
  failure lies in the text.  So a text never fails for an unknown reason.
Main exports: DecodeSession.Operation, DecodeSession.runAll, DecodeSession.first_failure_kept
-/
import JsonSidecar.Decode.Session
import JsonSidecar.Proofs.Decode.Orderly

namespace JsonSidecar

open Reader Cursor

variable {S α : Type}

/-! ### The wording of reasons -/

theorem ne_of_length_lt {s t : String} (shorter : t.length < s.length) : s ≠ t := by
  rintro rfl
  exact Nat.lt_irrefl _ shorter

/-- A reason that names what was wrong is not worded as an unknown one.  Where it is put together from parts, one part
    is longer than the other wording already. -/
theorem Reason.Reported.message_ne {reason : Reason} (reported : reason.Reported) :
    reason.message ≠ "decode failed" := by
  have whole : "decode failed".length = 13 := by decide +kernel
  have notValid : " is not a valid ".length = 16 := by decide +kernel
  have dtype : "unknown dtype ".length = 14 := by decide +kernel
  have noMatch : " does not match ".length = 16 := by decide +kernel
  have noShape : " does not match shape [".length = 23 := by decide +kernel
  have outside : " is outside the blob store".length = 26 := by decide +kernel
  have unreadable : "blob read failed: ".length = 18 := by decide +kernel
  cases reason with
  | malformed error => cases error <;> decide +kernel
  | notOfKind literal kind =>
      apply ne_of_length_lt
      show _ < (Utf8.lossyText literal ++ " is not a valid " ++ kind).length
      simp only [String.length_append]
      omega
  | unknownElement tag =>
      apply ne_of_length_lt
      show _ < ("unknown dtype " ++ Utf8.lossyText tag).length
      simp only [String.length_append]
      omega
  | elementMismatch found wanted =>
      apply ne_of_length_lt
      show _ < ("dtype " ++ found.tag ++ " does not match " ++ wanted.tag).length
      simp only [String.length_append]
      omega
  | rankMismatch found wanted =>
      apply ne_of_length_lt
      show _ < ("shape rank " ++ toString found ++ " does not match " ++ toString wanted).length
      simp only [String.length_append]
      omega
  | lengthMismatch byteLength shape element =>
      apply ne_of_length_lt
      show _ < ("byteLength " ++ toString byteLength ++ " does not match shape ["
        ++ ", ".intercalate (shape.map toString) ++ "] of " ++ element.tag).length
      simp only [String.length_append]
      omega
  | outsideStore offset byteLength =>
      apply ne_of_length_lt
      show _ < ("blob range " ++ toString offset ++ "+" ++ toString byteLength
        ++ " is outside the blob store").length
      simp only [String.length_append]
      omega
  | unreadable cause =>
      apply ne_of_length_lt
      show _ < ("blob read failed: " ++ cause.message).length
      simp only [String.length_append]
      omega
  | unknown => exact reported.elim
  | other message => exact reported.elim
  | _ => decide +kernel

/-! ### Readers that stay in the text -/

namespace Cursor

theorem reaches_seek (text : Bytes) (pos : Nat) : (start text).Reaches (seek text pos) :=
  ⟨text.take pos, (List.take_append_drop pos text).symm, by simp [start, seek, List.length_take]⟩

/-- The places of a text are the ones that are reached from its beginning. -/
theorem reaches_iff_seek {text : Bytes} {c : Cursor} : (start text).Reaches c ↔ ∃ pos, c = seek text pos := by
  constructor
  · rintro ⟨w, rest, pos⟩
    refine ⟨w.length, ?_⟩
    have bytes : text = w ++ c.rest := rest
    have place : c.pos = w.length := pos.trans (Nat.zero_add _)
    cases c
    subst bytes
    rw [seek, Cursor.mk.injEq]
    exact ⟨by simp at place; simp [place], by simp⟩
  · rintro ⟨pos, rfl⟩
    exact reaches_seek text pos

end Cursor

/-- Run anywhere in a text, the reader leaves the cursor in the text. -/
def Reader.StaysIn (reader : Reader α) : Prop :=
  ∀ text pos, ∃ pos', (reader (Cursor.seek text pos)).cursor = Cursor.seek text pos'

theorem Reader.Orderly.staysIn {reader : Reader α} (orderly : reader.Orderly) : reader.StaysIn := by
  intro text pos
  exact Cursor.reaches_iff_seek.1 ((Cursor.reaches_seek text pos).trans (orderly _).reaches)

/-! ### Runs of operations -/

namespace DecodeSession

/-- What can be done with a decode in progress: move its cursor anywhere, or run a reader, be it a single token or a
    whole type. -/
inductive Operation where
  | seek (pos : Nat)
  | run {α : Type} (reader : Reader α) (staysIn : reader.StaysIn)

namespace Operation

/-- The decode behind an operation. -/
def apply : Operation → DecodeSession → DecodeSession
  | .seek pos, s => s.seek pos
  | .run reader _, s => (s.run reader).2

/-- What an operation fails with, if it fails. -/
def failure? : Operation → DecodeSession → Option Failure
  | .seek _, _ => none
  | .run reader _, s =>
    match reader s.cursor with
    | .ok .. => none
    | .fail e _ => some e

end Operation

/-- The decode behind some operations, one after another. -/
def runAll : List Operation → DecodeSession → DecodeSession
  | [], s => s
  | op :: ops, s => runAll ops (op.apply s)

/-- What the operations that fail fail with, in the order in which they are run. -/
def failures : List Operation → DecodeSession → List Failure
  | [], _ => []
  | op :: ops, s => (op.failure? s).toList ++ failures ops (op.apply s)

/-- An operation keeps what was kept before it, or else what it fails with. -/
theorem apply_failure (op : Operation) (s : DecodeSession) :
    (op.apply s).failure = s.failure.or (op.failure? s) := by
  cases op with
  | seek pos => simp [Operation.apply, Operation.failure?, seek]
  | run reader staysIn =>
      simp only [Operation.apply, Operation.failure?, run]
      cases reader s.cursor <;> simp

/-- The text and the store of a decode in progress never change, and its cursor stays in the text. -/
structure InText (text : Bytes) (store : Option BlobView) (s : DecodeSession) : Prop where
  sameText : s.text = text
  sameStore : s.store = store
  place : ∃ pos, s.cursor = Cursor.seek text pos

theorem start_inText (text : Bytes) (store : Option BlobView) : InText text store (start text store) where
  sameText := rfl
  sameStore := rfl
  place := ⟨0, by simp [start, Cursor.start, Cursor.seek]⟩

theorem InText.apply {text : Bytes} {store : Option BlobView} {s : DecodeSession} (inText : InText text store s)
    (op : Operation) : InText text store (op.apply s) := by
  obtain ⟨rfl, rfl, pos, place⟩ := inText
  cases op with
  | seek pos => exact ⟨rfl, rfl, pos, rfl⟩
  | run reader staysIn =>
      obtain ⟨pos', behind⟩ := staysIn s.text pos
      simp only [Operation.apply, run, place]
      cases outcome : reader (Cursor.seek s.text pos) with
      | ok a c =>
          rw [outcome] at behind
          exact ⟨rfl, rfl, pos', behind⟩
      | fail e c =>
          rw [outcome] at behind
          exact ⟨rfl, rfl, pos', behind⟩

theorem InText.runAll {text : Bytes} {store : Option BlobView} {s : DecodeSession} (inText : InText text store s)
    (ops : List Operation) : InText text store (runAll ops s) := by
  induction ops generalizing s with
  | nil => exact inText
  | cons op ops ih => exact ih (inText.apply op)

/-- Behind a run of operations the kept failure is the one from before, or else the first one of the run. -/
theorem runAll_failure (ops : List Operation) (s : DecodeSession) :
    (runAll ops s).failure = s.failure.or (failures ops s).head? := by
  induction ops generalizing s with
  | nil => simp [runAll, failures]
  | cons op ops ih =>
      rw [runAll, failures, ih, apply_failure, List.head?_append, Option.or_assoc]
      cases op.failure? s <;> rfl

/-- Where no failure is kept, a reader that is run fails exactly if it leaves one behind, and an orderly one leaves a
    failure that lies between where it began and the end of the text. -/
theorem run_orderly {reader : Reader α} (orderly : reader.Orderly) {text : Bytes} {store : Option BlobView}
    {s : DecodeSession} (inText : InText text store s) (none : s.failure = none) :
    ((s.run reader).1 = Option.none ↔ (s.run reader).2.failure ≠ Option.none) ∧
      ∀ e, (s.run reader).2.failure = some e →
        e.reason.Reported ∧ s.cursor.pos ≤ e.offset ∧ e.offset ≤ text.length := by
  obtain ⟨rfl, rfl, pos, place⟩ := inText
  have outcome := orderly s.cursor
  have atEnd := (Cursor.reaches_seek s.text pos).end_eq
  rw [← place] at atEnd
  unfold run
  cases read : reader s.cursor with
  | ok a c => simp [none]
  | fail e c =>
      obtain ⟨reported, front, behind⟩ := outcome.failure e c read
      rw [atEnd] at behind
      refine ⟨by simp [none], ?_⟩
      intro e' kept
      have same : e = e' := by simpa [none] using kept
      subst same
      exact ⟨reported, front, by simpa [Cursor.start] using behind⟩

/-- The failure that is kept names what was wrong and lies in the text. -/
def Sound (text : Bytes) (s : DecodeSession) : Prop :=
  ∀ e, s.failure = some e → e.reason.Reported ∧ e.offset ≤ text.length

/-- Orderly readers keep the kept failure sound. -/
theorem Sound.run {reader : Reader α} (orderly : reader.Orderly) {text : Bytes} {store : Option BlobView}
    {s : DecodeSession} (inText : InText text store s) (sound : Sound text s) : Sound text (s.run reader).2 := by
  intro e kept
  cases before : s.failure with
  | none =>
      obtain ⟨reported, _, inside⟩ := (run_orderly orderly inText before).2 e kept
      exact ⟨reported, inside⟩
  | some first =>
      have same := apply_failure (.run reader orderly.staysIn) s
      rw [before, Option.some_or, Operation.apply, kept] at same
      exact sound e (before.trans same.symm)

/-- What fails in a text is what a decode keeps that reads a value from it and then looks for its end. -/
theorem failure_of_decode {schema : Schema S} {store : Option BlobView} {t : Ty S} {text : Bytes} {error : DecodeError}
    (h : decode schema store t text = .error error) :
    ∃ e, (runAll [.run (t.read schema store) (t.read_orderly schema store).staysIn,
        .run (finish (t.name schema)) (finish_orderly _).staysIn] (start text store)).failure = some e ∧
      error = e.inText text := by
  rw [runAll_failure]
  simp only [decode, Scan.bind_apply, Scan.pure_apply] at h
  simp only [failures, Operation.failure?, Operation.apply, run, start]
  cases read : t.read schema store (Cursor.start text) with
  | fail e stop =>
      simp only [read, Outcome.bind_fail, Except.error.injEq] at h
      exact ⟨e, by simp, h.symm⟩
  | ok v later =>
      cases finished : finish (t.name schema) later with
      | ok u stop =>
          simp only [read, Outcome.bind_ok, finished] at h
          cases h
      | fail e stop =>
          simp only [read, Outcome.bind_ok, finished, Outcome.bind_fail, Except.error.injEq] at h
          exact ⟨e, by simp, h.symm⟩

/-- The failures of a decode in progress.  After any operations on it, what it keeps is what the first failing one
    failed with, and nothing while none has failed.  Where nothing is kept, a type that is read gives no value exactly
    if a failure is kept behind it, which lies between where the reading began and the end of the text.  So a text
    fails with a failure that was kept, which is no unknown one and lies in the text. -/
theorem first_failure_kept (schema : Schema S) (t : Ty S) (text : Bytes) (store : Option BlobView)
    (ops : List Operation) :
    let s := runAll ops (start text store)
    let read := s.run (t.read schema s.store)
    s.failure = (failures ops (start text store)).head? ∧
      (s.failure = none →
        (read.1 = none ↔ read.2.failure ≠ none) ∧
          ∀ e, read.2.failure = some e → s.cursor.pos ≤ e.offset ∧ e.offset ≤ text.length) ∧
      ∀ error, decode schema store t text = .error error →
        ∃ e, (runAll [.run (t.read schema store) (t.read_orderly schema store).staysIn,
            .run (finish (t.name schema)) (finish_orderly _).staysIn] (start text store)).failure = some e ∧
          error = e.inText text ∧ e.reason.message ≠ "decode failed" ∧ e.offset ≤ text.length := by
  intro s read
  refine ⟨runAll_failure ops _, fun none => ?_, fun error failed => ?_⟩
  · have inText := (start_inText text store).runAll ops
    obtain ⟨exactly, bounds⟩ := run_orderly (t.read_orderly schema s.store) inText none
    exact ⟨exactly, fun e kept => (bounds e kept).2⟩
  · obtain ⟨e, kept, same⟩ := failure_of_decode failed
    have fresh : Sound text (start text store) := nofun
    have inText := start_inText text store
    have readSound := fresh.run (t.read_orderly schema store) inText
    have behind := inText.apply (.run (t.read schema store) (t.read_orderly schema store).staysIn)
    obtain ⟨reported, inside⟩ := readSound.run (finish_orderly (t.name schema)) behind e kept
    exact ⟨e, kept, same, reported.message_ne, inside⟩

/-- Two tokens fail one after the other, and what the first failed with is kept; a list read from the whole text fails
    inside it. -/
theorem first_failure_kept_later_ones :
    let schema : Schema Empty := nofun
    let t : Ty Empty := .list (.scalar (.int ⟨false, .w8⟩))
    let text := ascii "[1, x]"
    let ops : List Operation := [.seek 4, .run (number "u8") (number_orderly _).staysIn, .seek 0,
      .run (finish "u8") (finish_orderly _).staysIn]
    (runAll ops (start text none)).failure = some ⟨"u8", .malformed .expectedNumber, 4⟩ ∧
      ∀ error, decode schema none t text = .error error →
        error.failure.reason.message ≠ "decode failed" ∧ error.failure.offset ≤ 6 := by
  intro schema t text ops
  obtain ⟨kept, _, decoded⟩ := first_failure_kept schema t text none ops
  refine ⟨kept.trans (by decide +kernel), fun error failed => ?_⟩
  obtain ⟨e, _, rfl, named, inside⟩ := decoded error failed
  exact ⟨named, inside⟩

end DecodeSession

end JsonSidecar
