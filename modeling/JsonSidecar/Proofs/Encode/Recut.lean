/-
Module: JsonSidecar.Proofs.Encode.Recut
Purpose: Segments that differ only in how their text is cut.  They are written alike in every session, and they have the
  same texts, since the arrays among them are the same.
Main exports: Recut, Recut.pushSegments, Recut.stored, Recut.written, Recut.arrayText
-/
import JsonSidecar.Proofs.Encode.Written

namespace JsonSidecar

/-- Segments with the same arrays and the same text between them, which may be cut at other places. -/
inductive Recut : List Segment → List Segment → Prop where
  | refl (segments : List Segment) : Recut segments segments
  | cut (u v : Bytes) (rest : List Segment) : Recut (.text u :: .text v :: rest) (.text (u ++ v) :: rest)
  | cons (segment : Segment) {first second : List Segment} : Recut first second →
      Recut (segment :: first) (segment :: second)
  | trans {first second third : List Segment} : Recut first second → Recut second third → Recut first third

namespace Recut

variable {first second : List Segment}

/-! ### What is the same -/

section Sessions

variable {σ : Type} [BlobStore σ]

theorem pushSegment_push (s : EncodeSession σ) (u v : Bytes) :
    (s.pushSegment (.text u)).pushSegment (.text v) = s.pushSegment (.text (u ++ v)) := by
  show EncodeSession.mk (s.text ++ u ++ v) s.store s.threshold s.error = _
  rw [List.append_assoc]
  rfl

theorem pushSegments (recut : Recut first second) (s : EncodeSession σ) :
    s.pushSegments first = s.pushSegments second := by
  induction recut generalizing s with
  | refl => rfl
  | cut u v rest =>
      rw [EncodeSession.pushSegments_cons, EncodeSession.pushSegments_cons, EncodeSession.pushSegments_cons,
        pushSegment_push]
  | cons segment _ ih => rw [EncodeSession.pushSegments_cons, EncodeSession.pushSegments_cons, ih]
  | trans _ _ ih ih' => rw [ih, ih']

theorem stored (recut : Recut first second) (s : EncodeSession σ) : s.stored first = s.stored second := by
  induction recut generalizing s with
  | refl => rfl
  | cut u v rest =>
      show ((s.push u).push v).stored rest = (s.push (u ++ v)).stored rest
      exact congrArg (fun s => EncodeSession.stored s rest) (pushSegment_push s u v)
  | cons segment _ ih =>
      cases segment with
      | text bytes => exact ih (s.push bytes)
      | array a => exact congrArg ((a, (s.storeChunk a.bytes).1) :: ·) (ih (s.pushArray a))
  | trans _ _ ih ih' => rw [ih, ih']

end Sessions

/-- What is made of each segment alone makes the same bytes, if a text stands for itself. -/
theorem flatMap_eq {f : Segment → Bytes} (texts : ∀ u, f (.text u) = u) (recut : Recut first second) :
    first.flatMap f = second.flatMap f := by
  induction recut with
  | refl => rfl
  | cut u v rest => simp only [List.flatMap_cons, texts, List.append_assoc]
  | cons segment _ ih => rw [List.flatMap_cons, List.flatMap_cons, ih]
  | trans _ _ ih ih' => rw [ih, ih']

theorem written {placed : StoredArray → Nat → Prop} {w : Bytes} (recut : Recut first second) :
    Written placed first w ↔ Written placed second w := by
  induction recut generalizing w with
  | refl => rfl
  | cut u v rest =>
      constructor
      · intro h
        obtain ⟨_, rfl, behind⟩ := h.cons_text
        obtain ⟨_, rfl, last⟩ := behind.cons_text
        rw [← List.append_assoc]
        exact .text last
      · intro h
        obtain ⟨_, rfl, last⟩ := h.cons_text
        rw [List.append_assoc]
        exact .text (.text last)
  | cons segment _ ih =>
      constructor
      · intro h
        cases h with
        | text h => exact .text (ih.1 h)
        | array place h => exact .array place (ih.1 h)
      · intro h
        cases h with
        | text h => exact .text (ih.2 h)
        | array place h => exact .array place (ih.2 h)
  | trans _ _ ih ih' => exact ih.trans ih'

/-! ### Lists in the text -/

/-- Texts with commas between them, and what follows them, as one text. -/
theorem separated (ws : List Bytes) (behind : Bytes) :
    Recut (separatedSegments (ws.map fun w => [.text w]) ++ [.text behind])
      [.text (JsonSidecar.separated ws ++ behind)] := by
  induction ws with
  | nil => exact .refl _
  | cons w ws ih =>
      cases ws with
      | nil => exact .cut w behind []
      | cons next ws =>
          have comma : Recut _ _ := .trans (.cons (.text [Byte.comma]) ih) (.cut [Byte.comma] _ [])
          have first : Recut _ _ := .trans (.cons (.text w) comma) (.cut w _ [])
          simpa [JsonSidecar.separated, separatedSegments] using first

/-- An array of texts, as one text. -/
theorem arrayText (ws : List Bytes) :
    Recut (enclosed Byte.openBracket Byte.closeBracket (ws.map fun w => [.text w]))
      [.text (JsonSidecar.arrayText ws)] :=
  .trans (.cons _ (separated ws [Byte.closeBracket])) (.cut [Byte.openBracket] _ [])

end Recut

end JsonSidecar
