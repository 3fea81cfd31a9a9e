/-
Module: JsonSidecar.Proofs.Decode.LeadingSpace
Purpose: White space in front of a value does not matter to the readers of types: each begins by passing over it.
Main exports: Reader.SkipsSpace, Ty.readWith_skipsSpace
-/
import JsonSidecar.Decode.Typed
import JsonSidecar.Proofs.Cursor

namespace JsonSidecar

open Reader

variable {S α β : Type}

/-- The reader does the same in front of white space and behind it. -/
def Reader.SkipsSpace (reader : Reader α) : Prop := ∀ c : Cursor, reader c.skipSpace = reader c

namespace Reader

theorem SkipsSpace.bind {reader : Reader α} (skips : reader.SkipsSpace) (next : α → Reader β) :
    SkipsSpace (reader >>= next) := by
  intro c
  rw [Scan.bind_apply, Scan.bind_apply, skips c]

theorem SkipsSpace.map {reader : Reader α} (skips : reader.SkipsSpace) (f : α → β) : SkipsSpace (f <$> reader) :=
  skips.bind _

theorem skipSpace_skipsSpace : SkipsSpace Scan.skipSpace := by
  intro c
  rw [Scan.skipSpace_apply, Scan.skipSpace_apply, Cursor.skipSpace_skipSpace]

theorem peek_skipsSpace : peek.SkipsSpace := by
  intro c
  rw [peek, peek, Cursor.skipSpace_skipSpace]

theorem expect_skipsSpace (expected : String) (b : UInt8) (reason : Reason) :
    (expect expected b reason).SkipsSpace := by
  intro c
  simp only [expect, Scan.expect, Cursor.skipSpace_skipSpace]

theorem number_skipsSpace (expected : String) : (number expected).SkipsSpace := by
  intro c
  simp only [number, Cursor.skipSpace_skipSpace]

theorem stringBytes_skipsSpace (expected : String) : (stringBytes expected).SkipsSpace := by
  intro c
  simp only [stringBytes, Cursor.skipSpace_skipSpace]

/-- A word that is not found leaves the white space to the reader behind it. -/
theorem SkipsSpace.wordOr {pattern : Bytes} {found : α} {other : Reader α} (skips : other.SkipsSpace) :
    SkipsSpace (do
      if ← word pattern then return found
      other) := by
  intro c
  simp only [Scan.bind_apply, word, matchWord?, Cursor.skipSpace_skipSpace]
  cases matchPattern? pattern c.skipSpace with
  | some later => rfl
  | none => exact skips c

theorem inlineList_skipsSpace (expected : String) (item : Reader α) : (inlineList expected item).SkipsSpace :=
  (expect_skipsSpace _ _ _).bind _

theorem object_skipsSpace (expected : String) (value : Bytes → Reader β) : (object expected value).SkipsSpace :=
  (expect_skipsSpace _ _ _).bind _

end Reader

theorem readFloat_skipsSpace (f : FloatFormat) (expected : String) : (readFloat f expected).SkipsSpace :=
  .wordOr ((number_skipsSpace expected).bind _)

theorem readScalar_skipsSpace (k : Scalar) : (readScalar k).SkipsSpace := by
  cases k with
  | bool => exact (SkipsSpace.wordOr (.wordOr (skipSpace_skipsSpace.bind _))).map _
  | int k => exact (skipSpace_skipsSpace.bind _).map _
  | double => exact ((readFloat_skipsSpace _ _).map _).map _
  | single => exact ((readFloat_skipsSpace _ _).map _).map _
  | complex => exact (object_skipsSpace _ _).bind _

theorem readRecord_skipsSpace (schema : Schema S) (store : Option BlobView) (bound : Nat) (s : S) :
    (readRecord schema store bound s).SkipsSpace := by
  cases bound with
  | zero =>
      intro c
      simp only [readRecord, Cursor.skipSpace_skipSpace]
  | succ bound => exact (object_skipsSpace _ _).bind _

/-- Every type is read the same in front of white space and behind it, if records are. -/
theorem Ty.readWith_skipsSpace (schema : Schema S) (store : Option BlobView) {record : S → Reader Val}
    (records : ∀ s, (record s).SkipsSpace) (t : Ty S) : (t.readWith schema store record).SkipsSpace := by
  induction t with
  | scalar k => exact (readScalar_skipsSpace k).map _
  | string => exact (skipSpace_skipsSpace.bind _).map _
  | bytes => exact (stringBytes_skipsSpace _).map _
  | json => exact skipSpace_skipsSpace.bind _
  | range => exact ((object_skipsSpace _ _).bind _).map _
  | descriptor => exact (skipSpace_skipsSpace.bind _).map _
  | list item _ =>
      cases item with
      | scalar k =>
          refine SkipsSpace.map ?_ _
          cases k.element? with
          | some e => exact peek_skipsSpace.bind _
          | none => exact inlineList_skipsSpace _ _
      | vector e => exact (peek_skipsSpace.bind _).map _
      | _ => exact (inlineList_skipsSpace _ _).map _
  | option content ih => exact .wordOr (ih.map _)
  | boxed content ih => exact ih.map _
  | shared content ih => exact ih.map _
  | sortedMap value _ => exact (object_skipsSpace _ _).bind _
  | hashMap value _ => exact (object_skipsSpace _ _).bind _
  | pair first second _ _ => exact (expect_skipsSpace _ _ _).bind _
  | vector e => exact (peek_skipsSpace.bind _).map _
  | matrix e => exact (peek_skipsSpace.bind _).map _
  | record s => exact records s

end JsonSidecar
