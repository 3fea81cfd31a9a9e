/-
Module: JsonSidecar.Proofs.Restored
Purpose: What comes back of a value that is written and read again.  Structure comes back as it is; leaves come
  back up to what their texts cannot tell, and a present value that is written as `null` comes back as an
  absent one.  Which values those are is the same for all placements, so the choice can be told from the
  inline text.
Main exports: IsCompleteValue, Val.LeafReadsBack, Val.restored, Val.Typed.null_or_present
-/
import JsonSidecar.Proofs.Decode.Array

namespace JsonSidecar

open Reader

variable {S : Type}

/-! ### Values kept as text -/

/-- A text that is one complete value, without white space around it. -/
structure IsCompleteValue (raw : Bytes) : Prop where
  whole : skipValue 0 (Cursor.start raw) = .ok () ⟨raw.length, []⟩
  bare : ∀ b, raw.head? = some b → Byte.isSpace b = false

theorem isCompleteValue_null : IsCompleteValue Word.null where
  whole := rfl
  bare b head := by
    cases head
    rfl

namespace IsCompleteValue

variable {raw : Bytes}

theorem skipSpace (complete : IsCompleteValue raw) : (Cursor.start raw).skipSpace = Cursor.start raw :=
  Cursor.Spans.skipSpace_eq (Cursor.Spans.refl _) (by simp) complete.bare

/-- A complete value is passed over wherever it stands. -/
theorem passes (complete : IsCompleteValue raw) {c later : Cursor} (spans : c.Spans raw later)
    (ends : EndsToken later.rest) : skipValue 0 c = .ok () later :=
  skipValue_inside complete.whole complete.skipSpace rfl spans ends

theorem spells (complete : IsCompleteValue raw) : ∃ tree : Skeleton, tree.Spells raw := by
  obtain ⟨tree, passes⟩ := Skeleton.skipNested_passes complete.whole
  obtain ⟨w, spans, spells⟩ := passes.text
  rw [complete.skipSpace] at spans
  have same : raw = w ++ [] := spans.1
  rw [List.append_nil] at same
  exact ⟨tree, same ▸ spells⟩

end IsCompleteValue

/-- The only value that begins as `null` does is `null`. -/
theorem Skeleton.Spells.null_or_present {tree : Skeleton} {w : Bytes} (spells : tree.Spells w) :
    w = Word.null ∨ OpensPresent w := by
  cases spells with
  | word mem =>
      simp only [List.mem_cons, List.not_mem_nil, or_false] at mem
      rcases mem with rfl | rfl | rfl
      · exact .inr ⟨0x74, ascii "rue", rfl, rfl, by decide⟩
      · exact .inr ⟨0x66, ascii "alse", rfl, rfl, by decide⟩
      · exact .inl rfl
  | number form => exact .inr (opens_literal form)
  | string literal =>
      obtain ⟨content, rfl, _⟩ := literal
      exact .inr ⟨Byte.quote, _, rfl, rfl, by decide⟩
  | array => exact .inr ⟨Byte.openBracket, _, rfl, rfl, by decide⟩
  | object => exact .inr ⟨Byte.openBrace, _, rfl, rfl, by decide⟩

/-! ### What comes back -/

namespace Val

/-- What must be known of a leaf for its text to be read back: a kept text is one complete value, and the law holds
    for the numbers that stay in the text. -/
def LeafReadsBack (p : Placement) : Ty S → Val → Prop
  | .scalar _, .scalar d => d.ReadsBack
  | .json, .json raw _ => raw ≠ [] → IsCompleteValue raw
  | .range, .range r => r.ReadsBack
  | .descriptor, .descriptor d => d.range.ReadsBack
  | .list (.scalar _), .array data => p.ReadsBack data
  | .list (.vector _), .list rows => packs? p (rows.map Val.data) = .none → ∀ row ∈ rows, p.ReadsBack row.data
  | .vector _, .array data => p.ReadsBack data
  | .matrix _, .matrix _ _ data => p.ReadsBack data
  | _, _ => True

/-- A list of arrays from its rows. -/
def ofRows (rows : List (List Datum)) : Val := .list (rows.map .array)

/-- A matrix from its sizes and elements. -/
def ofMatrix (m : Nat × Nat × List Datum) : Val := .matrix m.1 m.2.1 m.2.2

variable (schema : Schema S) (p : Placement)

mutual

/-- The value that comes back of a value of a type. -/
def restored : Ty S → Val → Val
  | .scalar _, .scalar d => .scalar d.reread
  | .json, .json raw _ => .json (if raw.isEmpty then Word.null else raw) p.attached
  | .range, .range r => .range r.reread
  | .descriptor, .descriptor d => .descriptor { d with range := d.range.reread }
  | .list (.scalar k), .array data =>
    .array (match k.element? with
      | .some _ => restoredArray p data
      | .none => data.map Datum.reread)
  | .list (.vector _), .list rows => ofRows (restoredRows p (rows.map Val.data))
  | .list item, .list items => .list (restoredItems item items)
  | .option content, .some v =>
    if encodeInline schema content v = Word.null then .none else .some (restored content v)
  | .boxed content, .referred v => .referred (restored content v)
  | .shared content, .referred v => .referred (restored content v)
  | .sortedMap value, .map entries => .map (restoredEntries value entries)
  | .hashMap value, .map entries => .map (restoredEntries value entries)
  | .pair first second, .pair a b => .pair (restored first a) (restored second b)
  | .vector _, .array data => .array (restoredArray p data)
  | .matrix _, .matrix rows cols data => ofMatrix (restoredMatrix p rows cols data)
  | .record s, .record values => .record (restoredFields (schema s).fields values)
  | _, v => v

/-- What comes back of the items of a list. -/
def restoredItems (item : Ty S) : List Val → List Val
  | [] => []
  | v :: rest => restored item v :: restoredItems item rest

/-- What comes back of the entries of a map. -/
def restoredEntries (value : Ty S) : List (Bytes × Val) → List (Bytes × Val)
  | [] => []
  | (key, v) :: rest => (key, restored value v) :: restoredEntries value rest

/-- What comes back of the fields of a record. -/
def restoredFields : List (Field S) → List Val → List Val
  | f :: fields, v :: values => restored f.type v :: restoredFields fields values
  | _, _ => []

end

variable {schema p}

theorem restoredItems_eq_map (item : Ty S) (items : List Val) :
    restoredItems schema p item items = items.map (restored schema p item) := by
  induction items with
  | nil => simp [restoredItems]
  | cons v items ih => simp [restoredItems, ih]

theorem restoredEntries_eq_map (value : Ty S) (entries : List (Bytes × Val)) :
    restoredEntries schema p value entries
      = entries.map fun entry => (entry.1, restored schema p value entry.2) := by
  induction entries with
  | nil => simp [restoredEntries]
  | cons entry entries ih => simp [restoredEntries, ih]

theorem restoredFields_eq_map (fields : List (Field S)) (values : List Val) :
    restoredFields schema p fields values
      = (fields.zip values).map fun field => restored schema p field.1.type field.2 := by
  induction fields generalizing values with
  | nil => simp [restoredFields]
  | cons f fields ih =>
      cases values with
      | nil => simp [restoredFields]
      | cons v values => simp [restoredFields, ih]

theorem restored_list {item : Ty S} (other : (Ty.list item).isLeaf = false) (items : List Val) :
    restored schema p (.list item) (.list items) = .list (items.map (restored schema p item)) := by
  rw [← restoredItems_eq_map]
  cases item with
  | scalar k => cases other
  | vector e => cases other
  | _ => rw [restored]; all_goals simp

theorem data_array (rows : List (List Datum)) : (rows.map Val.array).map Val.data = rows := by
  rw [List.map_map]
  exact List.map_id rows

/-! ### Values written as `null` -/

/-- A value whose text is `null` under every placement, or is not `null` under any. -/
def NullOrPresent (schema : Schema S) (t : Ty S) (v : Val) : Prop :=
  (∀ p, segments schema p t v = [.text Word.null]) ∨
    ∀ p placed w, Written placed (segments schema p t v) w → OpensPresent w

/-- A text that does not depend on the placement. -/
theorem nullOrPresent_text {t : Ty S} {v : Val} (text : Bytes) (same : ∀ p, segments schema p t v = [.text text])
    (h : text = Word.null ∨ OpensPresent text) : NullOrPresent schema t v := by
  rcases h with null | present
  · exact .inl fun p => by rw [same p, null]
  · refine .inr fun p placed w written => ?_
    rw [same p] at written
    rw [written.text_eq]
    exact present

/-- Segments between an opening and a closing byte are not `null`. -/
theorem enclosed_present {placed : StoredArray → Nat → Prop} {opening closing : UInt8} {parts : List (List Segment)}
    {w : Bytes} (opens : Byte.opensValue opening = true) (other : opening ≠ 0x6e)
    (written : Written placed (enclosed opening closing parts) w) : OpensPresent w := by
  obtain ⟨ws, _, rfl⟩ := written.enclosed
  exact ⟨opening, _, rfl, opens, other⟩

/-- A container is not `null` under any placement. -/
theorem nullOrPresent_enclosed {t : Ty S} {v : Val} (opening closing : UInt8)
    (parts : Placement → List (List Segment)) (opens : Byte.opensValue opening = true) (other : opening ≠ 0x6e)
    (same : ∀ p, segments schema p t v = enclosed opening closing (parts p)) : NullOrPresent schema t v := by
  refine .inr fun p placed w written => ?_
  rw [same p] at written
  exact enclosed_present opens other written

/-- An array is not `null`, whether it is stored or not. -/
theorem array_present {placed : StoredArray → Nat → Prop} {p : Placement} {e : Element} {shape : List Nat}
    {data : List Datum} {items : List Bytes} {w : Bytes}
    (written : Written placed (arraySegments p e shape data (arrayText items)) w) : OpensPresent w := by
  unfold arraySegments at written
  split at written
  · obtain ⟨offset, _, rfl⟩ := written.array_eq
    exact ⟨Byte.openBrace, _, rfl, rfl, by decide⟩
  · rw [written.text_eq]
    exact ⟨Byte.openBracket, _, rfl, rfl, by decide⟩

theorem rows_present {placed : StoredArray → Nat → Prop} {p : Placement} {e : Element} {rows : List (List Datum)}
    {w : Bytes} (written : Written placed (rowsSegments p e rows) w) : OpensPresent w := by
  unfold rowsSegments at written
  split at written
  · obtain ⟨offset, _, rfl⟩ := written.array_eq
    exact ⟨Byte.openBrace, _, rfl, rfl, by decide⟩
  · exact enclosed_present rfl (by decide) written

theorem Leaf.nullOrPresent {p : Placement} {t : Ty S} {v : Val} (leaf : Leaf t v) (law : LeafReadsBack p t v) :
    NullOrPresent schema t v := by
  cases leaf with
  | @scalar k d holds => exact nullOrPresent_text d.text (fun p => by simp only [segments]) d.text_null_or_present
  | @string content valid =>
      exact nullOrPresent_text (Quoted.encode content) (fun p => by simp only [segments]) (.inr (opens_quoted content))
  | @bytes content =>
      exact nullOrPresent_text (Quoted.encode content) (fun p => by simp only [segments]) (.inr (opens_quoted content))
  | @json raw attached =>
      refine nullOrPresent_text (if raw.isEmpty then Word.null else raw) (fun p => by simp only [segments]) ?_
      cases raw with
      | nil => exact .inl rfl
      | cons b rest =>
          obtain ⟨tree, spells⟩ := (law (by simp)).spells
          exact spells.null_or_present
  | @range r =>
      refine nullOrPresent_text r.text (fun p => by simp only [segments]) (.inr ?_)
      exact ⟨Byte.openBrace, _, rfl, rfl, by decide⟩
  | @descriptor d =>
      refine nullOrPresent_text d.text (fun p => by simp only [segments]) (.inr ?_)
      exact ⟨Byte.openBrace, _, rfl, rfl, by decide⟩
  | array element =>
      refine .inr fun p placed w written => ?_
      simp only [segments, element] at written
      exact array_present written
  | @natives k data element =>
      refine nullOrPresent_text (dataText data) (fun p => by simp only [segments, element]) (.inr ?_)
      exact ⟨Byte.openBracket, _, rfl, rfl, by decide⟩
  | rows =>
      refine .inr fun p placed w written => ?_
      simp only [segments] at written
      exact rows_present written
  | vector =>
      refine .inr fun p placed w written => ?_
      simp only [segments] at written
      exact array_present written
  | matrix =>
      refine .inr fun p placed w written => ?_
      simp only [segments] at written
      exact array_present written

/-- Whether a value is written as `null` does not depend on the placement. -/
theorem Typed.nullOrPresent {p : Placement} {t : Ty S} {v : Val}
    (typed : Typed schema (fun t v => Leaf t v ∧ LeafReadsBack p t v) t v) : NullOrPresent schema t v := by
  induction typed with
  | leaf _ leaf => exact leaf.1.nullOrPresent leaf.2
  | list other =>
      exact nullOrPresent_enclosed Byte.openBracket Byte.closeBracket _ rfl (by decide) fun p => segments_list other _
  | none => exact .inl fun p => by simp only [segments]
  | some _ ih => simpa only [NullOrPresent, segments] using ih
  | boxed _ ih => simpa only [NullOrPresent, segments] using ih
  | shared _ ih => simpa only [NullOrPresent, segments] using ih
  | sortedMap =>
      exact nullOrPresent_enclosed Byte.openBrace Byte.closeBrace _ rfl (by decide) fun p => by rw [segments]
  | hashMap =>
      exact nullOrPresent_enclosed Byte.openBrace Byte.closeBrace _ rfl (by decide) fun p => by rw [segments]
  | pair =>
      exact nullOrPresent_enclosed Byte.openBracket Byte.closeBracket _ rfl (by decide) fun p => by rw [segments]
  | record =>
      exact nullOrPresent_enclosed Byte.openBrace Byte.closeBrace _ rfl (by decide) fun p => by rw [segments]

/-- The inline text tells whether any text of the value is `null`. -/
theorem Typed.null_or_present {p : Placement} {t : Ty S} {v : Val}
    (typed : Typed schema (fun t v => Leaf t v ∧ LeafReadsBack p t v) t v) {placed : StoredArray → Nat → Prop}
    {w : Bytes} (written : Written placed (segments schema p t v) w) :
    (encodeInline schema t v = Word.null ∧ w = Word.null) ∨
      (encodeInline schema t v ≠ Word.null ∧ OpensPresent w) := by
  have inline := encodeInline_written schema t v
  rcases typed.nullOrPresent with null | present
  · rw [null] at written inline
    exact .inl ⟨inline.text_eq, written.text_eq⟩
  · exact .inr ⟨(present _ _ _ inline).ne_null, present _ _ _ written⟩

theorem Typed.opens {p : Placement} {t : Ty S} {v : Val}
    (typed : Typed schema (fun t v => Leaf t v ∧ LeafReadsBack p t v) t v) {placed : StoredArray → Nat → Prop}
    {w : Bytes} (written : Written placed (segments schema p t v) w) : Opens w := by
  rcases typed.null_or_present written with ⟨_, rfl⟩ | ⟨_, present⟩
  · exact opens_null
  · exact present.opens

end Val

end JsonSidecar
