/-
Module: JsonSidecar.Proofs.Encode.Written
Purpose: From the segments of a value to its text.  `Written` relates segments to the texts that they can become,
  given where arrays may be stored, so that a property of texts is proved along the segments once for all stores.
  A session writes a text of its segments, with the offsets that its store answered.
Main exports: Written, Written.enclosed, EncodeSession.stored, EncodeSession.pushSegments_written,
  encodeInline_written
-/
import JsonSidecar.Encode.Session
import JsonSidecar.Proofs.Entries
import JsonSidecar.Proofs.Items
import JsonSidecar.Proofs.Typing

namespace JsonSidecar

/-! ### Texts of segments -/

/-- The texts of segments, in which an array is its descriptor with an offset where it may be stored. -/
inductive Written (placed : StoredArray → Nat → Prop) : List Segment → Bytes → Prop where
  | nil : Written placed [] []
  | text {bytes : Bytes} {rest : List Segment} {w : Bytes} : Written placed rest w →
      Written placed (.text bytes :: rest) (bytes ++ w)
  | array {a : StoredArray} {offset : Nat} {rest : List Segment} {w : Bytes} : placed a offset →
      Written placed rest w → Written placed (.array a :: rest) ((a.descriptor offset).text ++ w)

namespace Written

variable {placed placed' : StoredArray → Nat → Prop} {segments : List Segment} {w : Bytes}

theorem imp (written : Written placed segments w) (h : ∀ a offset, placed a offset → placed' a offset) :
    Written placed' segments w := by
  induction written with
  | nil => exact .nil
  | text _ ih => exact .text ih
  | array place _ ih => exact .array (h _ _ place) ih

theorem text_eq {bytes : Bytes} (written : Written placed [.text bytes] w) : w = bytes := by
  cases written with
  | text rest =>
      cases rest
      exact List.append_nil bytes

theorem array_eq {a : StoredArray} (written : Written placed [.array a] w) :
    ∃ offset, placed a offset ∧ w = (a.descriptor offset).text := by
  cases written with
  | array place rest =>
      cases rest
      exact ⟨_, place, List.append_nil _⟩

/-- The text of segments in a row falls into the texts of the parts. -/
theorem split {first second : List Segment} (written : Written placed (first ++ second) w) :
    ∃ u v, w = u ++ v ∧ Written placed first u ∧ Written placed second v := by
  induction first generalizing w with
  | nil => exact ⟨[], w, rfl, .nil, written⟩
  | cons segment first ih =>
      cases written with
      | text rest =>
          obtain ⟨u, v, rfl, left, right⟩ := ih rest
          exact ⟨_, v, (List.append_assoc ..).symm, .text left, right⟩
      | array place rest =>
          obtain ⟨u, v, rfl, left, right⟩ := ih rest
          exact ⟨_, v, (List.append_assoc ..).symm, .array place left, right⟩

theorem cons_text {bytes : Bytes} (written : Written placed (.text bytes :: segments) w) :
    ∃ v, w = bytes ++ v ∧ Written placed segments v := by
  cases written with
  | text rest => exact ⟨_, rfl, rest⟩

/-- Parts with commas between them are written with commas between their texts. -/
theorem separated {parts : List (List Segment)} (written : Written placed (separatedSegments parts) w) :
    ∃ ws, List.Forall₂ (Written placed) parts ws ∧ w = JsonSidecar.separated ws := by
  induction parts generalizing w with
  | nil =>
      cases written
      exact ⟨[], .nil, rfl⟩
  | cons part parts ih =>
      cases parts with
      | nil => exact ⟨[w], .cons written .nil, rfl⟩
      | cons next parts =>
          obtain ⟨u, v, rfl, first, rest⟩ := split written
          obtain ⟨tail, rfl, others⟩ := cons_text rest
          obtain ⟨ws, all, rfl⟩ := ih others
          cases all with
          | cons head all => exact ⟨_, .cons first (.cons head all), rfl⟩

/-- Segments between an opening and a closing byte. -/
theorem enclosed {opening closing : UInt8} {parts : List (List Segment)}
    (written : Written placed (enclosed opening closing parts) w) :
    ∃ ws, List.Forall₂ (Written placed) parts ws ∧ w = opening :: (JsonSidecar.separated ws ++ [closing]) := by
  obtain ⟨inner, rfl, rest⟩ := cons_text written
  obtain ⟨u, v, rfl, items, last⟩ := split rest
  obtain ⟨ws, all, rfl⟩ := separated items
  rw [text_eq last]
  exact ⟨ws, all, rfl⟩

/-- The parts of a list, each made from one of its items. -/
theorem enclosed_map {α : Type} {opening closing : UInt8} {f : α → List Segment} {items : List α}
    (written : Written placed (JsonSidecar.enclosed opening closing (items.map f)) w) :
    ∃ ws, List.Forall₂ (fun a v => Written placed (f a) v) items ws ∧
      w = opening :: (JsonSidecar.separated ws ++ [closing]) := by
  obtain ⟨ws, all, same⟩ := enclosed written
  exact ⟨ws, List.forall₂_map_left_iff.1 all, same⟩

end Written

/-! ### The segments of lists -/

namespace Val

variable {S : Type} {schema : Schema S} {p : Placement}

theorem itemSegments_eq_map (item : Ty S) (items : List Val) :
    itemSegments schema p item items = items.map (segments schema p item) := by
  induction items with
  | nil => simp [itemSegments]
  | cons v items ih => simp [itemSegments, ih]

theorem entrySegments_eq_map (value : Ty S) (entries : List (Bytes × Val)) :
    entrySegments schema p value entries = entries.map fun entry =>
      .text (Quoted.encode entry.1 ++ [Byte.colon]) :: segments schema p value entry.2 := by
  induction entries with
  | nil => simp [entrySegments]
  | cons entry entries ih => simp [entrySegments, ih]

/-- A hash table is written as the sorted map with the same entries. -/
theorem segments_hashMap (value : Ty S) (table : List (Bytes × Val)) :
    segments schema p (.hashMap value) (.map table)
      = segments schema p (.sortedMap value) (.map (Entries.ofList table)) := by
  rw [segments, segments, entrySegments_eq_map, entrySegments_eq_map, Entries.inOrder_map]

theorem segments_hashMap_of_sorted (value : Ty S) {entries : List (Bytes × Val)} (sorted : Entries.Sorted entries) :
    segments schema p (.hashMap value) (.map entries) = segments schema p (.sortedMap value) (.map entries) := by
  rw [segments_hashMap, Entries.ofList_of_sorted sorted.increasing]

theorem fieldSegments_eq_map (fields : List (Field S)) (values : List Val) :
    fieldSegments schema p fields values = (fields.zip values).map fun field =>
      .text (keyText field.1.key) :: segments schema p field.1.type field.2 := by
  induction fields generalizing values with
  | nil => simp [fieldSegments]
  | cons f fields ih =>
      cases values with
      | nil => simp [fieldSegments]
      | cons v values => simp [fieldSegments, ih]

/-- A list of anything but scalars and arrays is written item by item. -/
theorem segments_list {item : Ty S} (other : (Ty.list item).isLeaf = false) (items : List Val) :
    segments schema p (.list item) (.list items)
      = enclosed Byte.openBracket Byte.closeBracket (items.map (segments schema p item)) := by
  rw [← itemSegments_eq_map]
  cases item with
  | scalar k => cases other
  | vector e => cases other
  | _ => rw [segments]; all_goals simp

end Val

/-! ### Sessions -/

namespace EncodeSession

variable {σ : Type} [BlobStore σ]

theorem storeChunk_text (s : EncodeSession σ) (data : Bytes) : (s.storeChunk data).2.text = s.text := by
  unfold storeChunk
  split
  · split
    · rfl
    · rfl
  · rfl

theorem pushArray_text (s : EncodeSession σ) (a : StoredArray) :
    (s.pushArray a).text = s.text ++ (a.descriptor (s.storeChunk a.bytes).1).text :=
  congrArg (· ++ (a.descriptor (s.storeChunk a.bytes).1).text) (storeChunk_text s a.bytes)

/-- The arrays that are stored while segments are appended, each with the offset that the store answers. -/
def stored (s : EncodeSession σ) : List Segment → List (StoredArray × Nat)
  | [] => []
  | .text bytes :: rest => (s.push bytes).stored rest
  | .array a :: rest => (a, (s.storeChunk a.bytes).1) :: (s.pushArray a).stored rest

theorem pushSegments_cons (s : EncodeSession σ) (segment : Segment) (rest : List Segment) :
    s.pushSegments (segment :: rest) = (s.pushSegment segment).pushSegments rest := rfl

/-- A session appends a text of its segments. -/
theorem pushSegments_written (s : EncodeSession σ) (segments : List Segment) :
    ∃ w, (s.pushSegments segments).text = s.text ++ w ∧
      Written (fun a offset => (a, offset) ∈ s.stored segments) segments w := by
  induction segments generalizing s with
  | nil => exact ⟨[], (List.append_nil _).symm, .nil⟩
  | cons segment rest ih =>
      rw [pushSegments_cons]
      cases segment with
      | text bytes =>
          obtain ⟨w, same, written⟩ := ih (s.push bytes)
          exact ⟨bytes ++ w, same.trans (List.append_assoc ..), .text written⟩
      | array a =>
          obtain ⟨w, same, written⟩ := ih (s.pushArray a)
          refine ⟨(a.descriptor (s.storeChunk a.bytes).1).text ++ w, ?_, ?_⟩
          · rw [pushSegment, same, pushArray_text, List.append_assoc]
          · exact .array List.mem_cons_self (written.imp fun _ _ mem => List.mem_cons_of_mem _ mem)

end EncodeSession

/-- The text that keeps everything inline is a text of the segments. -/
theorem encodeInline_written {S : Type} (schema : Schema S) (t : Ty S) (v : Val) :
    Written (fun _ offset => offset = 0) (Val.segments schema .inline t v) (encodeInline schema t v) := by
  unfold encodeInline
  induction Val.segments schema .inline t v with
  | nil => exact .nil
  | cons segment rest ih =>
      cases segment with
      | text bytes => exact .text ih
      | array a => exact .array rfl ih

end JsonSidecar
