/-
Module: JsonSidecar.Proofs.Encode.Calls
Purpose: What an encode asks of its store.  Which arrays leave the text is told by the value and the threshold alone, so
  the calls are the same whatever the store answers.  Each array has a receipt with the answer to its own call; the
  descriptors and the outcome of the encode are made from the receipts.  Stores that answer alike get the same text.
Main exports: Val.arrays, Receipt, Recorded, Val.arraysIn_segments, EncodeSession.pushSegments_run, encode_related,
  encode_calls
-/
import JsonSidecar.Proofs.Encode.Capacity

namespace JsonSidecar

/-! ### The arrays of a value -/

/-- Rows as arrays: together if they have one length that is not zero, and row by row if not. -/
def rowArrays (element : Element) (rows : List (List Datum)) : List StoredArray :=
  let width := (rows.headD []).length
  if width ≠ 0 ∧ ∀ row ∈ rows, row.length = width then [⟨element, [rows.length, width], rows.flatten⟩]
  else rows.map fun row => ⟨element, [row.length], row⟩

namespace Val

variable {S : Type} (schema : Schema S)

mutual

/-- The arrays in a value of a type, in the order in which it is written. -/
def arrays : Ty S → Val → List StoredArray
  | .list (.scalar k), .array data => k.element?.toList.map fun e => ⟨e, [data.length], data⟩
  | .list (.vector e), .list items => rowArrays e (items.map Val.data)
  | .list item, .list items => itemArrays item items
  | .option content, .some v => arrays content v
  | .boxed content, .referred v => arrays content v
  | .shared content, .referred v => arrays content v
  | .sortedMap value, .map entries => entryArrays value entries
  | .hashMap value, .map entries => entryArrays value entries
  | .pair first second, .pair a b => arrays first a ++ arrays second b
  | .vector e, .array data => [⟨e, [data.length], data⟩]
  | .matrix e, .matrix rows cols data => [⟨e, [rows, cols], data⟩]
  | .record s, .record fields => fieldArrays (schema s).fields fields
  | _, _ => []

/-- The arrays in the items of a list. -/
def itemArrays (item : Ty S) : List Val → List StoredArray
  | [] => []
  | v :: rest => arrays item v ++ itemArrays item rest

/-- The arrays in the entries of a map. -/
def entryArrays (value : Ty S) : List (Bytes × Val) → List StoredArray
  | [] => []
  | (_, v) :: rest => arrays value v ++ entryArrays value rest

/-- The arrays in the fields of a record. -/
def fieldArrays : List (Field S) → List Val → List StoredArray
  | f :: fields, v :: values => arrays f.type v ++ fieldArrays fields values
  | _, _ => []

end

variable {schema}

theorem itemArrays_eq (item : Ty S) (items : List Val) :
    itemArrays schema item items = items.flatMap (arrays schema item) := by
  induction items with
  | nil => simp [itemArrays]
  | cons v items ih => simp [itemArrays, ih]

theorem entryArrays_eq (value : Ty S) (entries : List (Bytes × Val)) :
    entryArrays schema value entries = entries.flatMap fun entry => arrays schema value entry.2 := by
  induction entries with
  | nil => simp [entryArrays]
  | cons entry entries ih => simp [entryArrays, ih]

theorem fieldArrays_eq (fields : List (Field S)) (values : List Val) :
    fieldArrays schema fields values = (fields.zip values).flatMap fun field => arrays schema field.1.type field.2 := by
  induction fields generalizing values with
  | nil => simp [fieldArrays]
  | cons f fields ih =>
      cases values with
      | nil => simp [fieldArrays]
      | cons v values => simp [fieldArrays, ih]

theorem arrays_list {item : Ty S} (other : (Ty.list item).isLeaf = false) (items : List Val) :
    arrays schema (.list item) (.list items) = items.flatMap (arrays schema item) := by
  rw [← itemArrays_eq]
  cases item with
  | scalar k => cases other
  | vector e => cases other
  | _ => rw [arrays]; all_goals simp

end Val

/-! ### The arrays among segments -/

namespace Segment

/-- The array that a segment is. -/
def array? : Segment → Option StoredArray
  | .text _ => none
  | .array a => some a

/-- The arrays among some segments. -/
def arraysIn (segments : List Segment) : List StoredArray := segments.filterMap array?

theorem arraysIn_append (first second : List Segment) :
    arraysIn (first ++ second) = arraysIn first ++ arraysIn second :=
  List.filterMap_append

theorem arraysIn_text (bytes : Bytes) (rest : List Segment) : arraysIn (.text bytes :: rest) = arraysIn rest := rfl

theorem arraysIn_separated (parts : List (List Segment)) :
    arraysIn (separatedSegments parts) = parts.flatMap arraysIn := by
  induction parts with
  | nil => rfl
  | cons part rest ih =>
      cases rest with
      | nil => simp [separatedSegments]
      | cons next rest =>
          show arraysIn (part ++ .text [Byte.comma] :: separatedSegments (next :: rest)) = _
          rw [arraysIn_append, arraysIn_text, ih]
          rfl

theorem arraysIn_enclosed (opening closing : UInt8) (parts : List (List Segment)) :
    arraysIn (enclosed opening closing parts) = parts.flatMap arraysIn := by
  rw [enclosed, arraysIn_text, arraysIn_append, arraysIn_separated]
  exact List.append_nil _

end Segment

open Segment

/-- The arrays that go to a store with a threshold. -/
def placedArrays (threshold : Nat) (arrays : List StoredArray) : List StoredArray :=
  arrays.filter fun a => threshold ≤ a.data.length

section Placed

variable {threshold : Nat}

theorem placedArrays_append (first second : List StoredArray) :
    placedArrays threshold (first ++ second) = placedArrays threshold first ++ placedArrays threshold second :=
  List.filter_append ..

theorem placedArrays_flatMap {α : Type} (items : List α) (f : α → List StoredArray) :
    placedArrays threshold (items.flatMap f) = items.flatMap fun a => placedArrays threshold (f a) :=
  List.filter_flatMap

theorem placedArrays_of_le {a : StoredArray} (enough : threshold ≤ a.data.length) : placedArrays threshold [a] = [a] :=
  List.filter_cons_of_pos (decide_eq_true enough)

theorem placedArrays_of_not_le {a : StoredArray} (few : ¬ threshold ≤ a.data.length) :
    placedArrays threshold [a] = [] :=
  List.filter_cons_of_neg (by simpa using few)

theorem arraysIn_arraySegments (element : Element) (shape : List Nat) (data : List Datum) (inline : Bytes) :
    arraysIn (arraySegments ⟨true, threshold⟩ element shape data inline)
      = placedArrays threshold [⟨element, shape, data⟩] := by
  unfold arraySegments
  by_cases enough : threshold ≤ data.length
  · rw [placedArrays_of_le enough, if_pos (by simpa [Placement.stores] using enough)]
    rfl
  · rw [placedArrays_of_not_le enough, if_neg (by simpa [Placement.stores] using enough)]
    rfl

theorem arraysIn_vectorSegments (element : Element) (row : List Datum) :
    arraysIn (vectorSegments ⟨true, threshold⟩ element row) = placedArrays threshold [⟨element, [row.length], row⟩] :=
  arraysIn_arraySegments element [row.length] row (dataText row)

/-- Rows of one length that are packed are one array. -/
theorem rowArrays_of_equal {element : Element} {rows : List (List Datum)} {width : Nat} (some : 0 < rows.length)
    (positive : 0 < width) (equal : ∀ row ∈ rows, row.length = width) :
    rowArrays element rows = [⟨element, [rows.length, width], rows.flatten⟩] := by
  have head : (rows.headD []).length = width := by
    cases rows with
    | nil => cases some
    | cons row rest => exact equal row List.mem_cons_self
  simp only [rowArrays, head]
  rw [if_pos ⟨Nat.pos_iff_ne_zero.1 positive, equal⟩]

/-- Rows of one length that are not packed are too few elements together, so each of them is too short as well. -/
theorem short_of_not_packed {rows : List (List Datum)} (packed : packs? ⟨true, threshold⟩ rows = none)
    (positive : 0 < (rows.headD []).length) (equal : ∀ row ∈ rows, row.length = (rows.headD []).length) :
    ¬ threshold ≤ rows.flatten.length ∧ ∀ row ∈ rows, ¬ threshold ≤ row.length := by
  have total := length_flatten_of_equal equal
  have few : ¬ threshold ≤ rows.flatten.length := by
    intro enough
    rw [total] at enough
    have some : 0 < rows.length := by
      cases rows with
      | nil => cases positive
      | cons => exact Nat.succ_pos _
    rw [packs?_of_equal some positive equal, if_pos (by simpa [Placement.stores] using enough)] at packed
    cases packed
  refine ⟨few, fun row mem enough => few ?_⟩
  rw [total, ← equal row mem]
  exact Nat.le_trans enough (Nat.le_mul_of_pos_left _ (List.length_pos_of_mem mem))

/-- Rows leave the text together or one by one as the value tells. -/
theorem arraysIn_rowsSegments (element : Element) (rows : List (List Datum)) :
    arraysIn (rowsSegments ⟨true, threshold⟩ element rows) = placedArrays threshold (rowArrays element rows) := by
  unfold rowsSegments
  cases packed : packs? ⟨true, threshold⟩ rows with
  | some width =>
      obtain ⟨some, positive, equal, stores⟩ := packs?_eq_some packed
      have enough : threshold ≤ rows.flatten.length := by
        rw [length_flatten_of_equal equal]
        simpa [Placement.stores] using stores
      rw [rowArrays_of_equal some positive equal, placedArrays_of_le enough]
      rfl
  | none =>
      simp only [arraysIn_enclosed, List.flatMap_map, arraysIn_vectorSegments, rowArrays]
      split
      · rename_i equal
        obtain ⟨few, short⟩ := short_of_not_packed packed (Nat.pos_iff_ne_zero.2 equal.1) equal.2
        rw [placedArrays_of_not_le few, List.flatMap_eq_nil_iff]
        exact fun row mem => placedArrays_of_not_le (short row mem)
      · rw [List.map_eq_flatMap, placedArrays_flatMap]

end Placed

namespace Val

variable {S : Type} {schema : Schema S} {threshold : Nat}

/-- The arrays among the segments of a value are those of the value that have enough elements. -/
theorem arraysIn_segments {t : Ty S} {v : Val} (typed : v.HasType schema t) :
    arraysIn (segments schema ⟨true, threshold⟩ t v) = placedArrays threshold (arrays schema t v) := by
  induction typed with
  | leaf isLeaf leaf =>
      cases leaf with
      | array element => simp only [segments, arrays, element, vectorSegments, arraysIn_arraySegments]; rfl
      | natives element => simp only [segments, arrays, element]; rfl
      | rows => simp only [segments, arrays, arraysIn_rowsSegments]
      | vector => simp only [segments, arrays, arraysIn_vectorSegments]
      | matrix => simp only [segments, arrays, matrixSegments, arraysIn_arraySegments]
      | _ => simp only [segments, arrays]; rfl
  | list other _ ih =>
      rw [segments_list other, arrays_list other, arraysIn_enclosed, List.flatMap_map, placedArrays_flatMap]
      exact List.flatMap_congr fun v mem => ih v mem
  | none => simp only [segments, arrays]; rfl
  | some _ ih => simpa only [segments, arrays] using ih
  | boxed _ ih => simpa only [segments, arrays] using ih
  | shared _ ih => simpa only [segments, arrays] using ih
  | sortedMap _ _ ih =>
      simp only [segments, arrays, entrySegments_eq_map, entryArrays_eq, arraysIn_enclosed, List.flatMap_map,
        placedArrays_flatMap]
      exact List.flatMap_congr fun entry mem => ih entry mem
  | hashMap sorted _ ih =>
      rw [segments_hashMap_of_sorted _ sorted]
      simp only [segments, arrays, entrySegments_eq_map, entryArrays_eq, arraysIn_enclosed, List.flatMap_map,
        placedArrays_flatMap]
      exact List.flatMap_congr fun entry mem => ih entry mem
  | pair _ _ ih ih' =>
      simp only [segments, arrays, arraysIn_enclosed, placedArrays_append, ← ih, ← ih']
      simp
  | record _ _ ih =>
      simp only [segments, arrays, fieldSegments_eq_map, fieldArrays_eq, arraysIn_enclosed, List.flatMap_map,
        placedArrays_flatMap]
      exact List.flatMap_congr fun field mem => ih field mem

end Val

/-! ### Receipts -/

/-- What became of an array that left the text: the answer to its call, if there was one. -/
structure Receipt where
  array : StoredArray
  answer : Option (Except BlobError Nat)

namespace Receipt

/-- The offset for the descriptor, which is zero if no call succeeded. -/
def offset (r : Receipt) : Nat :=
  match r.answer with
  | some (.ok offset) => offset
  | _ => 0

/-- How the call failed. -/
def failure? (r : Receipt) : Option BlobError :=
  match r.answer with
  | some (.error e) => some e
  | _ => none

/-- The call: the contents of the chunk, and the answer. -/
def call? (r : Receipt) : Option (Bytes × Except BlobError Nat) := r.answer.map fun answer => (r.array.bytes, answer)

end Receipt

/-- The outcome of an encode: the first failure among the receipts, or the text. -/
def outcome (receipts : List Receipt) (text : Bytes) : Except BlobError Bytes :=
  match receipts.findSome? Receipt.failure? with
  | some e => .error e
  | none => .ok text

/-- The text of segments when each array is its descriptor with the next of some offsets. -/
def Segment.fill : List Segment → List Nat → Bytes
  | [], _ => []
  | .text bytes :: rest, offsets => bytes ++ fill rest offsets
  | .array a :: rest, offsets => (a.descriptor (offsets.headD 0)).text ++ fill rest offsets.tail

section Stores

variable {σ : Type} [BlobStore σ]

/-- Store one array, with a call if it has elements. -/
def storeArray (a : StoredArray) (store : σ) : Receipt × σ :=
  match a.data with
  | [] => (⟨a, none⟩, store)
  | _ :: _ =>
    let (answer, store) := BlobStore.write a.bytes store
    (⟨a, some answer⟩, store)

/-- Store arrays in order, whether or not the calls before succeeded. -/
def storeArrays : List StoredArray → σ → List Receipt × σ
  | [], store => ([], store)
  | a :: rest, store =>
    let (receipt, store) := storeArray a store
    let (receipts, store) := storeArrays rest store
    (receipt :: receipts, store)

theorem storeArrays_cons (a : StoredArray) (rest : List StoredArray) (store : σ) :
    storeArrays (a :: rest) store = ((storeArray a store).1 :: (storeArrays rest (storeArray a store).2).1,
      (storeArrays rest (storeArray a store).2).2) := rfl

theorem storeArray_array (a : StoredArray) (store : σ) : (storeArray a store).1.array = a := by
  unfold storeArray
  split
  · rfl
  · rfl

/-- There is a call for an array exactly if it has elements. -/
theorem storeArray_answer (a : StoredArray) (store : σ) : (storeArray a store).1.answer = none ↔ a.data = [] := by
  unfold storeArray
  split
  · rename_i empty
    exact ⟨fun _ => empty, fun _ => rfl⟩
  · rename_i nonempty
    constructor
    · nofun
    · intro empty
      rw [nonempty] at empty
      cases empty

theorem storeArrays_arrays (arrays : List StoredArray) (store : σ) :
    (storeArrays arrays store).1.map Receipt.array = arrays := by
  induction arrays generalizing store with
  | nil => rfl
  | cons a rest ih => exact congrArg₂ List.cons (storeArray_array a store) (ih _)

theorem storeArrays_answer {arrays : List StoredArray} {store : σ} {receipt : Receipt}
    (mem : receipt ∈ (storeArrays arrays store).1) : receipt.answer = none ↔ receipt.array.data = [] := by
  induction arrays generalizing store with
  | nil => cases mem
  | cons a rest ih =>
      rw [storeArrays_cons] at mem
      rcases List.mem_cons.1 mem with rfl | mem
      · rw [storeArray_answer, storeArray_array]
      · exact ih mem

end Stores

/-- The chunks of the calls are the contents of the arrays with elements. -/
theorem calls_chunks {receipts : List Receipt}
    (answers : ∀ receipt ∈ receipts, receipt.answer = none ↔ receipt.array.data = []) :
    (receipts.filterMap Receipt.call?).map Prod.fst
      = ((receipts.map Receipt.array).filter fun a => a.data ≠ []).map StoredArray.bytes := by
  induction receipts with
  | nil => rfl
  | cons receipt rest ih =>
      obtain ⟨first, others⟩ := List.forall_mem_cons.1 answers
      cases called : receipt.answer with
      | none =>
          have empty : receipt.array.data = [] := first.1 called
          rw [List.filterMap_cons_none (by rw [Receipt.call?, called]; rfl), ih others, List.map_cons,
            List.filter_cons_of_neg (by simpa using empty)]
      | some answer =>
          have nonempty : receipt.array.data ≠ [] := by
            intro empty
            rw [first.2 empty] at called
            cases called
          rw [List.filterMap_cons_some (by rw [Receipt.call?, called]; rfl), List.map_cons, ih others, List.map_cons,
            List.filter_cons_of_pos (by simpa using nonempty)]
          rfl

/-! ### Recorded calls -/

/-- A store with the calls made to it and their answers. -/
structure Recorded (σ : Type) where
  store : σ
  calls : List (Bytes × Except BlobError Nat)

namespace Recorded

variable {σ : Type} [BlobStore σ]

/-- A store to which no call was made. -/
def start (store : σ) : Recorded σ := ⟨store, []⟩

/-- The calls go to the store and are recorded. -/
instance : BlobStore (Recorded σ) where
  write data r :=
    let (answer, store) := BlobStore.write data r.store
    (answer, ⟨store, r.calls ++ [(data, answer)]⟩)
  view r := BlobStore.view r.store
  hasFailed r := BlobStore.hasFailed r.store

theorem storeArray (a : StoredArray) (r : Recorded σ) :
    storeArray a r = ((JsonSidecar.storeArray a r.store).1,
      ⟨(JsonSidecar.storeArray a r.store).2, r.calls ++ (JsonSidecar.storeArray a r.store).1.call?.toList⟩) := by
  unfold JsonSidecar.storeArray
  split
  · exact congrArg (fun calls => (_, (⟨r.store, calls⟩ : Recorded σ))) (List.append_nil r.calls).symm
  · rfl

/-- Recording changes no answer, and what is recorded are the calls of the receipts. -/
theorem storeArrays (arrays : List StoredArray) (r : Recorded σ) :
    storeArrays arrays r = ((JsonSidecar.storeArrays arrays r.store).1,
      ⟨(JsonSidecar.storeArrays arrays r.store).2,
        r.calls ++ (JsonSidecar.storeArrays arrays r.store).1.filterMap Receipt.call?⟩) := by
  induction arrays generalizing r with
  | nil => exact congrArg (fun calls => ([], (⟨r.store, calls⟩ : Recorded σ))) (List.append_nil r.calls).symm
  | cons a rest ih =>
      simp only [storeArrays_cons, storeArray, ih, List.append_assoc]
      cases called : (JsonSidecar.storeArray a r.store).1.call? with
      | none => rw [List.filterMap_cons_none called]; rfl
      | some call => rw [List.filterMap_cons_some called]; rfl

end Recorded

/-! ### Encodes -/

theorem Element.write_ne_nil (e : Element) (d : Datum) : e.write d ≠ [] := by
  cases d with
  | int n => cases e <;> simp [Element.write, Element.size, littleEndian]
  | _ => simp [Element.write, littleEndian]

/-- Only an array without elements has an empty chunk. -/
theorem StoredArray.bytes_isEmpty (a : StoredArray) : a.bytes.isEmpty = a.data.isEmpty := by
  rcases a with ⟨element, shape, data⟩
  cases data with
  | nil => rfl
  | cons d rest =>
      have some : element.write d ++ element.writeAll rest ≠ [] :=
        fun empty => element.write_ne_nil d (List.append_eq_nil_iff.1 empty).1
      exact List.isEmpty_eq_false_iff.2 some

namespace EncodeSession

variable {σ : Type} [BlobStore σ] {s : EncodeSession σ} {store : σ}

/-- One array is stored as its receipt tells. -/
theorem storeChunk_eq (attached : s.store = some store) (a : StoredArray) :
    s.storeChunk a.bytes = ((storeArray a store).1.offset,
      { s with store := some (storeArray a store).2, error := s.error.or (storeArray a store).1.failure? }) := by
  rcases s with ⟨text, held, threshold, error⟩
  cases attached
  have empty := a.bytes_isEmpty
  unfold storeChunk storeArray
  cases elements : a.data with
  | nil =>
      rw [elements] at empty
      simp only [empty, List.isEmpty_nil, Receipt.offset, Receipt.failure?, Option.or_none]
  | cons d rest =>
      rw [elements] at empty
      simp only [empty, List.isEmpty_cons]
      rcases BlobStore.write a.bytes store with ⟨answer, next⟩
      cases answer with
      | ok offset => simp only [Receipt.offset, Receipt.failure?, Option.or_none]
      | error e => rfl

/-- A session stores the arrays among its segments, and fills the offsets of their receipts into the text. -/
theorem pushSegments_run (attached : s.store = some store) (segments : List Segment) :
    s.pushSegments segments =
      { s with
        text := s.text ++ Segment.fill segments ((storeArrays (arraysIn segments) store).1.map Receipt.offset)
        store := some (storeArrays (arraysIn segments) store).2
        error := s.error.or ((storeArrays (arraysIn segments) store).1.findSome? Receipt.failure?) } := by
  induction segments generalizing s store with
  | nil =>
      rcases s with ⟨text, held, threshold, error⟩
      cases attached
      simp [pushSegments, arraysIn, storeArrays, Segment.fill]
  | cons segment rest ih =>
      rw [pushSegments_cons]
      cases segment with
      | text bytes =>
          rw [pushSegment, ih (s := s.push bytes) attached, arraysIn_text]
          simp only [push, Segment.fill, List.append_assoc]
      | array a =>
          have pushed : (s.pushArray a).store = some (storeArray a store).2 := by
            rw [pushArray, storeChunk_eq attached]
            rfl
          rw [pushSegment, ih pushed]
          simp only [pushArray, storeChunk_eq attached, push, Segment.fill, arraysIn, List.filterMap_cons,
            Segment.array?, storeArrays_cons, List.map_cons, List.headD_cons, List.tail_cons, List.append_assoc]
          cases failed : (storeArray a store).1.failure? with
          | none => rw [List.findSome?_cons_of_isNone (by simp [failed])]; simp
          | some e => rw [List.findSome?_cons_of_isSome (by simp [failed])]; simp [failed]

end EncodeSession

variable {S σ : Type} [BlobStore σ] {schema : Schema S}

/-- An encode is a run over the arrays that leave the text. -/
theorem encode_eq {t : Ty S} {v : Val} (typed : v.HasType schema t) (store : σ) (threshold : Nat) :
    encode schema (some store) threshold t v =
      let segments := v.segments schema ⟨true, threshold⟩ t
      let run := storeArrays (placedArrays threshold (v.arrays schema t)) store
      (outcome run.1 (Segment.fill segments (run.1.map Receipt.offset)), some run.2) := by
  have pushed := EncodeSession.pushSegments_run (s := .start (some store) threshold) rfl
    (v.segments schema ⟨true, threshold⟩ t)
  rw [Val.arraysIn_segments typed] at pushed
  show (((EncodeSession.start (some store) threshold).pushSegments _).finish, _) = _
  rw [EncodeSession.write, show (EncodeSession.start (some store) threshold).placement = ⟨true, threshold⟩ from rfl,
    pushed]
  rfl

section Related

variable {τ : Type} [BlobStore τ] {Related : σ → τ → Prop}

/-- Arrays are stored alike in stores that answer alike. -/
theorem storeArrays_related
    (step : ∀ first second data, Related first second →
      (BlobStore.write data first).1 = (BlobStore.write data second).1 ∧
        Related (BlobStore.write data first).2 (BlobStore.write data second).2)
    {first : σ} {second : τ} (related : Related first second) (arrays : List StoredArray) :
    (storeArrays arrays first).1 = (storeArrays arrays second).1 ∧
      Related (storeArrays arrays first).2 (storeArrays arrays second).2 := by
  induction arrays generalizing first second with
  | nil => exact ⟨rfl, related⟩
  | cons a rest ih =>
      have one : (storeArray a first).1 = (storeArray a second).1 ∧
          Related (storeArray a first).2 (storeArray a second).2 := by
        unfold storeArray
        cases a.data with
        | nil => exact ⟨rfl, related⟩
        | cons _ _ =>
            obtain ⟨answer, related⟩ := step first second a.bytes related
            exact ⟨congrArg (fun answer => Receipt.mk a (some answer)) answer, related⟩
      obtain ⟨receipts, related⟩ := ih one.2
      exact ⟨congrArg₂ List.cons one.1 receipts, related⟩

variable (Related) in
/-- An encode gives the same text or failure with stores that answer alike, and they still do afterwards. -/
theorem encode_related (schema : Schema S)
    (step : ∀ first second data, Related first second →
      (BlobStore.write data first).1 = (BlobStore.write data second).1 ∧
        Related (BlobStore.write data first).2 (BlobStore.write data second).2)
    {first : σ} {second : τ} (related : Related first second) (threshold : Nat) (t : Ty S) (v : Val) :
    ∃ first' second', encode schema (some first) threshold t v
        = ((encode schema (some second) threshold t v).1, some first') ∧
      (encode schema (some second) threshold t v).2 = some second' ∧ Related first' second' := by
  let segments := v.segments schema ⟨true, threshold⟩ t
  have run := EncodeSession.pushSegments_run (s := .start (some first) threshold) rfl segments
  have run' := EncodeSession.pushSegments_run (s := .start (some second) threshold) rfl segments
  obtain ⟨receipts, related⟩ := storeArrays_related step related (arraysIn segments)
  have encoded : encode schema (some first) threshold t v
      = (((EncodeSession.start (some first) threshold).pushSegments segments).finish,
        ((EncodeSession.start (some first) threshold).pushSegments segments).store) := rfl
  have encoded' : encode schema (some second) threshold t v
      = (((EncodeSession.start (some second) threshold).pushSegments segments).finish,
        ((EncodeSession.start (some second) threshold).pushSegments segments).store) := rfl
  rw [encoded, encoded', run, run', receipts]
  exact ⟨_, _, rfl, rfl, related⟩

end Related

/-- What every write keeps, an encode keeps. -/
theorem encode_keeps (schema : Schema S) {Q : σ → Prop} (each : ∀ data store, Q store → Q (BlobStore.write data store).2) (store : σ)
    (holds : Q store) (threshold : Nat) (t : Ty S) (v : Val) :
    ∃ store', encode schema (some store) threshold t v = ((encode schema (some store) threshold t v).1, some store') ∧
      Q store' := by
  obtain ⟨store', last, encoded, _, _, holds⟩ := encode_related (fun first second => first = second ∧ Q first) schema
    (fun first second data ⟨same, holds⟩ => same ▸ ⟨rfl, rfl, each data first holds⟩) ⟨rfl, holds⟩ threshold t v
  exact ⟨store', encoded, holds⟩

/-- What an encode asks of its store, and what comes of the answers.  The arrays that leave the text are those of the
    value with enough elements, in the order of their descriptors, whatever the store answers.  There is one call for
    each of them that has elements, with its contents, and no other call; a failed call does not prevent a later one.
    Each descriptor has the offset of its own receipt.  The encode fails with the first failure among the calls, and
    otherwise gives the text with these descriptors. -/
theorem encode_calls {t : Ty S} {v : Val} (typed : v.HasType schema t) (store : σ) (threshold : Nat) :
    let arrays := placedArrays threshold (v.arrays schema t)
    let segments := v.segments schema ⟨true, threshold⟩ t
    ∃ receipts, ∃ last : Recorded σ,
      receipts.map Receipt.array = arrays ∧ arraysIn segments = arrays ∧
        (∀ receipt ∈ receipts, receipt.answer = none ↔ receipt.array.data = []) ∧
        last.calls = receipts.filterMap Receipt.call? ∧
        last.calls.map Prod.fst = (arrays.filter fun a => a.data ≠ []).map StoredArray.bytes ∧
        encode schema (some (Recorded.start store)) threshold t v
          = (outcome receipts (Segment.fill segments (receipts.map Receipt.offset)), some last) ∧
        encode schema (some store) threshold t v
          = (outcome receipts (Segment.fill segments (receipts.map Receipt.offset)), some last.store) := by
  intro arrays segments
  rcases run : storeArrays arrays store with ⟨receipts, last⟩
  have recorded : storeArrays arrays (Recorded.start store) = (receipts, ⟨last, receipts.filterMap Receipt.call?⟩) := by
    rw [Recorded.storeArrays, show (Recorded.start store).store = store from rfl, run]
    rfl
  have listed : receipts.map Receipt.array = arrays := by
    have same := storeArrays_arrays arrays store
    rwa [run] at same
  have answers : ∀ receipt ∈ receipts, receipt.answer = none ↔ receipt.array.data = [] := by
    intro receipt mem
    have listed : receipt ∈ (storeArrays arrays store).1 := by
      rw [run]
      exact mem
    exact storeArrays_answer listed
  refine ⟨receipts, ⟨last, receipts.filterMap Receipt.call?⟩, listed, Val.arraysIn_segments typed, answers, rfl, ?_, ?_,
    ?_⟩
  · rw [← listed]
    exact calls_chunks answers
  · rw [encode_eq typed, recorded]
  · rw [encode_eq typed, run]

/-- A store that gives answers told beforehand, and is closed when there are no more. -/
structure Scripted where
  answers : List (Except BlobError Nat)

instance : BlobStore Scripted where
  write _ s :=
    match s.answers with
    | [] => (.error .closed, s)
    | answer :: rest => (answer, ⟨rest⟩)
  view _ := BlobView.writeOnly 0
  hasFailed _ := false

/-- Rows together, rows one by one with an empty one among them, and a list, with two calls that fail. -/
theorem encode_calls_two_failures :
    let schema : Schema Empty := nofun
    let t : Ty Empty := .pair (.sortedMap (.list (.vector .uint8))) (.option (.list (.scalar (.int ⟨true, .w16⟩))))
    let v : Val := .pair
      (.map [(ascii "a", .list [.array [.int 1, .int 2], .array [.int 3, .int 4]]),
        (ascii "b", .list [.array [], .array [.int 5, .int 6], .array [.int 7]])])
      (.some (.array [.int (-1), .int 2]))
    let store : Scripted := ⟨[.ok 8, .error .failed, .ok 40, .error .closed]⟩
    ∃ last, encode schema (some (Recorded.start store)) 0 t v = (.error .failed, some last) ∧
      last.calls = [([1, 2, 3, 4], .ok 8), ([5, 6], .error .failed), ([7], .ok 40), ([255, 255, 2, 0], .error .closed)]
      := by
  intro schema t v store
  have sorted : Entries.Sorted [(ascii "a", Val.list [.array [.int 1, .int 2], .array [.int 3, .int 4]]),
      (ascii "b", .list [.array [], .array [.int 5, .int 6], .array [.int 7]])] := ⟨by decide, by decide⟩
  have rows : Element.uint8.Holds [[.int 1, .int 2], [.int 3, .int 4]].flatten := ⟨by decide, by decide⟩
  have ragged : Element.uint8.Holds [[], [.int 5, .int 6], [.int 7]].flatten := ⟨by decide, by decide⟩
  have numbers : Element.int16.Holds [.int (-1), .int 2] := ⟨by decide, by decide⟩
  have typed : v.HasType schema t := by
    refine .pair (.sortedMap sorted ?_) (.some (.leaf rfl (.array rfl numbers)))
    rw [List.forall_mem_cons, List.forall_mem_singleton]
    exact ⟨.leaf rfl (.rows rows), .leaf rfl (.rows ragged)⟩
  obtain ⟨receipts, last, _, _, _, _, _, encoded, _⟩ := encode_calls typed store 0
  have asked : (encode schema (some (Recorded.start store)) 0 t v).2.map Recorded.calls
      = some [([1, 2, 3, 4], .ok 8), ([5, 6], .error .failed), ([7], .ok 40), ([255, 255, 2, 0], .error .closed)] := by
    decide +kernel
  have failed : (encode schema (some (Recorded.start store)) 0 t v).1 = .error .failed := by
    decide +kernel
  rw [encoded] at asked failed
  exact ⟨last, encoded.trans (Prod.ext failed rfl), Option.some.inj asked⟩

end JsonSidecar
