/-
Module: JsonSidecar.Proofs.Rows
Purpose: A matrix and the list of its rows are interchangeable.  The decision to store a matrix is made from all of its
  elements, for a list of rows first from all of them and then row by row; both come to the same, so text and chunks
  are the same and each of the two is read from the text of the other.  Lists of elements and arrays in one dimension
  are interchangeable as well.
Main exports: Val.Interchangeable, ReadAsRows, matrix_rows_interchangeable
-/
import JsonSidecar.Proofs.Encode.Recut
import JsonSidecar.Proofs.Floats
import JsonSidecar.Proofs.RoundTrip

namespace JsonSidecar

variable {S : Type} {schema : Schema S} {p : Placement} {e : Element} {rows cols : Nat} {data : List Datum}

/-- The two values have the same encoding: their segments differ at most in how the text is cut, so from every state of
    every session they leave the same text, the same chunks at the same places, and the same failure.  The room that is
    set aside for them is the same, too. -/
structure Val.Interchangeable (schema : Schema S) (t t' : Ty S) (v v' : Val) : Prop where
  segments : ∀ p, Recut (v.segments schema p t) (v'.segments schema p t')
  bound : ∀ p, v.lengthBound schema p t = v'.lengthBound schema p t'
  inline : encodeInline schema t v = encodeInline schema t' v'
  session : ∀ {σ : Type} [BlobStore σ] (s : EncodeSession σ), s.write schema t v = s.write schema t' v'
  stored : ∀ {σ : Type} [BlobStore σ] (s : EncodeSession σ),
    s.stored (v.segments schema s.placement t) = s.stored (v'.segments schema s.placement t')

theorem Val.Interchangeable.of_segments {t t' : Ty S} {v v' : Val}
    (segments : ∀ p, Recut (v.segments schema p t) (v'.segments schema p t'))
    (bound : ∀ p, v.lengthBound schema p t = v'.lengthBound schema p t') : Interchangeable schema t t' v v' where
  segments := segments
  bound := bound
  inline := (segments .inline).flatMap_eq fun _ => rfl
  session s := (segments s.placement).pushSegments s
  stored s := (segments s.placement).stored s

/-! ### Rows of a matrix -/

/-- The rows of a matrix: as many as it has, each as long as it is wide. -/
structure IsRows (rows cols : Nat) (data : List Datum) (parts : List (List Datum)) : Prop where
  count : parts.length = rows
  width : ∀ row ∈ parts, row.length = cols
  whole : parts.flatten = data

theorem matrixRows_isRows (length : data.length = rows * cols) : IsRows rows cols data (matrixRows rows cols data) where
  count := chunks_length cols rows data
  width := (flatten_chunks length).2
  whole := (flatten_chunks length).1

/-- A row is not stored by itself where the matrix is not stored: it has no more elements. -/
theorem row_inline (length : data.length = rows * cols) (high : 0 < rows) (inline : p.stores data.length = false)
    {row : List Datum} (mem : row ∈ matrixRows rows cols data) : p.stores row.length = false := by
  have fewer : row.length ≤ data.length := by
    rw [(matrixRows_isRows length).width row mem, length]
    exact Nat.le_mul_of_pos_left cols high
  simp only [Placement.stores, Bool.and_eq_false_iff, decide_eq_false_iff_not, Nat.not_le] at inline ⊢
  exact inline.imp_right fewer.trans_lt

/-- What is made of the rows by themselves is made of their texts where the matrix is not stored. -/
theorem map_rows_inline {β : Type} (length : data.length = rows * cols) (high : 0 < rows)
    (inline : p.stores data.length = false) (stored written : List Datum → β) :
    ((matrixRows rows cols data).map fun row => if p.stores row.length then stored row else written row)
      = (matrixRows rows cols data).map written := by
  refine List.map_congr_left fun row mem => ?_
  rw [row_inline length high inline mem]
  exact if_neg Bool.false_ne_true

/-- Whether the rows of a matrix are packed is decided like whether the matrix is stored. -/
theorem packs?_matrixRows (length : data.length = rows * cols) (high : 0 < rows) (wide : 0 < cols) :
    packs? p (matrixRows rows cols data) = if p.stores data.length then some cols else none := by
  have parts := matrixRows_isRows length
  rw [packs?_of_equal (parts.count.symm ▸ high) wide parts.width, parts.count, length]

theorem rowsSegments_recut (length : data.length = rows * cols) (high : 0 < rows) (wide : 0 < cols) :
    Recut (rowsSegments p e (matrixRows rows cols data)) (matrixSegments p e rows cols data) := by
  have parts := matrixRows_isRows length
  rw [rowsSegments, packs?_matrixRows length high wide, matrixSegments, arraySegments]
  cases stores : p.stores data.length with
  | true =>
      rw [if_pos rfl, if_pos rfl, parts.count, parts.whole]
      exact .refl _
  | false =>
      rw [if_neg Bool.false_ne_true, if_neg Bool.false_ne_true]
      have inline : (matrixRows rows cols data).map (vectorSegments p e)
          = ((matrixRows rows cols data).map dataText).map fun w => [.text w] := by
        rw [List.map_map]
        exact map_rows_inline length high stores _ _
      dsimp only
      rw [inline]
      exact .arrayText _

theorem rowsBound_matrixRows (length : data.length = rows * cols) (high : 0 < rows) (wide : 0 < cols) :
    rowsBound p e (matrixRows rows cols data) = matrixBound p e rows cols data := by
  rw [rowsBound, packs?_matrixRows length high wide, matrixBound, arrayBound]
  cases stores : p.stores data.length with
  | true =>
      rw [if_pos rfl, if_pos rfl]
  | false =>
      rw [if_neg Bool.false_ne_true, if_neg Bool.false_ne_true]
      exact congrArg listBound (map_rows_inline length high stores _ _)

/-! ### Encodings -/

theorem Val.segments_ofRows (parts : List (List Datum)) :
    (ofRows parts).segments schema p (.list (.vector e)) = rowsSegments p e parts := by
  rw [ofRows, segments, data_array]

theorem Val.lengthBound_ofRows (parts : List (List Datum)) :
    (ofRows parts).lengthBound schema p (.list (.vector e)) = rowsBound p e parts := by
  rw [ofRows, lengthBound, data_array]

/-- A matrix and the list of its rows have the same encoding. -/
theorem matrix_interchangeable (length : data.length = rows * cols) (high : 0 < rows) (wide : 0 < cols) :
    Val.Interchangeable schema (.list (.vector e)) (.matrix e) (.ofRows (matrixRows rows cols data))
      (.matrix rows cols data) := by
  refine .of_segments (fun p => ?_) fun p => ?_
  · rw [Val.segments_ofRows, Val.segments]
    exact rowsSegments_recut length high wide
  · rw [Val.lengthBound_ofRows, Val.lengthBound, rowsBound_matrixRows length high wide]

/-- A list of elements and an array of them have the same encoding. -/
theorem elements_interchangeable {k : Scalar} (element : k.element? = some e) (data : List Datum) :
    Val.Interchangeable schema (.list (.scalar k)) (.vector e) (.array data) (.array data) := by
  refine .of_segments (fun p => ?_) fun p => ?_
  · rw [Val.segments, Val.segments, element]
    exact .refl _
  · rw [Val.lengthBound, Val.lengthBound, element]

/-! ### Texts -/

/-- The text is one of a matrix and of the list of its rows: read as the one it is the matrix with the given elements,
    and read as the other it is a list of as many rows, each as long as the matrix is wide, with the same elements. -/
structure ReadAsRows (schema : Schema S) (store : Option BlobView) (e : Element) (rows cols : Nat) (data : List Datum)
    (w : Bytes) : Prop where
  matrix : decode schema store (.matrix e) w = .ok (.matrix rows cols data)
  list : ∃ parts, decode schema store (.list (.vector e)) w = .ok (.ofRows parts) ∧ IsRows rows cols data parts

/-- The rows of what comes back of a matrix are what comes back of its rows. -/
theorem restoredRows_matrixRows (length : data.length = rows * cols) (high : 0 < rows) (wide : 0 < cols) :
    IsRows rows cols (restoredArray p data) (restoredRows p (matrixRows rows cols data)) := by
  have parts := matrixRows_isRows length
  rw [restoredRows, packs?_matrixRows length high wide, restoredArray]
  cases stores : p.stores data.length with
  | true =>
      rw [if_pos rfl, if_pos rfl]
      exact parts
  | false =>
      rw [if_neg Bool.false_ne_true, if_neg Bool.false_ne_true]
      have inline : (matrixRows rows cols data).map (restoredArray p)
          = (matrixRows rows cols data).map (List.map Datum.reread) := map_rows_inline length high stores _ _
      dsimp only
      rw [inline]
      refine ⟨(List.length_map _).trans parts.count, fun row mem => ?_, ?_⟩
      · obtain ⟨row', mem', rfl⟩ := List.mem_map.1 mem
        rw [List.length_map]
        exact parts.width row' mem'
      · rw [← List.map_flatten, parts.whole]

/-- A text of a matrix is read as the matrix and as the list of its rows, provided that the store for reading has what
    was placed. -/
theorem readAsRows_written {store : Option BlobView} {placed : StoredArray → Nat → Prop} {w : Bytes}
    (length : data.length = rows * cols) (small : addressable rows cols = true) (holds : e.Holds data) (high : 0 < rows)
    (wide : 0 < cols) (serves : Serves p store placed)
    (written : Written placed ((Val.matrix rows cols data).segments schema p (.matrix e)) w) :
    ReadAsRows schema store e rows cols (restoredArray p data) w := by
  rw [Val.segments] at written
  have parts := matrixRows_isRows length
  constructor
  · have reads := (readMatrix_reads serves length small holds (p.readsBack data) written).1
    have same : restoredMatrix p rows cols data = (rows, cols, restoredArray p data) := by
      unfold restoredMatrix restoredArray
      rw [if_neg (Nat.pos_iff_ne_zero.1 high)]
      split <;> rfl
    rw [same] at reads
    exact decode_of_reads (reads.map fun m => Val.matrix m.1 m.2.1 m.2.2)
  · refine ⟨_, decode_of_reads ?_, restoredRows_matrixRows length high wide⟩
    have listed : Written placed (rowsSegments p e (matrixRows rows cols data)) w :=
      (rowsSegments_recut length high wide).written.2 written
    have reads := (readRows_reads serves (parts.whole.symm ▸ holds) (fun _ row _ => p.readsBack row) listed).1
    exact reads.map fun rows => Val.list (rows.map .array)

/-- A matrix with rows and columns and the list of its rows are interchangeable in every encode: they have the same text
    and the same chunks, whatever the store and the threshold.  So each text is read as either type, and gives as many
    rows as the matrix has, each as long as the matrix is wide, with the same elements: from a text without a store,
    from a text and the collection that it was written to, and in general where the store has what was placed.  Lists
    of elements and arrays in one dimension have the same texts and the same chunks, too. -/
theorem matrix_rows_interchangeable (schema : Schema S) (e : Element) :
    (∀ (rows cols : Nat) (data : List Datum), (Val.matrix rows cols data).HasType schema (.matrix e) →
      0 < rows → 0 < cols →
      let matrix : Val := .matrix rows cols data
      let list : Val := .ofRows (matrixRows rows cols data)
      IsRows rows cols data (matrixRows rows cols data) ∧
      Val.Interchangeable schema (.list (.vector e)) (.matrix e) list matrix ∧
      ReadAsRows schema none e rows cols (restoredArray .inline data) (encodeInline schema (.matrix e) matrix) ∧
      (∀ (c : Collection) (threshold : Nat), ∃ text c',
        encode schema (some c) threshold (.matrix e) matrix = (.ok text, some c') ∧
        encode schema (some c) threshold (.list (.vector e)) list = (.ok text, some c') ∧
        (c'.bytes.length < wordLimit →
          ReadAsRows schema (some (BlobStore.view c')) e rows cols (restoredArray ⟨true, threshold⟩ data) text)) ∧
      ∀ (p : Placement) (store : Option BlobView) (placed : StoredArray → Nat → Prop) (w : Bytes),
        Serves p store placed → Written placed (matrix.segments schema p (.matrix e)) w →
        ReadAsRows schema store e rows cols (restoredArray p data) w) ∧
    ∀ (k : Scalar) (data : List Datum), k.element? = some e →
      Val.Interchangeable schema (.list (.scalar k)) (.vector e) (.array data) (.array data) := by
  refine ⟨?_, fun k data element => elements_interchangeable element data⟩
  intro rows cols data typed high wide matrix list
  obtain ⟨length, small, holds⟩ : data.length = rows * cols ∧ addressable rows cols = true ∧ e.Holds data := by
    cases typed with
    | leaf _ leaf =>
        cases leaf with
        | matrix length small holds => exact ⟨length, small, holds⟩
  have same : Val.Interchangeable schema (.list (.vector e)) (.matrix e) list matrix :=
    matrix_interchangeable length high wide
  have reads : ∀ (p : Placement) (store : Option BlobView) (placed : StoredArray → Nat → Prop) (w : Bytes),
      Serves p store placed → Written placed (matrix.segments schema p (.matrix e)) w →
      ReadAsRows schema store e rows cols (restoredArray p data) w :=
    fun p store placed w => readAsRows_written length small holds high wide
  refine ⟨matrixRows_isRows length, same, ?_, fun c threshold => ?_, reads⟩
  · exact reads .inline none _ _ ⟨rfl, nofun⟩ (encodeInline_written schema (.matrix e) matrix)
  · obtain ⟨text, c', placed, encoded, written, serves⟩ := encode_serves schema (.matrix e) matrix threshold c
    refine ⟨text, c', encoded, ?_, fun small => reads _ _ placed text (serves small) written⟩
    show (((EncodeSession.start (some c) threshold).write schema (.list (.vector e)) list).finish,
      ((EncodeSession.start (some c) threshold).write schema (.list (.vector e)) list).store) = _
    rw [same.session]
    exact encoded

/-- Two rows of two, which are stored together from a threshold of three on although a row by itself is too short. -/
theorem matrix_rows_interchangeable_between :
    let schema : Schema Empty := nofun
    let data : List Datum := [.int 1, .int 2, .int 3, .int 4]
    let list : Val := .list [.array [.int 1, .int 2], .array [.int 3, .int 4]]
    (Val.matrix 2 2 data).HasType schema (.matrix .uint8) ∧ 0 < 2 ∧ ∃ text c',
      encode schema (some Collection.empty) 3 (.matrix .uint8) (.matrix 2 2 data) = (.ok text, some c') ∧
      encode schema (some Collection.empty) 3 (.list (.vector .uint8)) list = (.ok text, some c') ∧
      c'.bytes.length = 16 ∧ ReadAsRows schema (some (BlobStore.view c')) .uint8 2 2 data text := by
  intro schema data list
  have typed : (Val.matrix 2 2 data).HasType schema (.matrix .uint8) :=
    .leaf rfl (.matrix rfl (by decide) ⟨by decide, by decide⟩)
  obtain ⟨_, _, _, encodes, _⟩ :=
    (matrix_rows_interchangeable schema .uint8).1 2 2 data typed (by decide) (by decide)
  obtain ⟨text, c', encoded, listed, reads⟩ := encodes Collection.empty 3
  have size : (encode schema (some Collection.empty) 3 (.matrix .uint8) (.matrix 2 2 data)).2.map (·.bytes.length)
      = some 16 := by
    decide +kernel
  rw [encoded] at size
  have length : c'.bytes.length = 16 := Option.some.inj size
  have small : c'.bytes.length < wordLimit := length ▸ (by decide : 16 < wordLimit)
  exact ⟨typed, by decide, text, c', encoded, listed, length, reads small⟩

end JsonSidecar
