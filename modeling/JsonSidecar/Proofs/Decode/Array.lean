/-
Module: JsonSidecar.Proofs.Decode.Array
Purpose: Arrays are read back through whichever form was written.  The writer decides between a descriptor and the
  text for every array by itself; the reader sees one byte of it and must come to the same array, with its
  elements bit for bit behind a descriptor and as their texts tell otherwise.
Main exports: BlobView.Holds, Serves, readDescriptor_reads, readStored_reads, restoredArray, readArray_reads,
  readRows_reads, readMatrix_reads
-/
import JsonSidecar.Proofs.Decode.Scalar
import JsonSidecar.Proofs.Encode.Capacity

namespace JsonSidecar

open Reader

/-! ### Descriptors -/

theorem ofTag?_tag (e : Element) : Element.ofTag? (ascii e.tag) = some e := by
  cases e <;> rfl

theorem readElement_reads (e : Element) : readElement.Reads (Byte.quote :: (ascii e.tag ++ [Byte.quote])) e := by
  have plain : ∀ b ∈ ascii e.tag, Quoted.encodeByte b = [b] := by
    cases e <;> decide +kernel
  rw [← Quoted.encode_of_plain plain]
  refine (stringBytes_reads descriptorName (ascii e.tag)).andThen fun c => ?_
  rw [ofTag?_tag]
  rfl

/-- The dimensions of a descriptor, which are words. -/
theorem readShape_reads {shape : List Nat} (words : ∀ n ∈ shape, n < wordLimit) :
    (inlineList (Ty.listName sizeKind.name) (readInt sizeKind)).Reads (arrayText (shape.map Decimal.text))
      (shape.map Int.ofNat) := by
  apply Reads.list _
  rw [List.forall₂_map_left_iff, List.forall₂_map_right_iff, List.forall₂_same]
  intro n mem
  exact ⟨readNat_reads (k := sizeKind) rfl (words n mem), (opens_intText n).opens⟩

/-- The members of a descriptor under their keys. -/
theorem readDescriptorMember_reads {d : Descriptor} (holds : d.Holds) {r : NumericRange}
    (range : readRange.Reads d.range.text r) :
    (readDescriptorMember (ascii "dtype")).Reads (Byte.quote :: (ascii d.element.tag ++ [Byte.quote]))
        (.element d.element) ∧
      (readDescriptorMember (ascii "shape")).Reads (arrayText (d.shape.map Decimal.text)) (.shape d.shape) ∧
      (readDescriptorMember (ascii "offset")).Reads (Decimal.text d.offset) (.offset d.offset) ∧
      (readDescriptorMember (ascii "byteLength")).Reads (Decimal.text d.byteLength) (.byteLength d.byteLength) ∧
      (readDescriptorMember (ascii "range")).Reads d.range.text (.range r) := by
  refine ⟨?_, ?_, ?_, ?_, ?_⟩
  · rw [readDescriptorMember, if_pos rfl]
    exact (readElement_reads d.element).map _
  · rw [readDescriptorMember, if_neg (by decide), if_pos rfl]
    have reads := (readShape_reads holds.shape).map fun dims => DescriptorMember.shape (dims.map Int.toNat)
    have same : (d.shape.map Int.ofNat).map Int.toNat = d.shape := by
      rw [List.map_map]
      exact List.map_id d.shape
    rw [same] at reads
    exact reads
  · rw [readDescriptorMember, if_neg (by decide), if_neg (by decide), if_pos rfl]
    exact (readNat_reads (k := offsetKind) rfl holds.offset).map fun n => DescriptorMember.offset n.toNat
  · rw [readDescriptorMember, if_neg (by decide), if_neg (by decide), if_neg (by decide), if_pos rfl]
    exact (readNat_reads (k := offsetKind) rfl holds.byteLength).map fun n => DescriptorMember.byteLength n.toNat
  · rw [readDescriptorMember, if_neg (by decide), if_neg (by decide), if_neg (by decide), if_neg (by decide),
      if_pos rfl]
    exact range.map _

/-- A descriptor is read back, apart from what the texts of its range cannot tell. -/
theorem readDescriptor_reads {d : Descriptor} (holds : d.Holds) :
    ∃ r, readDescriptor.Reads d.text { d with range := r } ∧ (d.range.ReadsBack → r = d.range.reread) := by
  obtain ⟨r, range, law⟩ := readRange_reads d.range
  refine ⟨r, ?_, law⟩
  obtain ⟨element, shape, offset, byteLength, range⟩ := readDescriptorMember_reads holds range
  have plain : ∀ key ∈ [ascii "dtype", ascii "shape", ascii "offset", ascii "byteLength", ascii "range"],
      ∀ b ∈ key, Quoted.encodeByte b = [b] := by
    decide +kernel
  have members : (object descriptorName readDescriptorMember).Reads d.text
      [(ascii "dtype", .element d.element), (ascii "shape", .shape d.shape), (ascii "offset", .offset d.offset),
        (ascii "byteLength", .byteLength d.byteLength), (ascii "range", .range r)] :=
    Reads.objectText descriptorName
      (.cons ⟨rfl, plain _ (by simp), element⟩ (.cons ⟨rfl, plain _ (by simp), shape⟩
        (.cons ⟨rfl, plain _ (by simp), offset⟩ (.cons ⟨rfl, plain _ (by simp), byteLength⟩
          (.cons ⟨rfl, plain _ (by simp), range⟩ .nil)))))
  refine Reads.afterSpace ⟨Byte.openBrace, _, rfl, rfl⟩ fun start => members.andThen fun c => ?_
  rfl

/-! ### Stored arrays -/

/-- The store has these bytes at an offset, unless there are none to have. -/
def BlobView.Holds (view : BlobView) (offset : Nat) (bytes : Bytes) : Prop :=
  bytes = [] ∨ offset + bytes.length ≤ view.reserved ∧ view.read offset bytes.length = .ok bytes

/-- An array whose shape goes with its elements. -/
structure StoredArray.Holds (a : StoredArray) : Prop where
  data : a.element.Holds a.data
  shape : ∀ n ∈ a.shape, n < wordLimit
  count : shapeCount? a.shape = some a.data.length

/-- The bytes of an array are fetched through its descriptor. -/
theorem BlobView.fetch_eq_ok {view : BlobView} {a : StoredArray} (holds : a.Holds) {offset rank : Nat}
    (held : view.Holds offset a.bytes) (dims : a.shape.length = rank) (r : NumericRange) :
    view.fetch a.element rank { a.descriptor offset with range := r } = .ok a.bytes := by
  have length : a.bytes.length = a.data.length * a.element.size := Element.writeAll_length holds.data.kind
  have expected : ({ a.descriptor offset with range := r } : Descriptor).expectedByteLength?
      = some a.bytes.length := by
    have small : a.data.length * a.element.size < wordLimit := Nat.lt_trans holds.data.fits (by decide)
    show (shapeCount? a.shape).bind (fun count => mulWord? count a.element.size) = _
    rw [holds.count, Option.bind_some, mulWord?, if_pos small, length]
  unfold BlobView.fetch
  rw [if_neg (by simp [StoredArray.descriptor]), if_neg (by simp [StoredArray.descriptor, dims]),
    if_neg (by rw [expected]; simp [StoredArray.descriptor])]
  rcases held with empty | ⟨inside, read⟩
  · simp [StoredArray.descriptor, empty]
  · by_cases empty : a.bytes = []
    · simp [StoredArray.descriptor, empty]
    · rw [if_neg (by simpa [StoredArray.descriptor] using empty),
        if_neg (by simpa [StoredArray.descriptor] using inside)]
      show (view.read offset a.bytes.length).mapError Reason.unreadable = _
      rw [read]
      rfl

/-- A stored array is read back element for element and bit for bit. -/
theorem readStored_reads {view : BlobView} {a : StoredArray} (holds : a.Holds) {offset rank : Nat}
    (word : offset < wordLimit) (held : view.Holds offset a.bytes) (dims : a.shape.length = rank)
    (expected : String) :
    (readStored (some view) a.element expected rank).Reads (a.descriptor offset).text (a.shape, a.data) := by
  obtain ⟨r, reads, _⟩ := readDescriptor_reads (StoredArray.descriptor_holds holds.data holds.shape word)
  refine Reads.afterSpace ⟨Byte.openBrace, _, rfl, rfl⟩ fun start => reads.andThen fun c => ?_
  rw [BlobView.fetch_eq_ok holds held dims]
  show Outcome.ok (a.shape, a.element.readAll a.bytes) c = _
  rw [StoredArray.bytes, Element.readAll_writeAll holds.data.kind]

/-! ### What comes back of an array -/

/-- The elements that come back of an array in one dimension. -/
def restoredArray (p : Placement) (data : List Datum) : List Datum :=
  if p.stores data.length then data else data.map Datum.reread

/-- The rows that come back of a list of arrays. -/
def restoredRows (p : Placement) (rows : List (List Datum)) : List (List Datum) :=
  match packs? p rows with
  | some _ => rows
  | none => rows.map (restoredArray p)

/-- The matrix that comes back of a matrix.  Without rows, the text does not tell how many columns there are. -/
def restoredMatrix (p : Placement) (rows cols : Nat) (data : List Datum) : Nat × Nat × List Datum :=
  if p.stores data.length then (rows, cols, data)
  else if rows = 0 then (0, 0, [])
  else (rows, cols, data.map Datum.reread)

/-- The law for the numbers of an array that stay in the text. -/
def Placement.ReadsBack (p : Placement) (data : List Datum) : Prop :=
  p.stores data.length = false → ∀ d ∈ data, d.ReadsBack

/-- A store for reading that has everything which was placed when the text was written. -/
structure Serves (p : Placement) (store : Option BlobView) (placed : StoredArray → Nat → Prop) : Prop where
  attached : store.isSome = p.attached
  held : p.attached = true → ∀ a offset, placed a offset →
    offset < wordLimit ∧ ∃ view, store = some view ∧ view.Holds offset a.bytes

section Arrays

variable {p : Placement} {store : Option BlobView} {placed : StoredArray → Nat → Prop} {e : Element}
  {data : List Datum} {w : Bytes}

theorem Placement.attached_of_stores {count : Nat} (stores : p.stores count = true) : p.attached = true := by
  simp only [Placement.stores, Bool.and_eq_true] at stores
  exact stores.1

/-- A descriptor that was written for a stored array is read back as the array. -/
theorem Serves.readStored_reads (serves : Serves p store placed) {a : StoredArray} (attached : p.attached = true)
    (holds : a.Holds) (written : Written placed [.array a] w) {rank : Nat} (dims : a.shape.length = rank)
    (expected : String) : (readStored store a.element expected rank).Reads w (a.shape, a.data) ∧
      ∃ tail, w = Byte.openBrace :: tail := by
  obtain ⟨offset, place, rfl⟩ := written.array_eq
  obtain ⟨word, view, rfl, held⟩ := serves.held attached a offset place
  exact ⟨JsonSidecar.readStored_reads holds word held dims expected, _, rfl⟩

/-- Scalars in the text are read back one by one. -/
theorem dataText_reads {k : Scalar} (holds : ∀ d ∈ data, k.holds d = true) (law : ∀ d ∈ data, d.ReadsBack)
    (expected : String) : (inlineList expected (readScalar k)).Reads (dataText data) (data.map Datum.reread) := by
  apply Reads.list expected
  rw [List.forall₂_map_left_iff, List.forall₂_map_right_iff, List.forall₂_same]
  intro d mem
  exact ⟨readScalar_reads (holds d mem) (law d mem), d.text_opens⟩

/-- The shape of a vector goes with its elements. -/
theorem vector_holds (holds : e.Holds data) : (⟨e, [data.length], data⟩ : StoredArray).Holds where
  data := holds
  shape := by simpa using holds.length_lt
  count := by
    have small : 1 * data.length < wordLimit := by simpa using holds.length_lt
    show (mulWord? 1 data.length).bind some = _
    rw [mulWord?, if_pos small, Nat.one_mul]
    rfl

/-- The shape of rows of one length goes with their elements. -/
theorem table_holds {rows cols : Nat} (length : data.length = rows * cols) (rowsWord : rows < wordLimit)
    (colsWord : cols < wordLimit) (holds : e.Holds data) : (⟨e, [rows, cols], data⟩ : StoredArray).Holds where
  data := holds
  shape := by simp [rowsWord, colsWord]
  count := by
    have small : rows * cols < wordLimit := length ▸ holds.length_lt
    show (mulWord? 1 rows).bind (fun n => (mulWord? n cols).bind some) = _
    rw [mulWord?, if_pos (by simpa using rowsWord), Nat.one_mul, Option.bind_some, mulWord?, if_pos small, length]
    rfl

/-- A vector is read back through the form it was written in. -/
theorem readArray_reads (serves : Serves p store placed) (holds : e.Holds data) (law : p.ReadsBack data)
    (written : Written placed (vectorSegments p e data) w) :
    (readArray store e).Reads w (restoredArray p data) ∧ OpensPresent w := by
  unfold vectorSegments arraySegments at written
  unfold restoredArray
  cases stores : p.stores data.length with
  | true =>
      rw [stores] at written
      obtain ⟨reads, tail, rfl⟩ := serves.readStored_reads (p.attached_of_stores stores) (vector_holds holds)
        written rfl (Ty.listName e.name)
      refine ⟨Reads.afterPeek rfl ?_, Byte.openBrace, tail, rfl, rfl, by decide⟩
      rw [if_neg (by decide), if_pos rfl]
      exact reads.map Prod.snd
  | false =>
      rw [stores] at written
      rw [written.text_eq]
      refine ⟨Reads.afterPeek rfl ?_, Byte.openBracket, _, rfl, rfl, by decide⟩
      rw [if_pos rfl]
      exact dataText_reads holds.kind (law stores) _

/-- A list of rows is read back through the form it was written in. -/
theorem readRows_reads (serves : Serves p store placed) {rows : List (List Datum)} (holds : e.Holds rows.flatten)
    (law : packs? p rows = none → ∀ row ∈ rows, p.ReadsBack row)
    (written : Written placed (rowsSegments p e rows) w) :
    (readRows store e).Reads w (restoredRows p rows) ∧ OpensPresent w := by
  unfold rowsSegments at written
  unfold restoredRows
  cases packed : packs? p rows with
  | some cols =>
      simp only [packed] at written
      obtain ⟨some, positive, equal, stores⟩ := packs?_eq_some packed
      have total := length_flatten_of_equal equal
      have limit := holds.length_lt
      rw [total] at limit
      have rowsWord := Nat.lt_of_le_of_lt (Nat.le_mul_of_pos_right rows.length positive) limit
      have colsWord := Nat.lt_of_le_of_lt (Nat.le_mul_of_pos_left cols some) limit
      obtain ⟨reads, tail, rfl⟩ := serves.readStored_reads (p.attached_of_stores stores)
        (table_holds total rowsWord colsWord holds) written rfl (Ty.listName (Ty.arrayName e 1))
      refine ⟨Reads.afterPeek rfl (Reads.afterHere fun start => ?_), Byte.openBrace, tail, rfl, rfl, by decide⟩
      rw [if_pos rfl]
      refine reads.andThen fun c => ?_
      have count : rows.flatten.length / cols = rows.length := by rw [total, Nat.mul_div_cancel _ positive]
      show (if cols = 0 then _ else _ : Reader (List (List Datum))) c = _
      rw [if_neg (Nat.pos_iff_ne_zero.1 positive)]
      show Outcome.ok (chunks cols (rows.flatten.length / cols) rows.flatten) c = .ok rows c
      rw [count, chunks_flatten equal]
  | none =>
      simp only [packed] at written
      obtain ⟨ws, all, rfl⟩ := written.enclosed_map
      refine ⟨Reads.afterPeek rfl (Reads.afterHere fun start => ?_), Byte.openBracket, _, rfl, rfl, by decide⟩
      rw [if_neg (by decide)]
      apply Reads.list _
      rw [List.forall₂_map_left_iff]
      refine (forall₂_mem all).imp ?_
      rintro row v ⟨mem, _, written⟩
      obtain ⟨reads, present⟩ := readArray_reads serves (holds.row mem) (law packed row mem) written
      exact ⟨reads, present.opens⟩

/-- The rows of a matrix in the text are read back, each of them in the text as well. -/
theorem matrixText_reads {rows cols : Nat} (holds : e.Holds data) (law : ∀ d ∈ data, d.ReadsBack)
    (expected : String) : (inlineList expected (readArray store e)).Reads
      (arrayText ((matrixRows rows cols data).map dataText)) ((matrixRows rows cols data).map (List.map Datum.reread)) := by
  apply Reads.list expected
  rw [List.forall₂_map_left_iff, List.forall₂_map_right_iff, List.forall₂_same]
  intro row mem
  refine ⟨Reads.afterPeek rfl ?_, Byte.openBracket, _, rfl, rfl⟩
  rw [if_pos rfl]
  exact dataText_reads (fun d inside => holds.kind d (mem_of_mem_chunks mem inside))
    (fun d inside => law d (mem_of_mem_chunks mem inside)) _

/-- What the reader of matrices makes of rows in the text. -/
theorem matrixRows_restored {rows cols : Nat} (length : data.length = rows * cols) :
    let read := (matrixRows rows cols data).map (List.map Datum.reread)
    (read.all fun row => row.length = (read.headD []).length) = true ∧
      (read.length, (read.headD []).length, read.flatten)
        = if rows = 0 then (0, 0, []) else (rows, cols, data.map Datum.reread) := by
  intro read
  obtain ⟨flat, equal⟩ := flatten_chunks length
  have flatten : read.flatten = data.map Datum.reread := by
    rw [← flat]
    exact (List.map_flatten ..).symm
  have count : read.length = rows := by
    rw [List.length_map]
    exact chunks_length cols rows data
  have width : ∀ row ∈ read, row.length = cols := by
    intro row mem
    obtain ⟨row', inside, rfl⟩ := List.mem_map.1 mem
    rw [List.length_map]
    exact equal row' inside
  cases same : read with
  | nil =>
      have none : rows = 0 := by rw [← count, same, List.length_nil]
      simp [none]
  | cons first rest =>
      have some : rows ≠ 0 := by rw [← count, same, List.length_cons]; exact Nat.succ_ne_zero _
      have head : first.length = cols := width first (by simp [same])
      rw [if_neg some, ← flatten, ← same, ← count]
      constructor
      · simp only [same, List.headD_cons, List.all_eq_true, decide_eq_true_eq]
        intro row mem
        rw [head]
        exact width row (by rw [same]; exact mem)
      · rw [same, List.headD_cons, head]

/-- A matrix is read back through the form it was written in. -/
theorem readMatrix_reads (serves : Serves p store placed) {rows cols : Nat} (length : data.length = rows * cols)
    (small : addressable rows cols = true) (holds : e.Holds data) (law : p.ReadsBack data)
    (written : Written placed (matrixSegments p e rows cols data) w) :
    (readMatrix store e).Reads w (restoredMatrix p rows cols data) ∧ OpensPresent w := by
  unfold matrixSegments arraySegments at written
  unfold restoredMatrix
  cases stores : p.stores data.length with
  | true =>
      rw [stores] at written
      obtain ⟨rowsWord, colsWord⟩ := addressable_lt small
      obtain ⟨reads, tail, rfl⟩ := serves.readStored_reads (p.attached_of_stores stores)
        (table_holds length rowsWord colsWord holds) written rfl (Ty.arrayName e 2)
      refine ⟨Reads.afterPeek rfl (Reads.afterHere fun start => ?_), Byte.openBrace, tail, rfl, rfl, by decide⟩
      rw [if_pos rfl]
      refine reads.andThen fun c => ?_
      show (if addressable rows cols = true then _ else _ : Reader (Nat × Nat × List Datum)) c = _
      rw [if_pos small]
      rfl
  | false =>
      rw [stores] at written
      rw [written.text_eq]
      refine ⟨Reads.afterPeek rfl (Reads.afterHere fun start => ?_), Byte.openBracket, _, rfl, rfl, by decide⟩
      rw [if_neg (by decide)]
      refine (matrixText_reads holds (law stores) _).andThen fun c => ?_
      obtain ⟨equal, shape⟩ := matrixRows_restored length
      rw [if_pos equal]
      rw [Scan.bind_apply, Scan.pure_apply, Outcome.bind_ok, shape]
      by_cases none : rows = 0
      · rw [if_pos none, if_neg (by simp)]
        rfl
      · rw [if_neg none, if_neg (by simp)]
        show (if addressable rows cols = true then _ else _ : Reader (Nat × Nat × List Datum)) c = _
        rw [if_pos small]
        rfl

end Arrays

end JsonSidecar
