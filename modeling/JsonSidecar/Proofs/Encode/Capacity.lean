/-
Module: JsonSidecar.Proofs.Encode.Capacity
Purpose: No text is longer than was foretold.  The bound of a value is computed without writing it and without the
  store; it covers the text in every session, whatever offsets the store answers and whether or not its
  writes succeed.
Main exports: Datum.text_length_le, Descriptor.text_length_le, Val.written_length_le, EncodeSession.write_length_le
-/
import JsonSidecar.Blob.Collection
import JsonSidecar.Proofs.Element
import JsonSidecar.Proofs.Encode.Written
import JsonSidecar.Proofs.Lexer.Quoted
import JsonSidecar.Proofs.Number.FloatText

namespace JsonSidecar

/-! ### Numbers -/

theorem doubleText_length_le (bits : UInt64) : (doubleText bits).length ≤ 24 :=
  FloatFormat.text_length_le FloatFormat.double_isStandard bits.toNat

theorem singleText_length_le (bits : UInt32) : (singleText bits).length ≤ 16 :=
  FloatFormat.text_length_le FloatFormat.single_isStandard bits.toNat

/-- A word has at most twenty digits. -/
theorem wordText_length_le {n : Nat} (word : n < wordLimit) : (Decimal.text n).length ≤ longIntLengthBound :=
  Decimal.text_length_le (Nat.lt_trans word (by decide)) (by decide)

theorem intText_length_le {k : IntKind} {n : Int} (contains : k.contains n = true) :
    (Decimal.intText n).length ≤ (Scalar.int k).lengthBound := by
  rcases k with ⟨signed, width⟩
  simp only [IntKind.contains, Bool.and_eq_true, decide_eq_true_eq] at contains
  obtain ⟨least, greatest⟩ := contains
  have digits : ∀ {m k : Nat}, m < 10 ^ k → 0 < k → (Decimal.text m).length ≤ k := Decimal.text_length_le
  unfold Decimal.intText
  cases signed with
  | true =>
      -- The magnitude has a digit less than its bound, which leaves room for the sign.
      have magnitude : (Decimal.text n.natAbs).length + 1 ≤ (Scalar.int ⟨true, width⟩).lengthBound := by
        cases width with
        | w8 | w16 | w32 =>
            have short := digits (m := n.natAbs) (k := 11)
              (by simp [IntKind.least, IntKind.greatest, Width.bits] at least greatest; omega) (by decide)
            exact Nat.succ_le_succ short
        | w64 | native =>
            have short := digits (m := n.natAbs) (k := 19)
              (by simp [IntKind.least, IntKind.greatest, Width.bits] at least greatest; omega) (by decide)
            exact Nat.succ_le_succ short
      split
      · exact magnitude
      · omega
  | false =>
      have nonneg : ¬ n < 0 := by
        simp only [IntKind.least, Bool.false_eq_true, if_false] at least
        omega
      rw [if_neg nonneg]
      cases width with
      | w8 | w16 | w32 =>
          exact digits (k := 12) (by simp [IntKind.greatest, Width.bits] at greatest; omega) (by decide)
      | w64 | native =>
          exact digits (k := 20) (by simp [IntKind.greatest, Width.bits] at greatest; omega) (by decide)

/-! ### Leaves -/

theorem Datum.text_length_le {k : Scalar} {d : Datum} (holds : k.holds d = true) :
    d.text.length ≤ k.lengthBound := by
  cases k with
  | bool =>
      cases d <;> simp [Scalar.holds] at holds
      rename_i b
      cases b with
      | false => exact Nat.le_refl 5
      | true => exact Nat.le_succ 4
  | int k =>
      cases d <;> simp [Scalar.holds] at holds
      exact intText_length_le holds
  | double =>
      cases d <;> simp [Scalar.holds] at holds
      exact Nat.le_succ_of_le (doubleText_length_le _)
  | single =>
      cases d <;> simp [Scalar.holds] at holds
      exact Nat.le_trans (singleText_length_le _) (by decide)
  | complex =>
      cases d <;> simp [Scalar.holds] at holds
      rename_i re im
      have real := doubleText_length_le re
      have imag := doubleText_length_le im
      have keys : (ascii "real").length = 4 ∧ (ascii "imag").length = 4 := ⟨rfl, rfl⟩
      simp [Datum.text, objectText, separated, keyText, Scalar.lengthBound, doubleLengthBound, keys]
      omega

theorem NumericRange.text_length_le (r : NumericRange) : r.text.length ≤ 63 := by
  have min := doubleText_length_le r.min
  have max := doubleText_length_le r.max
  have keys : (ascii "min").length = 3 ∧ (ascii "max").length = 3 := ⟨rfl, rfl⟩
  simp [NumericRange.text, objectText, separated, keyText, keys]
  omega

/-- Items with commas between them are no longer than their bounds with a comma for each. -/
theorem separated_length_le {α : Type} {items : List α} {ws : List Bytes} {bound : α → Nat}
    (all : List.Forall₂ (fun a w => w.length ≤ bound a) items ws) :
    (separated ws).length ≤ (items.map fun a => bound a + 1).sum := by
  induction all with
  | nil => simp [separated]
  | @cons a w items ws first rest ih =>
      rw [List.map_cons, List.sum_cons]
      cases ws with
      | nil =>
          rw [separated]
          omega
      | cons next ws =>
          rw [separated, List.length_append, List.length_cons]
          · omega
          · simp

theorem arrayText_length_le {α : Type} {items : List α} {ws : List Bytes} {bound : α → Nat}
    (all : List.Forall₂ (fun a w => w.length ≤ bound a) items ws) :
    (arrayText ws).length ≤ listBound (items.map bound) := by
  have inner := separated_length_le all
  rw [listBound, List.map_map, arrayText, List.length_cons, List.length_append, List.length_singleton]
  have same : ((fun n => n + 1) ∘ bound) = fun a => bound a + 1 := rfl
  rw [same]
  omega

theorem dataText_length_le {k : Scalar} {data : List Datum} (holds : ∀ d ∈ data, k.holds d = true) :
    (dataText data).length ≤ dataBound k data := by
  apply arrayText_length_le
  rw [List.forall₂_map_right_iff, List.forall₂_same]
  exact fun d mem => Datum.text_length_le (holds d mem)

theorem tag_length_le (e : Element) : (ascii e.tag).length ≤ 9 := by
  cases e <;> decide

/-- The text of a descriptor is within the bound for its rank, whatever else it says. -/
theorem Descriptor.text_length_le {d : Descriptor} (holds : d.Holds) :
    d.text.length ≤ Descriptor.lengthBound d.shape.length := by
  have tag := tag_length_le d.element
  have offset := wordText_length_le holds.offset
  have byteLength := wordText_length_le holds.byteLength
  have range := d.range.text_length_le
  have shape : (arrayText (d.shape.map Decimal.text)).length ≤ 2 + d.shape.length * (longIntLengthBound + 1) := by
    have inner : (arrayText (d.shape.map Decimal.text)).length
        ≤ listBound (d.shape.map fun _ => longIntLengthBound) := by
      apply arrayText_length_le
      rw [List.forall₂_map_right_iff, List.forall₂_same]
      exact fun n mem => wordText_length_le (holds.shape n mem)
    simpa [listBound] using inner
  have keys : (ascii "dtype").length = 5 ∧ (ascii "shape").length = 5 ∧ (ascii "offset").length = 6 ∧
      (ascii "byteLength").length = 10 ∧ (ascii "range").length = 5 := ⟨rfl, rfl, rfl, rfl, rfl⟩
  simp only [longIntLengthBound] at offset byteLength shape
  simp [Descriptor.text, objectText, separated, keyText, Descriptor.lengthBound, longIntLengthBound,
    doubleLengthBound, keys]
  omega

/-! ### Arrays -/

theorem Element.Holds.length_lt {e : Element} {data : List Datum} (holds : e.Holds data) :
    data.length < wordLimit := by
  have one : data.length ≤ data.length * e.size := Nat.le_mul_of_pos_right _ e.size_pos
  exact Nat.lt_of_le_of_lt one (Nat.lt_trans holds.fits (by decide))

/-- The descriptor of a stored array holds words, if the store answers one. -/
theorem StoredArray.descriptor_holds {a : StoredArray} {offset : Nat} (holds : a.element.Holds a.data)
    (shape : ∀ n ∈ a.shape, n < wordLimit) (word : offset < wordLimit) : (a.descriptor offset).Holds where
  shape := shape
  offset := word
  byteLength := by
    show (a.element.writeAll a.data).length < wordLimit
    rw [Element.writeAll_length holds.kind]
    exact Nat.lt_trans holds.fits (by decide)

section Arrays

variable {p : Placement} {placed : StoredArray → Nat → Prop} {e : Element} {data : List Datum} {w : Bytes}

/-- One array, whose descriptor or whose text is within the bound. -/
theorem arraySegments_length_le (words : ∀ a offset, placed a offset → offset < wordLimit) {shape : List Nat}
    {inline : Bytes} {bound : Nat} (holds : e.Holds data) (dims : ∀ n ∈ shape, n < wordLimit)
    (fits : inline.length ≤ bound) (written : Written placed (arraySegments p e shape data inline) w) :
    w.length ≤ arrayBound p shape.length data.length bound := by
  unfold arraySegments at written
  unfold arrayBound
  split at written
  · rename_i stores
    obtain ⟨offset, place, rfl⟩ := written.array_eq
    rw [if_pos stores]
    exact Descriptor.text_length_le (StoredArray.descriptor_holds holds dims (words _ _ place))
  · rename_i inside
    rw [written.text_eq, if_neg inside]
    exact fits

theorem vectorSegments_length_le (words : ∀ a offset, placed a offset → offset < wordLimit) (holds : e.Holds data)
    (written : Written placed (vectorSegments p e data) w) : w.length ≤ vectorBound p e data :=
  arraySegments_length_le words holds (by simpa using holds.length_lt) (dataText_length_le holds.kind) written

/-- A size of an addressable matrix is a word. -/
theorem addressable_lt {rows cols : Nat} (small : addressable rows cols = true) :
    rows < wordLimit ∧ cols < wordLimit := by
  simp only [addressable, decide_eq_true_eq] at small
  have limit : 2 ^ 63 < wordLimit := by decide
  have atLeast : ∀ n : Nat, 0 < if n = 0 then 1 else n := by
    intro n
    split
    · exact Nat.one_pos
    · omega
  have left := Nat.lt_of_le_of_lt (Nat.le_mul_of_pos_right _ (atLeast cols)) small
  have right := Nat.lt_of_le_of_lt (Nat.le_mul_of_pos_left _ (atLeast rows)) small
  constructor
  · split at left
    · omega
    · omega
  · split at right
    · omega
    · omega

/-- The elements of the rows are those of the matrix. -/
theorem mem_of_mem_chunks {α : Type} {size count : Nat} {entries row : List α} {x : α}
    (mem : row ∈ chunks size count entries) (inside : x ∈ row) : x ∈ entries := by
  induction count generalizing entries with
  | zero => cases mem
  | succ count ih =>
      rcases List.mem_cons.1 mem with rfl | mem
      · exact List.mem_of_mem_take inside
      · exact List.mem_of_mem_drop (ih mem)

theorem matrixSegments_length_le (words : ∀ a offset, placed a offset → offset < wordLimit) {rows cols : Nat}
    (small : addressable rows cols = true) (holds : e.Holds data)
    (written : Written placed (matrixSegments p e rows cols data) w) :
    w.length ≤ matrixBound p e rows cols data := by
  obtain ⟨rowsWord, colsWord⟩ := addressable_lt small
  refine arraySegments_length_le words holds (by simp [rowsWord, colsWord]) ?_ written
  apply arrayText_length_le
  rw [List.forall₂_map_right_iff, List.forall₂_same]
  intro row mem
  exact dataText_length_le fun d inside => holds.kind d (mem_of_mem_chunks mem inside)

theorem Element.Holds.row {rows : List (List Datum)} (holds : e.Holds rows.flatten) {row : List Datum}
    (mem : row ∈ rows) : e.Holds row where
  kind d inside := holds.kind d (List.mem_flatten_of_mem mem inside)
  fits := by
    have part := (List.sublist_flatten_of_mem mem).length_le
    exact Nat.lt_of_le_of_lt (Nat.mul_le_mul_right _ part) holds.fits

/-- Rows that are packed have a common length that is not zero. -/
theorem packs?_eq_some {rows : List (List Datum)} {length : Nat} (h : packs? p rows = some length) :
    0 < rows.length ∧ 0 < length ∧ (∀ row ∈ rows, row.length = length) ∧
      p.stores (rows.length * length) = true := by
  obtain ⟨packed, stores⟩ := Option.filter_eq_some_iff.1 h
  unfold packedLength? at packed
  dsimp only at packed
  split at packed
  · rename_i equal
    cases packed
    simp only [Bool.and_eq_true, decide_eq_true_eq, List.all_eq_true] at equal
    refine ⟨?_, equal.1, equal.2, stores⟩
    cases rows with
    | nil => simp at equal
    | cons row rows => simp
  · cases packed

/-- Rows of one length go into the store as one array exactly if they are enough elements together. -/
theorem packs?_of_equal {rows : List (List Datum)} {length : Nat} (some : 0 < rows.length) (positive : 0 < length)
    (equal : ∀ row ∈ rows, row.length = length) :
    packs? p rows = if p.stores (rows.length * length) then .some length else none := by
  have head : (rows.headD []).length = length := by
    cases rows with
    | nil => cases some
    | cons row rest => exact equal row List.mem_cons_self
  have packed : packedLength? rows = .some length := by
    simp only [packedLength?, head]
    rw [if_pos]
    simp only [Bool.and_eq_true, decide_eq_true_eq, List.all_eq_true]
    exact ⟨positive, equal⟩
  rw [packs?, packed, Option.filter]

theorem rowsSegments_length_le (words : ∀ a offset, placed a offset → offset < wordLimit)
    {rows : List (List Datum)} (holds : e.Holds rows.flatten) (written : Written placed (rowsSegments p e rows) w) :
    w.length ≤ rowsBound p e rows := by
  unfold rowsSegments at written
  unfold rowsBound
  cases packed : packs? p rows with
  | some length =>
      simp only [packed] at written ⊢
      obtain ⟨some, positive, equal, _⟩ := packs?_eq_some packed
      obtain ⟨offset, place, rfl⟩ := written.array_eq
      have total := length_flatten_of_equal equal
      have limit := holds.length_lt
      rw [total] at limit
      have count := Nat.lt_of_le_of_lt (Nat.le_mul_of_pos_right rows.length positive) limit
      have width := Nat.lt_of_le_of_lt (Nat.le_mul_of_pos_left length some) limit
      have dims : ∀ n ∈ [rows.length, length], n < wordLimit := by simp [count, width]
      exact Descriptor.text_length_le (StoredArray.descriptor_holds holds dims (words _ _ place))
  | none =>
      simp only [packed] at written ⊢
      obtain ⟨ws, all, rfl⟩ := written.enclosed_map
      refine arrayText_length_le ((forall₂_mem all).imp ?_)
      rintro row v ⟨mem, _, written⟩
      exact vectorSegments_length_le words (holds.row mem) written

end Arrays

/-! ### Values -/

namespace Val

variable {S : Type} {schema : Schema S} {p : Placement}

theorem itemBounds_eq_map (item : Ty S) (items : List Val) :
    itemBounds schema p item items = items.map (lengthBound schema p item) := by
  induction items with
  | nil => simp [itemBounds]
  | cons v items ih => simp [itemBounds, ih]

theorem entriesBound_eq_sum (value : Ty S) (entries : List (Bytes × Val)) :
    entriesBound schema p value entries
      = (entries.map fun entry => Quoted.encodedLength entry.1 + 1 + lengthBound schema p value entry.2 + 1).sum := by
  induction entries with
  | nil => simp [entriesBound]
  | cons entry entries ih =>
      simp only [entriesBound, ih, List.map_cons, List.sum_cons]
      omega

theorem fieldsBound_eq_sum (fields : List (Field S)) (values : List Val) :
    fieldsBound schema p fields values
      = ((fields.zip values).map fun field =>
          field.1.key.length + 3 + lengthBound schema p field.1.type field.2 + 1).sum := by
  induction fields generalizing values with
  | nil => simp [fieldsBound]
  | cons f fields ih =>
      cases values with
      | nil => simp [fieldsBound]
      | cons v values =>
          simp only [fieldsBound, ih, List.zip_cons_cons, List.map_cons, List.sum_cons]
          omega

theorem lengthBound_list {item : Ty S} (other : (Ty.list item).isLeaf = false) (items : List Val) :
    lengthBound schema p (.list item) (.list items) = listBound (items.map (lengthBound schema p item)) := by
  rw [← itemBounds_eq_map]
  cases item with
  | scalar k => cases other
  | vector e => cases other
  | _ => rw [lengthBound]; all_goals simp

/-- Every text of the entries of a map is within the bound, if those of the values are. -/
theorem entries_length_le {placed : StoredArray → Nat → Prop} {value : Ty S} {entries : List (Bytes × Val)} {w : Bytes}
    (within : ∀ entry ∈ entries, ∀ v, Written placed (segments schema p value entry.2) v →
      v.length ≤ lengthBound schema p value entry.2)
    (written : Written placed (enclosed Byte.openBrace Byte.closeBrace (entrySegments schema p value entries)) w) :
    w.length ≤ 2 + entriesBound schema p value entries := by
  rw [entrySegments_eq_map] at written
  obtain ⟨ws, all, rfl⟩ := written.enclosed_map
  have inner : (separated ws).length
      ≤ (entries.map fun entry => Quoted.encodedLength entry.1 + 1 + lengthBound schema p value entry.2 + 1).sum := by
    refine separated_length_le ((forall₂_mem all).imp ?_)
    rintro entry v ⟨mem, _, written⟩
    obtain ⟨tail, rfl, rest⟩ := written.cons_text
    have content := within entry mem tail rest
    simp only [List.length_append, List.length_singleton, Quoted.encode_length]
    omega
  rw [entriesBound_eq_sum, List.length_cons, List.length_append, List.length_singleton]
  omega

/-- Every text of the fields of a record is within the bound, if those of the values are. -/
theorem fields_length_le {placed : StoredArray → Nat → Prop} {fields : List (Field S)} {values : List Val} {w : Bytes}
    (within : ∀ field ∈ fields.zip values, ∀ v, Written placed (segments schema p field.1.type field.2) v →
      v.length ≤ lengthBound schema p field.1.type field.2)
    (written : Written placed (enclosed Byte.openBrace Byte.closeBrace (fieldSegments schema p fields values)) w) :
    w.length ≤ 2 + fieldsBound schema p fields values := by
  rw [fieldSegments_eq_map] at written
  obtain ⟨ws, all, rfl⟩ := written.enclosed_map
  have inner : (separated ws).length
      ≤ ((fields.zip values).map fun field =>
          field.1.key.length + 3 + lengthBound schema p field.1.type field.2 + 1).sum := by
    refine separated_length_le ((forall₂_mem all).imp ?_)
    rintro field v ⟨mem, _, written⟩
    obtain ⟨tail, rfl, rest⟩ := written.cons_text
    have content := within field mem tail rest
    simp only [keyText, List.length_append, List.length_cons, List.length_nil]
    omega
  rw [fieldsBound_eq_sum, List.length_cons, List.length_append, List.length_singleton]
  omega

/-- Every text of a leaf is within the bound that is computed for it. -/
theorem leaf_length_le {placed : StoredArray → Nat → Prop}
    (words : ∀ a offset, placed a offset → offset < wordLimit) {t : Ty S} {v : Val} (leaf : Leaf t v) {w : Bytes}
    (written : Written placed (segments schema p t v) w) : w.length ≤ lengthBound schema p t v := by
  cases leaf with
  | scalar holds =>
      simp only [segments] at written
      rw [written.text_eq, lengthBound]
      exact Datum.text_length_le holds
  | string =>
      simp only [segments] at written
      rw [written.text_eq, lengthBound, Quoted.encode_length]
  | bytes =>
      simp only [segments] at written
      rw [written.text_eq, lengthBound, Quoted.encode_length]
  | json =>
      simp only [segments] at written
      rw [written.text_eq, lengthBound]
      split
      · exact Nat.le_refl 4
      · exact Nat.le_refl _
  | range =>
      simp only [segments] at written
      rw [written.text_eq, lengthBound]
      exact Nat.le_trans (NumericRange.text_length_le _) (by decide)
  | descriptor holds =>
      simp only [segments] at written
      rw [written.text_eq, lengthBound]
      exact Descriptor.text_length_le holds
  | array element holds =>
      simp only [segments, element] at written
      simp only [lengthBound, element]
      exact vectorSegments_length_le words holds written
  | natives element holds =>
      simp only [segments, element] at written
      simp only [lengthBound, element]
      rw [written.text_eq]
      exact dataText_length_le holds
  | rows holds =>
      have same : ∀ rows : List (List Datum), (rows.map Val.array).map Val.data = rows := by
        intro rows
        rw [List.map_map]
        exact List.map_id rows
      simp only [segments, same] at written
      simp only [lengthBound, same]
      exact rowsSegments_length_le words holds written
  | vector holds =>
      simp only [segments] at written
      simp only [lengthBound]
      exact vectorSegments_length_le words holds written
  | matrix _ small holds =>
      simp only [segments] at written
      simp only [lengthBound]
      exact matrixSegments_length_le words small holds written

/-- Every text of a value is within the bound that is computed for it. -/
theorem written_length_le {placed : StoredArray → Nat → Prop}
    (words : ∀ a offset, placed a offset → offset < wordLimit) {t : Ty S} {v : Val} (typed : v.HasType schema t)
    {w : Bytes} (written : Written placed (segments schema p t v) w) : w.length ≤ lengthBound schema p t v := by
  induction typed generalizing w with
  | leaf _ leaf => exact leaf_length_le words leaf written
  | list other _ ih =>
      rw [segments_list other] at written
      rw [lengthBound_list other]
      obtain ⟨ws, all, rfl⟩ := written.enclosed_map
      refine arrayText_length_le ((forall₂_mem all).imp ?_)
      rintro v w ⟨mem, _, written⟩
      exact ih v mem written
  | none =>
      simp only [segments] at written
      rw [written.text_eq, lengthBound]
      exact Nat.le_refl 4
  | some _ ih =>
      simp only [segments] at written
      simp only [lengthBound]
      exact ih written
  | boxed _ ih =>
      simp only [segments] at written
      simp only [lengthBound]
      exact ih written
  | shared _ ih =>
      simp only [segments] at written
      simp only [lengthBound]
      exact ih written
  | sortedMap _ _ ih =>
      simp only [segments] at written
      simp only [lengthBound]
      exact entries_length_le (fun entry mem _ written => ih entry mem written) written
  | hashMap sorted _ ih =>
      rw [segments_hashMap_of_sorted _ sorted, segments] at written
      simp only [lengthBound]
      exact entries_length_le (fun entry mem _ written => ih entry mem written) written
  | pair _ _ ih ih' =>
      simp only [segments] at written
      simp only [lengthBound]
      obtain ⟨ws, all, rfl⟩ := written.enclosed
      rcases all with _ | ⟨first, _ | ⟨second, _ | _⟩⟩
      have left := ih first
      have right := ih' second
      simp only [separated, List.length_cons, List.length_append, List.length_nil]
      omega
  | record _ _ ih =>
      simp only [segments] at written
      simp only [lengthBound]
      exact fields_length_le (fun field mem _ written => ih field mem written) written

end Val

/-! ### Sessions -/

namespace EncodeSession

variable {S σ : Type} [BlobStore σ] {schema : Schema S}

/-- A session appends no more bytes than the bound that is computed for a value before it is written, in every
    state and with every store: it does not matter which offsets the store answers, as long as they are words,
    nor whether its writes succeed. -/
theorem write_length_le {t : Ty S} {v : Val} (typed : v.HasType schema t) (s : EncodeSession σ)
    (words : ∀ place ∈ s.stored (v.segments schema s.placement t), place.2 < wordLimit) :
    ∃ w, (s.write schema t v).text = s.text ++ w ∧ w.length ≤ v.lengthBound schema s.placement t := by
  obtain ⟨w, same, written⟩ := s.pushSegments_written (v.segments schema s.placement t)
  exact ⟨w, same, Val.written_length_le (fun a offset mem => words (a, offset) mem) typed written⟩

/-- A stored array behind text, in a store that holds a chunk already. -/
theorem write_length_le_stored_array :
    let schema : Schema Empty := nofun
    let s : EncodeSession Collection := ⟨ascii "[", some (Collection.ofChunks [[1, 2, 3]]), 2, none⟩
    let t : Ty Empty := .pair (.option .string) (.vector .int16)
    let v : Val := .pair (.some (.text (ascii "a\n"))) (.array [.int (-1), .int 300])
    ∃ w, (s.write schema t v).text = s.text ++ w ∧ w.length ≤ v.lengthBound schema s.placement t := by
  intro schema s t v
  have data : Element.int16.Holds [.int (-1), .int 300] := ⟨by decide, by decide⟩
  have typed : v.HasType schema t := .pair (.some (.leaf rfl (.string (by decide)))) (.leaf rfl (.vector data))
  exact write_length_le typed s (by decide +kernel)

end EncodeSession

end JsonSidecar
