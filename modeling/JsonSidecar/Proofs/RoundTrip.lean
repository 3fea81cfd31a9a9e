/-
Module: JsonSidecar.Proofs.RoundTrip
Purpose: Reading what was written.  Every text of a value of a type, under any placement and with a store that has
  what was placed, is read back by the type as the value with its leaves settled.  The reader of each
  type stops where its writer stopped, in front of whatever may follow.
Main exports: Val.Leaf.reads, Val.Typed.reads, decode_of_reads, decode_encodeInline, decode_encode
-/
import JsonSidecar.Proofs.Blob.Collection
import JsonSidecar.Proofs.Decode.Typed

namespace JsonSidecar

open Reader

variable {S : Type} {schema : Schema S} {p : Placement} {store : Option BlobView}
  {placed : StoredArray → Nat → Prop}

namespace Val

/-! ### Leaves -/

/-- A leaf is read back from each of its texts. -/
theorem Leaf.reads (serves : Serves p store placed) (record : S → Reader Val) {t : Ty S} {v : Val} (leaf : Leaf t v)
    (law : LeafReadsBack p t v) {w : Bytes} (written : Written placed (segments schema p t v) w) :
    (t.readWith schema store record).Reads w (restored schema p t v) := by
  cases leaf with
  | scalar holds =>
      simp only [segments] at written
      simp only [Ty.readWith, restored]
      rw [written.text_eq]
      exact (readScalar_reads holds law).map _
  | string valid =>
      simp only [segments] at written
      simp only [Ty.readWith, restored]
      rw [written.text_eq]
      exact (readString_reads valid).map _
  | @bytes content =>
      simp only [segments] at written
      simp only [Ty.readWith, restored]
      rw [written.text_eq]
      exact (stringBytes_reads Ty.bytesName content).map _
  | @json raw attached =>
      simp only [segments] at written
      simp only [Ty.readWith, restored]
      rw [written.text_eq, ← serves.attached]
      apply readJson_reads store
      cases raw with
      | nil => exact isCompleteValue_null
      | cons b rest => exact law (by simp)
  | @range r =>
      simp only [segments] at written
      simp only [Ty.readWith, restored]
      obtain ⟨r', reads, same⟩ := readRange_reads r
      rw [written.text_eq, ← same law]
      exact reads.map _
  | @descriptor d holds =>
      simp only [segments] at written
      simp only [Ty.readWith, restored]
      obtain ⟨r', reads, same⟩ := readDescriptor_reads holds
      rw [written.text_eq, ← same law]
      exact reads.map _
  | @array k e data element holds =>
      simp only [segments, element] at written
      simp only [Ty.readWith, restored, element]
      exact (readArray_reads serves holds law written).1.map _
  | @natives k data element holds =>
      simp only [segments, element] at written
      simp only [Ty.readWith, restored, element]
      rw [written.text_eq]
      exact (dataText_reads holds (fun d mem => readsBack_of_native element (holds d mem)) _).map _
  | @rows e rows holds =>
      simp only [segments, data_array] at written
      simp only [LeafReadsBack, List.forall_mem_map, data_array] at law
      simp only [Ty.readWith, restored, data_array]
      exact (readRows_reads serves holds law written).1.map _
  | @vector e data holds =>
      simp only [segments] at written
      simp only [Ty.readWith, restored]
      exact (readArray_reads serves holds law written).1.map _
  | @matrix e rows cols data length small holds =>
      simp only [segments] at written
      simp only [Ty.readWith, restored]
      exact (readMatrix_reads serves length small holds law written).1.map _

/-! ### Values -/

/-- A list of anything but scalars and arrays is read item by item. -/
theorem readWith_list {item : Ty S} (other : (Ty.list item).isLeaf = false) (record : S → Reader Val) :
    (Ty.list item).readWith schema store record
      = .list <$> inlineList (Ty.name schema (.list item)) (item.readWith schema store record) := by
  cases item with
  | scalar k => cases other
  | vector e => cases other
  | _ => simp only [Ty.readWith]

/-- A part is no longer than the parts with commas between them. -/
theorem length_le_separated {ws : List Bytes} {w : Bytes} (mem : w ∈ ws) : w.length ≤ (separated ws).length := by
  induction ws with
  | nil => cases mem
  | cons first rest ih =>
      cases rest with
      | nil =>
          rcases List.mem_singleton.1 mem with rfl
          exact Nat.le_refl _
      | cons second rest =>
          simp only [separated, List.length_append, List.length_cons]
          rcases List.mem_cons.1 mem with rfl | mem
          · omega
          · have inner := ih mem
            omega

/-- A part is shorter than the parts between an opening and a closing byte. -/
theorem length_lt_enclosed {ws : List Bytes} {w : Bytes} (mem : w ∈ ws) {opening closing : UInt8} {n : Nat}
    (short : (opening :: (separated ws ++ [closing])).length ≤ n) : w.length < n := by
  have inner := length_le_separated mem
  rw [List.length_cons, List.length_append, List.length_singleton] at short
  omega

/-- The entries of a map are read back if their values are. -/
theorem entries_read {value : Ty S} {entries : List (Bytes × Val)} (sorted : Entries.Sorted entries)
    {record : S → Reader Val} {n : Nat} {w : Bytes}
    (reads : ∀ entry ∈ entries, ∀ u, Written placed (segments schema p value entry.2) u → u.length ≤ n →
      (value.readWith schema store record).Reads u (restored schema p value entry.2))
    (written : Written placed (enclosed Byte.openBrace Byte.closeBrace (entrySegments schema p value entries)) w)
    (short : w.length ≤ n) (expected : String) :
    (readEntries expected (value.readWith schema store record)).Reads w
      (.map (restoredEntries schema p value entries)) := by
  rw [entrySegments_eq_map] at written
  obtain ⟨ws, all, rfl⟩ := written.enclosed_map
  rw [restoredEntries_eq_map]
  apply readEntries_reads expected
  · exact List.pairwise_map.2 sorted.increasing
  · rw [List.forall₂_map_left_iff]
    refine (forall₂_mem all).imp ?_
    rintro entry w ⟨mem, inside, written⟩
    obtain ⟨u, rfl, content⟩ := written.cons_text
    have shorter := length_lt_enclosed inside short
    rw [List.length_append] at shorter
    exact ⟨sorted.keys entry mem, u, reads entry mem u content (by omega), by simp⟩

/-- The fields of a record are read back if their values are. -/
theorem fields_read {s : S} (form : (schema s).WellFormed) {values : List Val}
    (length : values.length = (schema s).fields.length) {record : S → Reader Val} {n : Nat} {w : Bytes}
    (reads : ∀ field ∈ (schema s).fields.zip values, ∀ u, Written placed (segments schema p field.1.type field.2) u →
      u.length < n → (field.1.type.readWith schema store record).Reads u (restored schema p field.1.type field.2))
    (written : Written placed
      (enclosed Byte.openBrace Byte.closeBrace (fieldSegments schema p (schema s).fields values)) w)
    (short : w.length ≤ n) :
    (readFields (schema s).name (schema s).fields fun f => f.type.readWith schema store record).Reads w
      (.record (restoredFields schema p (schema s).fields values)) := by
  rw [fieldSegments_eq_map] at written
  obtain ⟨ws, all, rfl⟩ := written.enclosed_map
  let results := ((schema s).fields.zip values).map fun field => (field.1, restored schema p field.1.type field.2)
  have fields : results.map Prod.fst = (schema s).fields := by
    rw [List.map_map]
    exact List.map_fst_zip (Nat.le_of_eq length.symm)
  have restored : results.map Prod.snd = restoredFields schema p (schema s).fields values := by
    rw [restoredFields_eq_map, List.map_map]
    rfl
  rw [← restored]
  apply readFields_reads form fields
  rw [List.forall₂_map_left_iff]
  refine (forall₂_mem all).imp ?_
  rintro field w ⟨mem, inside, written⟩
  obtain ⟨u, rfl, content⟩ := written.cons_text
  have shorter := length_lt_enclosed inside short
  rw [List.length_append] at shorter
  exact ⟨u, reads field mem u content (by omega), rfl⟩

/-- Every text of a value is read back.  The texts of fields are shorter than that of their record, which is what
    the bound on records inside each other needs. -/
theorem Typed.reads (form : schema.WellFormed) (serves : Serves p store placed) {t : Ty S} {v : Val}
    (typed : Typed schema (fun t v => Leaf t v ∧ LeafReadsBack p t v) t v) {n : Nat} {w : Bytes}
    (written : Written placed (segments schema p t v) w) (short : w.length ≤ n) :
    (t.readWith schema store (readRecord schema store n)).Reads w (restored schema p t v) := by
  induction typed generalizing n w with
  | leaf _ leaf => exact leaf.1.reads serves _ leaf.2 written
  | list other typed ih =>
      rw [segments_list other] at written
      obtain ⟨ws, all, rfl⟩ := written.enclosed_map
      rw [readWith_list other, restored_list other]
      refine Reads.map (Reads.list _ ?_) _
      rw [List.forall₂_map_left_iff]
      refine (forall₂_mem all).imp ?_
      rintro v w ⟨mem, inside, written⟩
      exact ⟨ih v mem written (Nat.le_of_lt (length_lt_enclosed inside short)), (typed v mem).opens written⟩
  | none =>
      simp only [segments] at written
      simp only [Ty.readWith, restored]
      rw [written.text_eq]
      exact Reads.wordHit Word.null (by decide) opens_null
  | some typed ih =>
      simp only [segments] at written
      simp only [Ty.readWith, restored]
      rcases typed.null_or_present written with ⟨null, rfl⟩ | ⟨other, present⟩
      · rw [if_pos null]
        exact Reads.wordHit Word.null (by decide) opens_null
      · rw [if_neg other]
        exact Reads.present present ((ih written short).map _)
  | boxed _ ih =>
      simp only [segments] at written
      simp only [Ty.readWith, restored]
      exact (ih written short).map _
  | shared _ ih =>
      simp only [segments] at written
      simp only [Ty.readWith, restored]
      exact (ih written short).map _
  | sortedMap sorted _ ih =>
      simp only [segments] at written
      simp only [Ty.readWith, restored]
      exact entries_read sorted (fun entry mem u => ih entry mem) written short _
  | hashMap sorted _ ih =>
      rw [segments_hashMap_of_sorted _ sorted, segments] at written
      simp only [Ty.readWith, restored]
      exact entries_read sorted (fun entry mem u => ih entry mem) written short _
  | pair _ _ ih ih' =>
      simp only [segments] at written
      simp only [Ty.readWith, restored]
      obtain ⟨ws, all, rfl⟩ := written.enclosed
      obtain _ | ⟨first, _ | ⟨second, _ | _⟩⟩ := all
      have left := ih first (Nat.le_of_lt (length_lt_enclosed (by simp) short))
      have right := ih' second (Nat.le_of_lt (length_lt_enclosed (by simp) short))
      exact readPair_reads _ left right
  | @record s values length _ ih =>
      simp only [segments] at written
      simp only [Ty.readWith, restored]
      cases n with
      | zero =>
          obtain ⟨ws, _, rfl⟩ := written.enclosed
          simp at short
      | succ n =>
          refine fields_read (form s) length (fun field mem u written shorter => ?_) written short
          exact ih field mem written (Nat.le_of_lt_succ shorter)

end Val

/-! ### Whole texts -/

/-- A text that a type reads back is decoded as a whole. -/
theorem decode_of_reads {t : Ty S} {v : Val} {w : Bytes}
    (reads : (t.readWith schema store (readRecord schema store w.length)).Reads w v) :
    decode schema store t w = .ok v := by
  have spans : (Cursor.start w).Spans w ⟨w.length, []⟩ := ⟨(List.append_nil w).symm, (Nat.zero_add _).symm⟩
  have read : t.read schema store (Cursor.start w) = .ok v ⟨w.length, []⟩ := reads _ _ spans .nil
  simp only [decode, Scan.bind_apply, read, Outcome.bind_ok]
  rfl

/-- A value of a type is decoded from each of its texts, provided that the store for reading has what was placed. -/
theorem decode_written (form : schema.WellFormed) (serves : Serves p store placed) {t : Ty S} {v : Val}
    (typed : v.HasType schema t) (law : Val.Typed schema (Val.LeafReadsBack p) t v) {w : Bytes}
    (written : Written placed (v.segments schema p t) w) :
    decode schema store t w = .ok (v.restored schema p t) :=
  decode_of_reads ((typed.and law).reads form serves written (Nat.le_refl _))

/-- A value that was encoded without a store is decoded from its text, as a whole and up to what texts cannot tell:
    see `Val.restored`.  All that must be known is that kept texts are complete values and that the law for
    floating-point numbers holds for those in the value. -/
theorem decode_encodeInline (form : schema.WellFormed) {t : Ty S} {v : Val} (typed : v.HasType schema t)
    (law : Val.Typed schema (Val.LeafReadsBack .inline) t v) :
    decode schema none t (encodeInline schema t v) = .ok (v.restored schema .inline t) :=
  decode_written form ⟨rfl, nofun⟩ typed law (encodeInline_written schema t v)

/-- A record in a record of its own type.  Minus infinity, an empty text and a matrix without rows do not come back
    as they are. -/
theorem decode_encodeInline_tree :
    let schema : Schema Unit := fun _ =>
      ⟨"tree", [⟨ascii "weight", .scalar .double, .scalar (.double 0)⟩, ⟨ascii "note", .option .json, .none⟩,
        ⟨ascii "table", .matrix .uint8, .matrix 0 0 []⟩, ⟨ascii "children", .list (.record ()), .list []⟩]⟩
    let child : Val := .record [.scalar (.double 0x3ff8000000000000), .none, .matrix 0 3 [], .list []]
    let v : Val := .record [.scalar (.double 0xfff0000000000000), .some (.json [] false), .matrix 0 3 [], .list [child]]
    let child' : Val := .record [.scalar (.double 0x3ff8000000000000), .none, .matrix 0 0 [], .list []]
    let v' : Val := .record [.scalar (.double 0xffe1ccf385ebc8a0), .none, .matrix 0 0 [], .list [child']]
    decode schema none (.record ()) (encodeInline schema (.record ()) v) = .ok v' := by
  intro schema child v child' v'
  have form : schema.WellFormed := fun _ => ⟨by decide +kernel, by decide⟩
  have node : ∀ (leaf : Ty Unit → Val → Prop) {weight : Datum} {note : Val} {children : List Val},
      leaf (.scalar .double) (.scalar weight) → Val.Typed schema leaf (.option .json) note →
      leaf (.matrix .uint8) (.matrix 0 3 []) → (∀ v ∈ children, Val.Typed schema leaf (.record ()) v) →
      Val.Typed schema leaf (.record ()) (.record [.scalar weight, note, .matrix 0 3 [], .list children]) := by
    intro leaf weight note children first second third fourth
    refine .record rfl ?_
    simp only [schema, List.zip_cons_cons, List.zip_nil_left, List.forall_mem_cons]
    exact ⟨.leaf rfl first, second, .leaf rfl third, .list rfl fourth, nofun⟩
  have typed : v.HasType schema (.record ()) := by
    have table : Val.Leaf (.matrix .uint8) (.matrix 0 3 []) (S := Unit) := .matrix rfl rfl ⟨nofun, by decide⟩
    refine node _ (.scalar rfl) (.some (.leaf rfl .json)) table (List.forall_mem_singleton.2 ?_)
    exact node _ (.scalar rfl) .none table nofun
  have law : Val.Typed schema (Val.LeafReadsBack .inline) (.record ()) v := by
    have infinite : DoubleReadsBack 0xfff0000000000000 := nofun
    have digits : DoubleReadsBack 0x3ff8000000000000 := fun _ => ⟨⟨3, []⟩, by decide +kernel⟩
    have empty : Val.LeafReadsBack (S := Unit) .inline .json (.json [] false) := fun some => absurd rfl some
    refine node _ infinite (.some (.leaf rfl empty)) nofun (List.forall_mem_singleton.2 ?_)
    exact node _ digits .none nofun nofun
  have infinity : rereadDouble 0xfff0000000000000 = 0xffe1ccf385ebc8a0 := by decide +kernel
  have digits : rereadDouble 0x3ff8000000000000 = 0x3ff8000000000000 := by decide +kernel
  have same : v.restored schema .inline (.record ()) = v' := by
    simp [v, v', child, child', schema, Val.restored, Val.restoredFields, Val.restoredItems, Datum.reread, infinity,
      digits, restoredMatrix, Val.ofMatrix, Placement.stores, Placement.inline, encodeInline, Val.segments]
  rw [decode_encodeInline form typed law, same]

/-! ### The side channel -/

/-- Encoding a value into a collection never fails, whatever the collection held before, and the collection has what
    was placed.  Offsets are words, so its bytes may not be more than words count; there is no memory for more. -/
theorem encode_serves (schema : Schema S) (t : Ty S) (v : Val) (threshold : Nat) (c : Collection) :
    ∃ text c' placed, encode schema (some c) threshold t v = (.ok text, some c') ∧
      Written placed (v.segments schema ⟨true, threshold⟩ t) text ∧
      (c'.bytes.length < wordLimit → Serves ⟨true, threshold⟩ (some (BlobStore.view c')) placed) := by
  let s := EncodeSession.start (some c) threshold
  obtain ⟨c', store, error, _, held⟩ := s.pushSegments_spec rfl (v.segments schema s.placement t)
  obtain ⟨w, text, written⟩ := s.pushSegments_written (v.segments schema s.placement t)
  refine ⟨w, c', _, ?_, written, fun small => ⟨rfl, fun _ a offset place => ?_⟩⟩
  · show (EncodeSession.finish (s.pushSegments _), (s.pushSegments _).store) = _
    rw [EncodeSession.finish, error, store, text]
    rfl
  · obtain ⟨inside, holds⟩ := held c'.bytes (List.prefix_refl _) (a, offset) place
    exact ⟨Nat.lt_of_le_of_lt inside small, _, rfl, holds⟩

/-- Encoding a value into a collection never fails, whatever the collection held before, and the value is decoded from
    its text and the collection as it is afterwards.  The arrays that were stored come back as they were.  Offsets are
    words, so the bytes of the collection may not be more than words count; there is no memory for more. -/
theorem decode_encode (form : schema.WellFormed) {t : Ty S} {v : Val} (typed : v.HasType schema t) {threshold : Nat}
    (law : Val.Typed schema (Val.LeafReadsBack ⟨true, threshold⟩) t v) (c : Collection) :
    ∃ text c', encode schema (some c) threshold t v = (.ok text, some c') ∧
      (c'.bytes.length < wordLimit →
        decode schema (some (BlobStore.view c')) t text = .ok (v.restored schema ⟨true, threshold⟩ t)) := by
  obtain ⟨text, c', placed, encoded, written, serves⟩ := encode_serves schema t v threshold c
  exact ⟨text, c', encoded, fun small => decode_written form (serves small) typed law written⟩

/-- A stored vector whose text would lose the sign of zero and infinity, and rows of different lengths, of which only
    the first is long enough to be stored. -/
theorem decode_encode_ragged_rows :
    let schema : Schema Empty := nofun
    let t : Ty Empty := .pair (.vector .float64) (.list (.vector .uint8))
    let v : Val := .pair (.array [.double 0x8000000000000000, .double 0x7ff0000000000000])
      (.list [.array [.int 1, .int 2], .array [], .array [.int 3]])
    ∃ text c', encode schema (some (Collection.ofChunks [[1, 2, 3]])) 2 t v = (.ok text, some c') ∧
      c'.bytes.length < wordLimit ∧ decode schema (some (BlobStore.view c')) t text = .ok v := by
  intro schema t v
  have form : schema.WellFormed := nofun
  have first : Element.float64.Holds [.double 0x8000000000000000, .double 0x7ff0000000000000] :=
    ⟨by decide, by decide⟩
  have second : Element.uint8.Holds [[.int 1, .int 2], [], [.int 3]].flatten := ⟨by decide, by decide⟩
  have typed : v.HasType schema t := .pair (.leaf rfl (.vector first)) (.leaf rfl (.rows second))
  have law : Val.Typed schema (Val.LeafReadsBack ⟨true, 2⟩) t v := by
    have integers : ∀ row ∈ [Val.array [.int 1, .int 2], .array [], .array [.int 3]],
        ∀ d ∈ row.data, d.ReadsBack := by
      simp [Val.data, Datum.ReadsBack]
    exact .pair (.leaf rfl nofun) (.leaf rfl fun _ row mem _ => integers row mem)
  have same : v.restored schema ⟨true, 2⟩ t = v := by
    cbv
  obtain ⟨text, c', encoded, decoded⟩ := decode_encode form typed law (Collection.ofChunks [[1, 2, 3]])
  have size : (encode schema (some (Collection.ofChunks [[1, 2, 3]])) 2 t v).2.map (fun c => c.bytes.length)
      = some 56 := by
    decide +kernel
  rw [encoded] at size
  have small : c'.bytes.length < wordLimit := by
    have length : c'.bytes.length = 56 := Option.some.inj size
    rw [length]
    decide
  rw [same] at decoded
  exact ⟨text, c', encoded, small, decoded small⟩

end JsonSidecar
