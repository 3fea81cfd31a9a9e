/-
Module: JsonSidecar.Proofs.Encode.Strict
Purpose: What is written is strict JSON.  The readers take much that is no JSON, so that reading back what was written
  says nothing of its form.  Around the texts that a value keeps as they are, strings are written with four kinds of
  escapes and objects with no key twice; a text that is kept must be strict JSON for the whole to be.
Main exports: Quoted.encode_isString, Datum.text_strict, Descriptor.text_strict, Val.written_strict,
  EncodeSession.write_strict
-/
import JsonSidecar.Blob.Collection
import JsonSidecar.Proofs.Encode.Written
import JsonSidecar.Proofs.Json.Grammar
import JsonSidecar.Proofs.Number.FloatText

namespace JsonSidecar

open Json (IsString Member Value)

variable {D : Json.Dialect} {kept : Bytes → Prop}

/-! ### Strings -/

theorem Quoted.isHexDigit_hexDigit {n : Nat} (small : n < 16) : IsHexDigit (Byte.hexDigit n) := by
  rw [IsHexDigit, hexValue?_hexDigit n small]
  rfl

/-- A byte is written as it may stand in front of any content. -/
theorem Quoted.content_encodeByte (b : UInt8) {rest : Bytes} (content : Json.Content (Json.encoder kept).escape rest) :
    Json.Content (Json.encoder kept).escape (encodeByte b ++ rest) := by
  unfold encodeByte
  split
  · exact .escaped (w := [Byte.quote]) (.inl (by simp)) content
  split
  · exact .escaped (w := [Byte.backslash]) (.inl (by simp)) content
  split
  · exact .escaped (w := [0x6e]) (.inl (by simp)) content
  split
  · have high := isHexDigit_hexDigit (Nat.div_lt_of_lt_mul (show b.toNat < 16 * 16 from b.toNat_lt))
    have low := isHexDigit_hexDigit (Nat.mod_lt b.toNat (by decide : 0 < 16))
    exact .escaped (.inr ⟨_, _, high, low, rfl⟩) content
  · rename_i quote backslash newline control
    exact .raw quote backslash (by simpa using control) content

theorem Quoted.encode_isString (kept : Bytes → Prop) (bytes : Bytes) :
    IsString (Json.encoder kept).escape (encode bytes) := by
  refine ⟨_, encode_eq bytes, ?_⟩
  induction bytes with
  | nil => exact .nil
  | cons b bytes ih =>
      rw [List.flatMap_cons]
      exact content_encodeByte b ih

/-- A written literal stands for the bytes that were written. -/
theorem Quoted.scan_start_encode (bytes : Bytes) : (scan (Cursor.start (encode bytes))).1 = bytes := by
  have scanned := scan_encode bytes 0 []
  rw [List.append_nil] at scanned
  rw [Cursor.start, scanned]

/-! ### Arrays and objects -/

theorem Json.Value.arrayText {items : List Bytes} (values : ∀ w ∈ items, Value D w) : Value D (arrayText items) := by
  have blank : Blank [] := nofun
  cases items with
  | nil => exact .emptyArray blank
  | cons w items => exact .array (by simp) fun w mem => (values w mem).text

theorem Json.Value.object_forall₂ {literals ws : List Bytes} (members : List.Forall₂ (Member D) literals ws)
    (keys : D.keys literals) : Value D (Byte.openBrace :: (separated ws ++ [Byte.closeBrace])) := by
  have blank : Blank [] := nofun
  have fst : (literals.zip ws).map Prod.fst = literals := List.map_fst_zip (Nat.le_of_eq members.length_eq)
  have snd : (literals.zip ws).map Prod.snd = ws := List.map_snd_zip (Nat.le_of_eq members.length_eq.symm)
  rw [← snd]
  rw [← fst] at keys
  cases pairs : literals.zip ws with
  | nil => exact .emptyObject blank
  | cons m rest =>
      rw [← pairs]
      exact .object (by simp [pairs]) (fun m mem => List.forall₂_zip members mem) keys

/-- Values under keys that differ make an object, each key written with its escapes. -/
theorem Json.Value.object_distinct {α : Type} {key : α → Bytes} {items : List α} {ws : List Bytes}
    (distinct : (items.map key).Nodup)
    (all : List.Forall₂ (fun a w => ∃ u, w = Quoted.encode (key a) ++ Byte.colon :: u ∧ Value (Json.encoder kept) u)
      items ws) :
    Value (Json.encoder kept) (Byte.openBrace :: (separated ws ++ [Byte.closeBrace])) := by
  have blank : Blank [] := nofun
  have members : List.Forall₂ (Member (Json.encoder kept)) (items.map fun a => Quoted.encode (key a)) ws := by
    rw [List.forall₂_map_left_iff]
    refine all.imp ?_
    rintro a w ⟨u, rfl, value⟩
    have member := Member.mk blank (Quoted.encode_isString kept (key a)) blank value.text
    simpa using member
  refine .object_forall₂ members ?_
  show List.Nodup _
  rw [List.map_map]
  simpa [Function.comp_def, Quoted.scan_start_encode] using distinct

/-- An object whose keys differ and need no escapes. -/
theorem Json.Value.objectText {members : List (Bytes × Bytes)}
    (keys : (members.map Prod.fst).Nodup ∧ ∀ key ∈ members.map Prod.fst, ∀ b ∈ key, Quoted.encodeByte b = [b])
    (values : ∀ m ∈ members, Value (Json.encoder kept) m.2) : Value (Json.encoder kept) (objectText members) := by
  obtain ⟨distinct, plain⟩ := keys
  refine .object_distinct distinct ?_
  rw [List.forall₂_map_right_iff, List.forall₂_same]
  exact fun m mem => ⟨m.2, Quoted.keyText_append (plain m.1 (List.mem_map_of_mem mem)) m.2, values m mem⟩

/-! ### Leaves -/

theorem Decimal.intText_strict (n : Int) : Value D (intText n) := by
  rw [← intLiteral_text]
  exact .number (intLiteral_strict n)

theorem Decimal.text_strict (n : Nat) : Value D (text n) := intText_strict n

theorem FloatFormat.text_strict {f : FloatFormat} (standard : f.IsStandard) (bits : Nat) : Value D (f.text bits) := by
  by_cases nan : f.classify bits = .nan
  · rw [f.text_nan nan]
    exact .word (by simp)
  · obtain ⟨l, strict, text, _⟩ := f.text_literal standard nan
    rw [← text]
    exact .number strict

theorem doubleText_strict (bits : UInt64) : Value D (doubleText bits) :=
  FloatFormat.text_strict FloatFormat.double_isStandard bits.toNat

theorem Datum.text_strict (d : Datum) : Value (Json.encoder kept) d.text := by
  cases d with
  | bool b =>
      refine .word ?_
      cases b with
      | false => simp [Datum.text]
      | true => simp [Datum.text]
  | int n => exact Decimal.intText_strict n
  | double bits => exact doubleText_strict bits
  | single bits => exact FloatFormat.text_strict FloatFormat.single_isStandard bits.toNat
  | complex re im =>
      have keys : [ascii "real", ascii "imag"].Nodup ∧
          ∀ key ∈ [ascii "real", ascii "imag"], ∀ b ∈ key, Quoted.encodeByte b = [b] := by decide +kernel
      exact .objectText keys (by simp [doubleText_strict])

theorem NumericRange.text_strict (r : NumericRange) : Value (Json.encoder kept) r.text := by
  have keys : [ascii "min", ascii "max"].Nodup ∧
      ∀ key ∈ [ascii "min", ascii "max"], ∀ b ∈ key, Quoted.encodeByte b = [b] := by decide +kernel
  exact .objectText keys (by simp [doubleText_strict])

theorem Descriptor.text_strict (d : Descriptor) : Value (Json.encoder kept) d.text := by
  have keys : [ascii "dtype", ascii "shape", ascii "offset", ascii "byteLength", ascii "range"].Nodup ∧
      ∀ key ∈ [ascii "dtype", ascii "shape", ascii "offset", ascii "byteLength", ascii "range"], ∀ b ∈ key,
        Quoted.encodeByte b = [b] := by decide +kernel
  have tag : Value (Json.encoder kept) (Byte.quote :: (ascii d.element.tag ++ [Byte.quote])) := by
    have plain : ∀ e : Element, ∀ b ∈ ascii e.tag, Quoted.encodeByte b = [b] := by
      intro e
      cases e <;> decide +kernel
    rw [← Quoted.encode_of_plain (plain d.element)]
    exact .string (Quoted.encode_isString kept _)
  have shape : Value (Json.encoder kept) (arrayText (d.shape.map Decimal.text)) := by
    refine .arrayText fun w mem => ?_
    obtain ⟨n, _, rfl⟩ := List.mem_map.1 mem
    exact Decimal.text_strict n
  exact .objectText keys (by simp [tag, shape, Decimal.text_strict, NumericRange.text_strict])

theorem dataText_strict (data : List Datum) : Value (Json.encoder kept) (dataText data) := by
  refine .arrayText fun w mem => ?_
  obtain ⟨d, _, rfl⟩ := List.mem_map.1 mem
  exact d.text_strict

/-! ### Arrays that may be stored -/

section Arrays

variable {placed : StoredArray → Nat → Prop} {p : Placement} {e : Element} {w : Bytes}

theorem Written.text_strict {bytes : Bytes} (value : Value D bytes) (written : Written placed [.text bytes] w) :
    Value D w := by
  rw [written.text_eq]
  exact value

/-- An array is strict JSON in its place or outside the text. -/
theorem arraySegments_strict {shape : List Nat} {data : List Datum} {inline : Bytes}
    (inside : Value (Json.encoder kept) inline) (written : Written placed (arraySegments p e shape data inline) w) :
    Value (Json.encoder kept) w := by
  unfold arraySegments at written
  split at written
  · obtain ⟨offset, _, rfl⟩ := written.array_eq
    exact Descriptor.text_strict _
  · exact written.text_strict inside

theorem vectorSegments_strict {data : List Datum} (written : Written placed (vectorSegments p e data) w) :
    Value (Json.encoder kept) w :=
  arraySegments_strict (dataText_strict data) written

theorem matrixSegments_strict {rows cols : Nat} {data : List Datum}
    (written : Written placed (matrixSegments p e rows cols data) w) : Value (Json.encoder kept) w := by
  refine arraySegments_strict (.arrayText fun w mem => ?_) written
  obtain ⟨row, _, rfl⟩ := List.mem_map.1 mem
  exact dataText_strict row

/-- Items that are written between brackets make an array. -/
theorem Written.array_strict {α : Type} {f : α → List Segment} {items : List α}
    (values : ∀ a ∈ items, ∀ v, Written placed (f a) v → Value D v)
    (written : Written placed (JsonSidecar.enclosed Byte.openBracket Byte.closeBracket (items.map f)) w) :
    Value D w := by
  obtain ⟨ws, all, rfl⟩ := written.enclosed_map
  refine .arrayText fun v mem => ?_
  obtain ⟨a, listed, written⟩ := exists_of_forall₂ all mem
  exact values a listed v written

theorem rowsSegments_strict {rows : List (List Datum)} (written : Written placed (rowsSegments p e rows) w) :
    Value (Json.encoder kept) w := by
  unfold rowsSegments at written
  split at written
  · obtain ⟨offset, _, rfl⟩ := written.array_eq
    exact Descriptor.text_strict _
  · exact written.array_strict fun row _ v written => vectorSegments_strict written

end Arrays

/-! ### Values -/

namespace Val

variable {S : Type} {schema : Schema S} {placed : StoredArray → Nat → Prop} {p : Placement}

/-- The texts that a leaf keeps as they are. -/
def Keeps (kept : Bytes → Prop) : Ty S → Val → Prop
  | .json, .json raw _ => raw ≠ [] → kept raw
  | _, _ => True

/-- Every text of a leaf is strict JSON around what it keeps. -/
theorem leaf_strict {t : Ty S} {v : Val} (leaf : Leaf t v) (keeps : Keeps kept t v) {w : Bytes}
    (written : Written placed (segments schema p t v) w) : Value (Json.encoder kept) w := by
  cases leaf with
  | scalar =>
      simp only [segments] at written
      exact written.text_strict (Datum.text_strict _)
  | string =>
      simp only [segments] at written
      exact written.text_strict (.string (Quoted.encode_isString kept _))
  | bytes =>
      simp only [segments] at written
      exact written.text_strict (.string (Quoted.encode_isString kept _))
  | json =>
      simp only [segments] at written
      refine written.text_strict ?_
      split
      · exact .word (by simp)
      · rename_i nonempty
        exact .kept (keeps (by simpa using nonempty))
  | range =>
      simp only [segments] at written
      exact written.text_strict (NumericRange.text_strict _)
  | descriptor =>
      simp only [segments] at written
      exact written.text_strict (Descriptor.text_strict _)
  | array element =>
      simp only [segments, element] at written
      exact vectorSegments_strict written
  | natives element =>
      simp only [segments, element] at written
      exact written.text_strict (dataText_strict _)
  | rows =>
      simp only [segments] at written
      exact rowsSegments_strict written
  | vector =>
      simp only [segments] at written
      exact vectorSegments_strict written
  | matrix =>
      simp only [segments] at written
      exact matrixSegments_strict written

/-- The entries of a map make an object, if their values are strict. -/
theorem entries_strict {value : Ty S} {entries : List (Bytes × Val)} (sorted : Entries.Sorted entries) {w : Bytes}
    (values : ∀ entry ∈ entries, ∀ v, Written placed (segments schema p value entry.2) v → Value (Json.encoder kept) v)
    (written : Written placed (enclosed Byte.openBrace Byte.closeBrace (entrySegments schema p value entries)) w) :
    Value (Json.encoder kept) w := by
  rw [entrySegments_eq_map] at written
  obtain ⟨ws, all, rfl⟩ := written.enclosed_map
  have distinct : (entries.map Prod.fst).Nodup := by
    refine List.pairwise_map.2 (sorted.increasing.imp ?_)
    intro first second increasing same
    exact absurd (same ▸ increasing) (List.lt_irrefl _)
  refine .object_distinct distinct ((forall₂_mem all).imp ?_)
  rintro entry v ⟨mem, _, written⟩
  obtain ⟨u, rfl, content⟩ := written.cons_text
  exact ⟨u, by simp, values entry mem u content⟩

/-- The fields of a record make an object, if their values are strict. -/
theorem fields_strict {s : S} (form : (schema s).WellFormed) {fields : List Val}
    (length : fields.length = (schema s).fields.length) {w : Bytes}
    (values : ∀ field ∈ (schema s).fields.zip fields, ∀ v, Written placed (segments schema p field.1.type field.2) v →
      Value (Json.encoder kept) v)
    (written : Written placed
      (enclosed Byte.openBrace Byte.closeBrace (fieldSegments schema p (schema s).fields fields)) w) :
    Value (Json.encoder kept) w := by
  rw [fieldSegments_eq_map] at written
  obtain ⟨ws, all, rfl⟩ := written.enclosed_map
  have listed : ((schema s).fields.zip fields).map Prod.fst = (schema s).fields :=
    List.map_fst_zip (Nat.le_of_eq length.symm)
  have distinct : (((schema s).fields.zip fields).map fun field => field.1.key).Nodup := by
    have keys := form.distinct
    rw [← listed, List.map_map] at keys
    exact keys
  refine .object_distinct distinct ((forall₂_mem all).imp ?_)
  rintro field v ⟨mem, _, written⟩
  obtain ⟨u, rfl, content⟩ := written.cons_text
  have plain := form.plain field.1 (List.of_mem_zip mem).1
  exact ⟨u, Quoted.keyText_append plain u, values field mem u content⟩

/-- Every text of a value is strict JSON around the texts that its leaves keep. -/
theorem written_strict (form : schema.WellFormed) {t : Ty S} {v : Val} (typed : v.HasType schema t)
    (keeps : Typed schema (Keeps kept) t v) {w : Bytes} (written : Written placed (segments schema p t v) w) :
    Value (Json.encoder kept) w := by
  have both := typed.and keeps
  clear typed keeps
  induction both generalizing w with
  | leaf _ leaf => exact leaf_strict leaf.1 leaf.2 written
  | list other _ ih =>
      rw [segments_list other] at written
      exact written.array_strict fun v mem w written => ih v mem written
  | none =>
      simp only [segments] at written
      exact written.text_strict (.word (by simp))
  | some _ ih =>
      simp only [segments] at written
      exact ih written
  | boxed _ ih =>
      simp only [segments] at written
      exact ih written
  | shared _ ih =>
      simp only [segments] at written
      exact ih written
  | sortedMap sorted _ ih =>
      simp only [segments] at written
      exact entries_strict sorted (fun entry mem _ written => ih entry mem written) written
  | hashMap sorted _ ih =>
      rw [segments_hashMap_of_sorted _ sorted, segments] at written
      exact entries_strict sorted (fun entry mem _ written => ih entry mem written) written
  | pair _ _ ih ih' =>
      simp only [segments] at written
      obtain ⟨ws, all, rfl⟩ := written.enclosed
      rcases all with _ | ⟨first, _ | ⟨second, _ | _⟩⟩
      exact .arrayText (by simp [ih first, ih' second])
  | record length _ ih =>
      simp only [segments] at written
      exact fields_strict (form _) length (fun field mem _ written => ih field mem written) written

end Val

/-! ### Sessions -/

namespace EncodeSession

variable {S σ : Type} [BlobStore σ] {schema : Schema S}

/-- A session appends one strict JSON value, in every state and with every store, if the texts that the value keeps are
    such values; outside these texts the value uses the encoder's escapes only and no object has a key twice.  White
    space around kept texts is kept too, so that the value may then have white space around it. -/
theorem write_strict (form : schema.WellFormed) {t : Ty S} {v : Val} (typed : v.HasType schema t)
    (keeps : Val.Typed schema (Val.Keeps kept) t v) (s : EncodeSession σ) :
    ∃ w, (s.write schema t v).text = s.text ++ w ∧ Value (Json.encoder kept) w ∧
      ((∀ raw, kept raw → Value Json.standard raw) → Value Json.standard w) ∧
      ((∀ raw, kept raw → Json.Text Json.standard raw) → Json.Text Json.standard w) := by
  obtain ⟨w, same, written⟩ := s.pushSegments_written (v.segments schema s.placement t)
  have strict := Val.written_strict form typed keeps written
  exact ⟨w, same, strict, fun values => strict.widen (Json.standard_extends kept) values,
    fun texts => strict.widen_text (Json.standard_extends kept) texts⟩

/-- A record of a map, with a kept text, an empty one and a key to escape, and of an array that goes to a store. -/
theorem write_strict_kept_text :
    let schema : Schema Unit := fun _ =>
      ⟨"sample", [⟨ascii "notes", .sortedMap .json, .map []⟩, ⟨ascii "data", .vector .int16, .array []⟩]⟩
    let s : EncodeSession Collection := ⟨ascii "[", some (Collection.ofChunks [[1, 2, 3]]), 2, none⟩
    let raw : Bytes := ascii "[1, \"\\t\"]"
    let v : Val := .record [.map [(ascii "a\n", .json raw false), (ascii "b", .json [] false)],
      .array [.int (-1), .int 300]]
    ∃ w, (s.write schema (.record ()) v).text = s.text ++ w ∧ Value (Json.encoder (· = raw)) w ∧
      Value Json.standard w := by
  intro schema s raw v
  have form : schema.WellFormed := fun _ => ⟨by decide +kernel, by decide⟩
  have one : Value Json.standard (ascii "1") := Decimal.text_strict 1
  have tab : Value Json.standard (ascii "\"\\t\"") :=
    .string ⟨ascii "\\t", rfl, .escaped (w := [0x74]) (.inl ⟨0x74, by simp, rfl⟩) .nil⟩
  have spaced : Json.Text Json.standard (ascii " " ++ ascii "\"\\t\"" ++ []) :=
    .mk (List.forall_mem_singleton.2 rfl) tab nofun
  have strict : Value Json.standard raw := by
    have items : ∀ w ∈ [ascii "1", ascii " \"\\t\""], Json.Text Json.standard w := by
      rw [List.forall_mem_cons, List.forall_mem_singleton]
      exact ⟨one.text, spaced⟩
    exact .array (by simp) items
  have sorted : Entries.Sorted [(ascii "a\n", .json raw false), (ascii "b", .json [] false)] :=
    ⟨by decide +kernel, by decide +kernel⟩
  have sample : ∀ (leaf : Ty Unit → Val → Prop), leaf .json (.json raw false) → leaf .json (.json [] false) →
      leaf (.vector .int16) (.array [.int (-1), .int 300]) → Val.Typed schema leaf (.record ()) v := by
    intro leaf first second data
    refine .record rfl ?_
    simp only [schema, List.zip_cons_cons, List.zip_nil_left, List.forall_mem_cons]
    refine ⟨.sortedMap sorted ?_, .leaf rfl data, nofun⟩
    rw [List.forall_mem_cons, List.forall_mem_singleton]
    exact ⟨.leaf rfl first, .leaf rfl second⟩
  have data : Element.int16.Holds [.int (-1), .int 300] := ⟨by decide, by decide⟩
  have typed : v.HasType schema (.record ()) := sample _ .json .json (.vector data)
  have keeps : Val.Typed schema (Val.Keeps (· = raw)) (.record ()) v :=
    sample _ (fun _ => rfl) (fun nonempty => absurd rfl nonempty) trivial
  obtain ⟨w, same, written, whole, _⟩ := write_strict form typed keeps s
  exact ⟨w, same, written, whole fun _ same => same ▸ strict⟩

end EncodeSession

end JsonSidecar
