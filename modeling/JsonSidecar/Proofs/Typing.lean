/-
Module: JsonSidecar.Proofs.Typing
Purpose: Which values a type has.  Values are data without types, so that a value can be asked for under any type;
  what is proved about writing and reading is about the values of the type.  A property of leaves, which are
  the values written without the help of another type, extends to all values that are made of such leaves.
Main exports: Element.Holds, Val.Leaf, Val.Typed, Val.HasType, Schema.WellFormed
-/
import JsonSidecar.Decode.Array

namespace JsonSidecar

variable {S : Type}

/-! ### Leaves -/

/-- The data of an array: elements of the kind, no more of them than memory has room for. -/
structure Element.Holds (e : Element) (data : List Datum) : Prop where
  kind : ∀ d ∈ data, e.scalar.holds d = true
  fits : data.length * e.size < 2 ^ 63

/-- A descriptor whose numbers are machine words. -/
structure Descriptor.Holds (d : Descriptor) : Prop where
  shape : ∀ n ∈ d.shape, n < wordLimit
  offset : d.offset < wordLimit
  byteLength : d.byteLength < wordLimit

namespace Ty

/-- The types whose values are written without the help of another type; arrays of arrays are among them. -/
def isLeaf : Ty S → Bool
  | .scalar _ | .string | .bytes | .json | .range | .descriptor | .vector _ | .matrix _ => true
  | .list (.scalar _) | .list (.vector _) => true
  | _ => false

end Ty

/-- The values of these types. -/
inductive Val.Leaf : Ty S → Val → Prop where
  | scalar {k : Scalar} {d : Datum} : k.holds d = true → Leaf (.scalar k) (.scalar d)
  | string {content : Bytes} : Utf8.isValid content = true → Leaf .string (.text content)
  | bytes {content : Bytes} : Leaf .bytes (.text content)
  | json {raw : Bytes} {attached : Bool} : Leaf .json (.json raw attached)
  | range {r : NumericRange} : Leaf .range (.range r)
  | descriptor {d : Descriptor} : d.Holds → Leaf .descriptor (.descriptor d)
  | array {k : Scalar} {e : Element} {data : List Datum} : k.element? = .some e → e.Holds data →
      Leaf (.list (.scalar k)) (.array data)
  /-- Integers of native width, of which there are no arrays outside the text. -/
  | natives {k : Scalar} {data : List Datum} : k.element? = .none → (∀ d ∈ data, k.holds d = true) →
      Leaf (.list (.scalar k)) (.array data)
  | rows {e : Element} {rows : List (List Datum)} : e.Holds rows.flatten →
      Leaf (.list (.vector e)) (.list (rows.map .array))
  | vector {e : Element} {data : List Datum} : e.Holds data → Leaf (.vector e) (.array data)
  | matrix {e : Element} {rows cols : Nat} {data : List Datum} : data.length = rows * cols →
      addressable rows cols = true → e.Holds data → Leaf (.matrix e) (.matrix rows cols data)

/-! ### Values made of leaves -/

/-- The entries of a map, sorted by keys that are texts. -/
structure Entries.Sorted (entries : List (Bytes × Val)) : Prop where
  increasing : entries.Pairwise fun first second => first.1 < second.1
  keys : ∀ entry ∈ entries, Utf8.isValid entry.1 = true

namespace Val

/-- The values of a type whose leaves have a property. -/
inductive Typed (schema : Schema S) (leaf : Ty S → Val → Prop) : Ty S → Val → Prop where
  | leaf {t : Ty S} {v : Val} : t.isLeaf = true → leaf t v → Typed schema leaf t v
  | list {item : Ty S} {items : List Val} : (Ty.list item).isLeaf = false →
      (∀ v ∈ items, Typed schema leaf item v) → Typed schema leaf (.list item) (.list items)
  | none {content : Ty S} : Typed schema leaf (.option content) .none
  | some {content : Ty S} {v : Val} : Typed schema leaf content v → Typed schema leaf (.option content) (.some v)
  | boxed {content : Ty S} {v : Val} : Typed schema leaf content v →
      Typed schema leaf (.boxed content) (.referred v)
  | shared {content : Ty S} {v : Val} : Typed schema leaf content v →
      Typed schema leaf (.shared content) (.referred v)
  | sortedMap {value : Ty S} {entries : List (Bytes × Val)} : Entries.Sorted entries →
      (∀ entry ∈ entries, Typed schema leaf value entry.2) → Typed schema leaf (.sortedMap value) (.map entries)
  | hashMap {value : Ty S} {entries : List (Bytes × Val)} : Entries.Sorted entries →
      (∀ entry ∈ entries, Typed schema leaf value entry.2) → Typed schema leaf (.hashMap value) (.map entries)
  | pair {first second : Ty S} {a b : Val} : Typed schema leaf first a → Typed schema leaf second b →
      Typed schema leaf (.pair first second) (.pair a b)
  | record {s : S} {values : List Val} : values.length = (schema s).fields.length →
      (∀ p ∈ (schema s).fields.zip values, Typed schema leaf p.1.type p.2) →
      Typed schema leaf (.record s) (.record values)

/-- The values of a type. -/
abbrev HasType (schema : Schema S) (t : Ty S) (v : Val) : Prop := Typed schema Leaf t v

/-- Two properties of the leaves of a value hold of its leaves together. -/
theorem Typed.and {schema : Schema S} {leaf leaf' : Ty S → Val → Prop} {t : Ty S} {v : Val}
    (first : Typed schema leaf t v) (second : Typed schema leaf' t v) :
    Typed schema (fun t v => leaf t v ∧ leaf' t v) t v := by
  induction first with
  | leaf isLeaf holds =>
      cases second with
      | leaf _ holds' => exact .leaf isLeaf ⟨holds, holds'⟩
      | list other => rw [other] at isLeaf; cases isLeaf
      | _ => cases isLeaf
  | list other _ ih =>
      cases second with
      | leaf isLeaf => rw [other] at isLeaf; cases isLeaf
      | list _ items => exact .list other fun v mem => ih v mem (items v mem)
  | none => exact .none
  | some _ ih =>
      cases second with
      | leaf isLeaf => cases isLeaf
      | some content => exact .some (ih content)
  | boxed _ ih =>
      cases second with
      | leaf isLeaf => cases isLeaf
      | boxed content => exact .boxed (ih content)
  | shared _ ih =>
      cases second with
      | leaf isLeaf => cases isLeaf
      | shared content => exact .shared (ih content)
  | sortedMap sorted _ ih =>
      cases second with
      | leaf isLeaf => cases isLeaf
      | sortedMap _ values => exact .sortedMap sorted fun entry mem => ih entry mem (values entry mem)
  | hashMap sorted _ ih =>
      cases second with
      | leaf isLeaf => cases isLeaf
      | hashMap _ values => exact .hashMap sorted fun entry mem => ih entry mem (values entry mem)
  | pair _ _ ih ih' =>
      cases second with
      | leaf isLeaf => cases isLeaf
      | pair first second => exact .pair (ih first) (ih' second)
  | record length _ ih =>
      cases second with
      | leaf isLeaf => cases isLeaf
      | record _ values => exact .record length fun p mem => ih p mem (values p mem)

end Val

/-! ### Schemas -/

/-- The keys of a record type need no escapes, being identifiers, and no two fields have one key. -/
structure RecordType.WellFormed (r : RecordType S) : Prop where
  plain : ∀ f ∈ r.fields, ∀ b ∈ f.key, Quoted.encodeByte b = [b]
  distinct : (r.fields.map Field.key).Nodup

/-- A schema of such record types. -/
def Schema.WellFormed (schema : Schema S) : Prop := ∀ s, (schema s).WellFormed

end JsonSidecar
