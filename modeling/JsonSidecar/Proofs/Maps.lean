/-
Module: JsonSidecar.Proofs.Maps
Purpose: Maps have one encoding.  Neither the order in which entries were put in, nor the order in which a hash table
  gives them, at any depth of a value, shows in the text, in its bound, or in what the store is asked to keep.  Conversely
  a map that is read has one entry for each key of the text, with what the last member under that key holds.
Main exports: Val.Reordered, Val.WrittenAlike, Val.Reordered.writtenAlike, Ty.read_map, maps_canonical
-/
import JsonSidecar.Proofs.Decode.Bound
import JsonSidecar.Proofs.Decode.Members
import JsonSidecar.Proofs.Encode.Capacity

namespace JsonSidecar

open Reader

variable {S : Type}

/-- Lists that give the same items one by one. -/
theorem map_eq_map_of_zip {α β γ : Type} {f : α → γ} {g : β → γ} {as : List α} {bs : List β}
    (length : as.length = bs.length) (each : ∀ p ∈ as.zip bs, f p.1 = g p.2) : as.map f = bs.map g := by
  rw [← List.forall₂_eq_eq_eq, List.forall₂_map_left_iff, List.forall₂_map_right_iff, List.forall₂_iff_zip]
  exact ⟨length, fun mem => each _ mem⟩

namespace Val

/-! ### Hash tables in other orders -/

/-- The same value of a type, with the entries of its hash tables in other orders, at any depth.  In a hash table the
    entries are put in another order first, and then their values are changed one by one. -/
inductive Reordered (schema : Schema S) : Ty S → Val → Val → Prop where
  | refl (t : Ty S) (v : Val) : Reordered schema t v v
  | list {item : Ty S} {items items' : List Val} : (Ty.list item).isLeaf = false → items.length = items'.length →
      (∀ p ∈ items.zip items', Reordered schema item p.1 p.2) →
      Reordered schema (.list item) (.list items) (.list items')
  | some {content : Ty S} {v v' : Val} : Reordered schema content v v' →
      Reordered schema (.option content) (.some v) (.some v')
  | boxed {content : Ty S} {v v' : Val} : Reordered schema content v v' →
      Reordered schema (.boxed content) (.referred v) (.referred v')
  | shared {content : Ty S} {v v' : Val} : Reordered schema content v v' →
      Reordered schema (.shared content) (.referred v) (.referred v')
  | sortedMap {value : Ty S} {entries entries' : List (Bytes × Val)} : entries.length = entries'.length →
      (∀ p ∈ entries.zip entries', p.1.1 = p.2.1) →
      (∀ p ∈ entries.zip entries', Reordered schema value p.1.2 p.2.2) →
      Reordered schema (.sortedMap value) (.map entries) (.map entries')
  | hashMap {value : Ty S} {table entries entries' : List (Bytes × Val)} : (table.map Prod.fst).Nodup →
      table.Perm entries → entries.length = entries'.length → (∀ p ∈ entries.zip entries', p.1.1 = p.2.1) →
      (∀ p ∈ entries.zip entries', Reordered schema value p.1.2 p.2.2) →
      Reordered schema (.hashMap value) (.map table) (.map entries')
  | pair {first second : Ty S} {a a' b b' : Val} : Reordered schema first a a' → Reordered schema second b b' →
      Reordered schema (.pair first second) (.pair a b) (.pair a' b')
  | record {s : S} {values values' : List Val} : values.length = values'.length →
      (∀ p ∈ (schema s).fields.zip (values.zip values'), Reordered schema p.1.type p.2.1 p.2.2) →
      Reordered schema (.record s) (.record values) (.record values')

section Reordered

variable {schema : Schema S} {p : Placement} {value : Ty S} {entries entries' : List (Bytes × Val)}

theorem entrySegments_congr (length : entries.length = entries'.length)
    (keys : ∀ q ∈ entries.zip entries', q.1.1 = q.2.1)
    (each : ∀ q ∈ entries.zip entries', segments schema p value q.1.2 = segments schema p value q.2.2) :
    entrySegments schema p value entries = entrySegments schema p value entries' := by
  rw [entrySegments_eq_map, entrySegments_eq_map]
  exact map_eq_map_of_zip length fun q mem => by rw [keys q mem, each q mem]

theorem entriesBound_congr (length : entries.length = entries'.length)
    (keys : ∀ q ∈ entries.zip entries', q.1.1 = q.2.1)
    (each : ∀ q ∈ entries.zip entries', lengthBound schema p value q.1.2 = lengthBound schema p value q.2.2) :
    entriesBound schema p value entries = entriesBound schema p value entries' := by
  rw [entriesBound_eq_sum, entriesBound_eq_sum]
  exact congrArg List.sum (map_eq_map_of_zip length fun q mem => by rw [keys q mem, each q mem])

theorem entriesBound_of_perm (perm : entries.Perm entries') :
    entriesBound schema p value entries = entriesBound schema p value entries' := by
  rw [entriesBound_eq_sum, entriesBound_eq_sum]
  exact (perm.map _).sum_nat

/-- Fields that give the same one by one, with values of two records. -/
theorem fields_map_congr {γ : Type} {f : Field S × Val → γ} {fields : List (Field S)} {values values' : List Val}
    (length : values.length = values'.length)
    (each : ∀ q ∈ fields.zip (values.zip values'), f (q.1, q.2.1) = f (q.1, q.2.2)) :
    (fields.zip values).map f = (fields.zip values').map f := by
  induction fields generalizing values values' with
  | nil => rfl
  | cons field fields ih =>
      match values, values', length with
      | [], [], _ => rfl
      | v :: values, v' :: values', length =>
          simp only [List.zip_cons_cons, List.map_cons]
          have first : f (field, v) = f (field, v') := each (field, v, v') (by simp)
          have rest := ih (Nat.succ.inj length) fun q mem => each q (List.mem_cons_of_mem _ mem)
          rw [first, rest]

/-- A value is cut into the same segments, whatever the order of its hash tables. -/
theorem Reordered.segments_eq {t : Ty S} {v v' : Val} (reordered : Reordered schema t v v') (p : Placement) :
    segments schema p t v = segments schema p t v' := by
  induction reordered with
  | refl => rfl
  | list other length _ ih =>
      rw [segments_list other, segments_list other, map_eq_map_of_zip length ih]
  | some _ ih => simpa only [segments] using ih
  | boxed _ ih => simpa only [segments] using ih
  | shared _ ih => simpa only [segments] using ih
  | sortedMap length keys _ ih => rw [segments, segments, entrySegments_congr length keys ih]
  | @hashMap value table entries entries' distinct perm length keys _ ih =>
      have sorted : segments schema p (.hashMap value) (.map table) = segments schema p (.hashMap value) (.map entries) := by
        rw [segments_hashMap, segments_hashMap, Entries.ofList_of_perm perm distinct]
      rw [sorted, segments, segments, entrySegments_congr length keys ih, map_eq_map_of_zip length keys]
  | pair _ _ ih ih' => rw [segments, segments, ih, ih']
  | record length _ ih =>
      rw [segments, segments, fieldSegments_eq_map, fieldSegments_eq_map]
      exact congrArg (enclosed _ _) (fields_map_congr length fun q mem => congrArg (_ :: ·) (ih q mem))

/-- The bound for the length is the same, whatever the order of hash tables. -/
theorem Reordered.lengthBound_eq {t : Ty S} {v v' : Val} (reordered : Reordered schema t v v') (p : Placement) :
    lengthBound schema p t v = lengthBound schema p t v' := by
  induction reordered with
  | refl => rfl
  | list other length _ ih =>
      rw [lengthBound_list other, lengthBound_list other, map_eq_map_of_zip length ih]
  | some _ ih => simpa only [lengthBound] using ih
  | boxed _ ih => simpa only [lengthBound] using ih
  | shared _ ih => simpa only [lengthBound] using ih
  | sortedMap length keys _ ih => rw [lengthBound, lengthBound, entriesBound_congr length keys ih]
  | hashMap _ perm length keys _ ih =>
      rw [lengthBound, lengthBound, entriesBound_of_perm perm, entriesBound_congr length keys ih]
  | pair _ _ ih ih' => rw [lengthBound, lengthBound, ih, ih']
  | record length _ ih =>
      rw [lengthBound, lengthBound, fieldsBound_eq_sum, fieldsBound_eq_sum]
      refine congrArg (2 + List.sum ·) (fields_map_congr length fun q mem => ?_)
      rw [ih q mem]

end Reordered

/-! ### What is written -/

/-- The two values are written alike: with the same bound for the length, and from every state of every session with the
    same text, the same chunks in the same order at the same offsets, and the same failure. -/
structure WrittenAlike (schema : Schema S) (t t' : Ty S) (v v' : Val) : Prop where
  segments : ∀ p, Val.segments schema p t v = Val.segments schema p t' v'
  bound : ∀ p, Val.lengthBound schema p t v = Val.lengthBound schema p t' v'
  session : ∀ {σ : Type} [BlobStore σ] (s : EncodeSession σ), s.write schema t v = s.write schema t' v'

section Written

variable {schema : Schema S} {t t' t'' : Ty S} {v v' v'' : Val} {value : Ty S}

theorem WrittenAlike.of_segments (segments : ∀ p, Val.segments schema p t v = Val.segments schema p t' v')
    (bound : ∀ p, Val.lengthBound schema p t v = Val.lengthBound schema p t' v') :
    WrittenAlike schema t t' v v' where
  segments := segments
  bound := bound
  session s := by rw [EncodeSession.write, EncodeSession.write, segments]

theorem WrittenAlike.symm (alike : WrittenAlike schema t t' v v') : WrittenAlike schema t' t v' v :=
  .of_segments (fun p => (alike.segments p).symm) fun p => (alike.bound p).symm

theorem WrittenAlike.trans (alike : WrittenAlike schema t t' v v') (alike' : WrittenAlike schema t' t'' v' v'') :
    WrittenAlike schema t t'' v v'' :=
  .of_segments (fun p => (alike.segments p).trans (alike'.segments p)) fun p => (alike.bound p).trans (alike'.bound p)

/-- The order of hash tables does not show. -/
theorem Reordered.writtenAlike (reordered : Reordered schema t v v') : WrittenAlike schema t t v v' :=
  .of_segments reordered.segments_eq reordered.lengthBound_eq

/-- A hash table is written like the sorted map with the same entries. -/
theorem hashMap_writtenAlike {table : List (Bytes × Val)} (distinct : (table.map Prod.fst).Nodup) :
    WrittenAlike schema (.hashMap value) (.sortedMap value) (.map table) (.map (Entries.ofList table)) := by
  refine .of_segments (fun p => segments_hashMap value table) fun p => ?_
  rw [lengthBound, lengthBound, entriesBound_of_perm (Entries.perm_ofList distinct)]

/-- The text of a map: its entries in order, each with the literal of its key and a text of its value. -/
def EntriesText (schema : Schema S) (p : Placement) (placed : StoredArray → Nat → Prop) (value : Ty S)
    (entries : List (Bytes × Val)) (w : Bytes) : Prop :=
  ∃ ws, List.Forall₂ (fun entry w => ∃ u, w = Quoted.encode entry.1 ++ Byte.colon :: u ∧
      Written placed (segments schema p value entry.2) u) entries ws ∧
    w = Byte.openBrace :: (separated ws ++ [Byte.closeBrace])

theorem sortedMap_text {p : Placement} {placed : StoredArray → Nat → Prop} {entries : List (Bytes × Val)} {w : Bytes}
    (written : Written placed (segments schema p (.sortedMap value) (.map entries)) w) :
    EntriesText schema p placed value entries w := by
  rw [segments, entrySegments_eq_map] at written
  obtain ⟨ws, all, rfl⟩ := written.enclosed_map
  refine ⟨ws, all.imp ?_, rfl⟩
  intro entry w written
  obtain ⟨u, rfl, rest⟩ := written.cons_text
  exact ⟨u, by rw [List.append_assoc, List.singleton_append], rest⟩

end Written

end Val

/-! ### Contents -/

/-- Entries put in one after another, in two ways that leave the same under each key: the last values there are the same,
    up to the order of hash tables in them. -/
structure SameContents (schema : Schema S) (value : Ty S) (inserted inserted' : List (Bytes × Val)) : Prop where
  left : ∀ key v, LastUnder key inserted v → ∃ v', LastUnder key inserted' v' ∧ Val.Reordered schema value v v'
  right : ∀ key v', LastUnder key inserted' v' → ∃ v, LastUnder key inserted v ∧ Val.Reordered schema value v v'

/-- The entries that a hash table gives, in any order, after some were put in: the last one under each key. -/
structure Iterates {α : Type} (table inserted : List (Bytes × α)) : Prop where
  distinct : (table.map Prod.fst).Nodup
  mem_iff : ∀ key v, (key, v) ∈ table ↔ LastUnder key inserted v

theorem Iterates.ofList_eq {α : Type} {table inserted : List (Bytes × α)} (iterates : Iterates table inserted) :
    Entries.ofList table = Entries.ofList inserted := by
  refine Entries.eq_of_increasing (Entries.ofList_increasing table) (Entries.ofList_increasing inserted) ?_
  rintro ⟨key, v⟩
  rw [Entries.mem_ofList, Entries.mem_ofList, lastUnder_iff_mem iterates.distinct, iterates.mem_iff]

section Contents

variable {schema : Schema S} {value : Ty S} {inserted inserted' table : List (Bytes × Val)}

/-- Sorted maps with the same contents are the same up to the order of hash tables in their values. -/
theorem SameContents.reordered (same : SameContents schema value inserted inserted') :
    Val.Reordered schema (.sortedMap value) (.map (Entries.ofList inserted)) (.map (Entries.ofList inserted')) := by
  have keys : (Entries.ofList inserted).map Prod.fst = (Entries.ofList inserted').map Prod.fst := by
    refine Entries.keys_eq_of_increasing (Entries.ofList_increasing _) (Entries.ofList_increasing _) fun key => ?_
    rw [Entries.mem_keys_ofList, Entries.mem_keys_ofList, ← exists_lastUnder_iff, ← exists_lastUnder_iff]
    constructor
    · rintro ⟨v, last⟩
      obtain ⟨v', last', _⟩ := same.left key v last
      exact ⟨v', last'⟩
    · rintro ⟨v', last'⟩
      obtain ⟨v, last, _⟩ := same.right key v' last'
      exact ⟨v, last⟩
  rw [← List.forall₂_eq_eq_eq, List.forall₂_map_left_iff, List.forall₂_map_right_iff, List.forall₂_iff_zip] at keys
  obtain ⟨length, keys⟩ := keys
  refine .sortedMap length (fun p mem => keys mem) ?_
  rintro ⟨⟨key, v⟩, key', v'⟩ mem
  obtain rfl : key = key' := keys mem
  have last : LastUnder key inserted v := Entries.mem_ofList.1 (List.of_mem_zip mem).1
  have last' : LastUnder key inserted' v' := Entries.mem_ofList.1 (List.of_mem_zip mem).2
  obtain ⟨v'', last'', reordered⟩ := same.left key v last
  exact last'.unique last'' ▸ reordered

/-- A hash table is written like the sorted map into which the same entries were put. -/
theorem Iterates.writtenAlike (iterates : Iterates table inserted) :
    Val.WrittenAlike schema (.hashMap value) (.sortedMap value) (.map table) (.map (Entries.ofList inserted)) :=
  iterates.ofList_eq ▸ Val.hashMap_writtenAlike iterates.distinct

end Contents

/-! ### What is read -/

section Read

variable (schema : Schema S) (store : Option BlobView) (value : Ty S) {c later : Cursor} {v : Val}

/-- A member of a map: a text in which the type of the values finds its value, under a key that is valid. -/
def EntryMember (key : Bytes) (x : Val) (u : Bytes) : Prop :=
  Utf8.isValid key = true ∧ Opens u ∧ (value.read schema store).Finds u x

/-- The entries of a map that is read from members: one for each key, in the order of the keys, with the value that the
    last member under the key holds. -/
structure LastEntries (members : List (Bytes × Bytes)) (entries : List (Bytes × Val)) : Prop where
  increasing : entries.Pairwise fun first second => first.1 < second.1
  keys : ∀ key, key ∈ entries.map Prod.fst ↔ key ∈ members.map Prod.fst
  held : ∀ key x, (key, x) ∈ entries ↔ ∃ u, LastUnder key members u ∧ EntryMember schema store value key x u

theorem entryMember_recognises (expected : String) (key : Bytes) :
    (if Utf8.isValid key then value.read schema store else fail expected .invalidKey).Recognises EndsToken
      (EntryMember schema store value key) := by
  split
  · rename_i valid
    exact (value.read_relayable schema store).recognises.congr fun x w => by simp [EntryMember, valid]
  · rename_i invalid
    refine ⟨fun spells => absurd spells.1 invalid, fun read => absurd read fail_ne_ok, fun spells => absurd spells.1 invalid⟩

theorem entryMember_skippable (expected : String) (key : Bytes) :
    (if Utf8.isValid key then value.read schema store else fail expected .invalidKey).Skippable := by
  split
  · exact value.read_skippable store schema
  · exact fun _ _ _ read => absurd read fail_ne_ok

variable {schema store value}

/-- What is read as a map has the entries that the last members under the keys of its text give. -/
theorem Ty.read_map {t : Ty S} (isMap : t = .sortedMap value ∨ t = .hashMap value)
    (read : t.read schema store c = .ok v later) :
    ∃ members w entries, c.skipSpace.Spans w later ∧ ObjectText members w ∧ v = .map entries ∧
      LastEntries schema store value members entries := by
  obtain ⟨expected, entriesRead⟩ : ∃ expected, readEntries expected (value.read schema store) c = .ok v later := by
    rcases isMap with rfl | rfl
    · exact ⟨_, (readEntries_read schema store _ value c).symm.trans read⟩
    · exact ⟨_, (readEntries_read schema store _ value c).symm.trans read⟩
  obtain ⟨ms, membersRead, rfl⟩ := Outcome.map_eq_ok.1 entriesRead
  have recognises := entryMember_recognises schema store value expected
  have skippable := entryMember_skippable schema store value expected
  obtain ⟨members, w, spans, text⟩ := object_text recognises skippable membersRead
  have all := (object_eq_ok_iff recognises skippable text spans).1 membersRead
  refine ⟨members, w, _, spans, text, rfl, ⟨Entries.ofList_increasing ms, fun key => ?_, fun key x => ?_⟩⟩
  · rw [Entries.mem_keys_ofList, all.keys]
  · rw [Entries.mem_ofList, lastUnder_read_iff recognises all]

end Read

/-! ### One encoding -/

/-- Maps have one encoding.  Entries that were put in in two ways that leave the same contents are written alike, be it
    from hash tables, whatever order these give their entries in, or from sorted maps: with the same bound, the same text,
    in which the keys increase, and the same chunks at the same places.  What is read as a map of either kind has one entry
    for each key of the text, with the value that the last member there holds. -/
theorem maps_canonical (schema : Schema S) (value : Ty S) :
    (∀ inserted inserted' table table' : List (Bytes × Val), SameContents schema value inserted inserted' →
      Iterates table inserted → Iterates table' inserted' →
      Val.WrittenAlike schema (.hashMap value) (.hashMap value) (.map table) (.map table') ∧
      Val.WrittenAlike schema (.hashMap value) (.sortedMap value) (.map table) (.map (Entries.ofList inserted')) ∧
      Val.WrittenAlike schema (.sortedMap value) (.sortedMap value) (.map (Entries.ofList inserted))
        (.map (Entries.ofList inserted')) ∧
      (Entries.ofList inserted).Pairwise (fun first second => first.1 < second.1) ∧
      (∀ key v, (key, v) ∈ Entries.ofList inserted ↔ LastUnder key inserted v) ∧
      ∀ {σ : Type} [BlobStore σ] (s : EncodeSession σ), ∃ w,
        (s.write schema (.hashMap value) (.map table)).text = s.text ++ w ∧
        Val.EntriesText schema s.placement
          (fun a offset => (a, offset) ∈ s.stored (Val.segments schema s.placement (.hashMap value) (.map table)))
          value (Entries.ofList inserted) w) ∧
    ∀ (store : Option BlobView) (t : Ty S) (c later : Cursor) (v : Val), t = .sortedMap value ∨ t = .hashMap value →
      t.read schema store c = .ok v later →
      ∃ members w entries, c.skipSpace.Spans w later ∧ ObjectText members w ∧ v = .map entries ∧
        LastEntries schema store value members entries := by
  refine ⟨?_, fun store t c later v => Ty.read_map⟩
  intro inserted inserted' table table' same iterates iterates'
  have sorted := same.reordered.writtenAlike
  have hashed : Val.WrittenAlike schema (.hashMap value) (.sortedMap value) (.map table)
      (.map (Entries.ofList inserted)) := iterates.writtenAlike
  refine ⟨hashed.trans (sorted.trans iterates'.writtenAlike.symm), hashed.trans sorted, sorted,
    Entries.ofList_increasing inserted, fun key v => Entries.mem_ofList, ?_⟩
  intro σ _ s
  obtain ⟨w, text, written⟩ := s.pushSegments_written (Val.segments schema s.placement (.hashMap value) (.map table))
  refine ⟨w, text, Val.sortedMap_text ?_⟩
  rwa [← hashed.segments]

/-- Two hash tables that give the same entries in different orders, into one of which a key was put twice, and a text that
    gives a key twice, once with an escape. -/
theorem maps_canonical_repeated_key :
    let schema : Schema Empty := nofun
    let value : Ty Empty := .vector .uint8
    let one := Val.array [.int 1]
    let two := Val.array [.int 2]
    let table := [(ascii "b", two), (ascii "a", one)]
    let table' := [(ascii "a", one), (ascii "b", two)]
    let c := Cursor.start (ascii "\x7b\"a\":[1],\"\\u0061\":[2]\x7d")
    Val.WrittenAlike schema (.hashMap value) (.hashMap value) (.map table) (.map table') ∧
      ∃ members w entries, c.skipSpace.Spans w ⟨22, []⟩ ∧ ObjectText members w ∧
        (Ty.hashMap value).read schema none c = .ok (.map entries) ⟨22, []⟩ ∧
        LastEntries schema none value members entries := by
  intro schema value one two table table' c
  have distinct : (table.map Prod.fst).Nodup := by decide
  have distinct' : (table'.map Prod.fst).Nodup := by decide
  have perm : table.Perm table' := .swap _ _ _
  have last (key : Bytes) (v : Val) : LastUnder key ((ascii "b", one) :: table) v ↔ (key, v) ∈ table := by
    rw [lastUnder_cons, lastUnder_iff_mem distinct, or_iff_left]
    rintro ⟨lacks, same⟩
    exact lacks (ascii "b", two) List.mem_cons_self (congrArg Prod.fst same)
  have last' (key : Bytes) (v : Val) : LastUnder key table' v ↔ (key, v) ∈ table := by
    rw [lastUnder_iff_mem distinct', perm.mem_iff]
  have same : SameContents schema value ((ascii "b", one) :: table) table' :=
    ⟨fun key v put => ⟨v, (last' key v).2 ((last key v).1 put), .refl _ _⟩,
      fun key v put => ⟨v, (last key v).2 ((last' key v).1 put), .refl _ _⟩⟩
  have iterates : Iterates table ((ascii "b", one) :: table) := ⟨distinct, fun key v => (last key v).symm⟩
  have iterates' : Iterates table' table' := ⟨distinct', fun key v => (lastUnder_iff_mem distinct').symm⟩
  obtain ⟨written, readBack⟩ := maps_canonical schema value
  refine ⟨(written _ _ _ _ same iterates iterates').1, ?_⟩
  have passed : ((Ty.hashMap value).read schema none c).map (fun _ => ()) = .ok () ⟨22, []⟩ := by decide +kernel
  obtain ⟨v, read, _⟩ := Outcome.map_eq_ok.1 passed
  obtain ⟨members, w, entries, spans, text, rfl, last⟩ := readBack none _ c _ v (.inr rfl) read
  exact ⟨members, w, entries, spans, text, read, last⟩

end JsonSidecar
