/-
Module: JsonSidecar.Proofs.Decode.Typed
Purpose: Values kept as text, maps, records and pairs are read back if their parts are.  The entries of a map are sorted
  already, so collecting them changes nothing, and the keys of a record are distinct, so each field finds its
  own member.
Main exports: readJson_reads, readEntries_reads, readFields_reads, readPair_reads
-/
import JsonSidecar.Proofs.Restored

namespace JsonSidecar

open Reader

/-! ### Members and fields -/

/-- With distinct keys, what is found under a key is the member with that key. -/
theorem lastOf_of_mem {β : Type} {members : List (Bytes × Option β)} (distinct : (members.map Prod.fst).Nodup)
    {key : Bytes} {b : β} (mem : (key, some b) ∈ members) : lastOf key members = some b := by
  induction members with
  | nil => cases mem
  | cons member rest ih =>
      rw [List.map_cons, List.nodup_cons] at distinct
      rcases List.mem_cons.1 mem with rfl | mem
      · have others : rest.filterMap (fun m => if m.1 = key then m.2 else none) = [] := by
          rw [List.filterMap_eq_nil_iff]
          intro m inside
          have other : m.1 ≠ key := fun same => distinct.1 (List.mem_map.2 ⟨m, inside, same⟩)
          rw [if_neg other]
        simp [lastOf, others]
      · have other : member.1 ≠ key := fun same => distinct.1 (List.mem_map.2 ⟨_, mem, same.symm⟩)
        have found := ih distinct.2 mem
        simpa [lastOf, other] using found

/-- With distinct keys, the field that is found by a key is the field with that key. -/
theorem find?_of_mem {S : Type} {fields : List (Field S)} (distinct : (fields.map Field.key).Nodup) {f : Field S}
    (mem : f ∈ fields) : (fields.find? fun g => g.key = f.key) = some f := by
  induction fields with
  | nil => cases mem
  | cons g rest ih =>
      rw [List.map_cons, List.nodup_cons] at distinct
      rcases List.mem_cons.1 mem with rfl | mem
      · simp
      · have other : g.key ≠ f.key := by
          intro same
          rw [same] at distinct
          exact distinct.1 (List.mem_map_of_mem mem)
        rw [List.find?_cons_of_neg (by simpa using other)]
        exact ih distinct.2 mem

/-! ### Readers of parts -/

/-- A complete value is passed over and kept. -/
theorem readJson_reads (store : Option BlobView) {raw : Bytes} (complete : IsCompleteValue raw) :
    (readJson store).Reads raw (.json raw store.isSome) := by
  obtain ⟨tree, spells⟩ := complete.spells
  intro c later spans ends
  have same : c.skipSpace = c := spells.skipSpace_self spans
  have passed : passValue Ty.jsonName c = .ok () later := by
    rw [passValue, lexed, complete.passes spans ends]
    rfl
  simp only [readJson, Scan.bind_apply, Scan.skipSpace_apply, Scan.here_apply, Outcome.bind_ok, same, passed,
    Scan.pure_apply, spans.span_eq]

/-- A map is read back if its values are. -/
theorem readEntries_reads (expected : String) {value : Reader Val} {entries : List (Bytes × Val)} {ws : List Bytes}
    (increasing : entries.Pairwise fun first second => first.1 < second.1)
    (all : List.Forall₂ (fun entry w => Utf8.isValid entry.1 = true ∧
      ∃ u, value.Reads u entry.2 ∧ w = Quoted.encode entry.1 ++ Byte.colon :: u) entries ws) :
    (readEntries expected value).Reads (Byte.openBrace :: (separated ws ++ [Byte.closeBrace])) (.map entries) := by
  refine Reads.andThen (Reads.object expected (all.imp ?_)) fun c => ?_
  · rintro entry w ⟨valid, u, reads, rfl⟩
    refine ⟨u, ?_, rfl⟩
    rw [if_pos valid]
    exact reads
  · rw [Entries.ofList_of_sorted increasing]
    rfl

/-- A record is read back if its fields are. -/
theorem readFields_reads {S : Type} {r : RecordType S} (form : r.WellFormed) {field : Field S → Reader Val}
    {results : List (Field S × Val)} (same : results.map Prod.fst = r.fields) {ws : List Bytes}
    (all : List.Forall₂ (fun result w => ∃ u, (field result.1).Reads u result.2 ∧ w = keyText result.1.key ++ u)
      results ws) :
    (readFields r.name r.fields field).Reads (Byte.openBrace :: (separated ws ++ [Byte.closeBrace]))
      (.record (results.map Prod.snd)) := by
  have listed : ∀ result ∈ results, result.1 ∈ r.fields := by
    intro result mem
    rw [← same]
    exact List.mem_map_of_mem mem
  have members : (object r.name fun key => orSkip r.name ((r.fields.find? fun f => f.key = key).map field)).Reads
      (Byte.openBrace :: (separated ws ++ [Byte.closeBrace]))
      (results.map fun result => (result.1.key, some result.2)) := by
    apply Reads.object r.name
    rw [List.forall₂_map_left_iff]
    refine (forall₂_mem all).imp ?_
    rintro result w ⟨mem, _, u, reads, rfl⟩
    refine ⟨u, ?_, Quoted.keyText_append (form.plain _ (listed result mem)) u⟩
    rw [find?_of_mem form.distinct (listed result mem)]
    exact reads.map some
  have distinct : ((results.map fun result => (result.1.key, some result.2)).map Prod.fst).Nodup := by
    have keys : (results.map fun result => (result.1.key, some result.2)).map Prod.fst = r.fields.map Field.key := by
      rw [← same, List.map_map, List.map_map]
      rfl
    rw [keys]
    exact form.distinct
  refine members.andThen fun c => ?_
  show Outcome.ok (Val.record (r.fields.map fun f => (lastOf f.key _).getD f.default)) c = _
  rw [← same, List.map_map]
  congr 2
  refine List.map_congr_left fun result mem => ?_
  have found := lastOf_of_mem distinct (List.mem_map_of_mem mem)
  rw [Function.comp, found]
  rfl

/-- A pair is read back if its parts are. -/
theorem readPair_reads (expected : String) {first second : Reader Val} {a b : Val} {u v : Bytes}
    (reads : first.Reads u a) (reads' : second.Reads v b) :
    Reads (do
      expect expected Byte.openBracket .expectedBracket
      let a ← first
      expect expected Byte.comma .expectedComma
      let b ← second
      expect expected Byte.closeBracket .expectedClosingBracket
      return Val.pair a b) (arrayText [u, v]) (.pair a b) := by
  intro c later spans ends
  have text : arrayText [u, v] = Byte.openBracket :: (u ++ Byte.comma :: (v ++ [Byte.closeBracket])) := by
    simp [arrayText, separated]
  rw [text] at spans
  obtain ⟨afterOpening, opening, rest⟩ := expect_spans expected .expectedBracket rfl spans
  obtain ⟨afterFirst, left, rest⟩ := rest.split
  obtain ⟨afterComma, comma, rest'⟩ := expect_spans expected .expectedComma rfl rest
  obtain ⟨afterSecond, right, last⟩ := rest'.split
  obtain ⟨stop, closing, done⟩ := expect_spans expected .expectedClosingBracket rfl last
  have same : stop = later := by
    obtain ⟨start, stop⟩ := done.places
    rw [stop]
    simpa using start
  subst same
  have ends : EndsToken afterFirst.rest := by
    rw [rest.1]
    exact .cons rfl _
  have ends' : EndsToken afterSecond.rest := by
    rw [last.1]
    exact .cons rfl _
  simp only [Scan.bind_apply, opening, Outcome.bind_ok, reads _ _ left ends, comma, reads' _ _ right ends', closing,
    Scan.pure_apply]

end JsonSidecar
