/-
Module: JsonSidecar.Proofs.Blob.Collection
Purpose: What is stored stays stored.  A collection grows at its end only, so the bytes of an array are found at the
  offset that was answered for it in the collection as it is then and in all that it grows into.  An encode
  into a collection never fails.
Main exports: Collection.write_spec, EncodeSession.storeChunk_spec, EncodeSession.pushSegments_spec
-/
import JsonSidecar.Blob.Collection
import JsonSidecar.Proofs.Blob.Layout
import JsonSidecar.Proofs.Decode.Array

namespace JsonSidecar

/-- Bytes between others are at the offset where those in front of them end. -/
theorem BlobView.ofBytes_holds {before bytes behind : Bytes} :
    (BlobView.ofBytes (before ++ bytes ++ behind)).Holds before.length bytes := by
  have inside : before.length + bytes.length ≤ (before ++ bytes ++ behind).length := by
    rw [List.length_append, List.length_append]
    exact Nat.le_add_right _ _
  exact .inr ⟨inside, BlobView.slice_between before bytes behind⟩

namespace Collection

/-- Writing a chunk succeeds, appends to the bytes, and makes the chunk readable at the answered offset, also after
    more is appended. -/
theorem write_spec (c : Collection) (data : Bytes) :
    ∃ offset, (write data c).1 = .ok offset ∧ c.bytes <+: (write data c).2.bytes ∧
      ∀ whole, (write data c).2.bytes <+: whole →
        offset ≤ whole.length ∧ (BlobView.ofBytes whole).Holds offset data := by
  cases data with
  | nil => exact ⟨0, rfl, List.prefix_refl _, fun whole _ => ⟨Nat.zero_le _, .inl rfl⟩⟩
  | cons b rest =>
      refine ⟨c.bytes.length + Chunk.headerLength, rfl, List.prefix_append _ _, ?_⟩
      rintro whole ⟨behind, rfl⟩
      let before := c.bytes ++ littleEndian Chunk.headerLength (b :: rest).length
      have length : before.length = c.bytes.length + Chunk.headerLength := by
        rw [List.length_append, littleEndian_length]
      have text : (write (b :: rest) c).2.bytes ++ behind
          = before ++ (b :: rest) ++ (Chunk.padding (b :: rest).length ++ behind) := by
        show c.bytes ++ Chunk.record (b :: rest) ++ behind = _
        simp only [Chunk.record, before, List.append_assoc]
      rw [text, ← length]
      refine ⟨?_, BlobView.ofBytes_holds⟩
      rw [List.append_assoc]
      exact (List.prefix_append before _).length_le

end Collection

namespace EncodeSession

/-- A session with a collection stores a chunk in it and goes on without an error. -/
theorem storeChunk_spec {s : EncodeSession Collection} {c : Collection} (store : s.store = some c) (data : Bytes) :
    ∃ c', (s.storeChunk data).2 = { s with store := some c' } ∧ c.bytes <+: c'.bytes ∧
      ∀ whole, c'.bytes <+: whole → (s.storeChunk data).1 ≤ whole.length ∧
        (BlobView.ofBytes whole).Holds (s.storeChunk data).1 data := by
  obtain ⟨offset, answer, grown, held⟩ := c.write_spec data
  cases data with
  | nil =>
      refine ⟨c, ?_, List.prefix_refl _, fun whole _ => ⟨Nat.zero_le _, .inl rfl⟩⟩
      rw [← store]
      rfl
  | cons b rest =>
      have step : s.storeChunk (b :: rest)
          = (offset, { s with store := some (Collection.write (b :: rest) c).2 }) := by
        have written : BlobStore.write (b :: rest) c = (.ok offset, (Collection.write (b :: rest) c).2) := by
          rw [← answer]
          rfl
        simp [storeChunk, store, written]
      rw [step]
      exact ⟨_, rfl, grown, held⟩

/-- A session with a collection stores the arrays of all segments in it, goes on without an error, and leaves every
    array readable at the offset that was answered for it. -/
theorem pushSegments_spec {s : EncodeSession Collection} {c : Collection} (store : s.store = some c)
    (segments : List Segment) :
    ∃ c', (s.pushSegments segments).store = some c' ∧ (s.pushSegments segments).error = s.error ∧
      c.bytes <+: c'.bytes ∧ ∀ whole, c'.bytes <+: whole → ∀ place ∈ s.stored segments,
        place.2 ≤ whole.length ∧ (BlobView.ofBytes whole).Holds place.2 place.1.bytes := by
  induction segments generalizing s c with
  | nil => exact ⟨c, store, rfl, List.prefix_refl _, fun _ _ _ mem => nomatch mem⟩
  | cons segment rest ih =>
      rw [pushSegments_cons]
      cases segment with
      | text bytes => exact ih (s := s.push bytes) store
      | array a =>
          obtain ⟨next, step, grown, held⟩ := storeChunk_spec store a.bytes
          have pushed : s.pushArray a
              = { s with store := some next }.push (a.descriptor (s.storeChunk a.bytes).1).text := by
            rw [← step]
            rfl
          obtain ⟨last, final, error, more, others⟩ := ih (s := s.pushArray a) (c := next) (by rw [pushed]; rfl)
          refine ⟨last, final, ?_, grown.trans more, ?_⟩
          · rw [pushSegment, error, pushed]
            rfl
          · intro whole covers place mem
            rcases List.mem_cons.1 mem with rfl | mem
            · exact held whole (more.trans covers)
            · exact others whole covers place mem

end EncodeSession

end JsonSidecar
