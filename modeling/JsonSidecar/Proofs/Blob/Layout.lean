/-
Module: JsonSidecar.Proofs.Blob.Layout
Purpose: Where chunks lie.  The records of payloads stand one behind another, so the place of a payload is told by
  the lengths of those before it and stays the same when more are written.  A history is the list of the payloads
  that were written and are not empty; every store of chunks is compared to the layout of its history.
Main exports: Chunk.layout, Chunk.extent, Chunk.place, Chunk.slice_place, BlobStore.writeAll,
  BlobStore.writeAll_refines
-/
import JsonSidecar.Blob.Record
import JsonSidecar.Blob.Store
import JsonSidecar.Proofs.Element

namespace JsonSidecar

/-- Bytes between others are what lies at the offset where those in front of them end. -/
theorem BlobView.slice_between (before bytes behind : Bytes) :
    slice (before ++ bytes ++ behind) before.length bytes.length = .ok bytes := by
  have inside : before.length + bytes.length ≤ (before ++ bytes ++ behind).length := by
    rw [List.length_append, List.length_append]
    exact Nat.le_add_right _ _
  rw [slice, if_pos inside, List.append_assoc, List.drop_left, List.take_left]

namespace Chunk

/-! ### Records -/

theorem dvd_recordLength (length : Nat) : 8 ∣ recordLength length := by
  apply Nat.dvd_add
  · exact Nat.dvd_mul_left 8 _
  · exact Nat.dvd_refl 8

/-- A record has room for its payload behind the header. -/
theorem add_headerLength_le (length : Nat) : length + headerLength ≤ recordLength length := by
  simp only [recordLength, roundUp]
  omega

/-- A record is the length of its payload, the payload, and zeros up to a multiple of eight. -/
theorem record_eq (data : Bytes) :
    record data = littleEndian 8 data.length ++ data ++ List.replicate ((8 - data.length % 8) % 8) 0 := by
  have missing : roundUp data.length - data.length = (8 - data.length % 8) % 8 := by
    simp only [roundUp]
    omega
  rw [record, padding, missing]
  rfl

theorem record_length (data : Bytes) : (record data).length = recordLength data.length := by
  have room : data.length ≤ roundUp data.length := by
    simp only [roundUp]
    omega
  simp only [record, padding, recordLength, List.length_append, littleEndian_length, List.length_replicate]
  omega

/-! ### Records one behind another -/

/-- The bytes that the records of some payloads take. -/
def extent (payloads : List Bytes) : Nat := (payloads.map fun data => recordLength data.length).sum

/-- The records of some payloads, one behind another. -/
def layout (payloads : List Bytes) : Bytes := payloads.flatMap record

/-- The offset of a payload by its number: behind the records before it and its own header. -/
def place (payloads : List Bytes) (index : Nat) : Nat := extent (payloads.take index) + headerLength

theorem extent_append (first second : List Bytes) : extent (first ++ second) = extent first + extent second := by
  rw [extent, List.map_append, List.sum_append]
  rfl

theorem extent_singleton (data : Bytes) : extent [data] = recordLength data.length := by
  simp [extent]

theorem extent_le_of_prefix {first whole : List Bytes} (h : first <+: whole) : extent first ≤ extent whole := by
  obtain ⟨rest, rfl⟩ := h
  rw [extent_append]
  exact Nat.le_add_right _ _

theorem dvd_extent (payloads : List Bytes) : 8 ∣ extent payloads := by
  induction payloads with
  | nil => exact Nat.dvd_zero 8
  | cons data rest ih => exact Nat.dvd_add (dvd_recordLength data.length) ih

theorem layout_append (first second : List Bytes) : layout (first ++ second) = layout first ++ layout second :=
  List.flatMap_append

theorem layout_singleton (data : Bytes) : layout [data] = record data := by
  simp [layout]

theorem layout_length (payloads : List Bytes) : (layout payloads).length = extent payloads := by
  induction payloads with
  | nil => rfl
  | cons data rest ih =>
      rw [← List.singleton_append, layout_append, layout_singleton, List.length_append, ih, record_length,
        extent_append, extent_singleton]

/-! ### Places -/

theorem dvd_place (payloads : List Bytes) (index : Nat) : 8 ∣ place payloads index := by
  apply Nat.dvd_add
  · exact dvd_extent _
  · exact Nat.dvd_refl 8

/-- More payloads behind do not move those that are there. -/
theorem place_append {payloads : List Bytes} {index : Nat} (h : index ≤ payloads.length) (more : List Bytes) :
    place (payloads ++ more) index = place payloads index := by
  rw [place, List.take_append_of_le_length h]
  rfl

/-- The payloads up to one of them, and this one. -/
theorem take_succ_of_getElem? {payloads : List Bytes} {index : Nat} {data : Bytes} (h : payloads[index]? = some data) :
    payloads.take (index + 1) = payloads.take index ++ [data] := by
  rw [List.take_add_one, h]
  rfl

/-- A payload ends before the header of every later one. -/
theorem place_add_length_le {payloads : List Bytes} {index later : Nat} {data : Bytes}
    (h : payloads[index]? = some data) (less : index < later) :
    place payloads index + data.length + headerLength ≤ place payloads later := by
  have grown : extent (payloads.take (index + 1)) ≤ extent (payloads.take later) :=
    extent_le_of_prefix (List.take_prefix_take_left less)
  rw [take_succ_of_getElem? h, extent_append, extent_singleton] at grown
  have room := add_headerLength_le data.length
  simp only [place]
  omega

/-- Every payload lies at its place. -/
theorem slice_place {payloads : List Bytes} {index : Nat} {data : Bytes} (h : payloads[index]? = some data) :
    BlobView.slice (layout payloads) (place payloads index) data.length = .ok data := by
  let before := layout (payloads.take index) ++ littleEndian headerLength data.length
  have length : before.length = place payloads index := by
    rw [List.length_append, layout_length, littleEndian_length]
    rfl
  have whole : layout payloads = before ++ data ++ (padding data.length ++ layout (payloads.drop (index + 1))) := by
    calc layout payloads = layout (payloads.take (index + 1)) ++ layout (payloads.drop (index + 1)) := by
          rw [← layout_append, List.take_append_drop]
      _ = before ++ data ++ (padding data.length ++ layout (payloads.drop (index + 1))) := by
          rw [take_succ_of_getElem? h, layout_append, layout_singleton]
          simp only [record, before, List.append_assoc]
  rw [whole, ← length]
  exact BlobView.slice_between before data _

/-! ### Histories -/

/-- The history when a chunk was written: an empty chunk is not stored. -/
def added (log : List Bytes) (data : Bytes) : List Bytes := if data.isEmpty then log else log ++ [data]

/-- The offset that is told for a chunk written behind a history. -/
def offset (log : List Bytes) (data : Bytes) : Nat := if data.isEmpty then 0 else extent log + headerLength

/-- The payloads of some chunks that are stored. -/
def stored (chunks : List Bytes) : List Bytes := chunks.filter fun data => !data.isEmpty

/-- The offsets that are told for chunks written behind a history, one after another. -/
def offsets : List Bytes → List Bytes → List Nat
  | _, [] => []
  | log, data :: rest => offset log data :: offsets (added log data) rest

theorem added_append_stored (log : List Bytes) (data : Bytes) (rest : List Bytes) :
    added log data ++ stored rest = log ++ stored (data :: rest) := by
  cases data with
  | nil => rfl
  | cons b bytes =>
      show log ++ [b :: bytes] ++ stored rest = _
      rw [List.append_assoc]
      rfl

/-- A payload that is stored next lies at the place behind the others. -/
theorem offset_eq_place {data : Bytes} (some : data ≠ []) (log : List Bytes) :
    offset log data = place log log.length := by
  cases data with
  | nil => exact absurd rfl some
  | cons b rest =>
      rw [place, List.take_length]
      rfl

end Chunk

/-! ### Runs of writes -/

namespace BlobStore

variable {σ : Type} [BlobStore σ]

/-- Write chunks one after another: what is answered, and the store afterwards. -/
def writeAll : List Bytes → σ → List (Except BlobError Nat) × σ
  | [], store => ([], store)
  | data :: rest, store =>
    let (answer, store) := BlobStore.write data store
    let (answers, store) := writeAll rest store
    (answer :: answers, store)

theorem writeAll_cons (data : Bytes) (rest : List Bytes) (store : σ) :
    writeAll (data :: rest) store = ((write data store).1 :: (writeAll rest (write data store).2).1,
      (writeAll rest (write data store).2).2) := rfl

/-- A store whose every write agrees with a history agrees with it over whole runs. -/
theorem writeAll_refines {Agrees : σ → List Bytes → Prop}
    (step : ∀ store log data, Agrees store log →
      ∃ next, write data store = (.ok (Chunk.offset log data), next) ∧ Agrees next (Chunk.added log data))
    {store : σ} {log : List Bytes} (agrees : Agrees store log) (chunks : List Bytes) :
    ∃ last, writeAll chunks store = ((Chunk.offsets log chunks).map .ok, last) ∧
      Agrees last (log ++ Chunk.stored chunks) := by
  induction chunks generalizing store log with
  | nil =>
      rw [show Chunk.stored [] = [] from rfl, List.append_nil]
      exact ⟨store, rfl, agrees⟩
  | cons data rest ih =>
      obtain ⟨next, written, agrees⟩ := step store log data agrees
      obtain ⟨last, run, agrees⟩ := ih agrees
      rw [Chunk.added_append_stored] at agrees
      refine ⟨last, ?_, agrees⟩
      rw [writeAll_cons, written, run]
      rfl

end BlobStore

end JsonSidecar
