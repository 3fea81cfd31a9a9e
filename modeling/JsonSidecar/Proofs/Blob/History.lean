/-
Module: JsonSidecar.Proofs.Blob.History
Purpose: A collection over whole runs.  Whatever writes and reads come in whatever order, the collection is the layout
  of the payloads written so far, and each request is answered from these payloads alone.  One request keeps this,
  hence every run does.
Main exports: Request, Response, Collection.serve, Collection.serveAll, Collection.Keeps, Collection.serveAll_spec
-/
import JsonSidecar.Blob.Collection
import JsonSidecar.Proofs.Blob.Layout

namespace JsonSidecar

/-! ### Requests -/

/-- What is asked of a collection. -/
inductive Request where
  | write (data : Bytes)
  | read (offset length : Nat)
  | part (index : Nat)
deriving Repr

/-- What is answered to a request. -/
inductive Response where
  | offset (answer : Except BlobError Nat)
  | bytes (answer : Except BlobError Bytes)
  | part (contents : Option Bytes)
deriving Repr

namespace Request

/-- The payload that a request adds to the history. -/
def payload? : Request → Option Bytes
  | .write data => if data.isEmpty then none else some data
  | .read .. | .part _ => none

/-- The history that some requests leave behind. -/
def payloads (requests : List Request) : List Bytes := requests.filterMap payload?

/-- The answer to a request when some payloads have been written.  A read gets the bytes it asks for if all of them
    lie in the records, and is told how many bytes there are if not. -/
def answer (log : List Bytes) : Request → Response
  | .write data => .offset (.ok (if data = [] then 0 else Chunk.place log log.length))
  | .read offset length =>
    .bytes (if offset + length ≤ Chunk.extent log then .ok (((Chunk.layout log).drop offset).take length)
      else .error (.outOfRange offset length (Chunk.extent log)))
  | .part index => .part log[index]?

theorem payloads_append (first second : List Request) :
    payloads (first ++ second) = payloads first ++ payloads second :=
  List.filterMap_append

theorem payloads_cons (request : Request) (rest : List Request) :
    payloads (request :: rest) = request.payload?.toList ++ payloads rest := by
  cases h : request.payload? with
  | none => exact List.filterMap_cons_none h
  | some data => exact List.filterMap_cons_some h

theorem payload?_write {data : Bytes} (some : data ≠ []) : (Request.write data).payload? = .some data := by
  cases data with
  | nil => exact absurd rfl some
  | cons b rest => rfl

end Request

namespace Collection

/-- Answer one request. -/
def serve (request : Request) (c : Collection) : Response × Collection :=
  match request with
  | .write data =>
    let (answer, c) := BlobStore.write data c
    (.offset answer, c)
  | .read offset length => (.bytes ((BlobStore.view c).read offset length), c)
  | .part index => (.part (c.part? index), c)

/-- Answer requests one after another. -/
def serveAll : List Request → Collection → List Response × Collection
  | [], c => ([], c)
  | request :: rest, c =>
    let (response, c) := serve request c
    let (responses, c) := serveAll rest c
    (response :: responses, c)

/-! ### What a collection keeps -/

/-- A collection that is the layout of a history and knows the place and the length of each payload. -/
structure Keeps (c : Collection) (log : List Bytes) : Prop where
  bytes : c.bytes = Chunk.layout log
  parts : ∀ index, c.parts[index]? = log[index]?.map fun data => (Chunk.place log index, data.length)

theorem empty_keeps : empty.Keeps [] where
  bytes := rfl
  parts _ := rfl

theorem write_nil (c : Collection) : BlobStore.write [] c = (.ok 0, c) := rfl

namespace Keeps

variable {c : Collection} {log : List Bytes}

theorem bytes_length (keeps : c.Keeps log) : c.bytes.length = Chunk.extent log := by
  rw [keeps.bytes, Chunk.layout_length]

theorem parts_length (keeps : c.Keeps log) : c.parts.length = log.length := by
  have same : ∀ index, c.parts.length ≤ index ↔ log.length ≤ index := by
    intro index
    rw [← List.getElem?_eq_none_iff, keeps.parts, Option.map_eq_none_iff, List.getElem?_eq_none_iff]
  apply Nat.le_antisymm
  · exact (same log.length).2 (Nat.le_refl _)
  · exact (same c.parts.length).1 (Nat.le_refl _)

/-- A chunk that is not empty goes behind the others. -/
theorem append (keeps : c.Keeps log) (data : Bytes) : (c.append data).Keeps (log ++ [data]) where
  bytes := by
    show c.bytes ++ Chunk.record data = _
    rw [keeps.bytes, Chunk.layout_append, Chunk.layout_singleton]
  parts index := by
    show (c.parts ++ [(c.bytes.length + Chunk.headerLength, data.length)])[index]? = _
    rcases Nat.lt_trichotomy index log.length with less | rfl | greater
    · rw [List.getElem?_append_left (by rw [keeps.parts_length]; exact less), List.getElem?_append_left less,
        keeps.parts, Chunk.place_append (Nat.le_of_lt less)]
    · rw [← keeps.parts_length, List.getElem?_concat_length, keeps.parts_length, List.getElem?_concat_length,
        Chunk.place_append (Nat.le_refl _), Chunk.place, List.take_length, keeps.bytes_length]
      rfl
    · rw [List.getElem?_eq_none (by rw [List.length_append, keeps.parts_length]; exact greater),
        List.getElem?_eq_none (by rw [List.length_append]; exact greater)]
      rfl

theorem write (keeps : c.Keeps log) (data : Bytes) :
    ∃ next, BlobStore.write data c = (.ok (Chunk.offset log data), next) ∧ next.Keeps (Chunk.added log data) := by
  cases data with
  | nil => exact ⟨c, rfl, keeps⟩
  | cons b rest =>
      refine ⟨c.append (b :: rest), ?_, keeps.append _⟩
      show (Except.ok (c.bytes.length + Chunk.headerLength), _) = _
      rw [keeps.bytes_length]
      rfl

theorem read (keeps : c.Keeps log) (offset length : Nat) :
    (BlobStore.view c).read offset length
      = if offset + length ≤ Chunk.extent log then .ok (((Chunk.layout log).drop offset).take length)
        else .error (.outOfRange offset length (Chunk.extent log)) := by
  show BlobView.slice c.bytes offset length = _
  rw [BlobView.slice, keeps.bytes_length, keeps.bytes]

theorem read_place (keeps : c.Keeps log) {index : Nat} {data : Bytes} (h : log[index]? = some data) :
    (BlobStore.view c).read (Chunk.place log index) data.length = .ok data := by
  show BlobView.slice c.bytes _ _ = _
  rw [keeps.bytes]
  exact Chunk.slice_place h

theorem part? (keeps : c.Keeps log) (index : Nat) : c.part? index = log[index]? := by
  rw [Collection.part?, keeps.parts]
  cases h : log[index]? with
  | none => rfl
  | some data =>
      have found := Chunk.slice_place h
      rw [BlobView.slice] at found
      split at found
      · rw [Option.map_some, Option.map_some, keeps.bytes]
        exact congrArg some (Except.ok.inj found)
      · cases found

/-- Each request is answered from the history and adds its payload to it. -/
theorem serve (keeps : c.Keeps log) (request : Request) :
    (serve request c).1 = request.answer log ∧ (serve request c).2.Keeps (log ++ request.payload?.toList) := by
  cases request with
  | write data =>
      obtain ⟨next, written, keeps⟩ := keeps.write data
      simp only [Collection.serve, written]
      cases data with
      | nil =>
          rw [Request.payload?, List.isEmpty_nil, if_pos rfl, Option.toList_none, List.append_nil]
          exact ⟨rfl, keeps⟩
      | cons b rest =>
          rw [Chunk.offset_eq_place (List.cons_ne_nil b rest)]
          exact ⟨by rw [Request.answer, if_neg (List.cons_ne_nil b rest)], keeps⟩
  | read offset length =>
      rw [Request.payload?, Option.toList_none, List.append_nil]
      exact ⟨congrArg Response.bytes (keeps.read offset length), keeps⟩
  | part index =>
      rw [Request.payload?, Option.toList_none, List.append_nil]
      exact ⟨congrArg Response.part (keeps.part? index), keeps⟩

/-- So does a run of requests: each is answered from the payloads written before it. -/
theorem serveAll (keeps : c.Keeps log) (requests : List Request) :
    (serveAll requests c).2.Keeps (log ++ Request.payloads requests) ∧
      ∀ earlier request later, requests = earlier ++ request :: later →
        (serveAll requests c).1[earlier.length]? = some (request.answer (log ++ Request.payloads earlier)) := by
  induction requests generalizing c log with
  | nil =>
      refine ⟨by rw [show Request.payloads [] = [] from rfl, List.append_nil]; exact keeps, ?_⟩
      intro earlier request later split
      simp at split
  | cons first rest ih =>
      obtain ⟨answered, kept⟩ := keeps.serve first
      obtain ⟨last, others⟩ := ih kept
      constructor
      · rw [Request.payloads_cons, ← List.append_assoc]
        exact last
      · intro earlier request later split
        cases earlier with
        | nil =>
            obtain ⟨rfl, rfl⟩ := List.cons.inj split
            rw [show Request.payloads [] = [] from rfl, List.append_nil, ← answered]
            rfl
        | cons passed earlier =>
            obtain ⟨rfl, rfl⟩ := List.cons.inj split
            rw [Request.payloads_cons, ← List.append_assoc]
            exact others earlier request later rfl

end Keeps

/-! ### Whole runs -/

/-- What holds of a new collection after any requests.  Its bytes are the records of the payloads written so far, each
    with its length in front and zeros up to a multiple of eight behind it.  Every request was answered from the
    payloads written before it; a write that stores its payload tells the place where it can be found from then on.
    The places increase by multiples of eight, and no payload reaches into the header of a later one.  All payloads
    can still be read, and a read succeeds exactly where all of its bytes are there. -/
theorem serveAll_spec (requests : List Request) :
    let log := Request.payloads requests
    let responses := (serveAll requests empty).1
    let c := (serveAll requests empty).2
    (c.bytes = log.flatMap fun data =>
        littleEndian 8 data.length ++ data ++ List.replicate ((8 - data.length % 8) % 8) 0) ∧
      8 ∣ c.bytes.length ∧ (BlobStore.view c).reserved = c.bytes.length ∧
      c.bytes.length = (log.map fun data => Chunk.recordLength data.length).sum ∧
      (∀ earlier request later, requests = earlier ++ request :: later →
        responses[earlier.length]? = some (request.answer (Request.payloads earlier))) ∧
      (∀ earlier data later, requests = earlier ++ .write data :: later → data ≠ [] →
        log[(Request.payloads earlier).length]? = some data ∧
          responses[earlier.length]? = some (.offset (.ok (Chunk.place log (Request.payloads earlier).length)))) ∧
      (∀ index, 8 ∣ Chunk.place log index) ∧
      (∀ index later data, log[index]? = some data → index < later →
        Chunk.place log index + data.length + Chunk.headerLength ≤ Chunk.place log later) ∧
      (∀ index data, log[index]? = some data → c.part? index = some data ∧
        (BlobStore.view c).read (Chunk.place log index) data.length = .ok data) ∧
      (∀ offset length, (BlobStore.view c).read offset length
        = if offset + length ≤ c.bytes.length then .ok ((c.bytes.drop offset).take length)
          else .error (.outOfRange offset length c.bytes.length)) ∧
      BlobStore.write [] c = (.ok 0, c) := by
  intro log responses c
  obtain ⟨keeps, answers⟩ := empty_keeps.serveAll requests
  have length : c.bytes.length = Chunk.extent log := keeps.bytes_length
  refine ⟨?_, ?_, rfl, length, answers, ?_, Chunk.dvd_place log, ?_, ?_, fun _ _ => rfl, write_nil c⟩
  · rw [show c.bytes = Chunk.layout log from keeps.bytes, Chunk.layout]
    exact congrArg log.flatMap (funext Chunk.record_eq)
  · rw [length]
    exact Chunk.dvd_extent log
  · intro earlier data later split some
    have whole : log = Request.payloads earlier ++ data :: Request.payloads later := by
      show Request.payloads requests = _
      rw [split, Request.payloads_append, Request.payloads_cons, Request.payload?_write some]
      rfl
    have answered := answers earlier (.write data) later split
    constructor
    · rw [whole, List.getElem?_append_right (Nat.le_refl _), Nat.sub_self]
      rfl
    · rw [whole, Chunk.place_append (Nat.le_refl _)]
      simpa only [Request.answer, if_neg some, List.nil_append] using answered
  · intro index later data h less
    exact Chunk.place_add_length_le h less
  · intro index data h
    exact ⟨(keeps.part? index).trans h, keeps.read_place h⟩

end Collection

end JsonSidecar
