/-
Module: JsonSidecar.Proofs.File.Backings
Purpose: One layout for all stores.  A collection in memory and the writers of plain and of compressed files keep the
  same layout of the chunks written to them, hence they tell the same offsets; the files hold that layout, and what is
  loaded from them answers as the collection does.  Of compression nothing is assumed but that decompression undoes it.
Main exports: LoadedBlobs.load_written, PlainWriter.Keeps, StreamWriter.Keeps, writeAtomic_holds,
  Compression.unpack_pack, BlobWriter.Keeps, BlobWriter.run_holds, BlobWriter.agrees_with_collection
-/
import JsonSidecar.File.Atomic
import JsonSidecar.File.Load
import JsonSidecar.File.Writer
import JsonSidecar.Proofs.Blob.History
import JsonSidecar.Proofs.File.Disk
import JsonSidecar.Proofs.Zstd.Frame

namespace JsonSidecar

open DiskAction Disk

variable {d : Disk} {path : String} {number : Nat} {bytes : Bytes}

/-! ### Loading -/

theorem DiskAction.attempt_apply {α : Type} {action : DiskAction α} {result : Except IoError α} {d' : Disk}
    (done : action d = (result, d')) : attempt action d = (.ok result, d') := by
  rw [attempt, done]

theorem DiskAction.of_attempt {α : Type} {action : DiskAction α} {result : Except IoError α} {d' : Disk}
    (tried : attempt action d = (.ok result, d')) : action d = (result, d') := by
  rcases done : action d with ⟨answer, last⟩
  rw [attempt_apply done] at tried
  cases tried
  rfl

/-- A path that names nothing is not found, if paths that go on from it can be followed. -/
theorem Disk.openToRead_missing {suffix : String} (quiet : d.Quiet) (free : d.obstacle? (path ++ suffix) = none)
    (absent : d.entry? path = none) : Disk.openToRead path d = (.error IoKind.notFound.error, d.passed) := by
  rw [Disk.openToRead, bind_ok quiet.begin]
  by_cases named : path = ""
  · have root : d.passed.obstacle? path = some .notFound := if_pos named
    rw [bind_error (resolve_blocked root)]
  · have open' : d.passed.obstacle? path = none := obstacle?_of_append free named
    have nothing : d.passed.at? (placeOf path) = none := (entry?_of_free open').symm.trans absent
    rw [bind_ok (resolve_free open'), nothing]
    rfl

section

variable [Codec]

/-- A plain file is read as it is. -/
theorem Disk.readEither_plain (holds : d.Holds path number bytes) (config : FileConfig) :
    readEither path config d = (.ok (bytes, path), d.passed.passed) := by
  rw [readEither, bind_ok (attempt_apply holds.openToRead)]
  dsimp only
  rw [bind_ok holds.passed.readOpened]
  rfl

/-- A compressed file is read where there is no plain one. -/
theorem Disk.readEither_compressed {config : FileConfig} {contents : Bytes}
    (holds : d.Holds (config.compressedPath path) number contents) (unpacked : Codec.decompress contents = .ok bytes)
    (absent : d.entry? path = none) :
    readEither path config d = (.ok (bytes, config.compressedPath path), d.passed.passed.passed) := by
  have found : readCompressed (config.compressedPath path) d.passed = (.ok bytes, d.passed.passed.passed) := by
    rw [readCompressed, bind_ok holds.passed.openToRead, bind_ok holds.passed.passed.readOpened, unpacked]
    rfl
  have missing : IoKind.notFound.error.kind = IoKind.notFound := rfl
  rw [readEither, bind_ok (attempt_apply (openToRead_missing holds.quiet holds.free absent))]
  dsimp only
  rw [if_pos missing, bind_ok found]
  rfl

theorem LoadedBlobs.load_of_read {config : FileConfig} {source : String} {d' : Disk}
    (read : readEither path config d = (.ok (bytes, source), d')) :
    load path config d = (.ok ⟨bytes, source⟩, d') := by
  rw [load, bind_ok read]
  rfl

/-- A plain file is loaded as it is. -/
theorem LoadedBlobs.load_plain (holds : d.Holds path number bytes) (config : FileConfig) :
    ∃ d', load path config d = (.ok ⟨bytes, path⟩, d') :=
  ⟨_, load_of_read (readEither_plain holds config)⟩

/-- A compressed file is loaded where there is no plain one. -/
theorem LoadedBlobs.load_compressed {config : FileConfig} {contents : Bytes}
    (holds : d.Holds (config.compressedPath path) number contents) (unpacked : Codec.decompress contents = .ok bytes)
    (absent : d.entry? path = none) : ∃ d', load path config d = (.ok ⟨bytes, config.compressedPath path⟩, d') :=
  ⟨_, load_of_read (readEither_compressed holds unpacked absent)⟩

end

/-! ### Writers -/

/-- What is made of a file that was opened in its directories. -/
theorem of_opened {α : Type} {P : Disk → Prop} {make : OpenFile → α} {a : α} {d' : Disk}
    (around : DiskAction.Keeps P (createParent path)) (holds : P d)
    (opened : (do createParent path; let file ← Disk.create path; return make file : DiskAction α) d = (.ok a, d')) :
    ∃ file mid, P mid ∧ Disk.create path mid = (.ok file, d') ∧ a = make file := by
  obtain ⟨_, mid, parent, opened⟩ := of_bind_ok opened
  obtain ⟨file, last, created, opened⟩ := of_bind_ok opened
  cases opened
  have kept := around d holds
  rw [parent] at kept
  exact ⟨file, mid, kept, created, rfl⟩

/-! ### Records as they come -/

theorem OnDisk.write_plain {data : Bytes} {w w' : PlainWriter} {d' : Disk} {answer : Except BlobError Nat}
    (written : w.write data d = ((answer, w'), d')) :
    BlobStore.write data (⟨.plain w, d⟩ : OnDisk) = (answer, ⟨.plain w', d'⟩) := by
  show ((w.write data d).1.1, OnDisk.mk (.plain (w.write data d).1.2) (w.write data d).2) = _
  rw [written]

namespace PlainWriter

/-- A record is written at the end of its file in three parts. -/
theorem writeRecord_holds (holds : d.Holds path number bytes) (data : Bytes) :
    ∃ d', writeRecord (.file number) bytes.length data d = (.ok (), d') ∧
      d'.Holds path number (bytes ++ Chunk.record data) ∧ d'.tree = d.tree := by
  obtain ⟨d₁, head, holds₁, tree₁⟩ := holds.writeAt (littleEndian Chunk.headerLength data.length)
  obtain ⟨d₂, body, holds₂, tree₂⟩ := holds₁.writeAt data
  obtain ⟨d₃, tail, holds₃, tree₃⟩ := holds₂.writeAt (Chunk.padding data.length)
  rw [List.length_append, littleEndian_length] at body
  rw [List.length_append, List.length_append, littleEndian_length] at tail
  refine ⟨d₃, ?_, ?_, tree₃.trans (tree₂.trans tree₁)⟩
  · rw [writeRecord, bind_ok head, bind_ok body]
    exact tail
  · rw [Chunk.record, ← List.append_assoc, ← List.append_assoc]
    exact holds₃

/-- A writer whose file is the layout of a history, on a disk with the tree that it found. -/
structure Keeps (path : String) (number : Nat) (tree : List (Place × Entry)) (s : OnDisk) (log : List Bytes) :
    Prop where
  writer : s.writer = .plain ⟨.file number, path, Chunk.extent log, false⟩
  holds : s.disk.Holds path number (Chunk.layout log)
  tree : s.disk.tree = tree

variable {tree : List (Place × Entry)} {s : OnDisk} {log : List Bytes}

theorem Keeps.write (keeps : Keeps path number tree s log) (data : Bytes) :
    ∃ next, BlobStore.write data s = (.ok (Chunk.offset log data), next) ∧
      Keeps path number tree next (Chunk.added log data) := by
  rcases s with ⟨writer, disk⟩
  obtain ⟨rfl, holds, rfl⟩ := keeps
  cases data with
  | nil => exact ⟨_, rfl, rfl, holds, rfl⟩
  | cons b rest =>
      obtain ⟨d', written, holds', same⟩ := writeRecord_holds holds (b :: rest)
      rw [Chunk.layout_length] at written
      rw [← Chunk.layout_singleton, ← Chunk.layout_append] at holds'
      let next : PlainWriter := ⟨.file number, path, Chunk.extent (log ++ [b :: rest]), false⟩
      have step : PlainWriter.write (b :: rest) ⟨.file number, path, Chunk.extent log, false⟩ disk
          = ((.ok (Chunk.offset log (b :: rest)), next), d') := by
        simp only [next]
        rw [Chunk.extent_append, Chunk.extent_singleton, PlainWriter.write]
        simp only [List.isEmpty_cons, written]
        rfl
      exact ⟨_, OnDisk.write_plain step, rfl, holds', same⟩

/-- A new writer has an empty file. -/
theorem create_keeps {w : PlainWriter} {d₁ : Disk} (sound : d.Sound) (created : create path d = (.ok w, d₁))
    (regular : w.file = .file number) : Keeps path number d₁.tree ⟨.plain w, d₁⟩ [] := by
  obtain ⟨file, mid, sound, opened, rfl⟩ := of_opened (Sound.createParent_keeps path) sound created
  cases (regular : file = .file number)
  exact ⟨rfl, create_holds sound opened, rfl⟩

theorem Keeps.reserved (keeps : Keeps path number tree s log) : (BlobStore.view s).reserved = Chunk.extent log := by
  show s.writer.reserved = _
  rw [keeps.writer]
  rfl

/-- A finished writer leaves its file as it is. -/
theorem Keeps.finish [Codec] (keeps : Keeps path number tree s log) :
    ∃ last d', s.writer.finish s.disk = ((.ok (Chunk.extent log), last), d') ∧
      d'.Holds path number (Chunk.layout log) ∧ d'.tree = tree := by
  obtain ⟨d', synced, holds', same⟩ := keeps.holds.sync
  have rested : BlobAction.ofDisk (Disk.sync (.file number)) s.disk = (.ok (), d') := by
    rw [BlobAction.ofDisk, synced]
    rfl
  have finished : PlainWriter.finish ⟨.file number, path, Chunk.extent log, false⟩ s.disk
      = (.ok (Chunk.extent log), d') := by
    simp only [PlainWriter.finish, Bool.false_eq_true, if_false]
    rw [bind_ok rested]
    rfl
  refine ⟨s.writer, d', ?_, holds', same.trans keeps.tree⟩
  rw [keeps.writer, BlobWriter.finish]
  simp only [finished]

end PlainWriter

/-! ### Records as a compressed stream -/

theorem OnDisk.write_stream {data : Bytes} {w w' : StreamWriter} {d' : Disk} {answer : Except BlobError Nat}
    (written : w.write data d = ((answer, w'), d')) :
    BlobStore.write data (⟨.stream w, d⟩ : OnDisk) = (answer, ⟨.stream w', d'⟩) := by
  show ((w.write data d).1.1, OnDisk.mk (.stream (w.write data d).1.2) (w.write data d).2) = _
  rw [written]

namespace StreamWriter

/-- The stream takes all parts, and the file is left alone until the stream is finished. -/
theorem writeParts_holds (holds : d.Holds path number bytes) (parts : List Bytes) (stream : Bytes) :
    ∃ d', writeParts parts stream d = ((.ok (), stream ++ parts.flatten), d') ∧ d'.Holds path number bytes ∧
      d'.tree = d.tree := by
  induction parts generalizing stream d with
  | nil =>
      rw [List.flatten_nil, List.append_nil]
      exact ⟨d, rfl, holds, rfl⟩
  | cons part parts ih =>
      cases part with
      | nil => exact ih holds stream
      | cons b rest =>
          obtain ⟨d', taken, holds', same⟩ := ih holds.passed (stream ++ b :: rest)
          refine ⟨d', ?_, holds', same⟩
          rw [writeParts]
          simp only [List.isEmpty_cons, holds.quiet.nextFault, Bool.false_eq_true, if_false]
          rw [taken, List.append_assoc]
          rfl

/-- A writer whose stream is the layout of a history, with an empty file on a disk with the tree that it found. -/
structure Keeps (path : String) (level : Int) (number : Nat) (tree : List (Place × Entry)) (s : OnDisk)
    (log : List Bytes) : Prop where
  writer : s.writer = .stream ⟨.file number, path, level, some (Chunk.layout log), Chunk.extent log, false⟩
  holds : s.disk.Holds path number []
  tree : s.disk.tree = tree

variable {level : Int} {tree : List (Place × Entry)} {s : OnDisk} {log : List Bytes}

theorem Keeps.write (keeps : Keeps path level number tree s log) (data : Bytes) :
    ∃ next, BlobStore.write data s = (.ok (Chunk.offset log data), next) ∧
      Keeps path level number tree next (Chunk.added log data) := by
  rcases s with ⟨writer, disk⟩
  obtain ⟨rfl, holds, rfl⟩ := keeps
  cases data with
  | nil => exact ⟨_, rfl, rfl, holds, rfl⟩
  | cons b rest =>
      let parts := [littleEndian Chunk.headerLength (b :: rest).length, b :: rest, Chunk.padding (b :: rest).length]
      obtain ⟨d', taken, holds', same⟩ := writeParts_holds holds parts (Chunk.layout log)
      have stream : Chunk.layout log ++ parts.flatten = Chunk.layout (log ++ [b :: rest]) := by
        rw [Chunk.layout_append, Chunk.layout_singleton, Chunk.record]
        simp [parts]
      rw [stream] at taken
      let w : StreamWriter := ⟨.file number, path, level, some (Chunk.layout log), Chunk.extent log, false⟩
      let next : StreamWriter :=
        ⟨.file number, path, level, some (Chunk.layout (log ++ [b :: rest])), Chunk.extent (log ++ [b :: rest]), false⟩
      have step : w.write (b :: rest) disk = ((.ok (Chunk.offset log (b :: rest)), next), d') := by
        simp only [next, w]
        rw [Chunk.extent_append, Chunk.extent_singleton, StreamWriter.write]
        simp only [List.isEmpty_cons, parts] at taken ⊢
        simp only [taken]
        rfl
      exact ⟨_, OnDisk.write_stream step, rfl, holds', same⟩

/-- A new writer has an empty stream and an empty file. -/
theorem create_keeps {w : StreamWriter} {d₁ : Disk} (sound : d.Sound) (created : create path level d = (.ok w, d₁))
    (regular : w.file = .file number) : Keeps path level number d₁.tree ⟨.stream w, d₁⟩ [] := by
  obtain ⟨file, mid, sound, opened, rfl⟩ := of_opened (Sound.createParent_keeps path) sound created
  cases (regular : file = .file number)
  exact ⟨rfl, create_holds sound opened, rfl⟩

theorem Keeps.reserved (keeps : Keeps path level number tree s log) : (BlobStore.view s).reserved = Chunk.extent log := by
  show s.writer.reserved = _
  rw [keeps.writer]
  rfl

section

variable [Codec]

/-- A finished writer leaves the compressed stream in its file, if there is a compressed form of it. -/
theorem Keeps.finish {contents : Bytes} (keeps : Keeps path level number tree s log)
    (packed : Codec.compress level (Chunk.layout log) = .ok contents) :
    ∃ last d', s.writer.finish s.disk = ((.ok (Chunk.extent log), last), d') ∧ d'.Holds path number contents ∧
      d'.tree = tree := by
  obtain ⟨d₁, written, holds₁, same₁⟩ := keeps.holds.passed.writeAt contents
  obtain ⟨d₂, synced, holds₂, same₂⟩ := holds₁.sync
  rw [List.length_nil] at written
  have compressed : (liftM (Codec.compress level (Chunk.layout log)) : DiskAction Bytes) s.disk.passed
      = (.ok contents, s.disk.passed) := by
    rw [packed]
    rfl
  have streamed : finishStream (.file number) level (Chunk.layout log) s.disk = (.ok (), d₂.passed) := by
    rw [finishStream, bind_ok keeps.holds.quiet.begin, bind_ok compressed, bind_ok written, bind_ok synced]
    exact holds₂.quiet.begin
  let closed : StreamWriter := ⟨.file number, path, level, none, Chunk.extent log, false⟩
  have finished : StreamWriter.finish ⟨.file number, path, level, some (Chunk.layout log), Chunk.extent log, false⟩ s.disk
      = ((.ok (Chunk.extent log), closed), d₂.passed) := by
    rw [StreamWriter.finish]
    simp only [streamed]
    rfl
  refine ⟨.stream closed, d₂.passed, ?_, holds₂.passed, same₂.trans (same₁.trans keeps.tree)⟩
  rw [keeps.writer, BlobWriter.finish]
  simp only [finished]

/-- A stream that cannot be compressed is not finished. -/
theorem Keeps.finish_error {e : IoError} (keeps : Keeps path level number tree s log)
    (refused : Codec.compress level (Chunk.layout log) = .error e) : (s.writer.finish s.disk).1.1 = .error (.io e) := by
  have failed : (liftM (Codec.compress level (Chunk.layout log)) : DiskAction Bytes) s.disk.passed
      = (.error e, s.disk.passed) := by
    rw [refused]
    rfl
  have streamed : finishStream (.file number) level (Chunk.layout log) s.disk = (.error e, s.disk.passed) := by
    rw [finishStream, bind_ok keeps.holds.quiet.begin, bind_error failed]
  rw [keeps.writer, BlobWriter.finish, StreamWriter.finish]
  simp only [streamed]

end

end StreamWriter

/-! ### Collections -/

/-- New contents that were written beside a path are there. -/
theorem writeTemp_holds {data : Bytes} {d' : Disk} (sound : d.Sound) (written : writeTemp path data d = (.ok (), d')) :
    ∃ number, d'.Holds (tempPath path) number data := by
  obtain ⟨file, mid, created, written⟩ := of_bind_ok written
  cases file with
  | fullDevice =>
      obtain ⟨_, last, _, synced⟩ := of_bind_ok written
      obtain ⟨_, _, _, refused⟩ := of_bind_ok synced
      cases refused
  | file number =>
      obtain ⟨d₁, appended, holds₁, _⟩ := (create_holds sound created).writeAt data
      obtain ⟨d₂, synced, holds₂, _⟩ := holds₁.sync
      rw [List.length_nil] at appended
      rw [bind_ok appended, synced] at written
      cases written
      exact ⟨number, holds₂⟩

/-- A file that was replaced holds its new contents. -/
theorem writeAtomic_holds {data : Bytes} {d' : Disk} (sound : d.Sound)
    (written : writeAtomic path data d = (.ok (), d')) : ∃ number, d'.Holds path number data := by
  obtain ⟨_, mid, parent, written⟩ := of_bind_ok written
  have kept := Sound.createParent_keeps path d sound
  rw [parent] at kept
  obtain ⟨result, last, tried, written⟩ := of_bind_ok written
  have attempted := of_attempt tried
  cases result with
  | ok =>
      obtain ⟨number, holds⟩ := writeTemp_holds kept attempted
      exact ⟨number, holds.rename written⟩
  | error e =>
      obtain ⟨_, _, _, refused⟩ := of_bind_ok written
      cases refused

/-- A collection that was written to a file is what the file holds. -/
theorem writeCollection_holds {c : Collection} {d' : Disk} (sound : d.Sound)
    (written : writeCollection c path d = (.ok (), d')) : ∃ number, d'.Holds path number c.bytes :=
  writeAtomic_holds sound written

/-! ### All of them -/

/-- Where the file of stored arrays for a path is written. -/
def FileConfig.writtenPath (config : FileConfig) (path : String) : String :=
  match config.compression with
  | .none => path
  | .zstd _ => config.compressedPath path

namespace BlobWriter

/-- The open file of a writer. -/
def file : BlobWriter → OpenFile
  | .plain w => w.file
  | .stream w => w.file

variable {config : FileConfig} {writer : BlobWriter} {d₁ : Disk}

/-- A writer of the form that the settings ask for, which keeps a history. -/
def Keeps (config : FileConfig) (path : String) (number : Nat) (tree : List (Place × Entry)) :
    OnDisk → List Bytes → Prop :=
  match config.compression with
  | .none => PlainWriter.Keeps path number tree
  | .zstd level => StreamWriter.Keeps (config.compressedPath path) level number tree

variable {tree : List (Place × Entry)} {s : OnDisk} {log : List Bytes}

/-- A new writer keeps the empty history. -/
theorem create_keeps (sound : d.Sound) (created : create path config d = (.ok writer, d₁))
    (regular : writer.file = .file number) : Keeps config path number d₁.tree ⟨writer, d₁⟩ [] := by
  rw [create] at created
  unfold Keeps
  cases form : config.compression with
  | none =>
      rw [form] at created
      obtain ⟨w, opened, rfl⟩ := of_map_ok created
      exact PlainWriter.create_keeps sound opened regular
  | zstd level =>
      rw [form] at created
      obtain ⟨w, opened, rfl⟩ := of_map_ok created
      exact StreamWriter.create_keeps sound opened regular

theorem Keeps.write (keeps : Keeps config path number tree s log) (data : Bytes) :
    ∃ next, BlobStore.write data s = (.ok (Chunk.offset log data), next) ∧
      Keeps config path number tree next (Chunk.added log data) := by
  unfold Keeps at keeps ⊢
  cases form : config.compression with
  | none =>
      rw [form] at keeps
      exact PlainWriter.Keeps.write keeps data
  | zstd level =>
      rw [form] at keeps
      exact StreamWriter.Keeps.write keeps data

theorem Keeps.reserved (keeps : Keeps config path number tree s log) :
    (BlobStore.view s).reserved = Chunk.extent log := by
  unfold Keeps at keeps
  cases form : config.compression with
  | none =>
      rw [form] at keeps
      exact PlainWriter.Keeps.reserved keeps
  | zstd level =>
      rw [form] at keeps
      exact StreamWriter.Keeps.reserved keeps

end BlobWriter

/-- A writer and a collection that keep one history answer alike. -/
theorem OnDisk.write_related {config : FileConfig} {tree : List (Place × Entry)} (s : OnDisk) (c : Collection)
    (data : Bytes)
    (related : ∃ log, BlobWriter.Keeps config path number tree s log ∧ c.Keeps log) :
    (BlobStore.write data s).1 = (BlobStore.write data c).1 ∧ ∃ log,
      BlobWriter.Keeps config path number tree (BlobStore.write data s).2 log ∧
        (BlobStore.write data c).2.Keeps log := by
  obtain ⟨log, keeps, keeps'⟩ := related
  obtain ⟨next, written, keeps⟩ := keeps.write data
  obtain ⟨next', written', keeps'⟩ := keeps'.write data
  rw [written, written']
  exact ⟨rfl, _, keeps, keeps'⟩

section

variable [Codec]

namespace Compression

/-- The form in which some records are kept in a file. -/
def pack : Compression → Bytes → Except IoError Bytes
  | .none, records => .ok records
  | .zstd level, records => Codec.compress level records

/-- The records that a file holds. -/
def unpack : Compression → Bytes → Except IoError Bytes
  | .none, contents => .ok contents
  | .zstd _, contents => Codec.decompress contents

theorem unpack_of_pack (lossless : Codec.Lossless) {compression : Compression} {records contents : Bytes}
    (packed : compression.pack records = .ok contents) : compression.unpack contents = .ok records := by
  cases compression with
  | none =>
      cases packed
      rfl
  | zstd level => exact lossless level records contents packed

end Compression

/-- What was written is loaded, if no plain file hides a compressed one. -/
theorem LoadedBlobs.load_written {config : FileConfig} {contents : Bytes}
    (holds : d.Holds (config.writtenPath path) number contents) (unpacked : config.compression.unpack contents = .ok bytes)
    (alone : config.compression.isCompressed = true → d.entry? path = none) :
    ∃ d', load path config d = (.ok ⟨bytes, config.writtenPath path⟩, d') := by
  unfold FileConfig.writtenPath at holds ⊢
  cases form : config.compression with
  | none =>
      rw [form] at holds unpacked
      cases unpacked
      exact load_plain holds config
  | zstd level =>
      rw [form] at holds unpacked alone
      exact load_compressed holds unpacked (alone rfl)

namespace BlobWriter

variable {config : FileConfig} {writer : BlobWriter} {d₁ : Disk} {tree : List (Place × Entry)} {s : OnDisk}
  {log : List Bytes}

/-- A finished writer leaves the layout of its history in its file, in the form that the settings ask for. -/
theorem Keeps.finish {contents : Bytes} (keeps : Keeps config path number tree s log)
    (packed : config.compression.pack (Chunk.layout log) = .ok contents) :
    ∃ last d', s.writer.finish s.disk = ((.ok (Chunk.extent log), last), d') ∧
      d'.Holds (config.writtenPath path) number contents ∧ d'.tree = tree := by
  unfold Keeps at keeps
  unfold FileConfig.writtenPath
  cases form : config.compression with
  | none =>
      rw [form] at keeps packed
      cases packed
      exact PlainWriter.Keeps.finish keeps
  | zstd level =>
      rw [form] at keeps packed
      exact StreamWriter.Keeps.finish keeps packed

/-- Where a writer was finished there is a form of its history that the settings ask for, and it is in the file. -/
theorem Keeps.of_finish_ok {n : Nat} {last : BlobWriter} {d' : Disk} (keeps : Keeps config path number tree s log)
    (finished : s.writer.finish s.disk = ((.ok n, last), d')) :
    ∃ contents, config.compression.pack (Chunk.layout log) = .ok contents ∧
      d'.Holds (config.writtenPath path) number contents := by
  cases packed : config.compression.pack (Chunk.layout log) with
  | ok contents =>
      obtain ⟨_, _, finished', holds, _⟩ := keeps.finish packed
      cases finished.symm.trans finished'
      exact ⟨contents, rfl, holds⟩
  | error e =>
      unfold Keeps at keeps
      cases form : config.compression with
      | none =>
          rw [form] at packed
          cases packed
      | zstd level =>
          rw [form] at keeps packed
          cases (congrArg (·.1.1) finished).symm.trans (StreamWriter.Keeps.finish_error keeps packed)

/-- A writer that was opened on a file writes the layout of its chunks, and the file holds it when it is finished. -/
theorem run_holds (sound : d.Sound) (created : create path config d = (.ok writer, d₁))
    (regular : writer.file = .file number) {chunks : List Bytes} {contents : Bytes}
    (packed : config.compression.pack (Chunk.layout (Chunk.stored chunks)) = .ok contents) :
    ∃ s last d₂, BlobStore.writeAll chunks (OnDisk.mk writer d₁) = ((Chunk.offsets [] chunks).map .ok, s) ∧
      (BlobStore.view s).reserved = Chunk.extent (Chunk.stored chunks) ∧
      s.writer.finish s.disk = ((.ok (Chunk.extent (Chunk.stored chunks)), last), d₂) ∧
      d₂.Holds (config.writtenPath path) number contents ∧ d₂.tree = d₁.tree := by
  obtain ⟨s, run, keeps⟩ :=
    BlobStore.writeAll_refines (fun _ _ data keeps => keeps.write data) (create_keeps sound created regular) chunks
  obtain ⟨last, d₂, finished, holds, same⟩ := keeps.finish packed
  exact ⟨s, last, d₂, run, keeps.reserved, finished, holds, same⟩

/-- All stores keep one layout, if decompression undoes compression.  On disks where no call fails, and with records
    that can be compressed where that is asked for, a writer of either form tells the offsets that a collection does for
    the same chunks and counts the same bytes, also when it is finished; its file, unpacked, and a file to which the
    collection is written hold the bytes of the collection; and what is loaded from either file, or made of these bytes,
    answers every read as the collection does. -/
theorem agrees_with_collection (lossless : Codec.Lossless) (chunks : List Bytes) (sound : d.Sound)
    (created : create path config d = (.ok writer, d₁)) (regular : writer.file = .file number)
    (alone : config.compression.isCompressed = true → d₁.entry? path = none) {contents : Bytes}
    (packed : config.compression.pack (BlobStore.writeAll chunks Collection.empty).2.bytes = .ok contents)
    {e e' : Disk} {target : String} (sound' : e.Sound)
    (written : writeCollection (BlobStore.writeAll chunks Collection.empty).2 target e = (.ok (), e')) :
    let c := (BlobStore.writeAll chunks Collection.empty).2
    ∃ (offsets : List Nat) (s : OnDisk) (last : BlobWriter) (d₂ : Disk) (blobs : LoadedBlobs) (d₃ : Disk)
        (blobs' : LoadedBlobs) (e'' : Disk),
      BlobStore.writeAll chunks Collection.empty = (offsets.map .ok, c) ∧
        BlobStore.writeAll chunks (OnDisk.mk writer d₁) = (offsets.map .ok, s) ∧
        (BlobStore.view s).reserved = (BlobStore.view c).reserved ∧
        s.writer.finish s.disk = ((.ok (BlobStore.view c).reserved, last), d₂) ∧
        d₂.fileAt? (config.writtenPath path) = some contents ∧ config.compression.unpack contents = .ok c.bytes ∧
        e'.fileAt? target = some c.bytes ∧
        LoadedBlobs.load path config d₂ = (.ok blobs, d₃) ∧ BlobStore.view blobs = BlobStore.view c ∧
        LoadedBlobs.load target config e' = (.ok blobs', e'') ∧ BlobStore.view blobs' = BlobStore.view c ∧
        BlobStore.view (LoadedBlobs.ofBytes c.bytes) = BlobStore.view c := by
  obtain ⟨c, kept, keeps⟩ :=
    BlobStore.writeAll_refines (fun _ _ data keeps => keeps.write data) Collection.empty_keeps chunks
  rw [List.nil_append] at keeps
  rw [kept] at written packed ⊢
  have packed' : config.compression.pack (Chunk.layout (Chunk.stored chunks)) = .ok contents := keeps.bytes ▸ packed
  obtain ⟨s, last, d₂, run, reserved, finished, holds, same⟩ := run_holds sound created regular packed'
  obtain ⟨number', holds'⟩ := writeCollection_holds sound' written
  rw [← keeps.bytes_length] at reserved finished
  have unpacked := Compression.unpack_of_pack lossless packed
  have hidden : config.compression.isCompressed = true → d₂.entry? path = none := fun compressed =>
    (entry?_congr same path).trans (alone compressed)
  obtain ⟨d₃, loaded⟩ := LoadedBlobs.load_written holds unpacked hidden
  obtain ⟨e'', loaded'⟩ := LoadedBlobs.load_plain holds' config
  exact ⟨_, s, last, d₂, _, d₃, _, e'', rfl, run, reserved, finished, fileAt?_of_holds holds, unpacked,
    fileAt?_of_holds holds', loaded, rfl, loaded', rfl, rfl⟩

end BlobWriter

end

/-- A payload to be padded, an empty one and one that needs no padding, written in both forms on an empty disk. -/
theorem BlobWriter.agrees_with_collection_in_both_forms :
    let chunks : List Bytes := [[1, 2, 3], [], [4, 5, 6, 7, 8, 9, 10, 11]]
    let c := (BlobStore.writeAll chunks Collection.empty).2
    let plain := create "a/v" .default Disk.empty
    let stream := create "a/v" .testing Disk.empty
    c.bytes.length = 32 ∧
      (∃ (s : OnDisk) (last : BlobWriter) (d₂ d₃ : Disk) (blobs : LoadedBlobs),
        BlobStore.writeAll chunks (OnDisk.mk (.plain ⟨.file 0, "a/v", 0, false⟩) plain.2)
            = ([.ok 8, .ok 0, .ok 24], s) ∧
          s.writer.finish s.disk = ((.ok 32, last), d₂) ∧ d₂.fileAt? "a/v" = some c.bytes ∧
          LoadedBlobs.load "a/v" .default d₂ = (.ok blobs, d₃) ∧ BlobStore.view blobs = BlobStore.view c) ∧
      ∃ (s : OnDisk) (last : BlobWriter) (d₂ d₃ : Disk) (blobs : LoadedBlobs),
        BlobStore.writeAll chunks (OnDisk.mk (.stream ⟨.file 0, "a/v.zst", 1, some [], 0, false⟩) stream.2)
            = ([.ok 8, .ok 0, .ok 24], s) ∧
          s.writer.finish s.disk = ((.ok 32, last), d₂) ∧
          LoadedBlobs.load "a/v" .testing d₂ = (.ok blobs, d₃) ∧ BlobStore.view blobs = BlobStore.view c := by
  intro chunks c plain stream
  have answers : (BlobStore.writeAll chunks Collection.empty).1 = [.ok 8, .ok 0, .ok 24] := rfl
  have plainly : create "a/v" .default Disk.empty = (.ok (.plain ⟨.file 0, "a/v", 0, false⟩), plain.2) :=
    Prod.ext rfl rfl
  have packed : create "a/v" .testing Disk.empty
      = (.ok (.stream ⟨.file 0, "a/v.zst", 1, some [], 0, false⟩), stream.2) := Prod.ext rfl rfl
  have copied : writeCollection c "b" Disk.empty = (.ok (), (writeCollection c "b" Disk.empty).2) :=
    Prod.ext rfl rfl
  have length : c.bytes.length = 32 := by decide +kernel
  refine ⟨length, ?_, ?_⟩
  · obtain ⟨offsets, s, last, d₂, blobs, d₃, _, _, kept, run, _, finished, found, _, _, loaded, view, _⟩ :=
      agrees_with_collection Zstd.codec_lossless chunks empty_sound plainly rfl (by decide) rfl empty_sound copied
    rw [kept] at answers
    exact ⟨s, last, d₂, d₃, blobs, run.trans (congrArg (·, s) answers), length ▸ finished, found, loaded, view⟩
  · obtain ⟨offsets, s, last, d₂, blobs, d₃, _, _, kept, run, _, finished, _, _, _, loaded, view, _⟩ :=
      agrees_with_collection Zstd.codec_lossless chunks empty_sound packed rfl (by decide +kernel) rfl empty_sound copied
    rw [kept] at answers
    exact ⟨s, last, d₂, d₃, blobs, run.trans (congrArg (·, s) answers), length ▸ finished, loaded, view⟩

end JsonSidecar
