/-
Module: JsonSidecar.Proofs.File.LifeCycle
Purpose: What may be relied on in the life of a writer, whatever fails on the disk and however the calls go on.  A
  failed write is remembered and its place is not given away, so all that was accepted stays as it was written.  A
  finish that failed is remembered by a compressed stream, but not by a writer of records as they come.
Main exports: Disk.Carries, OnDisk.Stored, OnDisk.Stored.serve, BlobWriter.accepted_intact, BlobWriter.life_cycle,
  OnDisk.after_failed_finish
-/
import JsonSidecar.Proofs.Blob.AppendOnly
import JsonSidecar.Proofs.File.Save

namespace JsonSidecar

open DiskAction Disk

variable {d : Disk} {number : Nat}

/-! ### Bytes at their places -/

namespace Disk

/-- What lies in front of some bytes that are written over others ends where they begin. -/
theorem length_take_append_replicate (bytes : Bytes) (offset : Nat) :
    (bytes.take offset ++ List.replicate (offset - bytes.length) (0 : UInt8)).length = offset := by
  rw [List.length_append, List.length_take, List.length_replicate]
  omega

/-- Bytes that were written are at their place. -/
theorem slice_overwrite_self (bytes : Bytes) (offset : Nat) (data : Bytes) :
    BlobView.slice (overwrite bytes offset data) offset data.length = .ok data := by
  have between := BlobView.slice_between (bytes.take offset ++ List.replicate (offset - bytes.length) 0) data
    (bytes.drop (offset + data.length))
  rwa [length_take_append_replicate] at between

/-- What ends before the bytes that are written over is as before. -/
theorem slice_overwrite_below {bytes part : Bytes} {offset length behind : Nat}
    (found : BlobView.slice bytes offset length = .ok part) (below : offset + length ≤ behind) (data : Bytes) :
    BlobView.slice (overwrite bytes behind data) offset length = .ok part := by
  have kept : BlobView.slice (bytes.take behind) offset length = .ok part := by
    unfold BlobView.slice at found ⊢
    split at found
    · rename_i inside
      rw [List.length_take, if_pos (Nat.le_min.2 ⟨below, inside⟩), List.drop_take, List.take_take,
        Nat.min_eq_left (Nat.le_sub_of_add_le' below)]
      exact found
    · cases found
  rw [overwrite, List.append_assoc, List.append_assoc]
  exact BlobView.slice_append kept _

theorem contents_setContents (there : number < d.files.length) (bytes : Bytes) :
    contents (d.setContents number bytes) number = bytes := by
  unfold contents setContents
  rw [List.getElem?_set_self there]
  rfl

theorem length_setContents (d : Disk) (number : Nat) (bytes : Bytes) :
    (d.setContents number bytes).files.length = d.files.length := List.length_set

theorem writeAt_length (file : OpenFile) (offset : Nat) (data : Bytes) (d : Disk) :
    (writeAt file offset data d).2.files.length = d.files.length :=
  writeAt_keeps (P := fun after => after.files.length = d.files.length) (fun _ same => same)
    (fun _ _ _ _ same => (length_setContents ..).trans same) data d rfl

/-- A file that is there carries some bytes at an offset. -/
structure Carries (d : Disk) (number offset : Nat) (data : Bytes) : Prop where
  there : number < d.files.length
  intact : BlobView.slice (d.contents number) offset data.length = .ok data

theorem carries_written (there : number < d.files.length) (offset : Nat) (data : Bytes) :
    Carries (d.setContents number (overwrite (d.contents number) offset data)) number offset data where
  there := (length_setContents ..).symm ▸ there
  intact := by
    rw [contents_setContents there]
    exact slice_overwrite_self _ _ _

theorem Carries.passed {offset : Nat} {data : Bytes} (carries : d.Carries number offset data) :
    d.passed.Carries number offset data where
  there := carries.there
  intact := carries.intact

/-- What is written behind them does not change these bytes. -/
theorem Carries.written_behind {offset behind : Nat} {data : Bytes} (carries : d.Carries number offset data)
    (below : offset + data.length ≤ behind) (written : Bytes) :
    Carries (d.setContents number (overwrite (d.contents number) behind written)) number offset data where
  there := (length_setContents ..).symm ▸ carries.there
  intact := by
    rw [contents_setContents carries.there]
    exact slice_overwrite_below carries.intact below written

/-- A write that went through to a file changed its contents. -/
theorem of_writeAt_ok {file : OpenFile} {offset : Nat} {data : Bytes} {d' : Disk} (some : data ≠ [])
    (written : writeAt file offset data d = (.ok (), d')) :
    ∃ number, file = .file number ∧ d' = d.passed.setContents number (overwrite (d.contents number) offset data) := by
  cases data with
  | nil => cases some rfl
  | cons b rest =>
      unfold writeAt at written
      simp only [List.isEmpty_cons, Bool.false_eq_true, if_false] at written
      rw [bind_ok (nextFault_apply d)] at written
      cases file with
      | fullDevice => cases written
      | file number =>
          cases fault : d.faults.head?.join with
          | some fault =>
              rw [fault] at written
              cases written
          | none =>
              rw [fault] at written
              cases written
              exact ⟨number, rfl, rfl⟩

end Disk

/-! ### Chunks in a file -/

/-- A record that went through went to a file, and left its payload there. -/
theorem PlainWriter.of_writeRecord_ok {file : OpenFile} {base : Nat} {data : Bytes} {d' : Disk} (some : data ≠ [])
    (written : writeRecord file base data d = (.ok (), d')) :
    ∃ number, file = .file number ∧
      (number < d.files.length → d'.Carries number (base + Chunk.headerLength) data) := by
  obtain ⟨_, d₁, header, written⟩ := of_bind_ok written
  obtain ⟨_, d₂, payload, padding⟩ := of_bind_ok written
  obtain ⟨number, rfl, made⟩ := of_writeAt_ok some payload
  refine ⟨number, rfl, fun there => ?_⟩
  have same := writeAt_length (.file number) base (littleEndian Chunk.headerLength data.length) d
  rw [header] at same
  have carries : d₂.Carries number (base + Chunk.headerLength) data :=
    made ▸ carries_written (d := d₁.passed) (same ▸ there) _ data
  -- the padding goes behind the payload
  have behind : DiskAction.Keeps (fun d => d.Carries number (base + Chunk.headerLength) data)
      (writeAt (.file number) (base + Chunk.headerLength + data.length) (Chunk.padding data.length)) := by
    refine writeAt_keeps (fun _ carries => carries.passed) ?_ _
    rintro _ ⟨⟩ d written carries
    exact carries.written_behind (Nat.le_refl _) written
  have kept := behind d₂ carries
  rw [padding] at kept
  exact kept

theorem PlainWriter.of_write_ok {w : PlainWriter} {data : Bytes} {offset : Nat} (some : data ≠ [])
    (accepted : (w.write data d).1.1 = .ok offset) :
    offset = w.reserved + Chunk.headerLength ∧
      writeRecord w.file w.reserved data d = (.ok (), (w.write data d).2) := by
  cases data with
  | nil => cases some rfl
  | cons b rest =>
      unfold PlainWriter.write at accepted ⊢
      simp only [List.isEmpty_cons, Bool.false_eq_true, if_false] at accepted ⊢
      rcases done : writeRecord w.file w.reserved (b :: rest) d with ⟨result, d'⟩
      rw [done] at accepted
      cases result with
      | error e => cases accepted
      | ok =>
          cases accepted
          exact ⟨rfl, rfl⟩

namespace OnDisk

theorem of_phase_plain {writer : BlobWriter} (plain : writer.account.phase = .plain) : ∃ w, writer = .plain w := by
  cases writer with
  | plain w => exact ⟨w, rfl⟩
  | stream w =>
      rcases w with ⟨file, path, level, stream, reserved, failed⟩
      cases stream with
      | none => cases plain
      | some stream => cases plain

/-- A writer of records as they come whose file carries a payload at a place that was taken. -/
structure Stored (number : Nat) (data : Bytes) (offset : Nat) (s : OnDisk) : Prop where
  plain : s.writer.account.phase = .plain
  file : s.writer.file = .file number
  below : offset + data.length ≤ s.writer.account.reserved
  carries : s.disk.Carries number offset data

variable [Codec] {s : OnDisk} {data : Bytes} {offset : Nat}

/-- What is stored stays, whatever is written after it and however much of that goes wrong. -/
theorem Stored.serve (stored : Stored number data offset s) (call : WriterCall) :
    Stored number data offset (OnDisk.serve call s).2 where
  plain := (s.serve_step call).plain_iff.1 stored.plain
  file := (s.serve_file call).trans stored.file
  below := by
    rw [(s.serve_step call).reserved_eq]
    exact Nat.le_add_right_of_le stored.below
  carries := by
    obtain ⟨w, isPlain⟩ := of_phase_plain stored.plain
    rcases s with ⟨writer, d⟩
    cases isPlain
    cases call with
    | finish =>
        exact PlainWriter.finish_keeps (P := fun d => d.Carries number offset data) (fun _ => Carries.passed) stored.carries
    | write more =>
        refine PlainWriter.write_keeps (P := fun d => d.Carries number offset data) (fun _ => Carries.passed) ?_ more
          stored.carries
        intro own isOwn behind le d written carries
        cases isOwn.symm.trans stored.file
        exact carries.written_behind (Nat.le_trans stored.below le) written

/-- What a writer of records as they come has accepted is stored. -/
theorem stored_of_write (plain : s.writer.account.phase = .plain)
    (there : ∀ number, s.writer.file = .file number → number < s.disk.files.length) (some : data ≠ [])
    (accepted : (OnDisk.serve (.write data) s).1 = .ok offset) :
    ∃ number, s.writer.file = .file number ∧ Stored number data offset (OnDisk.serve (.write data) s).2 := by
  have step := s.serve_step (.write data)
  have file := s.serve_file (.write data)
  have grown : (OnDisk.serve (.write data) s).2.writer.account = s.writer.account.grown data := by
    rw [accepted] at step
    exact (step.of_accepted some).2
  obtain ⟨w, isPlain⟩ := of_phase_plain plain
  rcases s with ⟨writer, d⟩
  cases isPlain
  have answer : (w.write data d).1.1 = .ok offset := accepted
  obtain ⟨rfl, written⟩ := PlainWriter.of_write_ok some answer
  obtain ⟨number, isFile, carries⟩ := PlainWriter.of_writeRecord_ok some written
  refine ⟨number, isFile, step.plain_iff.1 plain, file.trans isFile, ?_, carries (there number isFile)⟩
  have room := Chunk.add_headerLength_le data.length
  have taken : (BlobWriter.plain w).account.reserved = w.reserved := rfl
  rw [grown, Account.grown, taken]
  dsimp only
  omega

end OnDisk

section

variable [Codec]

/-! ### Files that a writer leaves alone -/

theorem OnDisk.entry?_serve (s : OnDisk) (call : WriterCall) (path : String) :
    (OnDisk.serve call s).2.disk.entry? path = s.disk.entry? path := entry?_congr (s.serve_disk call).1 path

/-- A call leaves the files at all places alone but the one where the file of the writer is. -/
theorem OnDisk.fileAt?_serve {s : OnDisk} {own other : String} (tidy : s.disk.Tidy)
    (isOwn : ∀ number, s.writer.file = .file number → s.disk.entry? own = some (.file number))
    (apart : placeOf other ≠ placeOf own) (call : WriterCall) :
    (OnDisk.serve call s).2.disk.fileAt? other = s.disk.fileAt? other := by
  rw [fileAt?, s.entry?_serve call, fileAt?]
  cases found : s.disk.entry? other with
  | none => rfl
  | some entry =>
      cases entry with
      | directory => rfl
      | fullDevice => rfl
      | file number =>
          refine congrArg some ((s.serve_disk call).2.2 number fun isFile => apart ?_)
          have there := (of_entry?_eq_some (isOwn number isFile)).2
          exact tidy.unshared _ _ number (of_entry?_eq_some found).2 there

/-- A writer of records as they come has them all in its file before it is finished. -/
theorem OnDisk.files_finish {s : OnDisk} (plain : s.writer.account.phase = .plain) :
    (OnDisk.serve .finish s).2.disk.files = s.disk.files := by
  obtain ⟨w, form⟩ := of_phase_plain plain
  rcases s with ⟨writer, d⟩
  cases form
  exact PlainWriter.finish_keeps (P := fun after => after.files = d.files) (fun _ same => same) rfl

/-! ### The life of a writer -/

/-- A stream that is over takes no more chunks, and nothing changes. -/
theorem OnDisk.serve_closed {s : OnDisk} (isClosed : s.writer.account.phase = .closed) (data : Bytes) :
    OnDisk.serve (.write data) s = (if data = [] then .ok 0 else .error .closed, s) := by
  rcases s with ⟨writer, d⟩
  cases writer with
  | plain w => cases isClosed
  | stream w =>
      rcases w with ⟨file, path, level, stream, reserved, failed⟩
      cases stream with
      | some stream => cases isClosed
      | none => cases data <;> rfl

namespace BlobWriter

variable {path : String} {config : FileConfig} {writer : BlobWriter} {d₁ : Disk}

/-- The file of a writer stays at the path where it was opened through all calls. -/
theorem file_stays (numbered : d.Numbered) (created : create path config d = (.ok writer, d₁))
    (calls : List WriterCall) :
    let s := (OnDisk.serveAll calls ⟨writer, d₁⟩).2
    ∀ number, s.writer.file = .file number →
      number < s.disk.files.length ∧ s.disk.entry? (config.writtenPath path) = some (.file number) := by
  intro s number isFile
  have same := OnDisk.serveAll_keeps (s := ⟨writer, d₁⟩) (Q := fun s => s.writer.file = writer.file ∧
    s.disk.tree = d₁.tree ∧ s.disk.files.length = d₁.files.length)
    (fun call s same => ⟨(s.serve_file call).trans same.1, (s.serve_disk call).1.trans same.2.1,
      (s.serve_disk call).2.1.trans same.2.2⟩) calls ⟨rfl, rfl, rfl⟩
  obtain ⟨⟨mid, numbered, opened⟩, _⟩ := of_create Numbered.createParent_keeps numbered created
  rw [← same.1, isFile] at opened
  obtain ⟨_, free, entry, file⟩ := create_opened numbered opened
  rw [entry?_congr same.2.1, same.2.2, entry?_of_free free]
  exact ⟨(List.getElem?_eq_some_iff.1 file).1, entry⟩

/-- A writer of records as they come stays one through all calls. -/
theorem plain_stays (numbered : d.Numbered) (created : create path config d = (.ok writer, d₁))
    (form : config.compression = .none) (calls : List WriterCall) :
    (OnDisk.serveAll calls ⟨writer, d₁⟩).2.writer.account.phase = .plain := by
  obtain ⟨_, account⟩ := of_create Numbered.createParent_keeps numbered created
  rw [← (OnDisk.serveAll_run calls ⟨writer, d₁⟩).plain_iff, account, form]
  rfl

/-- A chunk that a writer of records as they come accepted is in its file, to the end. -/
theorem accepted_intact (numbered : d.Numbered) (created : create path config d = (.ok writer, d₁))
    (form : config.compression = .none) (earlier later : List WriterCall) {data : Bytes} {offset : Nat}
    (content : data ≠ []) :
    let before := (OnDisk.serveAll earlier ⟨writer, d₁⟩).2
    let after := (OnDisk.serveAll later (OnDisk.serve (.write data) before).2).2
    (OnDisk.serve (.write data) before).1 = .ok offset →
      ∃ file, after.disk.fileAt? path = some file ∧ BlobView.slice file offset data.length = .ok data := by
  intro before after accepted
  have plain := plain_stays numbered created form earlier
  have stays := file_stays numbered created earlier
  obtain ⟨number, isFile, stored⟩ :=
    OnDisk.stored_of_write plain (fun number isFile => (stays number isFile).1) content accepted
  have intact := OnDisk.serveAll_keeps (fun call s stored => stored.serve call) later stored
  have entry := (before.entry?_serve (.write data) _).trans (stays number isFile).2
  rw [FileConfig.writtenPath, form] at entry
  have entry' := OnDisk.serveAll_keeps (fun call s entry => (s.entry?_serve call path).trans entry) later entry
  refine ⟨_, ?_, intact.carries.intact⟩
  rw [fileAt?, entry']
  rfl

/-- A compressed stream is over when it was finished, whatever came of that. -/
theorem closed_of_finish (numbered : d.Numbered) (created : create path config d = (.ok writer, d₁))
    (form : config.compression ≠ .none) (earlier later : List WriterCall) :
    let before := (OnDisk.serveAll earlier ⟨writer, d₁⟩).2
    (OnDisk.serveAll later (OnDisk.serve .finish before).2).2.writer.account.phase = .closed := by
  intro before
  obtain ⟨_, account⟩ := of_create Numbered.createParent_keeps numbered created
  have stream : before.writer.account.phase ≠ .plain := by
    rw [Ne, ← (OnDisk.serveAll_run earlier ⟨writer, d₁⟩).plain_iff, account]
    cases level : config.compression with
    | none => cases form level
    | zstd level =>
        intro plain
        cases plain
  have closed := (before.serve_step .finish).closed_of_finish stream
  have future := OnDisk.serveAll_run later (OnDisk.serve .finish before).2
  exact (future.after (P := fun a => a.phase = .closed) Account.Step.closed_stays closed).1

/-- The life of a writer, told at any call in it.  Whatever fails on the disk:

    - a write that broke is remembered ever after, no finish succeeds after it, and its place is not given away again;
    - a finish that succeeds comes after no write that broke, and counts the records of all chunks that were accepted;
    - the bytes that are taken never get fewer;
    - a chunk that was accepted by a writer of records as they come is in the file at its offset, to the end;
    - a stream that was finished takes nothing any more but empty chunks;
    - a value file whose stored arrays cannot be finished fails with that error, and its text is not touched, nor is any
      other file but that of a stream.  Settings that were checked and whose suffixes only go on with names keep that
      one apart from the text. -/
theorem life_cycle (numbered : d.Numbered) (created : create path config d = (.ok writer, d₁))
    (earlier : List WriterCall) (call : WriterCall) (later : List WriterCall) :
    let before := OnDisk.serveAll earlier ⟨writer, d₁⟩
    let answered := OnDisk.serve call before.2
    let after := OnDisk.serveAll later answered.2
    (∀ data e, call = .write data → answered.1 = .error (.io e) →
      answered.2.writer.failed = true ∧ after.2.writer.failed = true ∧
        (∀ answer, ⟨.finish, answer⟩ ∈ after.1 → ∃ e, answer = .error e) ∧
        ∀ data' offset, data' ≠ [] → ⟨.write data', .ok offset⟩ ∈ after.1 →
          before.2.writer.reserved + Chunk.recordLength data.length + Chunk.headerLength ≤ offset) ∧
    (∀ n, call = .finish → answered.1 = .ok n →
      (∀ event ∈ before.1, ¬ event.Breaks) ∧ n = (before.1.map WriterEvent.accepted).sum) ∧
    (before.2.writer.reserved ≤ answered.2.writer.reserved ∧ answered.2.writer.reserved ≤ after.2.writer.reserved) ∧
    (∀ data offset, config.compression = .none → call = .write data → data ≠ [] → answered.1 = .ok offset →
      ∃ file, after.2.disk.fileAt? path = some file ∧ BlobView.slice file offset data.length = .ok data) ∧
    (config.compression ≠ .none → call = .finish → ∀ data,
      OnDisk.serve (.write data) after.2 = (if data = [] then .ok 0 else .error .closed, after.2)) ∧
    (∀ p text e, path = config.blobsPath p → call = .finish → answered.1 = .error e →
      (ValueFile.mk p config before.2.writer).save text before.2.disk = (.error (.blob e), answered.2.disk) ∧
        answered.2.disk.tree = before.2.disk.tree ∧
        (d.Tidy → ∀ other, config.compression = .none ∨ placeOf other ≠ placeOf (config.writtenPath path) →
          answered.2.disk.fileAt? other = before.2.disk.fileAt? other) ∧
        (config.validate = .ok () → config.PlainSuffixes → ∀ form ∈ [p, config.compressedPath p],
          placeOf form ≠ placeOf (config.writtenPath path))) := by
  intro before answered after
  obtain ⟨_, account⟩ := of_create Numbered.createParent_keeps numbered created
  have past := OnDisk.serveAll_run earlier ⟨writer, d₁⟩
  have step := before.2.serve_step call
  have future := OnDisk.serveAll_run later answered.2
  refine ⟨?_, ?_, ⟨?_, ?_⟩, ?_, ?_, ?_⟩
  · rintro data e rfl broke
    rw [broke] at step
    have kept := future.after_broken step
    rwa [account_failed, account_failed, account_reserved] at kept
  · rintro n rfl finished
    rw [finished] at step
    obtain ⟨sound, rfl⟩ := step.of_finished
    obtain ⟨whole, sums⟩ := past.accepted_eq sound
    refine ⟨whole, ?_⟩
    rw [past.reserved_eq, account, sums, Nat.zero_add]
  · rw [← account_reserved, ← account_reserved, step.reserved_eq]
    exact Nat.le_add_right _ _
  · rw [← account_reserved, ← account_reserved, future.reserved_eq]
    exact Nat.le_add_right _ _
  · rintro data offset form rfl some
    exact accepted_intact numbered created form earlier later some
  · rintro compressed rfl
    exact OnDisk.serve_closed (closed_of_finish numbered created compressed earlier later)
  · rintro p text e rfl rfl refused
    have finished : before.2.writer.finish before.2.disk = ((.error e, answered.2.writer), answered.2.disk) :=
      Prod.ext (Prod.ext refused rfl) rfl
    have same := (before.2.serve_disk .finish).1
    refine ⟨ValueFile.save_of_finish_error finished, same, ?_, ?_⟩
    · rintro tidy other (form | apart)
      · exact fileAt?_congr same (OnDisk.files_finish (plain_stays numbered created form earlier)) other
      · have tidied :=
          OnDisk.serveAll_keeps (s := ⟨writer, d₁⟩) OnDisk.serve_tidy earlier (created_within tidy created).tidy
        have stays := file_stays numbered created earlier
        exact OnDisk.fileAt?_serve tidied (fun number isFile => (stays number isFile).2) apart .finish
    · exact fun valid plain form mem => FileConfig.written_ne_text valid plain mem

end BlobWriter

end

/-- A write of which one byte is left in the file.  Its place stays empty, and what was accepted before it stays. -/
theorem BlobWriter.life_cycle_partial_write :
    let fault : Fault := ⟨IoKind.storageFull.error, 1⟩
    let opened := create "w" .default { Disk.empty with faults := List.replicate 5 none ++ [some fault] }
    let start : OnDisk := ⟨.plain ⟨.file 0, "w", 0, false⟩, opened.2⟩
    let before := OnDisk.serveAll [.write [1, 2, 3]] start
    let answered := OnDisk.serve (.write [4, 5]) before.2
    let after := OnDisk.serveAll [.write [6], .finish] answered.2
    answered.1 = .error (.io fault.error) ∧ after.1.map WriterEvent.answer = [.ok 40, .error .failed] ∧
      after.2.writer.failed = true ∧ before.2.writer.reserved + 16 + 8 ≤ 40 ∧
      ∃ file, after.2.disk.fileAt? "w" = some file ∧ BlobView.slice file 8 3 = .ok [1, 2, 3] := by
  intro fault opened start before answered after
  have numbered : Numbered { Disk.empty with faults := List.replicate 5 none ++ [some fault] } :=
    (tidy_nothing _).numbered
  have created : create "w" .default { Disk.empty with faults := List.replicate 5 none ++ [some fault] }
      = (.ok start.writer, opened.2) := Prod.ext rfl rfl
  have broke : answered.1 = .error (.io fault.error) := by decide +kernel
  have answers : after.1.map WriterEvent.answer = [.ok 40, .error .failed] := by decide +kernel
  obtain ⟨kept, _⟩ := life_cycle numbered created [.write [1, 2, 3]] (.write [4, 5]) [.write [6], .finish]
  obtain ⟨_, failed, _, behind⟩ := kept [4, 5] fault.error rfl broke
  obtain ⟨_, _, _, intact, _⟩ := life_cycle numbered created [] (.write [1, 2, 3]) [.write [4, 5], .write [6], .finish]
  refine ⟨broke, answers, failed, ?_, intact [1, 2, 3] 8 rfl rfl (by decide) (by decide +kernel)⟩
  have accepted : (OnDisk.serve (.write [6]) answered.2).1 = .ok 40 := by decide +kernel
  exact behind [6] 40 (by decide) (accepted ▸ List.mem_cons_self)

/-! ### A finish that failed -/

/-- A writer of records as they come that has not failed is finished by a call that goes through. -/
theorem PlainWriter.finish_ok {w : PlainWriter} (sound : w.failed = false) (isFile : w.file = .file number)
    (next : d.faults.head?.join = none) : w.finish d = (.ok w.reserved, d.passed) := by
  have begun : Disk.begin d = (.ok (), d.passed) := by
    rw [Disk.begin, bind_ok (nextFault_apply d), next]
    rfl
  have synced : BlobAction.ofDisk (Disk.sync w.file) d = (.ok (), d.passed) := by
    rw [BlobAction.ofDisk, isFile, Disk.sync, bind_ok begun]
    rfl
  unfold finish
  simp only [sound, Bool.false_eq_true, if_false]
  rw [bind_ok synced]
  rfl

namespace OnDisk

theorem serve_finish_ok [Codec] {s : OnDisk} (plain : s.writer.account.phase = .plain) (sound : s.writer.failed = false)
    (isFile : s.writer.file = .file number) (next : s.disk.faults.head?.join = none) :
    (serve .finish s).1 = .ok s.writer.reserved := by
  obtain ⟨w, form⟩ := of_phase_plain plain
  rcases s with ⟨writer, d⟩
  cases form
  exact congrArg Prod.fst (PlainWriter.finish_ok sound isFile next)

/-- What a finish that failed leaves behind.  A compressed stream has failed for good, and so has a writer that refused
    because a write broke: no later finish succeeds.  But a writer of records as they come that could not bring them to
    rest does not remember it: it is as before, it has failed only if a later write breaks, and otherwise the next
    finish whose own call goes through reports success. -/
theorem after_failed_finish [Codec] {s s' : OnDisk} {e : BlobError} (unfinished : serve .finish s = (.error e, s'))
    (later : List WriterCall) :
    let after := serveAll later s'
    (((∃ w, s.writer = .stream w) ∨ e = .failed) → s'.writer.failed = true ∧ after.2.writer.failed = true ∧
      ∀ answer, ⟨.finish, answer⟩ ∈ after.1 → ∃ e, answer = .error e) ∧
    (∀ w, s.writer = .plain w → e ≠ .failed → s'.writer = .plain w ∧ w.failed = false ∧
      (after.2.writer.failed = true ↔ ∃ event ∈ after.1, event.Breaks) ∧
      ∀ number, w.file = .file number → after.2.writer.failed = false → after.2.disk.faults.head?.join = none →
        (serve .finish after.2).1 = .ok after.2.writer.reserved) := by
  intro after
  have step := s.serve_step .finish
  rw [unfinished] at step
  have run := serveAll_run later s'
  rcases step.of_unfinished with ⟨failed, refused⟩ | ⟨plain, other, sound⟩
  · refine ⟨fun _ => ?_, fun w form other => ?_⟩
    · obtain ⟨last, never⟩ := run.after_failed failed
      exact ⟨s'.writer.account_failed ▸ failed, after.2.writer.account_failed ▸ last, never⟩
    · rw [form] at refused
      cases other (refused rfl)
  · have plain' := step.plain_iff.1 plain
    obtain ⟨w, form⟩ := of_phase_plain plain
    rcases s with ⟨writer, d⟩
    cases form
    have same : s'.writer = .plain w := (congrArg (fun served => served.2.writer) unfinished).symm
    refine ⟨?_, fun w' form _ => ?_⟩
    · rintro (⟨w', form⟩ | refused)
      · cases form
      · cases other refused
    · cases form
      refine ⟨same, sound, ?_, fun number isFile failed next => ?_⟩
      · have flag := run.failed_iff plain'
        rw [same] at flag
        rw [← BlobWriter.account_failed, flag]
        exact or_iff_right (Bool.eq_false_iff.1 sound)
      · have kept := serveAll_keeps (Q := fun s => s.writer.file = w.file)
          (fun call s kept => (s.serve_file call).trans kept) later (congrArg BlobWriter.file same)
        exact serve_finish_ok (run.plain_iff.1 plain') failed (kept.trans isFile) next

/-- The stream of a new writer that cannot be closed, and all that may be tried afterwards. -/
theorem after_failed_finish_stream :
    let fault : Fault := ⟨IoKind.other.error, 0⟩
    let opened := BlobWriter.create "w" .testing { Disk.empty with faults := [none, some fault] }
    let s : OnDisk := ⟨.stream ⟨.file 0, "w.zst", 1, some [], 0, false⟩, opened.2⟩
    let after := serveAll [.finish, .write [1], .finish] (serve .finish s).2
    opened.1 = .ok s.writer ∧ (serve .finish s).1 = .error (.io fault.error) ∧ after.2.writer.failed = true ∧
      ∀ answer, ⟨.finish, answer⟩ ∈ after.1 → ∃ e, answer = .error e := by
  intro fault opened s after
  have unfinished : serve .finish s = (.error (.io fault.error), (serve .finish s).2) :=
    Prod.ext (by decide +kernel) rfl
  obtain ⟨kept, _⟩ := after_failed_finish unfinished [.finish, .write [1], .finish]
  exact ⟨rfl, congrArg Prod.fst unfinished, (kept (.inl ⟨_, rfl⟩)).2⟩

/-- Three bytes are written, and the call that should bring them to rest fails.  The writer has not failed, and when it
    is finished once more it reports success. -/
theorem after_failed_finish_retried :
    let fault : Fault := ⟨IoKind.other.error, 0⟩
    let opened := BlobWriter.create "w" .default { Disk.empty with faults := List.replicate 4 none ++ [some fault] }
    let s := (serve (.write [1, 2, 3]) ⟨.plain ⟨.file 0, "w", 0, false⟩, opened.2⟩).2
    opened.1 = .ok (.plain ⟨.file 0, "w", 0, false⟩) ∧ (serve .finish s).1 = .error (.io fault.error) ∧
      (serve .finish s).2.writer.failed = false ∧ (serve .finish (serve .finish s).2).1 = .ok 16 := by
  intro fault opened s
  refine ⟨rfl, ?_⟩
  decide +kernel

end OnDisk

end JsonSidecar
