/-
Module: JsonSidecar.Proofs.File.WriterCalls
Purpose: Writers over whole runs of calls, whatever fails on the disk.  Of a writer an account is kept: the bytes that
  its records take, whether it has failed, and whether its stream has been ended.  One call is one step of the account,
  and the steps tell what is answered; what holds along every run is read off the steps.
Main exports: WriterCall, WriterEvent, OnDisk.serve, OnDisk.serveAll, Account, Account.Step, Account.Run,
  OnDisk.serve_step, OnDisk.serveAll_run, Account.Run.after, OnDisk.serve_keeps
-/
import JsonSidecar.Proofs.File.Backings
import JsonSidecar.Proofs.File.Within

namespace JsonSidecar

open DiskAction Disk

/-! ### Calls -/

/-- What is asked of a writer. -/
inductive WriterCall where
  | write (data : Bytes)
  | finish
deriving DecidableEq, Repr

/-- A call and the answer to it. -/
structure WriterEvent where
  call : WriterCall
  answer : Except BlobError Nat

namespace OnDisk

variable [Codec]

/-- Make one call. -/
def serve (call : WriterCall) (s : OnDisk) : Except BlobError Nat × OnDisk :=
  match call with
  | .write data => BlobStore.write data s
  | .finish =>
    let ((answer, writer), disk) := s.writer.finish s.disk
    (answer, ⟨writer, disk⟩)

/-- Make calls one after another. -/
def serveAll : List WriterCall → OnDisk → List WriterEvent × OnDisk
  | [], s => ([], s)
  | call :: rest, s =>
    let (answer, s) := serve call s
    let (events, s) := serveAll rest s
    (⟨call, answer⟩ :: events, s)

end OnDisk

/-! ### Accounts -/

/-- How far a writer has come: it may write records as they come, or to a stream until that is ended. -/
inductive WriterPhase where
  | plain
  | streaming
  | closed
deriving DecidableEq, Repr

/-- The phase when the writer was finished. -/
def WriterPhase.ended : WriterPhase → WriterPhase
  | .plain => .plain
  | .streaming | .closed => .closed

/-- The bytes that the records of a writer take, whether it has failed, and how far it has come. -/
structure Account where
  reserved : Nat
  failed : Bool
  phase : WriterPhase
deriving DecidableEq, Repr

/-- The account of a writer. -/
def BlobWriter.account : BlobWriter → Account
  | .plain w => ⟨w.reserved, w.failed, .plain⟩
  | .stream w =>
    match w.stream with
    | some _ => ⟨w.reserved, w.failed, .streaming⟩
    | none => ⟨w.reserved, w.failed, .closed⟩

theorem BlobWriter.account_reserved (writer : BlobWriter) : writer.account.reserved = writer.reserved := by
  rcases writer with w | ⟨file, path, level, stream, reserved, failed⟩
  · rfl
  · cases stream with
    | none => rfl
    | some stream => rfl

theorem BlobWriter.account_failed (writer : BlobWriter) : writer.account.failed = writer.failed := by
  rcases writer with w | ⟨file, path, level, stream, reserved, failed⟩
  · rfl
  · cases stream with
    | none => rfl
    | some stream => rfl

namespace Account

/-- The account when the record of a chunk has its place. -/
def grown (a : Account) (data : Bytes) : Account := { a with reserved := a.reserved + Chunk.recordLength data.length }

/-- The account when the writer was finished. -/
def ended (a : Account) : Account := { a with phase := a.phase.ended }

/-- What one call does to the account of a writer, and how it is answered.  A failed write has its place all the same.
    A plain writer that could not be brought to rest is as before; a stream is ended even if that fails. -/
inductive Step (a : Account) : WriterCall → Except BlobError Nat → Account → Prop where
  | empty : Step a (.write []) (.ok 0) a
  | stored {data : Bytes} (some : data ≠ []) (opened : a.phase ≠ .closed) :
    Step a (.write data) (.ok (a.reserved + Chunk.headerLength)) (a.grown data)
  | broken {data : Bytes} (some : data ≠ []) (opened : a.phase ≠ .closed) (e : IoError) :
    Step a (.write data) (.error (.io e)) { a.grown data with failed := true }
  | closed {data : Bytes} (some : data ≠ []) (isClosed : a.phase = .closed) : Step a (.write data) (.error .closed) a
  | finished (sound : a.failed = false) : Step a .finish (.ok a.reserved) a.ended
  | refused (failed : a.failed = true) : Step a .finish (.error .failed) a.ended
  | restless (plain : a.phase = .plain) (sound : a.failed = false) (e : IoError) : Step a .finish (.error (.io e)) a
  | torn (streaming : a.phase = .streaming) (e : IoError) :
    Step a .finish (.error (.io e)) { a.ended with failed := true }

/-- A run of calls with their answers. -/
inductive Run : Account → List WriterEvent → Account → Prop where
  | nil (a : Account) : Run a [] a
  | cons {a b c : Account} {event : WriterEvent} {events : List WriterEvent} (step : a.Step event.call event.answer b)
    (rest : Run b events c) : Run a (event :: events) c

end Account

/-! ### Calls as steps -/

/-- A new writer has its file opened at the path that it writes to, and a clean account. -/
theorem BlobWriter.of_create {path : String} {config : FileConfig} {writer : BlobWriter} {d d₁ : Disk} {P : Disk → Prop}
    (around : ∀ path, DiskAction.Keeps P (createParent path)) (holds : P d)
    (created : BlobWriter.create path config d = (.ok writer, d₁)) :
    (∃ mid, P mid ∧ Disk.create (config.writtenPath path) mid = (.ok writer.file, d₁)) ∧
      writer.account = ⟨0, false, if config.compression.isCompressed then .streaming else .plain⟩ := by
  rw [BlobWriter.create] at created
  unfold FileConfig.writtenPath
  cases form : config.compression with
  | none =>
      rw [form] at created
      obtain ⟨w, opened, rfl⟩ := of_map_ok created
      obtain ⟨file, mid, kept, made, rfl⟩ := of_opened (around _) holds opened
      exact ⟨⟨mid, kept, made⟩, rfl⟩
  | zstd level =>
      rw [form] at created
      obtain ⟨w, opened, rfl⟩ := of_map_ok created
      obtain ⟨file, mid, kept, made, rfl⟩ := of_opened (around _) holds opened
      exact ⟨⟨mid, kept, made⟩, rfl⟩

theorem PlainWriter.write_step (data : Bytes) (w : PlainWriter) (d : Disk) :
    (BlobWriter.plain w).account.Step (.write data) (w.write data d).1.1
      (BlobWriter.plain (w.write data d).1.2).account := by
  have opened : (BlobWriter.plain w).account.phase ≠ .closed := by
    intro isClosed
    cases isClosed
  cases data with
  | nil => exact .empty
  | cons b rest =>
      have some : b :: rest ≠ [] := List.cons_ne_nil b rest
      unfold PlainWriter.write
      simp only [List.isEmpty_cons, Bool.false_eq_true, if_false]
      rcases writeRecord w.file w.reserved (b :: rest) d with ⟨result, d'⟩
      cases result with
      | ok => exact .stored some opened
      | error e => exact .broken some opened e

theorem PlainWriter.finish_step (w : PlainWriter) (d : Disk) :
    (BlobWriter.plain w).account.Step .finish (w.finish d).1 (BlobWriter.plain w).account := by
  unfold PlainWriter.finish
  cases failed : w.failed with
  | true => exact .refused failed
  | false =>
      simp only [Bool.false_eq_true, if_false]
      rcases synced : Disk.sync w.file d with ⟨result, d'⟩
      have rested : BlobAction.ofDisk (Disk.sync w.file) d = (result.mapError .io, d') := by
        rw [BlobAction.ofDisk, synced]
      cases result with
      | ok =>
          rw [bind_ok rested]
          exact .finished failed
      | error e =>
          rw [bind_error rested]
          exact .restless rfl failed e

theorem StreamWriter.write_step (data : Bytes) (w : StreamWriter) (d : Disk) :
    (BlobWriter.stream w).account.Step (.write data) (w.write data d).1.1
      (BlobWriter.stream (w.write data d).1.2).account := by
  rcases w with ⟨file, path, level, stream, reserved, failed⟩
  cases data with
  | nil => exact .empty
  | cons b rest =>
      have some : b :: rest ≠ [] := List.cons_ne_nil b rest
      cases stream with
      | none => exact .closed some rfl
      | some stream =>
          have opened :
              (BlobWriter.stream ⟨file, path, level, .some stream, reserved, failed⟩).account.phase ≠ .closed := by
            intro isClosed
            cases isClosed
          unfold StreamWriter.write
          simp only [List.isEmpty_cons]
          rcases writeParts _ stream d with ⟨⟨result, stream'⟩, d'⟩
          cases result with
          | ok => exact .stored some opened
          | error e => exact .broken some opened e

theorem StreamWriter.finish_step [Codec] (w : StreamWriter) (d : Disk) :
    (BlobWriter.stream w).account.Step .finish (w.finish d).1.1 (BlobWriter.stream (w.finish d).1.2).account := by
  rcases w with ⟨file, path, level, stream, reserved, failed⟩
  cases stream with
  | none =>
      cases failed with
      | true => exact .refused rfl
      | false => exact .finished rfl
  | some stream =>
      unfold StreamWriter.finish
      dsimp only
      rcases finishStream file level stream d with ⟨result, d'⟩
      cases result with
      | error e => exact .torn (a := ⟨reserved, failed, .streaming⟩) rfl e
      | ok =>
          cases failed with
          | true => exact .refused (a := ⟨reserved, true, .streaming⟩) rfl
          | false => exact .finished (a := ⟨reserved, false, .streaming⟩) rfl

/-- One call is one step of the account. -/
theorem OnDisk.serve_step [Codec] (call : WriterCall) (s : OnDisk) :
    s.writer.account.Step call (serve call s).1 (serve call s).2.writer.account := by
  rcases s with ⟨writer, d⟩
  cases writer with
  | plain w =>
      cases call with
      | write data => exact w.write_step data d
      | finish => exact w.finish_step d
  | stream w =>
      cases call with
      | write data => exact w.write_step data d
      | finish => exact w.finish_step d

/-- Calls one after another are a run of the account. -/
theorem OnDisk.serveAll_run [Codec] (calls : List WriterCall) (s : OnDisk) :
    Account.Run s.writer.account (serveAll calls s).1 (serveAll calls s).2.writer.account := by
  induction calls generalizing s with
  | nil => exact .nil _
  | cons call rest ih => exact .cons (s.serve_step call) (ih _)

/-! ### What holds along every run -/

namespace WriterEvent

/-- The bytes of the place that a call took: a write takes one unless the writer is closed, even if it fails. -/
def taken : WriterEvent → Nat
  | ⟨.finish, _⟩ | ⟨.write [], _⟩ | ⟨.write (_ :: _), .error .closed⟩ => 0
  | ⟨.write (b :: rest), _⟩ => Chunk.recordLength (b :: rest).length

/-- The bytes of the record that a call left behind. -/
def accepted : WriterEvent → Nat
  | ⟨.write (b :: rest), .ok _⟩ => Chunk.recordLength (b :: rest).length
  | _ => 0

/-- A write that the storage below did not go through with. -/
def Breaks (event : WriterEvent) : Prop := ∃ data e, event = ⟨.write data, .error (.io e)⟩

end WriterEvent

/-- The bytes of the places that some calls took. -/
def takenBy (events : List WriterEvent) : Nat := (events.map WriterEvent.taken).sum

theorem takenBy_cons (event : WriterEvent) (rest : List WriterEvent) :
    takenBy (event :: rest) = event.taken + takenBy rest := rfl

namespace Account

variable {a b c : Account} {call : WriterCall} {answer : Except BlobError Nat} {event : WriterEvent}
  {events : List WriterEvent}

namespace Step

/-- Each step takes the place that its event tells. -/
theorem reserved_eq (step : a.Step call answer b) : b.reserved = a.reserved + WriterEvent.taken ⟨call, answer⟩ := by
  cases step with
  | empty | finished | refused | restless | torn => rfl
  | @stored data some =>
      cases data with
      | nil => cases some rfl
      | cons => rfl
  | @broken data some =>
      cases data with
      | nil => cases some rfl
      | cons => rfl
  | @closed data some =>
      cases data with
      | nil => cases some rfl
      | cons => rfl

/-- A chunk that is accepted is behind the header at the place it took. -/
theorem of_accepted {data : Bytes} {offset : Nat} (step : a.Step (.write data) (.ok offset) b) (some : data ≠ []) :
    offset = a.reserved + Chunk.headerLength ∧ b = a.grown data := by
  cases step with
  | empty => cases some rfl
  | stored => exact ⟨rfl, rfl⟩

/-- A write that breaks is remembered, and has its place all the same. -/
theorem of_broken {data : Bytes} {e : IoError} (step : a.Step (.write data) (.error (.io e)) b) :
    b = { a.grown data with failed := true } := by
  cases step with
  | broken => rfl

/-- A writer that has failed does not recover. -/
theorem failed_stays (step : a.Step call answer b) (failed : a.failed = true) : b.failed = true := by
  cases step with
  | broken | torn => rfl
  | empty | stored | closed | finished | refused | restless => exact failed

/-- A stream that was ended stays so. -/
theorem closed_stays (step : a.Step call answer b) (isClosed : a.phase = .closed) : b.phase = .closed := by
  cases step with
  | finished | refused | torn => exact congrArg WriterPhase.ended isClosed
  | empty | stored | broken | closed | restless => exact isClosed

theorem phase_of_write {data : Bytes} (step : a.Step (.write data) answer b) : b.phase = a.phase := by
  cases step with
  | empty | stored | broken | closed => rfl

/-- A stream is over when it was finished, whatever came of that. -/
theorem closed_of_finish (step : a.Step .finish answer b) (stream : a.phase ≠ .plain) : b.phase = .closed := by
  have ended : a.phase.ended = .closed := by
    cases phase : a.phase with
    | plain => cases stream phase
    | streaming | closed => rfl
  cases step with
  | finished | refused | torn => exact ended
  | restless plain => cases stream plain

theorem of_finished {n : Nat} (step : a.Step .finish (.ok n) b) : a.failed = false ∧ n = a.reserved := by
  cases step with
  | finished sound => exact ⟨sound, rfl⟩

/-- A finish that fails leaves the writer failed, unless it could only not bring records to rest. -/
theorem of_unfinished {e : BlobError} (step : a.Step .finish (.error e) b) :
    b.failed = true ∧ (a.phase = .plain → e = .failed) ∨ a.phase = .plain ∧ e ≠ .failed ∧ a.failed = false := by
  cases step with
  | refused failed => exact .inl ⟨failed, fun _ => rfl⟩
  | torn streaming =>
      refine .inl ⟨rfl, fun plain => ?_⟩
      cases streaming.symm.trans plain
  | restless plain sound => exact .inr ⟨plain, nofun, sound⟩

theorem plain_iff (step : a.Step call answer b) : a.phase = .plain ↔ b.phase = .plain := by
  have ended : a.phase = .plain ↔ a.phase.ended = .plain := by cases a.phase <;> decide
  cases step with
  | finished | refused | torn => exact ended
  | empty | stored | broken | closed | restless => exact Iff.rfl

/-- A writer that has failed is not finished. -/
theorem refuses (step : a.Step .finish answer b) (failed : a.failed = true) : ∃ e, answer = .error e := by
  cases step with
  | finished sound => cases sound.symm.trans failed
  | refused | restless | torn => exact ⟨_, rfl⟩

theorem failed_of_breaks (step : a.Step event.call event.answer b) (breaks : event.Breaks) : b.failed = true := by
  obtain ⟨data, e, rfl⟩ := breaks
  rw [step.of_broken]

/-- Only a write that breaks makes a writer of records as they come fail. -/
theorem failed_iff (step : a.Step event.call event.answer b) (plain : a.phase = .plain) :
    b.failed = true ↔ a.failed = true ∨ event.Breaks := by
  constructor
  · intro failed
    rcases event with ⟨call, answer⟩
    cases step with
    | broken _ _ e => exact .inr ⟨_, e, rfl⟩
    | torn streaming => cases streaming.symm.trans plain
    | empty | stored | closed | finished | refused | restless => exact .inl failed
  · rintro (failed | breaks)
    · exact step.failed_stays failed
    · exact step.failed_of_breaks breaks

/-- A write that does not break leaves its record where it took its place. -/
theorem accepted_eq (step : a.Step event.call event.answer b) (sound : ¬ event.Breaks) : event.accepted = event.taken := by
  rcases event with ⟨call, answer⟩
  cases step with
  | empty | finished | refused | restless | torn => rfl
  | @stored data => cases data <;> rfl
  | @closed data => cases data <;> rfl
  | @broken data _ _ e => cases sound ⟨data, e, rfl⟩

end Step

namespace Run

/-- What every step keeps holds from where it held, and each later event is a step of an account where it holds. -/
theorem after {P : Account → Prop} (keeps : ∀ {a call answer b}, Step a call answer b → P a → P b) (run : Run a events c)
    (holds : P a) : P c ∧ ∀ event ∈ events, ∃ b b', P b ∧ b.Step event.call event.answer b' := by
  induction run with
  | nil => exact ⟨holds, nofun⟩
  | @cons a b c event events step rest ih =>
      obtain ⟨last, others⟩ := ih (keeps step holds)
      exact ⟨last, List.forall_mem_cons.2 ⟨⟨a, b, holds, step⟩, others⟩⟩

theorem reserved_eq (run : Run a events c) : c.reserved = a.reserved + takenBy events := by
  induction run with
  | nil => rfl
  | cons step rest ih => rw [ih, step.reserved_eq, takenBy_cons, Nat.add_assoc]

theorem plain_iff (run : Run a events c) : a.phase = .plain ↔ c.phase = .plain := by
  induction run with
  | nil => exact Iff.rfl
  | cons step rest ih => exact step.plain_iff.trans ih

/-- Once a writer has failed it stays failed, and is never finished. -/
theorem after_failed (run : Run a events c) (failed : a.failed = true) :
    c.failed = true ∧ ∀ answer, ⟨.finish, answer⟩ ∈ events → ∃ e, answer = .error e := by
  obtain ⟨last, others⟩ := run.after (P := fun a => a.failed = true) Step.failed_stays failed
  refine ⟨last, fun answer mem => ?_⟩
  obtain ⟨b, b', failed, step⟩ := others _ mem
  exact step.refuses failed

theorem failed_iff (run : Run a events c) (plain : a.phase = .plain) :
    c.failed = true ↔ a.failed = true ∨ ∃ event ∈ events, event.Breaks := by
  induction run with
  | nil a => simp
  | cons step rest ih =>
      rw [ih (step.plain_iff.1 plain), step.failed_iff plain, or_assoc]
      simp only [List.mem_cons, exists_eq_or_imp]

/-- No place is given away twice: what is accepted lies behind all places taken before. -/
theorem offset_ge (run : Run a events c) {data : Bytes} {offset : Nat} (some : data ≠ [])
    (mem : ⟨.write data, .ok offset⟩ ∈ events) : a.reserved + Chunk.headerLength ≤ offset := by
  obtain ⟨b, b', behind, step⟩ := (run.after (P := fun b => a.reserved ≤ b.reserved)
    (fun step le => step.reserved_eq ▸ Nat.le_add_right_of_le le) (Nat.le_refl _)).2 _ mem
  rw [(step.of_accepted some).1]
  exact Nat.add_le_add_right behind _

/-- What a write that broke means for the calls after it: the writer stays failed and is never finished, and what is
    accepted lies behind the place that was taken. -/
theorem after_broken {data : Bytes} {e : IoError} (step : a.Step (.write data) (.error (.io e)) b)
    (run : Run b events c) :
    b.failed = true ∧ c.failed = true ∧ (∀ answer, ⟨.finish, answer⟩ ∈ events → ∃ e, answer = .error e) ∧
      ∀ data' offset, data' ≠ [] → ⟨.write data', .ok offset⟩ ∈ events →
        a.reserved + Chunk.recordLength data.length + Chunk.headerLength ≤ offset := by
  have grown := step.of_broken
  have failed : b.failed = true := by rw [grown]
  obtain ⟨last, refused⟩ := run.after_failed failed
  refine ⟨failed, last, refused, fun data' offset some mem => ?_⟩
  have behind := run.offset_ge some mem
  rwa [grown] at behind

/-- Where a writer has not failed, no write broke, and all that took a place left its record there. -/
theorem accepted_eq (run : Run a events c) (sound : c.failed = false) :
    (∀ event ∈ events, ¬ event.Breaks) ∧ (events.map WriterEvent.accepted).sum = takenBy events := by
  induction run with
  | nil => exact ⟨nofun, rfl⟩
  | cons step rest ih =>
      obtain ⟨others, sums⟩ := ih sound
      have whole : ¬ WriterEvent.Breaks _ := fun breaks => by
        cases sound.symm.trans (rest.after_failed (step.failed_of_breaks breaks)).1
      refine ⟨List.forall_mem_cons.2 ⟨whole, others⟩, ?_⟩
      rw [List.map_cons, List.sum_cons, sums, step.accepted_eq whole, takenBy_cons]

end Run

end Account

/-! ### What calls leave alone -/

section Keeps

variable {P : Disk → Prop} {d : Disk}

/-- A record changes its file from its base on. -/
theorem PlainWriter.writeRecord_keeps {file : OpenFile} {base : Nat} (pass : ∀ d, P d → P d.passed)
    (change : ∀ number, file = .file number → ∀ offset, base ≤ offset → ∀ d written, P d →
      P (d.setContents number (overwrite (d.contents number) offset written)))
    (data : Bytes) : DiskAction.Keeps P (writeRecord file base data) := by
  have part : ∀ offset, base ≤ offset → ∀ data, DiskAction.Keeps P (writeAt file offset data) :=
    fun offset le => writeAt_keeps pass fun number same => change number same offset le
  have contents := part (base + Chunk.headerLength) (Nat.le_add_right _ _)
  have padding := part (base + Chunk.headerLength + data.length) (Nat.le_add_right_of_le (Nat.le_add_right _ _))
  exact (part base (Nat.le_refl _) _).bind fun _ => (contents _).bind fun _ => padding _

theorem PlainWriter.write_keeps {w : PlainWriter} (pass : ∀ d, P d → P d.passed)
    (change : ∀ number, w.file = .file number → ∀ offset, w.reserved ≤ offset → ∀ d written, P d →
      P (d.setContents number (overwrite (d.contents number) offset written)))
    (data : Bytes) (holds : P d) : P (w.write data d).2 := by
  have kept := writeRecord_keeps pass change data d holds
  unfold PlainWriter.write
  split
  · exact holds
  · rcases done : writeRecord w.file w.reserved data d with ⟨result, d'⟩
    rw [done] at kept
    cases result with
    | ok => exact kept
    | error e => exact kept

theorem StreamWriter.writeParts_keeps (pass : ∀ d, P d → P d.passed) (parts : List Bytes) (stream : Bytes)
    (holds : P d) : P (writeParts parts stream d).2 := by
  induction parts generalizing stream d with
  | nil => exact holds
  | cons part parts ih =>
      unfold writeParts
      split
      · exact ih stream holds
      · rw [nextFault_apply]
        cases d.faults.head?.join with
        | some fault => exact pass d holds
        | none => exact ih _ (pass d holds)

theorem StreamWriter.write_keeps {w : StreamWriter} (pass : ∀ d, P d → P d.passed) (data : Bytes) (holds : P d) :
    P (w.write data d).2 := by
  unfold StreamWriter.write
  split
  · exact holds
  · exact holds
  · rename_i stream _ _
    have kept := writeParts_keeps pass
      [littleEndian Chunk.headerLength data.length, data, Chunk.padding data.length] stream holds
    dsimp only
    rcases done : writeParts _ stream d with ⟨⟨result, stream'⟩, d'⟩
    rw [done] at kept
    cases result with
    | ok => exact kept
    | error e => exact kept

theorem StreamWriter.finishStream_keeps [Codec] {file : OpenFile} (pass : ∀ d, P d → P d.passed)
    (change : ∀ number, file = .file number → ∀ d bytes, P d → P (d.setContents number bytes)) (level : Int)
    (stream : Bytes) : DiskAction.Keeps P (finishStream file level stream) := by
  have compresses : DiskAction.Keeps P (liftM (Codec.compress level stream) : DiskAction Bytes) := fun _ holds => holds
  exact (begin_keeps pass).bind fun _ => compresses.bind fun _ =>
    (writeAt_keeps pass (fun number same d _ => change number same d _) _).bind fun _ =>
      (sync_keeps pass file).bind fun _ => begin_keeps pass

theorem StreamWriter.finish_keeps [Codec] {w : StreamWriter} (pass : ∀ d, P d → P d.passed)
    (change : ∀ number, w.file = .file number → ∀ d bytes, P d → P (d.setContents number bytes)) (holds : P d) :
    P (w.finish d).2 := by
  rcases w with ⟨file, path, level, stream, reserved, failed⟩
  cases stream with
  | none => exact holds
  | some stream =>
      have kept := finishStream_keeps pass change level stream d holds
      unfold StreamWriter.finish
      dsimp only
      rcases done : finishStream file level stream d with ⟨result, d'⟩
      rw [done] at kept
      cases result with
      | ok => exact kept
      | error e => exact kept

theorem PlainWriter.finish_keeps {w : PlainWriter} (pass : ∀ d, P d → P d.passed) (holds : P d) : P (w.finish d).2 := by
  have rests : DiskAction.Keeps P (BlobAction.ofDisk (Disk.sync w.file)) := sync_keeps pass w.file
  unfold PlainWriter.finish
  cases w.failed with
  | true => exact holds
  | false => exact rests.bind (fun _ => .pure _) d holds

theorem BlobWriter.finish_keeps [Codec] {writer : BlobWriter} (pass : ∀ d, P d → P d.passed)
    (change : ∀ number, writer.file = .file number → ∀ d bytes, P d → P (d.setContents number bytes)) (holds : P d) :
    P (writer.finish d).2 := by
  cases writer with
  | plain w => exact PlainWriter.finish_keeps pass holds
  | stream w => exact StreamWriter.finish_keeps pass change holds

/-- A new writer touches the file that it writes only. -/
theorem BlobWriter.create_within {names : List Place} {before : Disk} {path : String} {config : FileConfig}
    (mem : placeOf (config.writtenPath path) ∈ names) : DiskAction.Keeps (Within names before) (create path config) := by
  have opening : ∀ (α : Type) (make : OpenFile → α) target, placeOf target ∈ names → DiskAction.Keeps (Within names before)
      (do createParent target; let file ← Disk.create target; return make file) := fun α make target mem =>
    (createParent_within target).bind fun _ => (Disk.create_within mem).bind fun _ => .pure _
  unfold FileConfig.writtenPath at mem
  unfold create
  cases form : config.compression with
  | none =>
      rw [form] at mem
      dsimp only
      rw [map_eq_pure_bind]
      exact (opening _ _ path mem).bind fun _ => .pure _
  | zstd level =>
      rw [form] at mem
      dsimp only
      rw [map_eq_pure_bind]
      exact (opening _ _ _ mem).bind fun _ => .pure _

theorem BlobWriter.created_within {path : String} {config : FileConfig} {writer : BlobWriter} {d₁ : Disk} (tidy : d.Tidy)
    (created : create path config d = (.ok writer, d₁)) : Within [placeOf (config.writtenPath path)] d d₁ := by
  have within : Within [placeOf (config.writtenPath path)] d (create path config d).2 :=
    create_within (List.mem_singleton_self _) d (.refl tidy)
  rwa [created] at within

/-- What neither the next failure nor other contents of its own file can take away, a writer keeps. -/
theorem OnDisk.serve_keeps [Codec] {s : OnDisk} (pass : ∀ d, P d → P d.passed)
    (change : ∀ number, s.writer.file = .file number → ∀ d bytes, P d → P (d.setContents number bytes))
    (call : WriterCall) (holds : P s.disk) : P (serve call s).2.disk := by
  rcases s with ⟨writer, d⟩
  cases call with
  | finish => exact BlobWriter.finish_keeps pass change holds
  | write data =>
      cases writer with
      | plain w =>
          exact PlainWriter.write_keeps pass (fun number same _ _ d _ => change number same d _) data holds
      | stream w => exact StreamWriter.write_keeps pass data holds

end Keeps

theorem PlainWriter.write_file (data : Bytes) (w : PlainWriter) (d : Disk) : (w.write data d).1.2.file = w.file := by
  unfold PlainWriter.write
  split
  · rfl
  · split
    · rfl
    · rfl

theorem StreamWriter.write_file (data : Bytes) (w : StreamWriter) (d : Disk) : (w.write data d).1.2.file = w.file := by
  unfold StreamWriter.write
  split
  · rfl
  · rfl
  · dsimp only
    split
    · rfl
    · rfl

theorem StreamWriter.finish_file [Codec] (w : StreamWriter) (d : Disk) : (w.finish d).1.2.file = w.file := by
  unfold StreamWriter.finish
  dsimp only
  split
  · rfl
  · split
    · rfl
    · rfl

namespace OnDisk

variable [Codec]

/-- No call moves a writer to another file. -/
theorem serve_file (call : WriterCall) (s : OnDisk) : (serve call s).2.writer.file = s.writer.file := by
  rcases s with ⟨writer, d⟩
  cases writer with
  | plain w =>
      cases call with
      | write data => exact w.write_file data d
      | finish => rfl
  | stream w =>
      cases call with
      | write data => exact w.write_file data d
      | finish => exact w.finish_file d

/-- What every call keeps, calls one after another keep. -/
theorem serveAll_keeps {Q : OnDisk → Prop} (each : ∀ call s, Q s → Q (serve call s).2) (calls : List WriterCall)
    {s : OnDisk} (holds : Q s) : Q (serveAll calls s).2 := by
  induction calls generalizing s with
  | nil => exact holds
  | cons call rest ih => exact ih (each call s holds)

/-- A writer of a file that is none of those at other places leaves these alone. -/
theorem serve_within {names : List Place} {before : Disk} {s : OnDisk} (owns : before.Owns names s.writer.file)
    (within : Within names before s.disk) (call : WriterCall) : Within names before (serve call s).2.disk := by
  apply serve_keeps (P := Within names before) (fun _ within => within.passed) ?_ call within
  intro number isFile d bytes within
  exact within.setContents (isFile ▸ owns) bytes

theorem serve_tidy (call : WriterCall) (s : OnDisk) (tidy : s.disk.Tidy) : (serve call s).2.disk.Tidy :=
  serve_keeps (P := Tidy) (fun _ => Tidy.passed) (fun number _ _ bytes tidy => tidy.setContents number bytes) call tidy

/-- Of the files a call changes the contents of its own one at most. -/
theorem serve_disk (call : WriterCall) (s : OnDisk) :
    (serve call s).2.disk.tree = s.disk.tree ∧ (serve call s).2.disk.files.length = s.disk.files.length ∧
      ∀ number, s.writer.file ≠ .file number → (serve call s).2.disk.contents number = s.disk.contents number := by
  apply serve_keeps (P := fun d => d.tree = s.disk.tree ∧ d.files.length = s.disk.files.length ∧
    ∀ number, s.writer.file ≠ .file number → d.contents number = s.disk.contents number)
  · exact fun _ same => same
  · intro own isOwn d bytes same
    refine ⟨same.1, List.length_set.trans same.2.1, fun number other => ?_⟩
    have apart : own ≠ number := by
      rintro rfl
      exact other isOwn
    rw [← same.2.2 number other]
    unfold Disk.contents Disk.setContents
    rw [List.getElem?_set_ne apart]
  · exact ⟨rfl, rfl, fun _ _ => rfl⟩

end OnDisk

end JsonSidecar
