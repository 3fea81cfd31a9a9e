/-
Module: JsonSidecar.Proofs.File.SaveValue
Purpose: What saving a value comes to.  Whatever fails in it, the files at no other paths than those of the value are
  touched.  Where it succeeds, the text that an encode into a collection gives is in one form of the text file, the
  bytes of the collection are in one form of the other file, and the other form of each is gone.
Main exports: saveValue_within, Disk.HoldsValue, of_saveValue_ok, saveValue_holds
-/
import JsonSidecar.Proofs.Encode.Calls
import JsonSidecar.Proofs.File.Save

namespace JsonSidecar

open DiskAction Disk

variable {S : Type} {schema : Schema S} {path : String} {t : Ty S} {v : Val} {config : FileConfig} {d d' : Disk}

/-! ### Steps of a save -/

namespace ValueFile

open ValueFileAction

variable {file : ValueFile}

/-- A value file that was begun has settings that pass the check, and its writer was opened. -/
theorem of_create_ok (created : create path config d = (.ok file, d')) :
    config.validate = .ok () ∧ ∃ writer, file = ⟨path, config, writer⟩ ∧
      BlobWriter.create (config.blobsPath path) config d = (.ok writer, d') := by
  unfold create at created
  cases valid : config.validate with
  | error e =>
      rw [valid] at created
      cases created
  | ok =>
      rw [valid] at created
      obtain ⟨writer, mid, opened, created⟩ := of_bind_ok created
      cases created
      exact ⟨rfl, writer, rfl, of_ofBlobDisk_ok opened⟩

/-- A value is encoded into a file as into the store of its writer. -/
theorem encode_eq {result : Except BlobError Bytes} {s : OnDisk}
    (encoded : JsonSidecar.encode schema (some (OnDisk.mk file.writer d)) 0 t v = (result, some s)) :
    file.encode schema t v d = ((result, { file with writer := s.writer }), s.disk) := by
  rw [encode, encoded]

variable {names : List Place} {before : Disk}

theorem create_within (mem : (config.savePaths path).map placeOf ⊆ names) :
    DiskAction.Keeps (Within names before) (create path config) := by
  have opening : DiskAction.Keeps (Within names before) (ofBlobDisk (BlobWriter.create (config.blobsPath path) config)) :=
    ofBlobDisk_keeps (BlobWriter.create_within (mem (List.mem_map_of_mem (config.writtenPath_mem path))))
  unfold create
  cases config.validate with
  | error e => exact .throw _
  | ok => exact opening.bind fun _ => .pure _

/-- A value file that was begun touches its own files only. -/
structure Ours (names : List Place) (before : Disk) (file : ValueFile) : Prop where
  owns : before.Owns names file.writer.file
  inside : file.textPaths.map placeOf ⊆ names

theorem create_ours (mem : (config.savePaths path).map placeOf ⊆ names) (within : Within names before d)
    (created : create path config d = (.ok file, d')) : file.Ours names before := by
  obtain ⟨_, writer, rfl, opened⟩ := of_create_ok created
  obtain ⟨⟨mid, within, opened⟩, _⟩ := BlobWriter.of_create createParent_within within opened
  refine ⟨Disk.create_owns (mem (List.mem_map_of_mem (config.writtenPath_mem path))) within opened, ?_⟩
  exact List.Subset.trans (List.map_subset placeOf (textPaths_subset ⟨path, config, writer⟩)) mem

end ValueFile

/-- Where a stale form was taken away, or was not there, nothing is left, and nothing new is anywhere. -/
theorem Disk.removeStale_gone {stale : String} (quiet : d.Quiet) (removed : removeStale stale d = (.ok (), d')) :
    d'.entry? stale = none ∧ ∀ other, d.entry? other = none → d'.entry? other = none := by
  obtain ⟨result, last, tried, removed⟩ := of_bind_ok removed
  have kept : ∀ e, d.entry? stale = none →
      (if e.kind = .notFound then pure () else throw e : DiskAction Unit) d.passed = (.ok (), d') →
        d'.entry? stale = none ∧ ∀ other, d.entry? other = none → d'.entry? other = none := by
    intro e absent removed
    split at removed
    · cases removed
      exact ⟨absent, fun _ free => free⟩
    · cases removed
  cases of_remove (of_attempt tried) with
  | faulty _ next => cases quiet.next.symm.trans next
  | blocked kind blocked => exact kept _ (entry?_of_blocked blocked) removed
  | absent absent => exact kept _ (entry?_of_absent absent) removed
  | directory =>
      cases removed
  | gone regular =>
      cases removed
      exact ⟨entry?_of_absent (at?_unlinkAt_self (ne_root regular)), fun other free => entry?_unlinkAt regular free⟩

theorem Disk.of_sync_ok {file : OpenFile} (synced : Disk.sync file d = (.ok (), d')) : ∃ number, file = .file number := by
  obtain ⟨_, _, _, synced⟩ := of_bind_ok synced
  cases file with
  | file number => exact ⟨number, rfl⟩
  | fullDevice => cases synced

variable [Codec]

/-! ### What a save leaves alone -/

namespace ValueFile

variable {file : ValueFile} {names : List Place} {before : Disk}

/-- Encoding into a value file touches the file of its writer only. -/
theorem encode_within (schema : Schema S) (ours : file.Ours names before) (within : Within names before d) (t : Ty S)
    (v : Val) :
    Within names before (file.encode schema t v d).2 ∧ (file.encode schema t v d).1.2.Ours names before := by
  obtain ⟨s, encoded, within, same⟩ := encode_keeps schema
    (Q := fun s : OnDisk => Within names before s.disk ∧ s.writer.file = file.writer.file)
    (fun data s kept => ⟨OnDisk.serve_within (kept.2 ▸ ours.owns) kept.1 (.write data),
      (s.serve_file (.write data)).trans kept.2⟩) ⟨file.writer, d⟩ ⟨within, rfl⟩ 0 t v
  rw [encode_eq encoded]
  exact ⟨within, same ▸ ours.owns, ours.inside⟩

theorem save_within (ours : file.Ours names before) (text : Bytes) :
    DiskAction.Keeps (Within names before) (file.save text) := by
  intro d within
  have finishing := OnDisk.serve_within (s := ⟨file.writer, d⟩) ours.owns within .finish
  rcases finished : file.writer.finish d with ⟨⟨answer, last⟩, d₁⟩
  rw [OnDisk.serve, finished] at finishing
  cases answer with
  | error e =>
      rw [save_of_finish_error finished]
      exact finishing
  | ok n =>
      rw [save_of_finish_ok finished]
      exact finishing.trans ((file.saveText_within text d₁ d₁ (.refl finishing.tidy)).mono ours.inside)

theorem drop_within (ours : file.Ours names before) (within : Within names before d) :
    Within names before (file.writer.drop d) := by
  cases form : file.writer with
  | plain w => exact within
  | stream w =>
      have finishing := OnDisk.serve_within (s := ⟨file.writer, d⟩) ours.owns within .finish
      rw [form] at finishing
      exact finishing

end ValueFile

/-- Whatever comes of a save, it touches the files of the value only. -/
theorem saveValue_within (schema : Schema S) {names : List Place} {before : Disk}
    (mem : (config.savePaths path).map placeOf ⊆ names)
    (t : Ty S) (v : Val) :
    DiskAction.Keeps (Within names before) (saveValue schema path t v config) := by
  refine (ValueFile.create_within mem).bind_of (ValueFile.create_ours mem) fun file ours => ?_
  have encoding := fun d (within : Within names before d) => ValueFile.encode_within schema ours within t v
  refine DiskAction.Keeps.bind_of (Q := fun answer => answer.2.Ours names before) ?_ ?_ ?_
  · exact fun d within => (encoding d within).1
  · intro d answer d' within encoded
    cases encoded
    exact (encoding d within).2
  · rintro ⟨result, file'⟩ ours'
    cases result with
    | ok text => exact ValueFile.save_within ours' text
    | error e => exact fun d within => ValueFile.drop_within ours' within

/-! ### What a save leaves behind -/

/-- A writer that was finished while it was open has a file, and no device. -/
theorem OnDisk.of_finish_ok {s : OnDisk} {n : Nat} (opened : s.writer.account.phase ≠ .closed)
    (finished : (OnDisk.serve .finish s).1 = .ok n) : ∃ number, s.writer.file = .file number := by
  rcases s with ⟨writer, d⟩
  cases writer with
  | plain w =>
      have done : w.finish d = (.ok n, (w.finish d).2) := Prod.ext finished rfl
      unfold PlainWriter.finish at done
      split at done
      · cases done
      · obtain ⟨_, _, synced, _⟩ := of_bind_ok done
        exact of_sync_ok (BlobAction.of_ofDisk_ok synced)
  | stream w =>
      rcases w with ⟨file, path, level, stream, reserved, failed⟩
      cases stream with
      | none => cases opened rfl
      | some stream =>
          have done : (StreamWriter.finish ⟨file, path, level, some stream, reserved, failed⟩ d).1.1 = .ok n := finished
          unfold StreamWriter.finish at done
          dsimp only at done
          rcases ended : StreamWriter.finishStream file level stream d with ⟨result, d'⟩
          rw [ended] at done
          cases result with
          | error e => cases done
          | ok =>
              obtain ⟨_, _, _, ended⟩ := of_bind_ok ended
              obtain ⟨_, _, _, ended⟩ := of_bind_ok ended
              obtain ⟨_, _, _, ended⟩ := of_bind_ok ended
              obtain ⟨_, _, synced, _⟩ := of_bind_ok ended
              exact of_sync_ok synced

/-- A value that lies in two files, in the forms that the settings ask for and in no others: a text, and the records of
    its stored arrays. -/
structure Disk.HoldsValue (d : Disk) (config : FileConfig) (path : String) (text records : Bytes) : Prop where
  text : ∃ number contents, config.textContents text = .ok contents ∧ d.Holds (config.target path) number contents
  records : ∃ number contents, config.compression.pack records = .ok contents ∧
    d.Holds (config.writtenPath (config.blobsPath path)) number contents
  staleText : d.entry? (config.staleText path) = none
  staleBlobs : d.entry? (config.staleBlobs path) = none

theorem Disk.HoldsValue.gone {text records : Bytes} (holds : d.HoldsValue config path text records) {form : String}
    (mem : form ∈ config.forms path) (notText : form ≠ config.target path)
    (notBlobs : form ≠ config.writtenPath (config.blobsPath path)) : d.entry? form = none := by
  replace mem := (config.forms_perm path).mem_iff.2 mem
  simp only [List.mem_cons, List.not_mem_nil, or_false] at mem
  rcases mem with same | rfl | same | rfl
  · cases notText same
  · exact holds.staleText
  · cases notBlobs same
  · exact holds.staleBlobs

/-- Where the text was written, one form of it is there, and the forms that were not written are gone. -/
theorem ValueFile.saveText_holds {file : ValueFile} {text : Bytes} {target : String}
    (nodup : ((file.config.forms file.path).map placeOf).Nodup) (tidy : d.Tidy) (quiet : d.Quiet)
    (done : file.saveText text d = (.ok target, d')) :
    (∃ number contents, file.config.textContents text = .ok contents ∧
        d'.Holds (file.config.target file.path) number contents) ∧
      d'.entry? (file.config.staleText file.path) = none ∧
      d'.entry? (file.config.staleBlobs file.path) = none := by
  cases packed : file.config.textContents text with
  | error e =>
      rw [saveText_of_error packed] at done
      cases done
  | ok contents =>
      rw [saveText_of_ok packed] at done
      obtain ⟨_, d₁, written, done⟩ := of_bind_ok done
      obtain ⟨_, d₂, removed, done⟩ := of_bind_ok done
      obtain ⟨_, d₃, removed', done⟩ := of_bind_ok done
      cases done
      replace written := ValueFileAction.of_ofDisk_ok written
      replace removed := ValueFileAction.of_ofDisk_ok removed
      replace removed' := ValueFileAction.of_ofDisk_ok removed'
      obtain ⟨apart, apart'⟩ := FileConfig.target_apart nodup
      obtain ⟨number, holds⟩ := writeAtomic_holds (tidy.sound quiet) written
      have replacing := writeAtomic_within (List.mem_map_of_mem (file.text_mem List.mem_cons_self))
        (List.mem_map_of_mem file.beside_mem) contents d (.refl tidy)
      rw [written] at replacing
      have removing := removeStale_within (List.mem_singleton_self (placeOf (file.config.staleText file.path))) d₁
        (Within.refl replacing.tidy)
      rw [removed] at removing
      have removing' := removeStale_within (List.mem_singleton_self (placeOf file.staleBlobs)) d₂
        (Within.refl removing.tidy)
      rw [removed'] at removing'
      obtain ⟨gone, _⟩ := removeStale_gone (replacing.quiet quiet) removed
      obtain ⟨gone', others⟩ := removeStale_gone (removing.quiet (replacing.quiet quiet)) removed'
      refine ⟨⟨number, contents, rfl, ?_⟩, others _ gone, gone'⟩
      apply removing'.holds fun mem => apart' (List.mem_singleton.1 mem)
      exact removing.holds (fun mem => apart (List.mem_singleton.1 mem)) holds

theorem ValueFile.of_save_ok {file : ValueFile} {text : Bytes} {target : String}
    (saved : file.save text d = (.ok target, d')) :
    ∃ n last d₁, file.writer.finish d = ((.ok n, last), d₁) ∧ file.saveText text d₁ = (.ok target, d') := by
  rcases finished : file.writer.finish d with ⟨⟨answer, last⟩, d₁⟩
  cases answer with
  | error e =>
      rw [save_of_finish_error finished] at saved
      cases saved
  | ok n =>
      rw [save_of_finish_ok finished] at saved
      exact ⟨n, last, d₁, rfl, saved⟩

/-- What a save went through where it succeeded. -/
theorem of_saveValue_ok {target : String} (saved : saveValue schema path t v config d = (.ok target, d')) :
    config.validate = .ok () ∧ ∃ writer d₁ text s n last d₂,
      BlobWriter.create (config.blobsPath path) config d = (.ok writer, d₁) ∧
        encode schema (some (OnDisk.mk writer d₁)) 0 t v = (.ok text, some s) ∧
        s.writer.finish s.disk = ((.ok n, last), d₂) ∧
        (ValueFile.mk path config s.writer).saveText text d₂ = (.ok target, d') := by
  obtain ⟨file, d₁, created, saved⟩ := of_bind_ok saved
  obtain ⟨valid, writer, rfl, opened⟩ := ValueFile.of_create_ok created
  obtain ⟨s, encoded, _⟩ := encode_keeps schema (Q := fun _ => True) (fun _ _ holds => holds)
    (OnDisk.mk writer d₁) trivial 0 t v
  obtain ⟨⟨result, file⟩, d₂, answered, saved⟩ := of_bind_ok saved
  dsimp only at answered
  rw [ValueFile.encode_eq encoded] at answered
  cases answered
  cases result : (encode schema (some (OnDisk.mk writer d₁)) 0 t v).1 with
  | error e =>
      rw [result] at saved
      cases saved
  | ok text =>
      rw [result] at saved encoded
      obtain ⟨n, last, d₂, finished, done⟩ := ValueFile.of_save_ok saved
      exact ⟨valid, writer, d₁, text, s, n, last, d₂, opened, encoded, finished, done⟩

/-- A writer that was finished after an encode has a file, and leaves the disk tidy. -/
theorem OnDisk.encode_finish_ok {writer last : BlobWriter} {d₁ d₂ : Disk} {result : Except BlobError Bytes} {s : OnDisk}
    {n : Nat} (tidy : d.Tidy) (opened : BlobWriter.create path config d = (.ok writer, d₁))
    (encoded : encode schema (some (OnDisk.mk writer d₁)) 0 t v = (result, some s))
    (finished : s.writer.finish s.disk = ((.ok n, last), d₂)) : (∃ number, writer.file = .file number) ∧ d₂.Tidy := by
  obtain ⟨_, account⟩ := BlobWriter.of_create Numbered.createParent_keeps tidy.numbered opened
  let Open (s : OnDisk) : Prop :=
    s.writer.file = writer.file ∧ s.writer.account.phase ≠ .closed ∧ s.disk.Tidy
  have each : ∀ data s, Open s → Open (BlobStore.write data s).2 := by
    rintro data s ⟨file, opened, tidy⟩
    refine ⟨(s.serve_file (.write data)).trans file, ?_, serve_tidy (.write data) s tidy⟩
    exact (s.serve_step (.write data)).phase_of_write ▸ opened
  have start : Open ⟨writer, d₁⟩ := by
    refine ⟨rfl, ?_, (BlobWriter.created_within tidy opened).tidy⟩
    rw [account]
    cases config.compression.isCompressed <;> simp
  obtain ⟨s', encoded', file, stillOpen, tidied⟩ := encode_keeps schema each ⟨writer, d₁⟩ start 0 t v
  rw [encoded] at encoded'
  cases encoded'
  have served : serve .finish s = (.ok n, ⟨last, d₂⟩) := by rw [serve, finished]
  constructor
  · rw [← file]
    exact of_finish_ok stillOpen (congrArg Prod.fst served)
  · have tidy₂ := serve_tidy .finish s tidied
    rwa [served] at tidy₂

/-- A value that was saved lies in its files: the text that an encode into a collection gives, and the bytes of the
    collection. -/
theorem saveValue_holds {target : String} (tidy : d.Tidy) (quiet : d.Quiet)
    (nodup : ((config.savePaths path).map placeOf).Nodup)
    (saved : saveValue schema path t v config d = (.ok target, d')) :
    ∃ text c, encode schema (some Collection.empty) 0 t v = (.ok text, some c) ∧
      d'.HoldsValue config path text c.bytes := by
  obtain ⟨_, writer, d₁, text, s, n, last, d₂, opened, encoded, finished, done⟩ := of_saveValue_ok saved
  obtain ⟨⟨number, isFile⟩, tidy₂⟩ := OnDisk.encode_finish_ok tidy opened encoded finished
  obtain ⟨s', c, encoded', collected, log, keeps, keeps'⟩ := encode_related
    (fun s c => ∃ log, BlobWriter.Keeps config (config.blobsPath path) number d₁.tree s log ∧
      Collection.Keeps c log) schema OnDisk.write_related
    ⟨[], BlobWriter.create_keeps (tidy.sound quiet) opened isFile, Collection.empty_keeps⟩ 0 t v
  rw [encoded] at encoded'
  have same : (encode schema (some Collection.empty) 0 t v).1 = .ok text := (congrArg Prod.fst encoded').symm
  cases congrArg Prod.snd encoded'
  obtain ⟨contents, packed, holds⟩ := keeps.of_finish_ok finished
  have nodup' : ((config.forms path).map placeOf).Nodup :=
    nodup.sublist ((List.sublist_append_left _ _).map placeOf)
  obtain ⟨written, stale, staleBlobs⟩ := ValueFile.saveText_holds nodup' tidy₂ holds.quiet done
  have within := ValueFile.saveText_within ⟨path, config, s.writer⟩ text d₂ d₂ (.refl tidy₂)
  rw [done] at within
  rw [← keeps'.bytes] at packed
  have blobs := within.holds (ValueFile.writtenPath_notMem ⟨path, config, s.writer⟩ nodup) holds
  exact ⟨text, c, Prod.ext same collected, written, ⟨number, contents, packed, blobs⟩, stale, staleBlobs⟩

end JsonSidecar
