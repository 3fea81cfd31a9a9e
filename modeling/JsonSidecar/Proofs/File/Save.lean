/-
Module: JsonSidecar.Proofs.File.Save
Purpose: Which files the saving of a value touches.  A value has four files at most, two forms of its text and two of
  its stored arrays, and settings that were checked keep these apart if their suffixes only go on with names.  The file
  beside the text, which holds new contents until they are complete, has a suffix of its own, which the check does not
  know of.
Main exports: FileConfig.forms, FileConfig.savePaths, FileConfig.PlainSuffixes, FileConfig.TempApart,
  FileConfig.forms_perm, ValueFile.saveText, ValueFile.saveText_within, FileConfig.savePaths_apart
-/
import JsonSidecar.File.ValueFile
import JsonSidecar.Proofs.File.Backings
import JsonSidecar.Proofs.File.WriterCalls
import Mathlib.Data.List.Nodup

namespace JsonSidecar

open DiskAction Disk

/-! ### Names -/

namespace FileConfig

variable {config : FileConfig}

/-- What is appended to the path of a value to name the forms of its text and of its stored arrays. -/
def suffixes (config : FileConfig) : List String :=
  ["", config.compressedSuffix, config.blobsSuffix, config.blobsSuffix ++ config.compressedSuffix]

/-- The paths of the forms of a value: of its text, and of its stored arrays. -/
def forms (config : FileConfig) (path : String) : List String :=
  [path, config.compressedPath path, config.blobsPath path, config.compressedPath (config.blobsPath path)]

/-- Where the text of a value is written. -/
def target (config : FileConfig) (path : String) : String :=
  if config.compressText then config.compressedPath path else path

/-- The form of the text of a value that is not written. -/
def staleText (config : FileConfig) (path : String) : String :=
  if config.compressText then path else config.compressedPath path

/-- The form of the stored arrays of a value that is not written. -/
def staleBlobs (config : FileConfig) (path : String) : String :=
  if config.compression.isCompressed then config.blobsPath path else config.compressedPath (config.blobsPath path)

/-- What is written to the file of a text. -/
def textContents [Codec] (config : FileConfig) (text : Bytes) : Except IoError Bytes :=
  if config.compressText then Codec.compress config.textLevel text else .ok text

/-- The paths that may be touched when a value is saved: those of its forms, and the one beside its text. -/
def savePaths (config : FileConfig) (path : String) : List String :=
  config.forms path ++ [tempPath (config.target path)]

/-- What is appended to the path of a value to name the file beside its text. -/
def tempSuffix (config : FileConfig) : String := (if config.compressText then config.compressedSuffix else "") ++ ".tmp"

/-- The suffixes only go on with names: they have no slashes, and are not the parts that lead elsewhere. -/
structure PlainSuffixes (config : FileConfig) : Prop where
  compressed : PlainSuffix config.compressedSuffix
  blobs : PlainSuffix config.blobsSuffix

/-- The file beside the text is none of the forms of the value. -/
structure TempApart (config : FileConfig) : Prop where
  compressed : config.tempSuffix ≠ config.compressedSuffix
  blobs : config.tempSuffix ≠ config.blobsSuffix
  compressedBlobs : config.tempSuffix ≠ config.blobsSuffix ++ config.compressedSuffix

theorem tempSuffix_ne (config : FileConfig) : config.tempSuffix ≠ "" := by
  intro same
  have tail : ".tmp" = "" := (String.append_eq_empty_iff.1 same).2
  exact absurd tail (by decide)

theorem tempApart_iff : config.TempApart ↔ config.tempSuffix ∉ config.suffixes := by
  simp only [suffixes, List.mem_cons, List.not_mem_nil, or_false, not_or]
  constructor
  · exact fun apart => ⟨config.tempSuffix_ne, apart.compressed, apart.blobs, apart.compressedBlobs⟩
  · exact fun ⟨_, compressed, blobs, compressedBlobs⟩ => ⟨compressed, blobs, compressedBlobs⟩

theorem of_check {ε α : Type} {bad : Prop} [Decidable bad] {e : ε} {rest : Except ε α} {a : α}
    (passed : (if bad then throw e >>= fun _ : PUnit => rest else rest) = .ok a) : ¬ bad ∧ rest = .ok a := by
  split at passed
  · cases passed
  · rename_i good
    exact ⟨good, passed⟩

/-- What the check of the settings makes sure of about the suffixes. -/
theorem of_validate_ok (valid : config.validate = .ok ()) :
    config.compressedSuffix ≠ "" ∧ config.blobsSuffix ≠ "" ∧ config.compressedSuffix ≠ config.blobsSuffix := by
  unfold validate at valid
  cases level : validLevel config.compression with
  | error e =>
      rw [level] at valid
      cases valid
  | ok =>
      rw [level] at valid
      obtain ⟨compressed, valid⟩ := of_check valid
      obtain ⟨blobs, valid⟩ := of_check valid
      by_cases same : config.compressedSuffix = config.blobsSuffix
      · rw [if_pos same] at valid
        cases valid
      · exact ⟨compressed, blobs, same⟩

theorem suffixes_nodup (valid : config.validate = .ok ()) : config.suffixes.Nodup := by
  obtain ⟨compressed, blobs, apart⟩ := of_validate_ok valid
  have behind : config.blobsSuffix ++ config.compressedSuffix ≠ config.compressedSuffix :=
    fun same => blobs (String.append_eq_right_iff.1 same)
  have before : config.blobsSuffix ++ config.compressedSuffix ≠ config.blobsSuffix :=
    fun same => compressed (String.append_eq_left_iff.1 same)
  simp [suffixes, compressed.symm, blobs.symm, compressed, apart, before.symm, behind.symm]

theorem PlainSuffixes.suffixes (plain : config.PlainSuffixes) : ∀ suffix ∈ config.suffixes, PlainSuffix suffix := by
  simp only [FileConfig.suffixes, List.forall_mem_cons]
  exact ⟨by decide, plain.compressed, plain.blobs, plain.blobs.append plain.compressed, nofun⟩

theorem PlainSuffixes.tempSuffix (plain : config.PlainSuffixes) : PlainSuffix config.tempSuffix := by
  have front : PlainSuffix (if config.compressText then config.compressedSuffix else "") := by
    split
    · exact plain.compressed
    · decide
  exact front.append (by decide)

/-- Names of one value are apart where what is appended to its path is. -/
theorem names_nodup_iff {suffixes : List String} (plain : ∀ suffix ∈ suffixes, PlainSuffix suffix) (path : String) :
    ((suffixes.map (path ++ ·)).map placeOf).Nodup ↔ suffixes.Nodup := by
  rw [List.map_map]
  refine ⟨.of_map _, fun nodup => nodup.map_on fun suffix mem other mem' same => ?_⟩
  exact placeOf_append_inj (plain suffix mem) (plain other mem') same

theorem forms_eq (config : FileConfig) (path : String) : config.forms path = config.suffixes.map (path ++ ·) := by
  simp [forms, suffixes, compressedPath, blobsPath, String.append_assoc]

theorem tempPath_target (config : FileConfig) (path : String) :
    tempPath (config.target path) = path ++ config.tempSuffix := by
  unfold target tempSuffix tempPath
  split
  · rw [compressedPath, String.append_assoc]
  · rw [String.empty_append]

/-- Of the text one form is written, and the other is to be gone. -/
theorem texts_perm (config : FileConfig) (path : String) :
    [config.target path, config.staleText path].Perm [path, config.compressedPath path] := by
  unfold target staleText
  cases config.compressText with
  | false => exact .refl _
  | true => exact .swap _ _ _

/-- Of the stored arrays one form is written, and the other is to be gone. -/
theorem blobs_perm (config : FileConfig) (path : String) :
    [config.writtenPath (config.blobsPath path), config.staleBlobs path].Perm
      [config.blobsPath path, config.compressedPath (config.blobsPath path)] := by
  unfold writtenPath staleBlobs
  cases config.compression with
  | none => exact .refl _
  | zstd level => exact .swap _ _ _

theorem forms_perm (config : FileConfig) (path : String) :
    [config.target path, config.staleText path, config.writtenPath (config.blobsPath path), config.staleBlobs path].Perm
      (config.forms path) := (config.texts_perm path).append (config.blobs_perm path)

theorem writtenPath_mem (config : FileConfig) (path : String) :
    config.writtenPath (config.blobsPath path) ∈ config.savePaths path := by
  apply List.mem_append_left
  apply (config.forms_perm path).subset
  simp

theorem forms_nodup (valid : config.validate = .ok ()) (plain : config.PlainSuffixes) (path : String) :
    ((config.forms path).map placeOf).Nodup := by
  rw [forms_eq, names_nodup_iff plain.suffixes]
  exact suffixes_nodup valid

/-- The form of the text that is written is none of those to be gone. -/
theorem target_apart {path : String} (nodup : ((config.forms path).map placeOf).Nodup) :
    placeOf (config.target path) ≠ placeOf (config.staleText path) ∧
      placeOf (config.target path) ≠ placeOf (config.staleBlobs path) := by
  replace nodup := ((config.forms_perm path).map placeOf).nodup_iff.2 nodup
  simp only [List.map_cons, List.map_nil, List.nodup_cons, List.mem_cons, List.not_mem_nil, or_false, not_or] at nodup
  obtain ⟨⟨texts, _, blobs⟩, _⟩ := nodup
  exact ⟨texts, blobs⟩

/-- The file of stored arrays is no form of the text. -/
theorem written_ne_text (valid : config.validate = .ok ()) (plain : config.PlainSuffixes) {path text : String}
    (mem : text ∈ [path, config.compressedPath path]) :
    placeOf text ≠ placeOf (config.writtenPath (config.blobsPath path)) := by
  have nodup : ([path, config.compressedPath path].map placeOf
      ++ [config.blobsPath path, config.compressedPath (config.blobsPath path)].map placeOf).Nodup :=
    forms_nodup valid plain path
  apply (List.nodup_append.1 nodup).2.2 _ (List.mem_map_of_mem mem)
  exact List.mem_map_of_mem ((config.blobs_perm path).subset List.mem_cons_self)

/-- The files touched by a save are apart exactly where the file beside the text is no other form of the value. -/
theorem savePaths_nodup_iff (valid : config.validate = .ok ()) (plain : config.PlainSuffixes) (path : String) :
    ((config.savePaths path).map placeOf).Nodup ↔ config.TempApart := by
  have mapped : config.savePaths path = (config.suffixes.concat config.tempSuffix).map (path ++ ·) := by
    rw [savePaths, forms_eq, tempPath_target, List.concat_eq_append, List.map_append, List.map_singleton]
  have plain' : ∀ suffix ∈ config.suffixes.concat config.tempSuffix, PlainSuffix suffix := by
    rw [List.concat_eq_append, List.forall_mem_append, List.forall_mem_singleton]
    exact ⟨plain.suffixes, plain.tempSuffix⟩
  rw [mapped, names_nodup_iff plain', List.nodup_concat, tempApart_iff]
  exact and_iff_left (suffixes_nodup valid)

end FileConfig

/-! ### Saving -/

section Failures

variable {α : Type} {P : Disk → Prop} {action : DiskAction α} {a : α} {d d' : Disk}

/-- What succeeds with another wording of its failures succeeds. -/
theorem DiskAction.of_mapError_ok {ε : Type} {f : IoError → ε}
    (done : ((action d).1.mapError f, (action d).2) = (.ok a, d')) : action d = (.ok a, d') := by
  rcases first : action d with ⟨result, last⟩
  rw [first] at done
  cases result with
  | ok =>
      cases done
      rfl
  | error e => cases done

theorem BlobAction.of_ofDisk_ok (done : BlobAction.ofDisk action d = (.ok a, d')) : action d = (.ok a, d') :=
  of_mapError_ok done

theorem ValueFileAction.of_ofDisk_ok (done : ofDisk action d = (.ok a, d')) : action d = (.ok a, d') :=
  of_mapError_ok done

theorem ValueFileAction.of_ofBlobDisk_ok (done : ofBlobDisk action d = (.ok a, d')) : action d = (.ok a, d') :=
  of_mapError_ok done

theorem ValueFileAction.ofDisk_keeps (keeps : DiskAction.Keeps P action) : DiskAction.Keeps P (ofDisk action) :=
  fun d holds => keeps d holds

theorem ValueFileAction.ofBlobDisk_keeps (keeps : DiskAction.Keeps P action) :
    DiskAction.Keeps P (ofBlobDisk action) := fun d holds => keeps d holds

end Failures

namespace ValueFile

open ValueFileAction

/-- The paths that are touched when the stored arrays are finished: those of the text and the one beside it, and the
    form of the stored arrays that was not written. -/
def textPaths (file : ValueFile) : List String :=
  [file.path, file.config.compressedPath file.path, tempPath (file.config.target file.path), file.staleBlobs]

/-- Both forms of the text are among them. -/
theorem text_mem (file : ValueFile) {form : String}
    (mem : form ∈ [file.config.target file.path, file.config.staleText file.path]) : form ∈ file.textPaths :=
  List.mem_append_left [tempPath (file.config.target file.path), file.staleBlobs]
    ((file.config.texts_perm file.path).subset mem)

theorem beside_mem (file : ValueFile) : tempPath (file.config.target file.path) ∈ file.textPaths := by
  simp [textPaths]

/-- The paths of a save are the ones that are touched when the stored arrays are finished, and the file of these. -/
theorem textPaths_perm (file : ValueFile) :
    (file.config.writtenPath (file.config.blobsPath file.path) :: file.textPaths).Perm
      (file.config.savePaths file.path) := by
  let texts := [file.path, file.config.compressedPath file.path]
  let beside := tempPath (file.config.target file.path)
  let written := file.config.writtenPath (file.config.blobsPath file.path)
  have front : (written :: (texts ++ [beside, file.staleBlobs])).Perm (texts ++ [written, beside, file.staleBlobs]) :=
    List.perm_middle.symm
  have swapped : (texts ++ [written, beside, file.staleBlobs]).Perm (texts ++ [written, file.staleBlobs, beside]) :=
    ((List.Perm.swap _ _ _).cons _).append_left texts
  exact (front.trans swapped).trans (((file.config.blobs_perm file.path).append_right [beside]).append_left texts)

theorem textPaths_subset (file : ValueFile) : file.textPaths ⊆ file.config.savePaths file.path :=
  List.Subset.trans (List.subset_cons_self _ _) file.textPaths_perm.subset

/-- The file of stored arrays that was written is none of those touched afterwards. -/
theorem writtenPath_notMem (file : ValueFile) (nodup : ((file.config.savePaths file.path).map placeOf).Nodup) :
    placeOf (file.config.writtenPath (file.config.blobsPath file.path)) ∉ file.textPaths.map placeOf :=
  (List.nodup_cons.1 ((file.textPaths_perm.map placeOf).nodup_iff.2 nodup)).1

variable [Codec] {file : ValueFile} {text : Bytes} {d d' : Disk} {last : BlobWriter}

/-- What is left of a save when the stored arrays are finished. -/
def saveText (text : Bytes) (file : ValueFile) : ValueFileAction String := do
  let ((target, contents), stale) ← (file.textForms text).mapError ValueFileError.io
  ofDisk (Disk.writeAtomic target contents)
  ofDisk (Disk.removeStale stale)
  ofDisk (Disk.removeStale file.staleBlobs)
  return target

theorem save_of_finish_ok {n : Nat} (finished : file.writer.finish d = ((.ok n, last), d')) :
    file.save text d = file.saveText text d' := by
  unfold save
  apply bind_ok (a := n)
  rw [finished]
  rfl

/-- Where the stored arrays cannot be finished, nothing is done about the text. -/
theorem save_of_finish_error {e : BlobError} (refused : file.writer.finish d = ((.error e, last), d')) :
    file.save text d = (.error (.blob e), d') := by
  unfold save
  apply bind_error
  rw [refused]
  rfl

theorem textForms_eq (file : ValueFile) (text : Bytes) :
    file.textForms text = (file.config.textContents text).map fun contents =>
      ((file.config.target file.path, contents), file.config.staleText file.path) := by
  unfold textForms FileConfig.target FileConfig.textContents FileConfig.staleText
  split
  · cases Codec.compress file.config.textLevel text <;> rfl
  · rfl

/-- Where there is a form of the text to be written, it is written, and the other forms are taken away. -/
theorem saveText_of_ok {contents : Bytes} (packed : file.config.textContents text = .ok contents) :
    file.saveText text = (do
      ofDisk (Disk.writeAtomic (file.config.target file.path) contents)
      ofDisk (Disk.removeStale (file.config.staleText file.path))
      ofDisk (Disk.removeStale file.staleBlobs)
      return file.config.target file.path) := by
  unfold saveText
  rw [file.textForms_eq, packed]
  rfl

/-- Where there is none, nothing is done. -/
theorem saveText_of_error {e : IoError} (refused : file.config.textContents text = .error e) :
    file.saveText text d = (.error (.io e), d) := by
  unfold saveText
  rw [file.textForms_eq, refused]
  rfl

theorem saveText_within (file : ValueFile) (text : Bytes) (before : Disk) :
    DiskAction.Keeps (Within (file.textPaths.map placeOf) before) (file.saveText text) := by
  have place : ∀ {path}, path ∈ file.textPaths → placeOf path ∈ file.textPaths.map placeOf := List.mem_map_of_mem
  have target := place (file.text_mem List.mem_cons_self)
  have staleText := place (file.text_mem (List.mem_cons_of_mem _ List.mem_cons_self))
  have staleBlobs : placeOf file.staleBlobs ∈ file.textPaths.map placeOf := place (by simp [textPaths])
  cases packed : file.config.textContents text with
  | error e =>
      intro d within
      rw [saveText_of_error packed]
      exact within
  | ok contents =>
      rw [saveText_of_ok packed]
      refine (ofDisk_keeps (writeAtomic_within target (place file.beside_mem) contents)).bind fun _ => ?_
      refine (ofDisk_keeps (removeStale_within staleText)).bind fun _ => ?_
      exact (ofDisk_keeps (removeStale_within staleBlobs)).bind fun _ => .pure _

end ValueFile

/-- Settings that were checked and whose suffixes only go on with names keep the four forms of a value apart from each
    other, for every path.  The file beside the text is apart from them exactly where `TempApart` holds, which the check
    leaves out.  And whatever the settings are, where all five files are apart no save that finished the stored arrays
    touches their file afterwards, whatever fails in it. -/
theorem FileConfig.savePaths_apart [Codec] (config : FileConfig) (path : String) :
    (config.validate = .ok () → config.PlainSuffixes →
      ((config.forms path).map placeOf).Nodup ∧ (((config.savePaths path).map placeOf).Nodup ↔ config.TempApart)) ∧
    (((config.savePaths path).map placeOf).Nodup →
      ∀ (writer last : BlobWriter) (text : Bytes) (n : Nat) (d d₁ : Disk), d.Tidy →
        writer.finish d = ((.ok n, last), d₁) →
        let blobs := placeOf (config.writtenPath (config.blobsPath path))
        let saved := ((ValueFile.mk path config writer).save text d).2
        saved.bytesAt? blobs = d₁.bytesAt? blobs ∧
          ∀ entry, d₁.at? blobs = some entry → saved.at? blobs = some entry) := by
  refine ⟨fun valid plain => ⟨forms_nodup valid plain path, savePaths_nodup_iff valid plain path⟩, ?_⟩
  intro nodup writer last text n d d₁ tidy finished blobs saved
  let file : ValueFile := ⟨path, config, writer⟩
  have tidy₁ : d₁.Tidy := by
    have kept := OnDisk.serve_tidy .finish ⟨writer, d⟩ tidy
    rwa [OnDisk.serve, finished] at kept
  have same : saved = (file.saveText text d₁).2 := congrArg Prod.snd (ValueFile.save_of_finish_ok finished)
  have within := file.saveText_within text d₁ d₁ (.refl tidy₁)
  have apart := file.writtenPath_notMem nodup
  rw [same]
  exact ⟨within.bytesAt? apart, within.stays _ apart⟩

/-- A stored array is left as it is when there is no room for the text. -/
theorem FileConfig.savePaths_apart_no_room :
    let full : Fault := ⟨IoKind.storageFull.error, 3⟩
    let opened := BlobWriter.create "v.blobs" .default { Disk.empty with faults := List.replicate 6 none ++ [some full] }
    let s := (OnDisk.serve (.write [7]) ⟨.plain ⟨.file 0, "v.blobs", 0, false⟩, opened.2⟩).2
    let saved := (ValueFile.mk "v" .default s.writer).save (ascii "text") s.disk
    FileConfig.default.TempApart ∧ ((FileConfig.default.savePaths "v").map placeOf).Nodup ∧
      saved.1 = .error (.io IoKind.storageFull.error) ∧ saved.2.bytesAt? ["v.blobs"] = some (Chunk.record [7]) := by
  intro full opened s saved
  have apart : FileConfig.default.TempApart := ⟨by decide, by decide, by decide⟩
  have tidy : s.disk.Tidy := by
    apply OnDisk.serve_keeps (P := Tidy) (fun _ => Tidy.passed)
      (fun number _ _ bytes tidy => tidy.setContents number bytes)
    exact (BlobWriter.create_within (List.mem_singleton_self _) _ (Within.refl (tidy_nothing _))).tidy
  have finished : s.writer.finish s.disk = ((.ok 16, s.writer), (s.writer.finish s.disk).2) :=
    Prod.ext (Prod.ext (by decide +kernel) (by decide +kernel)) rfl
  have valid : FileConfig.default.validate = .ok () := rfl
  obtain ⟨kept, untouched⟩ := savePaths_apart FileConfig.default "v"
  have nodup := (kept valid ⟨by decide, by decide⟩).2.2 apart
  obtain ⟨same, _⟩ := untouched nodup s.writer s.writer (ascii "text") 16 s.disk _ tidy finished
  refine ⟨apart, nodup, by decide +kernel, same.trans ?_⟩
  decide +kernel

/-- With slashes in them, suffixes that pass the check can name one file. -/
example :
    let config : FileConfig := { FileConfig.default with compressedSuffix := ".d//x", blobsSuffix := ".d/x" }
    config.validate = .ok () ∧ placeOf (config.compressedPath "v") = placeOf (config.blobsPath "v") := by
  decide +kernel

/-- Settings that pass the check, and a save under them that reports success and loses the stored array: its file is
    the one beside the text. -/
theorem FileConfig.savePaths_not_apart :
    let config : FileConfig := { FileConfig.default with blobsSuffix := ".tmp" }
    let schema : Schema Empty := nofun
    let saved := saveValue schema "v" (.vector .uint8) (.array [.int 1, .int 2]) config Disk.empty
    config.validate = .ok () ∧ ¬ ((config.savePaths "v").map placeOf).Nodup ∧ saved.1 = .ok "v" ∧
      saved.2.fileAt? (config.blobsPath "v") = none ∧
      (loadValue schema "v" (.vector .uint8) config saved.2).1.toOption.isNone := by
  refine ⟨rfl, by decide +kernel, ?_⟩
  decide +kernel

end JsonSidecar
