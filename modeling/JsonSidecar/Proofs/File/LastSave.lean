/-
Module: JsonSidecar.Proofs.File.LastSave
Purpose: The last save wins.  A load takes the plain form of each file where there is one, so a form left over from an
  earlier save would come in the place of the new one; but a save takes away the forms that it does not write.  Hence a
  load gives the value saved last, in whatever forms it and those before it were saved, if decompression undoes
  compression.
Main exports: FileConfig.valuePaths, FileConfig.SameSuffixes, Save, Save.run, loadValue_holds, load_last_saved
-/
import JsonSidecar.Proofs.File.SaveValue
import JsonSidecar.Proofs.RoundTrip

namespace JsonSidecar

open DiskAction Disk

/-! ### Names -/

namespace FileConfig

variable {config other : FileConfig} {path : String}

/-- Settings that give the files of a value the same names. -/
structure SameSuffixes (config other : FileConfig) : Prop where
  compressed : config.compressedSuffix = other.compressedSuffix
  blobs : config.blobsSuffix = other.blobsSuffix

/-- The paths that may be touched when a value is saved with some suffixes, whatever else the settings are. -/
def valuePaths (config : FileConfig) (path : String) : List String :=
  config.forms path ++ [tempPath path, tempPath (config.compressedPath path)]

theorem SameSuffixes.compressedPath (same : config.SameSuffixes other) : config.compressedPath = other.compressedPath := by
  funext path
  rw [FileConfig.compressedPath, same.compressed, FileConfig.compressedPath]

theorem SameSuffixes.blobsPath (same : config.SameSuffixes other) : config.blobsPath = other.blobsPath := by
  funext path
  rw [FileConfig.blobsPath, same.blobs, FileConfig.blobsPath]

theorem SameSuffixes.forms (same : config.SameSuffixes other) (path : String) : config.forms path = other.forms path := by
  rw [FileConfig.forms, same.compressedPath, same.blobsPath, FileConfig.forms]

/-- A save with some suffixes touches the paths that go with them. -/
theorem SameSuffixes.savePaths_sublist (same : config.SameSuffixes other) (path : String) :
    (config.savePaths path).Sublist (other.valuePaths path) := by
  unfold savePaths valuePaths
  rw [same.forms]
  apply List.Sublist.append_left
  unfold target
  rw [same.compressedPath]
  split
  · exact List.sublist_cons_self _ _
  · exact List.Sublist.cons_cons _ (List.nil_sublist _)

/-- With the suffixes that are set when nothing else is asked for, the files of every value are apart. -/
theorem valuePaths_nodup_default (path : String) : ((FileConfig.default.valuePaths path).map placeOf).Nodup := by
  have mapped : FileConfig.default.valuePaths path
      = ["", ".zst", ".blobs", ".blobs.zst", ".tmp", ".zst.tmp"].map (path ++ ·) := by
    simp [valuePaths, forms, compressedPath, blobsPath, tempPath, FileConfig.default, String.append_assoc]
  rw [mapped, names_nodup_iff (by decide)]
  decide

end FileConfig

/-! ### Loading what was saved -/

/-- The text of an encode that succeeded is read back against the collection that it left. -/
theorem decode_of_encode_ok {S : Type} {schema : Schema S} {t : Ty S} {text : Bytes} {c₀ c : Collection}
    {threshold : Nat} {v : Val} (encoded : encode schema (some c₀) threshold t v = (.ok text, some c)) (form : schema.WellFormed)
    (typed : v.HasType schema t) (law : Val.Typed schema (Val.LeafReadsBack ⟨true, threshold⟩) t v)
    (small : c.bytes.length < wordLimit) :
    decode schema (some (BlobStore.view c)) t text = .ok (v.restored schema ⟨true, threshold⟩ t) := by
  obtain ⟨text', c', whole, decoded⟩ := decode_encode form typed law c₀
  cases encoded.symm.trans whole
  exact decoded small

section Load

variable [Codec] {config : FileConfig} {path : String} {number : Nat} {bytes text : Bytes} {d : Disk}

/-- Where a text lies in one form only, it is read from there, and nothing but failures ahead is used up. -/
theorem Disk.readEither_target (lossless : Codec.Lossless) {contents : Bytes}
    (packed : config.textContents text = .ok contents) (holds : d.Holds (config.target path) number contents)
    (alone : config.compressText = true → d.entry? path = none) :
    ∃ d', readEither path config d = (.ok (text, config.target path), d') ∧
      ∀ P : Disk → Prop, (∀ d, P d → P d.passed) → P d → P d' := by
  unfold FileConfig.textContents at packed
  unfold FileConfig.target at holds ⊢
  cases form : config.compressText with
  | false =>
      rw [form] at holds packed
      cases packed
      exact ⟨_, readEither_plain holds config, fun P pass start => pass _ (pass _ start)⟩
  | true =>
      rw [form] at holds packed
      exact ⟨_, readEither_compressed holds (lossless _ _ _ packed) (alone form),
        fun P pass start => pass _ (pass _ (pass _ start))⟩

/-- Of the settings a load depends on the suffixes only. -/
theorem Disk.readEither_congr {other : FileConfig} (same : config.SameSuffixes other) (path : String) :
    readEither path config = readEither path other := by
  unfold readEither
  rw [same.compressedPath]

theorem LoadedBlobs.load_congr {other : FileConfig} (same : config.SameSuffixes other) (path : String) :
    load path config = load path other := by
  unfold load
  rw [readEither_congr same]

variable {S : Type} {schema : Schema S} {t : Ty S} {other : FileConfig}

/-- The files of a value are loaded: its text, and with it its records. -/
theorem ValueFile.load_holds (lossless : Codec.Lossless) {c : Collection} (same : config.SameSuffixes other)
    (holds : d.HoldsValue config path text c.bytes) :
    ∃ d', ValueFile.load path other d
      = (.ok ⟨text, some ⟨c.bytes, config.writtenPath (other.blobsPath path)⟩⟩, d') := by
  obtain ⟨⟨number, contents, packed, written⟩, ⟨number', contents', packed', written'⟩, staleText, staleBlobs⟩ := holds
  have alone : config.compressText = true → d.entry? path = none := by
    intro form
    rwa [FileConfig.staleText, form] at staleText
  have alone' : config.compression.isCompressed = true → d.entry? (config.blobsPath path) = none := by
    intro form
    rwa [FileConfig.staleBlobs, form] at staleBlobs
  obtain ⟨d₁, read, keeps⟩ := readEither_target lossless packed written alone
  obtain ⟨kept, kept'⟩ := keeps
    (fun d => d.Holds (config.writtenPath (config.blobsPath path)) number' contents' ∧
      (config.compression.isCompressed = true → d.entry? (config.blobsPath path) = none))
    (fun d kept => ⟨kept.1.passed, kept.2⟩) ⟨written', alone'⟩
  obtain ⟨d₂, loaded⟩ := LoadedBlobs.load_written kept (Compression.unpack_of_pack lossless packed') kept'
  rw [readEither_congr same] at read
  rw [LoadedBlobs.load_congr same, same.blobsPath] at loaded
  have first : ValueFileAction.ofDisk (readEither path other) d = (.ok (text, config.target path), d₁) := by
    rw [ValueFileAction.ofDisk, read]
    rfl
  have second : ValueFileAction.ofDisk (attempt (LoadedBlobs.load (other.blobsPath path) other)) d₁
      = (.ok (.ok ⟨c.bytes, config.writtenPath (other.blobsPath path)⟩), d₂) := by
    rw [ValueFileAction.ofDisk, attempt_apply loaded]
    rfl
  refine ⟨d₂, ?_⟩
  rw [ValueFile.load, bind_ok first]
  dsimp only
  rw [bind_ok second]
  rfl

/-- A value is loaded from its files. -/
theorem loadValue_holds (lossless : Codec.Lossless) (schema : Schema S) (t : Ty S) {c : Collection}
    (same : config.SameSuffixes other) (holds : d.HoldsValue config path text c.bytes) :
    ∃ d', loadValue schema path t other d
      = ((decode schema (some (BlobStore.view c)) t text).mapError .decode, d') := by
  obtain ⟨d', loading⟩ := ValueFile.load_holds lossless same holds
  have viewed : (some (LoadedBlobs.mk c.bytes (config.writtenPath (other.blobsPath path)))).map BlobStore.view
      = some (BlobStore.view c) := rfl
  refine ⟨d', ?_⟩
  rw [loadValue, bind_ok loading]
  dsimp only
  rw [viewed]
  cases decode schema (some (BlobStore.view c)) t text with
  | ok v => rfl
  | error e => rfl

end Load

/-! ### Saves one after another -/

/-- A value of some type, and the settings under which it is saved. -/
structure Save where
  Name : Type
  schema : Schema Name
  type : Ty Name
  value : Val
  config : FileConfig

/-- Save the value at a path. -/
def Save.run [Codec] (path : String) (save : Save) : ValueFileAction String :=
  saveValue save.schema path save.type save.value save.config

/-- The disk after some saves at one path, whatever came of them. -/
def savedAll [Codec] (path : String) (saves : List Save) (d : Disk) : Disk :=
  saves.foldl (fun d save => (save.run path d).2) d

section Saves

variable [Codec] {path : String} {config : FileConfig} {d : Disk}

theorem savedAll_within {saves : List Save} (alike : ∀ save ∈ saves, save.config.SameSuffixes config) (tidy : d.Tidy) :
    Within ((config.valuePaths path).map placeOf) d (savedAll path saves d) := by
  induction saves generalizing d with
  | nil => exact .refl tidy
  | cons save rest ih =>
      obtain ⟨same, others⟩ := List.forall_mem_cons.1 alike
      have inside := List.map_subset placeOf (same.savePaths_sublist path).subset
      have within := saveValue_within save.schema inside save.type save.value d (.refl tidy)
      exact within.trans (ih others within.tidy)

/-- The last save wins.  Let a value be saved at a path after any other saves at it, whatever came of those, under
    settings with the same suffixes but any forms, on a disk where each place has contents of its own and no call fails
    for a reason of its own.  Let the six paths that go with the suffixes lead to places that are apart.  Then, under any
    settings with these suffixes, and if decompression undoes compression:

    - a load gives what the text and the collection of an encode of the last value are decoded to, which is that value
      up to what texts cannot tell;
    - one form of the text is there and one form of the stored arrays, those that the last settings ask for, and the
      others are not;
    - the files at all places but these six are as they were before the first save. -/
theorem load_last_saved (lossless : Codec.Lossless) (apart : ((config.valuePaths path).map placeOf).Nodup)
    {earlier : List Save} {last : Save} (alike : ∀ save ∈ earlier ++ [last], save.config.SameSuffixes config) (tidy : d.Tidy) (quiet : d.Quiet)
    {target : String} {d' : Disk} (saved : last.run path (savedAll path earlier d) = (.ok target, d')) :
    (∃ text c d'', encode last.schema (some Collection.empty) 0 last.type last.value = (.ok text, some c) ∧
      loadValue last.schema path last.type config d'
        = ((decode last.schema (some (BlobStore.view c)) last.type text).mapError .decode, d'') ∧
      (last.schema.WellFormed → last.value.HasType last.schema last.type →
        Val.Typed last.schema (Val.LeafReadsBack ⟨true, 0⟩) last.type last.value → c.bytes.length < wordLimit →
        loadValue last.schema path last.type config d'
          = (.ok (last.value.restored last.schema ⟨true, 0⟩ last.type), d''))) ∧
    ((d'.fileAt? (last.config.target path)).isSome ∧
      (d'.fileAt? (last.config.writtenPath (config.blobsPath path))).isSome ∧
      ∀ form ∈ config.forms path, form ≠ last.config.target path →
        form ≠ last.config.writtenPath (config.blobsPath path) → d'.entry? form = none) ∧
    ∀ other, other ∉ (config.valuePaths path).map placeOf →
      d'.bytesAt? other = d.bytesAt? other ∧ ∀ entry, d.at? other = some entry → d'.at? other = some entry := by
  obtain ⟨others, same⟩ := List.forall_mem_append.1 alike
  replace same := List.forall_mem_singleton.1 same
  have before : Within ((config.valuePaths path).map placeOf) d (savedAll path earlier d) := savedAll_within others tidy
  have inside := (same.savePaths_sublist path).map placeOf
  have within := saveValue_within last.schema inside.subset last.type last.value _ before
  rw [← Save.run, saved] at within
  obtain ⟨text, c, encoded, holds⟩ :=
    saveValue_holds before.tidy (before.quiet quiet) (inside.nodup apart) saved
  obtain ⟨d'', loaded⟩ := loadValue_holds lossless last.schema last.type same holds
  refine ⟨⟨text, c, d'', encoded, loaded, fun form typed law small => ?_⟩, ⟨?_, ?_, ?_⟩, fun other mem => ?_⟩
  · rw [loaded, decode_of_encode_ok encoded form typed law small]
    rfl
  · obtain ⟨number, _, _, written⟩ := holds.text
    rw [fileAt?_of_holds written]
    rfl
  · obtain ⟨number, _, _, written⟩ := holds.records
    rw [← same.blobsPath, fileAt?_of_holds written]
    rfl
  · rw [← same.forms, ← same.blobsPath]
    exact fun form mem => holds.gone mem
  · exact ⟨within.bytesAt? mem, within.stays other mem⟩

end Saves

/-- Three numbers saved as they stand, and then one number saved in compressed forms: a load that asks for nothing
    special finds the one. -/
theorem load_last_saved_other_forms :
    let schema : Schema Empty := nofun
    let first : Save := ⟨Empty, schema, .vector .uint8, .array [.int 1, .int 2, .int 3], .default⟩
    let last : Save := ⟨Empty, schema, .vector .uint8, .array [.int 4], .testing⟩
    let before := savedAll "v" [first] Disk.empty
    let saved := last.run "v" before
    before.entries.map Prod.fst = ["v", "v.blobs"] ∧ saved.1 = .ok "v.zst" ∧ Disk.entry? saved.2 "v" = none ∧
      Disk.entry? saved.2 "v.blobs" = none ∧
      (loadValue schema "v" (.vector .uint8) .default saved.2).1 = .ok (.array [.int 4]) := by
  intro schema first last before saved
  have alike : ∀ save ∈ [first] ++ [last], save.config.SameSuffixes .default := by
    rw [List.forall_mem_append, List.forall_mem_singleton, List.forall_mem_singleton]
    exact ⟨⟨rfl, rfl⟩, ⟨rfl, rfl⟩⟩
  have done : saved = (.ok "v.zst", saved.2) := Prod.ext (by decide +kernel) rfl
  obtain ⟨⟨text, c, d, encoded, _, value⟩, ⟨_, _, gone⟩, _⟩ :=
    load_last_saved Zstd.codec_lossless (FileConfig.valuePaths_nodup_default "v") alike (tidy_nothing []) nofun done
  have form : schema.WellFormed := nofun
  have bytes : Element.uint8.Holds [.int 4] := ⟨by decide, by decide⟩
  have typed : last.value.HasType schema (.vector .uint8) := .leaf rfl (.vector bytes)
  have law : Val.Typed schema (Val.LeafReadsBack ⟨true, 0⟩) (.vector .uint8) last.value := .leaf rfl nofun
  have same : last.value.restored schema ⟨true, 0⟩ (.vector .uint8) = .array [.int 4] := by cbv
  have size : (encode schema (some Collection.empty) 0 (.vector .uint8) last.value).2.map (fun c => c.bytes.length)
      = some 16 := by decide +kernel
  have small : c.bytes.length < wordLimit := by
    rw [encoded] at size
    have length : c.bytes.length = 16 := Option.some.inj size
    rw [length]
    decide
  have loaded := value form typed law small
  rw [same] at loaded
  refine ⟨by decide +kernel, congrArg Prod.fst done, ?_, ?_, congrArg Prod.fst loaded⟩
  · exact gone "v" (by decide) (by decide) (by decide)
  · exact gone "v.blobs" (by decide) (by decide) (by decide)

end JsonSidecar
