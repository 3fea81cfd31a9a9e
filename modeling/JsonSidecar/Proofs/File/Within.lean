/-
Module: JsonSidecar.Proofs.File.Within
Purpose: What the calls on a disk leave alone, whatever comes of them.  The files at some places may change in any way
  and directories may be added; all else stays as it is.  This holds of every call by itself, hence of all that is
  made of calls, such as replacing a file.
Main exports: Disk.Tidy, Disk.Within, Disk.Within.bytesAt?, Disk.Within.holds, Disk.Owns, Disk.writeAtomic_within,
  Disk.removeStale_within
-/
import JsonSidecar.File.Atomic
import JsonSidecar.Proofs.File.Disk

namespace JsonSidecar

variable {α : Type}

open DiskAction

namespace Disk

variable {d d' : Disk} {path : String} {place : Place} {number : Nat}

/-! ### Disks that give every place contents of its own -/

/-- A disk where every file that is named is there and has one name.  Such a disk gives contents to some places, each
    place its own. -/
structure Tidy (d : Disk) : Prop where
  numbered : d.Numbered
  unshared : ∀ place other number, d.at? place = some (.file number) → d.at? other = some (.file number) → place = other

theorem Tidy.sound (tidy : d.Tidy) (quiet : d.Quiet) : d.Sound where
  quiet := quiet
  numbered := tidy.numbered

theorem Tidy.passed (tidy : d.Tidy) : d.passed.Tidy := ⟨tidy.numbered, tidy.unshared⟩

theorem Tidy.setContents (tidy : d.Tidy) (number : Nat) (bytes : Bytes) : (d.setContents number bytes).Tidy where
  numbered place number' h := by
    have there := tidy.numbered place number' h
    rwa [Disk.setContents, List.length_set]
  unshared := tidy.unshared

theorem at?_nothing (faults : List (Option Fault)) (place : Place) :
    at? { empty with faults := faults } place = if place = [] then some .directory else none := by
  unfold at?
  split
  · rfl
  · rfl

/-- A disk with nothing on it is tidy, whatever failures lie ahead. -/
theorem tidy_nothing (faults : List (Option Fault)) : Tidy { empty with faults := faults } where
  numbered place number h := by
    rw [at?_nothing] at h
    split at h <;> cases h
  unshared place other number h := by
    rw [at?_nothing] at h
    split at h <;> cases h

/-! ### What is left alone -/

/-- A disk and what became of it when only the files at some places were touched.  No failure lies ahead that did not
    before; directories stay; at all other places what was there stays, with its contents, and nothing was added but
    directories. -/
structure Within (names : List Place) (before after : Disk) : Prop where
  tidy : after.Tidy
  faults : after.faults <:+ before.faults
  directories : ∀ place, before.at? place = some .directory → after.at? place = some .directory
  stays : ∀ place, place ∉ names → ∀ entry, before.at? place = some entry → after.at? place = some entry
  added : ∀ place, place ∉ names → ∀ entry, after.at? place = some entry →
    entry = .directory ∨ before.at? place = some entry
  contents : ∀ place, place ∉ names → ∀ number, before.at? place = some (.file number) →
    after.contents number = before.contents number

/-- An open file that is none of those at other places. -/
def Owns (before : Disk) (names : List Place) (file : OpenFile) : Prop :=
  ∀ number, file = .file number → ∀ place, place ∉ names → before.at? place ≠ some (.file number)

namespace Within

variable {names : List Place} {before after last : Disk}

theorem refl (tidy : d.Tidy) : Within names d d where
  tidy := tidy
  faults := List.suffix_refl _
  directories _ h := h
  stays _ _ _ h := h
  added _ _ _ h := .inr h
  contents _ _ _ _ := rfl

theorem trans (first : Within names before after) (second : Within names after last) : Within names before last where
  tidy := second.tidy
  faults := second.faults.trans first.faults
  directories place h := second.directories place (first.directories place h)
  stays place apart entry h := second.stays place apart entry (first.stays place apart entry h)
  added place apart entry h := by
    rcases second.added place apart entry h with directory | h
    · exact .inl directory
    · exact first.added place apart entry h
  contents place apart number h := by
    rw [second.contents place apart number (first.stays place apart _ h), first.contents place apart number h]

/-- What touches few places touches no more than some more places. -/
theorem mono {more : List Place} (within : Within names before after) (sub : names ⊆ more) :
    Within more before after where
  tidy := within.tidy
  faults := within.faults
  directories := within.directories
  stays place apart := within.stays place fun mem => apart (sub mem)
  added place apart := within.added place fun mem => apart (sub mem)
  contents place apart := within.contents place fun mem => apart (sub mem)

/-- The files at other places are as they were. -/
theorem bytesAt? (within : Within names before after) (apart : place ∉ names) :
    after.bytesAt? place = before.bytesAt? place := by
  unfold Disk.bytesAt?
  cases found : before.at? place with
  | some entry =>
      rw [within.stays place apart entry found]
      cases entry with
      | directory => rfl
      | fullDevice => rfl
      | file number => exact congrArg some (within.contents place apart number found)
  | none =>
      cases found' : after.at? place with
      | none => rfl
      | some entry =>
          rcases within.added place apart entry found' with rfl | h
          · rfl
          · rw [found] at h
            cases h

theorem free (within : Within names before after) (free : before.obstacle? path = none) :
    after.obstacle? path = none :=
  obstacle?_of_directories free within.directories

theorem quiet (within : Within names before after) (quiet : before.Quiet) : after.Quiet :=
  fun fault mem => quiet fault (within.faults.subset mem)

/-- A file at another place is still followed to the same contents. -/
theorem holds {bytes : Bytes} (within : Within names before after) (apart : placeOf path ∉ names)
    (holds : before.Holds path number bytes) : after.Holds path number bytes where
  quiet := within.quiet holds.quiet
  free := within.free holds.free
  entry := within.stays _ apart _ holds.entry
  file := by
    have there := within.tidy.numbered _ number (within.stays _ apart _ holds.entry)
    have same := within.contents _ apart number holds.entry
    rw [holds.contents, Disk.contents, List.getElem?_eq_getElem there] at same
    rw [List.getElem?_eq_getElem there]
    exact congrArg some same

/-! ### Steps -/

theorem passed (within : Within names before d) : Within names before d.passed where
  tidy := within.tidy.passed
  faults := (List.drop_suffix 1 d.faults).trans within.faults
  directories := within.directories
  stays := within.stays
  added := within.added
  contents := within.contents

/-- A file that is none of those at other places may get any contents. -/
theorem setContents (within : Within names before d) (owns : before.Owns names (.file number)) (bytes : Bytes) :
    Within names before (d.setContents number bytes) where
  tidy := within.tidy.setContents number bytes
  faults := within.faults
  directories := within.directories
  stays := within.stays
  added := within.added
  contents place apart number' h := by
    have other : number ≠ number' := by
      rintro rfl
      exact owns number rfl place apart h
    rw [← within.contents place apart number' h]
    unfold Disk.contents Disk.setContents
    rw [List.getElem?_set_ne other]

/-- An empty file that has no name yet. -/
theorem newFile (within : Within names before d) : Within names before { d with files := d.files ++ [[]] } where
  tidy := by
    refine ⟨fun place number h => ?_, within.tidy.unshared⟩
    have there := within.tidy.numbered place number h
    rw [List.length_append]
    exact Nat.lt_add_right _ there
  faults := within.faults
  directories := within.directories
  stays := within.stays
  added := within.added
  contents place apart number h := by
    have there := within.tidy.numbered place number (within.stays place apart _ h)
    rw [← within.contents place apart number h]
    unfold Disk.contents
    rw [List.getElem?_append_left there]

/-- A name that is taken off a file. -/
theorem unlinkAt (within : Within names before d) (mem : place ∈ names) (regular : d.at? place ≠ some .directory) :
    Within names before (d.unlinkAt place) := by
  have named := ne_root regular
  refine ⟨⟨?_, ?_⟩, within.faults, ?_, ?_, ?_, within.contents⟩
  · exact fun other number h => within.tidy.numbered other number (of_at?_unlinkAt named h).2
  · exact fun other other' number h h' =>
      within.tidy.unshared other other' number (of_at?_unlinkAt named h).2 (of_at?_unlinkAt named h').2
  · exact fun other h => at?_unlinkAt_directory regular (within.directories other h)
  · intro other apart entry h
    rw [at?_unlinkAt, within.stays other apart entry h]
    rintro rfl
    exact apart mem
  · exact fun other apart entry h => within.added other apart entry (of_at?_unlinkAt named h).2

/-- A name that is given to a file which has none or to a device, or a directory that is made where nothing is. -/
theorem linkAt {entry : Entry} (within : Within names before d)
    (allowed : place ∈ names ∨ entry = .directory ∧ d.at? place = none) (regular : d.at? place ≠ some .directory)
    (nameless : ∀ number, entry = .file number →
      number < d.files.length ∧ ∀ other, d.at? other ≠ some (.file number)) :
    Within names before (d.linkAt place entry) := by
  refine ⟨⟨?_, ?_⟩, within.faults, ?_, ?_, ?_, within.contents⟩
  · intro other number h
    rcases of_at?_linkAt h with ⟨_, new⟩ | h
    · exact (nameless number new.symm).1
    · exact within.tidy.numbered other number h
  · intro other other' number h h'
    rcases of_at?_linkAt h with ⟨same, new⟩ | h
    · rcases of_at?_linkAt h' with ⟨same', _⟩ | h'
      · exact same.trans same'.symm
      · cases (nameless number new.symm).2 other' h'
    · rcases of_at?_linkAt h' with ⟨_, new⟩ | h'
      · cases (nameless number new.symm).2 other h
      · exact within.tidy.unshared other other' number h h'
  · exact fun other h => at?_linkAt_directory regular (within.directories other h)
  · intro other apart found h
    have there := within.stays other apart found h
    rw [at?_linkAt_of_ne, there]
    rintro rfl
    rcases allowed with mem | ⟨_, absent⟩
    · exact apart mem
    · cases absent.symm.trans there
  · intro other apart found h
    rcases of_at?_linkAt h with ⟨rfl, rfl⟩ | h
    · rcases allowed with mem | ⟨directory, _⟩
      · exact absurd mem apart
      · exact .inl directory
    · exact within.added other apart found h

end Within

/-! ### Calls -/

section Calls

variable {names : List Place} {before : Disk}

theorem createParent_within (path : String) : Keeps (Within names before) (createParent path) := by
  refine createParent_keeps (fun _ within => within.passed) fun parent _ d within absent => ?_
  refine within.linkAt (.inr ⟨rfl, absent⟩) ?_ nofun
  rw [absent]
  nofun

/-- A file at one of the places is none of those at other places. -/
theorem Within.owns (within : Within names before d) (mem : place ∈ names) (found : d.at? place = some (.file number)) :
    before.Owns names (.file number) := by
  intro number' same other apart h
  cases same
  have shared := within.tidy.unshared other place number (within.stays other apart _ h) found
  exact apart (shared ▸ mem)

theorem create_within (mem : placeOf path ∈ names) : Keeps (Within names before) (create path) := by
  refine keeps_of of_create fun {d} _ _ within created => ?_
  cases created with
  | refused => exact within.passed
  | device => exact within.passed
  | emptied number _ found => exact within.passed.setContents (within.owns mem found) []
  | added _ absent =>
      refine within.passed.newFile.linkAt (.inl mem) ?_ fun number new => ?_
      · intro directory
        cases absent.symm.trans directory
      · cases new
        refine ⟨?_, fun other h => ?_⟩
        · show d.files.length < (d.files ++ [[]]).length
          rw [List.length_append]
          exact Nat.lt_succ_self _
        · exact Nat.lt_irrefl _ (within.tidy.numbered other _ h)

/-- The file that was opened is none of those at other places. -/
theorem create_owns (mem : placeOf path ∈ names) {file : OpenFile} (within : Within names before d)
    (created : create path d = (.ok file, d')) : before.Owns names file := by
  cases file with
  | fullDevice => nofun
  | file number =>
      have opened := create_opened within.tidy.numbered created
      have kept := create_within mem d within
      rw [created] at kept
      exact kept.owns mem opened.2.2.1

theorem writeAt_within {file : OpenFile} (owns : before.Owns names file) (offset : Nat) (data : Bytes) :
    Keeps (Within names before) (writeAt file offset data) := by
  refine writeAt_keeps (fun _ within => within.passed) ?_ data
  rintro number rfl d written within
  exact within.setContents owns _

theorem sync_within (file : OpenFile) : Keeps (Within names before) (sync file) :=
  sync_keeps (fun _ within => within.passed) file

theorem remove_within (mem : placeOf path ∈ names) : Keeps (Within names before) (remove path) := by
  refine keeps_of of_remove fun within removed => ?_
  cases removed with
  | faulty | blocked | absent | directory => exact within.passed
  | gone regular => exact within.passed.unlinkAt mem regular

theorem rename_within {target : String} (mem : placeOf path ∈ names) (mem' : placeOf target ∈ names) :
    Keeps (Within names before) (rename path target) := by
  refine keeps_of of_rename fun {d} _ _ within renamed => ?_
  cases renamed with
  | faulty | refused | directory | same => exact within.passed
  | moved entry _ found noDirectory vacant _ =>
      have regular : d.passed.at? (placeOf path) ≠ some .directory := fun directory =>
        noDirectory (Option.some.inj (found.symm.trans directory))
      have named := ne_root regular
      refine (within.passed.unlinkAt mem regular).linkAt (.inl mem') ?_ ?_
      · exact fun directory => vacant (of_at?_unlinkAt named directory).2
      · rintro number rfl
        refine ⟨within.tidy.numbered _ number found, fun other h => ?_⟩
        obtain ⟨apart, h⟩ := of_at?_unlinkAt named h
        exact apart (within.tidy.unshared other _ number h found)

theorem attempt_keeps {P : Disk → Prop} {action : DiskAction α} (keeps : Keeps P action) :
    Keeps P (attempt action) := fun d holds => keeps d holds

/-- New contents go to the file beside a path only. -/
theorem writeTemp_within (mem : placeOf (tempPath path) ∈ names) (data : Bytes) :
    Keeps (Within names before) (writeTemp path data) :=
  (create_within mem).bind_of (create_owns mem) fun file owns =>
    (writeAt_within owns 0 data).bind fun _ => sync_within file

/-- To replace a file touches its place and the one beside it, even where it fails. -/
theorem writeAtomic_within (mem : placeOf path ∈ names) (mem' : placeOf (tempPath path) ∈ names) (data : Bytes) :
    Keeps (Within names before) (writeAtomic path data) := by
  refine (createParent_within path).bind fun _ => (attempt_keeps (writeTemp_within mem' data)).bind fun result => ?_
  cases result with
  | ok => exact rename_within mem' mem
  | error e => exact (attempt_keeps (remove_within mem')).bind fun _ => .throw e

theorem removeStale_within (mem : placeOf path ∈ names) : Keeps (Within names before) (removeStale path) := by
  refine (attempt_keeps (remove_within mem)).bind fun result => ?_
  cases result with
  | ok => exact .pure _
  | error e =>
      dsimp only
      split
      · exact .pure _
      · exact .throw e

end Calls

end Disk

end JsonSidecar
