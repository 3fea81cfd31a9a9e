/-
Module: JsonSidecar.Proofs.File.Atomic
Purpose: What replacing the contents of a file comes to, whichever calls fail on the way.  Where it fails the path is as
  it was; where it goes through the path has the new contents, and nothing is left beside it.  What was made beside a
  path is taken away after every failure but that of the last step: when the finished file cannot take its place, it
  stays.
Main exports: Disk.Spares, Disk.Beside, Disk.Leftover, Disk.writeAtomic_outcome, Disk.writeAtomic_leaves_file
-/
import JsonSidecar.Proofs.File.LifeCycle

namespace JsonSidecar

namespace Disk

open DiskAction

variable {path : String} {data : Bytes} {before d d' : Disk} {place other : Place}

/-! ### The place beside a path -/

/-- The place of the file beside a path. -/
def tempPlace (path : String) : Place := placeOf (tempPath path)

theorem tempPlace_ne (path : String) : tempPlace path ≠ placeOf path := placeOf_append_ne (by decide) (by decide) path

theorem tempPlace_ne_root (path : String) : tempPlace path ≠ [] := by
  rw [tempPlace, tempPath, placeOf_append (by decide) (by decide)]
  exact List.concat_ne_nil _ _

/-- A path that is a name can be followed where the path beside it can. -/
theorem obstacle?_of_temp (free : d.obstacle? (tempPath path) = none) (named : path ≠ "") :
    d.obstacle? path = none := obstacle?_of_append free named

theorem ne_empty_of_name (name : (Route.ofPath path).ending = .name) : path ≠ "" := by
  rintro rfl
  exact absurd name (by decide)

/-! ### What is left alone -/

/-- Another place names the file that lies beside a path. -/
def SharesTemp (d : Disk) (path : String) (other : Place) : Prop :=
  ∃ number, d.at? (tempPlace path) = some (.file number) ∧ d.at? other = some (.file number)

/-- A place is as it was, or it is a directory around the path that was made. -/
def KeptOrMade (before : Disk) (path : String) (d : Disk) (other : Place) : Prop :=
  d.at? other = before.at? other ∨
    other ∈ (Route.ofPath path).parents.map Route.place ∧ before.at? other = none ∧ d.at? other = some .directory

theorem KeptOrMade.of_eq (kept : before.KeptOrMade path d other) (same : d'.at? other = d.at? other) :
    before.KeptOrMade path d' other := by
  unfold KeptOrMade
  rw [same]
  exact kept

/-- What was there is still there. -/
theorem KeptOrMade.of_some {entry : Entry} (kept : before.KeptOrMade path d other)
    (found : before.at? other = some entry) : d.at? other = some entry := by
  rcases kept with same | ⟨_, absent, _⟩
  · exact same.trans found
  · cases absent.symm.trans found

/-- A file that is there was there. -/
theorem KeptOrMade.of_file {number : Nat} (kept : before.KeptOrMade path d other)
    (found : d.at? other = some (.file number)) : before.at? other = some (.file number) := by
  rcases kept with same | ⟨_, _, made⟩
  · exact same.symm.trans found
  · cases made.symm.trans found

/-- A directory that is made around the path where nothing is. -/
theorem KeptOrMade.makeDirectory {parent : Route} (kept : before.KeptOrMade path d other)
    (mem : parent ∈ (Route.ofPath path).parents) (absent : d.at? parent.place = none) :
    before.KeptOrMade path (d.linkAt parent.place .directory) other := by
  by_cases same : other = parent.place
  · subst same
    have named : parent.place ≠ [] := ne_root fun directory => nomatch absent.symm.trans directory
    refine .inr ⟨List.mem_map_of_mem mem, ?_, at?_linkAt_self named⟩
    rcases kept with same | ⟨_, _, made⟩
    · exact same.symm.trans absent
    · cases absent.symm.trans made
  · exact kept.of_eq (at?_linkAt_of_ne same)

/-- Files that are as they were have their contents, if these are. -/
theorem KeptOrMade.bytesAt? (kept : before.KeptOrMade path d other)
    (contents : ∀ number, before.at? other = some (.file number) → d.contents number = before.contents number) :
    d.bytesAt? other = before.bytesAt? other := by
  unfold Disk.bytesAt?
  rcases kept with same | ⟨_, absent, made⟩
  · rw [same]
    cases found : before.at? other with
    | none => rfl
    | some entry =>
        cases entry with
        | directory => rfl
        | fullDevice => rfl
        | file number => exact congrArg some (contents number found)
  · rw [absent, made]
    rfl

/-- A place is as it was, unless the path leads upwards.  Such a path can be around itself, and then a directory may
    have been made of it. -/
def LeftAlone (before : Disk) (path : String) (d : Disk) (other : Place) : Prop :=
  d.at? other = before.at? other ∨ ".." ∈ (Route.ofPath path).names ∧ before.KeptOrMade path d other

/-- What lies no less deep than the path has names is none of the directories around it. -/
theorem KeptOrMade.leftAlone (kept : before.KeptOrMade path d other)
    (deep : ".." ∉ (Route.ofPath path).names → (Route.ofPath path).names.length ≤ other.length) :
    before.LeftAlone path d other := by
  by_cases upwards : ".." ∈ (Route.ofPath path).names
  · exact .inr ⟨upwards, kept⟩
  · rcases kept with same | ⟨mem, _⟩
    · exact .inl same
    · obtain ⟨parent, around, rfl⟩ := List.mem_map.1 mem
      exact absurd (deep upwards) (Nat.not_le.2 (Route.parents_length_lt around))

/-- All but the given places is as it was, but for directories around the path that were made.  A file that lay beside
    the path is not spared under its other names. -/
structure Spares (before : Disk) (path : String) (names : List Place) (d : Disk) : Prop where
  entries : ∀ other, other ∉ names → before.KeptOrMade path d other
  files : ∀ other, other ∉ names → ¬ before.SharesTemp path other → d.bytesAt? other = before.bytesAt? other

theorem Spares.mono {names more : List Place} (spares : Spares before path names d) (sub : names ⊆ more) :
    Spares before path more d where
  entries other apart := spares.entries other fun mem => apart (sub mem)
  files other apart := spares.files other fun mem => apart (sub mem)

/-- The number is that of the file that lay beside the path, or of a file that is new. -/
def MayWrite (before : Disk) (path : String) (number : Nat) : Prop :=
  before.at? (tempPlace path) = some (.file number) ∨ before.files.length ≤ number

/-- A file that is not beside the path as well may not be written. -/
theorem not_mayWrite {number : Nat} (numbered : before.Numbered) (found : before.at? other = some (.file number))
    (unshared : ¬ before.SharesTemp path other) : ¬ before.MayWrite path number := by
  rintro (beside | new)
  · exact unshared ⟨number, beside, found⟩
  · exact Nat.not_le.2 (numbered other number found) new

/-- The invariant of all that is done before the new file takes its place: only directories around the path were made,
    and only a file beside the path was changed. -/
structure Beside (before : Disk) (path : String) (d : Disk) : Prop where
  entries : ∀ other, other ≠ tempPlace path → before.KeptOrMade path d other
  contents : ∀ number, ¬ before.MayWrite path number → d.contents number = before.contents number
  temp : ∀ number, d.at? (tempPlace path) = some (.file number) → before.MayWrite path number
  numbered : d.Numbered
  more : before.files.length ≤ d.files.length

namespace Beside

theorem refl (numbered : d.Numbered) : Beside d path d where
  entries _ _ := .inl rfl
  contents _ _ := rfl
  temp _ found := .inl found
  numbered := numbered
  more := Nat.le_refl _

theorem passed (beside : Beside before path d) : Beside before path d.passed where
  entries := beside.entries
  contents := beside.contents
  temp := beside.temp
  numbered := beside.numbered
  more := beside.more

theorem setContents {number : Nat} (beside : Beside before path d) (mine : before.MayWrite path number)
    (bytes : Bytes) : Beside before path (d.setContents number bytes) where
  entries := beside.entries
  contents number' others := by
    have apart : number ≠ number' := by
      rintro rfl
      exact others mine
    rw [← beside.contents number' others]
    unfold Disk.contents Disk.setContents
    rw [List.getElem?_set_ne apart]
  temp := beside.temp
  numbered place number' found := by
    rw [length_setContents]
    exact beside.numbered place number' found
  more := by
    rw [length_setContents]
    exact beside.more

/-- A new file beside the path. -/
theorem addFile (beside : Beside before path d) : Beside before path (d.addFile (tempPlace path)) where
  entries other apart := (beside.entries other apart).of_eq (at?_linkAt_of_ne apart)
  contents number others := by
    have there : number < d.files.length :=
      Nat.lt_of_lt_of_le (Nat.not_le.1 fun new => others (.inr new)) beside.more
    rw [← beside.contents number others]
    unfold Disk.contents Disk.addFile
    rw [List.getElem?_append_left there]
  temp number found := by
    cases (at?_linkAt_self (tempPlace_ne_root path)).symm.trans found
    exact .inr beside.more
  numbered other number found := by
    have longer : (d.addFile (tempPlace path)).files.length = d.files.length + 1 := by
      rw [Disk.addFile, List.length_append, List.length_singleton]
    rw [longer]
    have known : other = tempPlace path ∧ Entry.file number = .file d.files.length ∨ d.at? other = some (.file number) :=
      of_at?_linkAt found
    rcases known with ⟨_, new⟩ | found
    · cases new
      exact Nat.lt_succ_self _
    · exact Nat.lt_succ_of_lt (beside.numbered other number found)
  more := by
    rw [Disk.addFile, List.length_append]
    exact Nat.le_add_right_of_le beside.more

/-- What is beside the path loses its name. -/
theorem unlinkAt (beside : Beside before path d) : Beside before path (d.unlinkAt (tempPlace path)) where
  entries other apart := (beside.entries other apart).of_eq (at?_unlinkAt apart)
  contents := beside.contents
  temp _ found := absurd rfl (of_at?_unlinkAt (tempPlace_ne_root path) found).1
  numbered other number found := beside.numbered other number (of_at?_unlinkAt (tempPlace_ne_root path) found).2
  more := beside.more

/-- A directory around the path that was not there. -/
theorem makeDirectory {parent : Route} (beside : Beside before path d) (mem : parent ∈ (Route.ofPath path).parents)
    (absent : d.at? parent.place = none) : Beside before path (d.linkAt parent.place .directory) where
  entries other apart := (beside.entries other apart).makeDirectory mem absent
  contents := beside.contents
  temp number found := by
    rcases of_at?_linkAt found with ⟨_, new⟩ | found
    · cases new
    · exact beside.temp number found
  numbered := beside.numbered.link_directory parent.place
  more := beside.more

/-- All but the path beside is spared. -/
theorem spares (beside : Beside before path d) (numbered : before.Numbered) :
    Spares before path [tempPlace path] d where
  entries other apart := beside.entries other (by simpa using apart)
  files other apart unshared :=
    (beside.entries other (by simpa using apart)).bytesAt? fun number found =>
      beside.contents number (not_mayWrite numbered found unshared)

end Beside

/-! ### Calls beside a path -/

/-- What holds before anything is written: what lies beside the path is as it was, too, and all files are. -/
structure Prepared (before : Disk) (path : String) (d : Disk) : Prop extends Beside before path d where
  kept : before.KeptOrMade path d (tempPlace path)
  files : d.files = before.files

theorem Prepared.leftAlone (prepared : Prepared before path d) : before.LeftAlone path d (tempPlace path) :=
  prepared.kept.leftAlone (names_length_le_append (by decide) (by decide))

theorem Prepared.untouched (prepared : Prepared before path d) :
    d.bytesAt? (tempPlace path) = before.bytesAt? (tempPlace path) :=
  prepared.kept.bytesAt? fun number _ => congrArg (fun files => files[number]?.getD []) prepared.files

/-- To make the directories around a path touches nothing that lies beside it, and no file. -/
theorem createParent_prepared : Keeps (Prepared before path) (createParent path) := by
  refine createParent_keeps ?_ fun parent mem d prepared absent => ?_
  · exact fun d prepared => ⟨prepared.toBeside.passed, prepared.kept, prepared.files⟩
  · exact ⟨prepared.toBeside.makeDirectory mem absent, prepared.kept.makeDirectory mem absent, prepared.files⟩

theorem create_beside : Keeps (Beside before path) (create (tempPath path)) := by
  refine keeps_of of_create fun beside created => ?_
  cases created with
  | refused | device => exact beside.passed
  | emptied number _ found => exact beside.passed.setContents (beside.temp number found) []
  | added => exact beside.passed.addFile

/-- What was opened beside a path may be written. -/
theorem Beside.of_create {number : Nat} (beside : Beside before path d)
    (created : create (tempPath path) d = (.ok (.file number), d')) : before.MayWrite path number := by
  have opened := create_opened beside.numbered created
  have kept := create_beside d beside
  rw [created] at kept
  exact kept.temp number opened.2.2.1

theorem writeTemp_beside (data : Bytes) : Keeps (Beside before path) (writeTemp path data) := by
  refine Keeps.bind_of (Q := fun file => ∀ number, file = .file number → before.MayWrite path number)
    create_beside ?_ fun file mine => ?_
  · rintro d _ d' beside created number rfl
    exact beside.of_create created
  · have writes : Keeps (Beside before path) (writeAt file 0 data) := by
      refine writeAt_keeps (fun _ beside => beside.passed) ?_ data
      exact fun number same d _ beside => beside.setContents (mine number same) _
    exact writes.bind fun _ => sync_keeps (fun _ beside => beside.passed) file

theorem remove_beside : Keeps (Beside before path) (remove (tempPath path)) := by
  refine keeps_of of_remove fun beside removed => ?_
  cases removed with
  | faulty | blocked | absent | directory => exact beside.passed
  | gone => exact beside.passed.unlinkAt

/-! ### What the calls come to -/

/-- New contents that were written beside a path are there, in the file that was there if there was one. -/
theorem of_writeTemp_ok (numbered : d.Numbered) (written : writeTemp path data d = (.ok (), d')) :
    ∃ number, d'.obstacle? (tempPath path) = none ∧ d'.at? (tempPlace path) = some (.file number) ∧
      d'.contents number = data ∧ ∀ entry, d.at? (tempPlace path) = some entry → entry = .file number := by
  obtain ⟨file, d₁, created, written⟩ := of_bind_ok written
  obtain ⟨_, d₂, filled, synced⟩ := of_bind_ok written
  obtain ⟨_, d₃, begun, rested⟩ := of_bind_ok synced
  cases of_begin_ok begun
  cases file with
  | fullDevice => cases rested
  | file number =>
      cases rested
      have stays : ∀ entry, d.at? (tempPlace path) = some entry → entry = .file number := by
        intro entry there
        cases of_create created with
        | emptied _ _ found => exact (Option.some.inj (found.symm.trans there)).symm
        | added _ absent => cases absent.symm.trans there
      obtain ⟨_, free, entry, empty⟩ := create_opened numbered created
      have fresh : d₁.contents number = [] := congrArg (·.getD []) empty
      cases data with
      | nil =>
          cases filled
          exact ⟨number, free, entry, fresh, stays⟩
      | cons b rest =>
          obtain ⟨_, same, rfl⟩ := of_writeAt_ok (List.cons_ne_nil b rest) filled
          cases same
          have there : number < d₁.files.length := (List.getElem?_eq_some_iff.1 empty).1
          have whole : overwrite (d₁.contents number) 0 (b :: rest) = b :: rest := by
            rw [fresh]
            exact overwrite_end [] (b :: rest)
          refine ⟨number, free, entry, ?_, stays⟩
          rw [whole]
          exact contents_setContents (d := d₁.passed) there _

/-- Where new contents could not be written beside a path nothing is changed, or what is there can be taken away. -/
theorem of_writeTemp_error {e : IoError} (failed : writeTemp path data d = (.error e, d')) :
    d' = d.passed ∨
      d'.obstacle? (tempPath path) = none ∧ ∃ entry, d'.at? (tempPlace path) = some entry ∧ entry ≠ .directory := by
  let P (d : Disk) : Prop :=
    d.obstacle? (tempPath path) = none ∧ ∃ entry, d.at? (tempPlace path) = some entry ∧ entry ≠ .directory
  rcases created : create (tempPath path) d with ⟨result, d₁⟩
  have opened : ∀ file, result = .ok file → P d₁ := by
    rintro file rfl
    cases of_create created with
    | device free found | emptied _ free found => exact ⟨free, _, found, nofun⟩
    | added free absent =>
        have vacant : d.passed.at? (tempPlace path) ≠ some .directory := fun directory =>
          nomatch absent.symm.trans directory
        exact ⟨obstacle?_of_directories (d := d.passed) free fun _ => at?_linkAt_directory vacant, _,
          at?_linkAt_self (tempPlace_ne_root path), nofun⟩
  cases result with
  | error _ =>
      rw [writeTemp, bind_error created] at failed
      cases failed
      cases of_create created
      exact .inl rfl
  | ok file =>
      rw [writeTemp, bind_ok created] at failed
      have writes : Keeps P (writeAt file 0 data) := writeAt_keeps (fun _ kept => kept) (fun _ _ _ _ kept => kept) data
      have kept := (writes.bind fun _ => sync_keeps (fun _ kept => kept) file) d₁ (opened file rfl)
      rw [failed] at kept
      exact .inr kept

/-! ### Replacing a file -/

/-- What lies beside a path when it could not be given the contents `data`: nothing, or what lay there before.  There
    are two exceptions, in which the directories around the path were made and the new contents were written beside it.
    When that failed, the clean-up that follows may meet a failure of its own.  When it went through, the finished file
    may not be able to take its place, because the last call meets a failure of its own, or because there is a directory
    or the path is no name. -/
inductive Leftover (before : Disk) (path : String) (data : Bytes) (e : IoError) (after : Disk) : Prop where
  | gone : after.at? (tempPlace path) = none → Leftover before path data e after
  | untouched : before.LeftAlone path after (tempPlace path) →
    after.bytesAt? (tempPlace path) = before.bytesAt? (tempPlace path) → Leftover before path data e after
  | notRemoved (mid last : Disk) (fault : Fault) : createParent path before = (.ok (), mid) →
    writeTemp path data mid = (.error e, last) → last.faults.head?.join = some fault →
    remove (tempPath path) last = (.error fault.error, after) → Leftover before path data e after
  | notRenamed (mid last : Disk) : createParent path before = (.ok (), mid) → writeTemp path data mid = (.ok (), last) →
    rename (tempPath path) path last = (.error e, after) →
    ((∃ fault, last.faults.head?.join = some fault ∧ fault.error = e) ∨
      (last.at? (placeOf path) = some .directory ∧ e = IoKind.isADirectory.error) ∨
      (Route.ofPath path).ending ≠ .name) →
    after.fileAt? (tempPath path) = some data → Leftover before path data e after

/-- The clean-up leaves nothing that a failed write made, if it meets no failure of its own. -/
theorem leftover_of_failed {e : IoError} {result : Except IoError Unit} {mid last after : Disk}
    (prepared : Prepared before path mid) (parent : createParent path before = (.ok (), mid))
    (failed : writeTemp path data mid = (.error e, last)) (removed : remove (tempPath path) last = (result, after)) :
    Leftover before path data e after := by
  have gone : ∀ d : Disk, at? (d.unlinkAt (tempPlace path)) (tempPlace path) = none :=
    fun _ => at?_unlinkAt_self (tempPlace_ne_root path)
  rcases of_writeTemp_error failed with rfl | ⟨free, entry, found, regular⟩
  · cases of_remove removed with
    | faulty | blocked | absent | directory => exact .untouched prepared.leftAlone prepared.untouched
    | gone => exact .gone (gone _)
  · cases of_remove removed with
    | faulty fault next => exact .notRemoved mid last fault parent failed next removed
    | blocked kind blocked => cases free.symm.trans blocked
    | absent absent => cases found.symm.trans absent
    | directory directory => exact absurd (Option.some.inj (found.symm.trans directory)) regular
    | gone => exact .gone (gone _)

/-- When the file beside a path has taken its place all else is as before. -/
theorem Beside.spares_moved {entry : Entry} (beside : Beside before path d) (numbered : before.Numbered) :
    Spares before path [placeOf path, tempPlace path] ((d.unlinkAt (tempPlace path)).linkAt (placeOf path) entry) := by
  have same : ∀ other, other ∉ [placeOf path, tempPlace path] →
      at? ((d.unlinkAt (tempPlace path)).linkAt (placeOf path) entry) other = d.at? other := by
    intro other apart
    rw [List.mem_cons, List.mem_singleton, not_or] at apart
    rw [at?_linkAt_of_ne apart.1, at?_unlinkAt apart.2]
  have more := (beside.spares numbered).mono (List.subset_cons_self (placeOf path) _)
  refine ⟨fun other apart => ?_, fun other apart unshared => ?_⟩
  · exact (more.entries other apart).of_eq (same other apart)
  · rw [bytesAt?_congr (same other apart) rfl]
    exact more.files other apart unshared

/-- What comes of a path that was given new contents: it has them, and there is nothing beside it, unless the path and
    the one beside it named one file.  Then they still do. -/
structure Replaced (before : Disk) (path : String) (data : Bytes) (after : Disk) : Prop where
  contents : after.fileAt? path = some data
  unshared : ¬ before.SharesTemp path (placeOf path) → after.at? (tempPlace path) = none
  shared : before.SharesTemp path (placeOf path) → after.at? (tempPlace path) = before.at? (tempPlace path)

/-- What comes of a path that could not be given new contents: it is as it was; its contents are, too, unless it and the
    path beside it named one file; and beside it is what was there or nothing, but for two exceptions. -/
structure Refused (before : Disk) (path : String) (data : Bytes) (e : IoError) (after : Disk) : Prop where
  kept : before.LeftAlone path after (placeOf path)
  contents : ¬ before.SharesTemp path (placeOf path) → after.bytesAt? (placeOf path) = before.bytesAt? (placeOf path)
  leftover : Leftover before path data e after

/-- What comes of replacing the contents of a file.  Only the places of the path and of the one beside it and the
    directories made around it are touched. -/
structure Outcome (before : Disk) (path : String) (data : Bytes) (result : Except IoError Unit) (after : Disk) :
    Prop where
  spares : Spares before path [placeOf path, tempPlace path] after
  replaced : result = .ok () → Replaced before path data after
  refused : ∀ e, result = .error e → Refused before path data e after

/-- Where a failure leaves only the path beside touched it remains to say what lies there. -/
theorem Beside.outcome {e : IoError} (beside : Beside before path d) (numbered : before.Numbered)
    (leftover : Leftover before path data e d) : Outcome before path data (.error e) d := by
  have spares := beside.spares numbered
  refine ⟨spares.mono (List.subset_cons_self _ _), ?_, ?_⟩
  · rintro ⟨⟩
  · rintro _ ⟨⟩
    have kept := beside.entries _ (tempPlace_ne path).symm
    exact ⟨kept.leftAlone Route.names_length_le_place, spares.files _ (by simpa using (tempPlace_ne path).symm), leftover⟩

/-- What holds before the last step: the new contents are beside the path, in the file that was there if there was one. -/
structure Finished (before : Disk) (path : String) (data : Bytes) (number : Nat) (d : Disk) : Prop
    extends Beside before path d where
  free : d.obstacle? (tempPath path) = none
  found : d.at? (tempPlace path) = some (.file number)
  written : d.contents number = data
  inside : ∀ number', before.at? (tempPlace path) = some (.file number') → number' = number

theorem writeTemp_finished {mid last : Disk} (prepared : Prepared before path mid)
    (written : writeTemp path data mid = (.ok (), last)) : ∃ number, Finished before path data number last := by
  have beside := writeTemp_beside data mid prepared.toBeside
  rw [written] at beside
  obtain ⟨number, free, found, contents, stays⟩ := of_writeTemp_ok prepared.numbered written
  refine ⟨number, beside, free, found, contents, fun number' there => ?_⟩
  cases stays _ (prepared.kept.of_some there)
  rfl

namespace Finished

variable {number : Nat}

theorem passed (finished : Finished before path data number d) : Finished before path data number d.passed where
  toBeside := finished.toBeside.passed
  free := finished.free
  found := finished.found
  written := finished.written
  inside := finished.inside

theorem fileAt?_temp (finished : Finished before path data number d) : d.fileAt? (tempPath path) = some data := by
  rw [fileAt?_of_free finished.free, Disk.bytesAt?]
  exact (congrArg d.bytesOf? finished.found).trans (congrArg some finished.written)

/-- Where the path and the one beside it name one file they still do. -/
theorem outcome_same (finished : Finished before path data number d) (numbered : before.Numbered)
    (free : d.obstacle? path = none) (taken : d.at? (placeOf path) = some (.file number)) :
    Outcome before path data (.ok ()) d := by
  have there := (finished.entries _ (tempPlace_ne path).symm).of_file taken
  refine ⟨(finished.spares numbered).mono (List.subset_cons_self _ _), fun _ => ⟨?_, ?_, ?_⟩, ?_⟩
  · rw [fileAt?_of_free free, Disk.bytesAt?]
    exact (congrArg d.bytesOf? taken).trans (congrArg some finished.written)
  · exact fun unshared => absurd (finished.temp number finished.found) (not_mayWrite numbered there unshared)
  · rintro ⟨number', temp, _⟩
    cases finished.inside _ temp
    exact finished.found.trans temp.symm
  · rintro _ ⟨⟩

/-- Where they do not, the file beside the path takes its place. -/
theorem outcome_moved (finished : Finished before path data number d) (numbered : before.Numbered)
    (free : d.obstacle? path = none) (vacant : d.at? (placeOf path) ≠ some .directory)
    (other : d.at? (placeOf path) ≠ some (.file number)) :
    Outcome before path data (.ok ()) ((d.unlinkAt (tempPlace path)).linkAt (placeOf path) (.file number)) := by
  have regular : d.at? (tempPlace path) ≠ some .directory := by
    rw [finished.found]
    simp
  have free' : Disk.obstacle? ((d.unlinkAt (tempPlace path)).linkAt (placeOf path) (.file number)) path = none :=
    obstacle?_of_directories free fun _ => at?_move_directory regular vacant
  refine ⟨finished.spares_moved numbered, fun _ => ⟨?_, fun _ => ?_, ?_⟩, ?_⟩
  · exact (fileAt?_of_free free').trans
      ((congrArg _ (at?_linkAt_self (ne_root vacant))).trans (congrArg some finished.written))
  · exact (at?_linkAt_of_ne (tempPlace_ne path)).trans (at?_unlinkAt_self (tempPlace_ne_root path))
  · rintro ⟨number', temp, there⟩
    cases finished.inside _ temp
    cases other ((finished.entries _ (tempPlace_ne path).symm).of_some there)
  · rintro _ ⟨⟩

end Finished

/-- What comes of the last step. -/
theorem rename_outcome {result : Except IoError Unit} {mid last after : Disk} (numbered : before.Numbered)
    (prepared : Prepared before path mid) (parent : createParent path before = (.ok (), mid))
    (written : writeTemp path data mid = (.ok (), last)) (ran : rename (tempPath path) path last = (result, after)) :
    Outcome before path data result after := by
  obtain ⟨number, finished⟩ := writeTemp_finished prepared written
  have refused : ∀ e, rename (tempPath path) path last = (.error e, last.passed) →
      ((∃ fault, last.faults.head?.join = some fault ∧ fault.error = e) ∨
        (last.at? (placeOf path) = some .directory ∧ e = IoKind.isADirectory.error) ∨
        (Route.ofPath path).ending ≠ .name) → Outcome before path data (.error e) last.passed :=
    fun e ran reason => finished.toBeside.passed.outcome numbered
      (.notRenamed mid last parent written ran reason finished.passed.fileAt?_temp)
  cases of_rename ran with
  | faulty fault next => exact refused _ ran (.inl ⟨fault, next, rfl⟩)
  | directory taken => exact refused _ ran (.inr (.inl ⟨taken, rfl⟩))
  | refused e reason =>
      refine refused _ ran (.inr (.inr fun name => reason ⟨finished.free, ?_, name, _, finished.found, by simp⟩))
      exact obstacle?_of_temp finished.free (ne_empty_of_name name)
  | same _ free found taken =>
      cases finished.found.symm.trans found
      exact finished.passed.outcome_same numbered free taken
  | moved _ free found _ vacant other =>
      cases finished.found.symm.trans found
      exact finished.passed.outcome_moved numbered free vacant (other (by simp))

/-- Replacing the contents of a file.  Only the path, the path beside it and directories made around it are touched.
    Where it goes through the path has the new contents and there is nothing beside it, unless both named one file.
    Where it fails the path is as it was, and so is, or empty is, the path beside it, unless the finished file could not
    take its place or the clean-up met a failure of its own. -/
theorem writeAtomic_outcome {after : Disk} {result : Except IoError Unit} (numbered : d.Numbered)
    (ran : writeAtomic path data d = (result, after)) : Outcome d path data result after := by
  have prepared : Prepared d path (createParent path d).2 :=
    createParent_prepared d ⟨.refl numbered, .inl rfl, rfl⟩
  rcases parent : createParent path d with ⟨made, mid⟩
  rw [parent] at prepared
  cases made with
  | error e =>
      rw [writeAtomic, bind_error parent] at ran
      cases ran
      exact prepared.toBeside.outcome numbered (.untouched prepared.leftAlone prepared.untouched)
  | ok =>
      rcases written : writeTemp path data mid with ⟨result', last⟩
      rw [writeAtomic, bind_ok parent, bind_ok (attempt_apply written)] at ran
      cases result' with
      | ok => exact rename_outcome numbered prepared parent written ran
      | error e =>
          have beside := writeTemp_beside data mid prepared.toBeside
          rw [written] at beside
          have kept := remove_beside last beside
          rcases removed : remove (tempPath path) last with ⟨answer, cleaned⟩
          rw [removed] at kept
          dsimp only at ran
          rw [bind_ok (attempt_apply removed)] at ran
          cases ran
          exact kept.outcome numbered (leftover_of_failed prepared parent written removed)

/-- A write that fails half-way for lack of room: the old contents stay, and nothing is left beside them. -/
theorem writeAtomic_outcome_no_room :
    let d : Disk := ⟨[(["v"], .file 0)], [[1]], [none, some ⟨IoKind.storageFull.error, 1⟩]⟩
    let ran := writeAtomic "v" [2, 3] d
    d.Numbered ∧ ran.1 = .error IoKind.storageFull.error ∧ ran.2.bytesAt? ["v"] = some [1] ∧
      Disk.entry? ran.2 (tempPath "v") = none := by
  intro d ran
  have numbered : d.Numbered := by
    intro place number found
    unfold at? at found
    split at found
    · cases found
    · obtain ⟨front, behind, same, _⟩ := List.lookup_eq_some_iff.1 found
      have mem : (place, Entry.file number) ∈ [(["v"], Entry.file 0)] :=
        (congrArg ((place, Entry.file number) ∈ ·) same).mpr (List.mem_append_right _ List.mem_cons_self)
      cases List.mem_singleton.1 mem
      exact Nat.zero_lt_one
  have failed : ran.1 = .error IoKind.storageFull.error := by decide +kernel
  have refused := (writeAtomic_outcome numbered (rfl : writeAtomic "v" [2, 3] d = (ran.1, ran.2))).refused _ failed
  have alone : ¬ d.SharesTemp "v" (placeOf "v") := by
    rintro ⟨number, beside, _⟩
    exact nomatch (by decide +kernel : d.at? (tempPlace "v") = none).symm.trans beside
  have root : placeOf "v" = ["v"] := by decide +kernel
  exact ⟨numbered, failed, root ▸ (refused.contents alone).trans (by decide +kernel), by decide +kernel⟩

/-- Where the path and the one beside it name one file they still do when it has its new contents. -/
example :
    let d : Disk := ⟨[(["v"], .file 0), (["v.tmp"], .file 0)], [[1]], []⟩
    let ran := writeAtomic "v" [2, 3] d
    ran.1 = .ok () ∧ ran.2.fileAt? "v" = some [2, 3] ∧ Disk.entry? ran.2 "v.tmp" = some (.file 0) := by
  decide +kernel

/-- The finished file that cannot take the place of a directory stays beside it, although nothing was there before. -/
theorem writeAtomic_leaves_file :
    let d := Disk.empty.link "v" .directory
    let ran := writeAtomic "v" [2, 3] d
    d.entry? (tempPath "v") = none ∧ ran.1 = .error IoKind.isADirectory.error ∧
      Disk.entry? ran.2 "v" = some .directory ∧ ran.2.fileAt? (tempPath "v") = some [2, 3] := by
  decide +kernel

end Disk

end JsonSidecar
