/-
Module: JsonSidecar.Proofs.File.Disk
Purpose: What calls come to.  Each call that changes entries is inverted once: it was refused, or it did one of a few
  things.  On a disk where no call fails for a reason of its own a file is followed by its path, its number and its
  contents: opening makes it empty, writing at its end appends, a file that takes another path keeps its contents, and
  reading gives what was written.
Main exports: Disk.Created, Disk.Removed, Disk.Renamed, Disk.Sound, Disk.Holds, Disk.create_holds, Disk.Holds.writeAt,
  Disk.Holds.rename, Disk.Holds.readOpened
-/
import JsonSidecar.File.Disk
import JsonSidecar.Proofs.File.Path
import JsonSidecar.Proofs.File.Source

namespace JsonSidecar

variable {α β : Type}

/-! ### Actions -/

namespace DiskAction

section Bind

variable {ε : Type} {action : ExceptT ε (StateM Disk) α} {d mid last : Disk}

/-- An action that succeeds is followed by the next one, whatever their failures are. -/
theorem bind_ok {a : α} (done : action d = (.ok a, mid)) (next : α → ExceptT ε (StateM Disk) β) :
    (action >>= next) d = next a mid := by
  show ExceptT.bindCont next (action d).1 (action d).2 = _
  rw [done]
  rfl

theorem bind_error {e : ε} (done : action d = (.error e, mid)) (next : α → ExceptT ε (StateM Disk) β) :
    (action >>= next) d = (.error e, mid) := by
  show ExceptT.bindCont next (action d).1 (action d).2 = _
  rw [done]
  rfl

/-- Where two actions succeed together, each of them does. -/
theorem of_bind_ok {next : α → ExceptT ε (StateM Disk) β} {b : β} (done : (action >>= next) d = (.ok b, last)) :
    ∃ a mid, action d = (.ok a, mid) ∧ next a mid = (.ok b, last) := by
  rcases first : action d with ⟨result, mid⟩
  cases result with
  | ok a =>
      rw [bind_ok first] at done
      exact ⟨a, mid, rfl, done⟩
  | error e =>
      rw [bind_error first] at done
      cases done

theorem of_map_ok {f : α → β} {b : β} (done : (f <$> action) d = (.ok b, last)) :
    ∃ a, action d = (.ok a, last) ∧ f a = b := by
  rw [map_eq_pure_bind] at done
  obtain ⟨a, mid, first, done⟩ := of_bind_ok done
  cases done
  exact ⟨a, first, rfl⟩

end Bind

theorem get_apply (d : Disk) : (get : DiskAction Disk) d = (.ok d, d) := rfl

section Keeps

variable {ε : Type} {P : Disk → Prop}

/-- What an action keeps, whatever comes of it. -/
def Keeps (P : Disk → Prop) (action : ExceptT ε (StateM Disk) α) : Prop := ∀ d, P d → P (action d).2

/-- An action and the next one keep what both keep.  The next one may count on what the first one tells of its
    result. -/
theorem Keeps.bind_of {action : ExceptT ε (StateM Disk) α} {next : α → ExceptT ε (StateM Disk) β} {Q : α → Prop}
    (first : Keeps P action) (result : ∀ {d a d'}, P d → action d = (.ok a, d') → Q a)
    (rest : ∀ a, Q a → Keeps P (next a)) : Keeps P (action >>= next) := by
  intro d holds
  have kept := first d holds
  rcases done : action d with ⟨answer, mid⟩
  rw [done] at kept
  cases answer with
  | ok a =>
      rw [bind_ok done]
      exact rest a (result holds done) mid kept
  | error e =>
      rw [bind_error done]
      exact kept

theorem Keeps.bind {action : ExceptT ε (StateM Disk) α} {next : α → ExceptT ε (StateM Disk) β}
    (first : Keeps P action) (rest : ∀ a, Keeps P (next a)) : Keeps P (action >>= next) :=
  first.bind_of (fun _ _ => trivial) fun a _ => rest a

theorem Keeps.pure (a : α) : Keeps P (pure a : ExceptT ε (StateM Disk) α) := fun _ holds => holds

theorem Keeps.throw (e : ε) : Keeps P (throw e : ExceptT ε (StateM Disk) α) := fun _ holds => holds

theorem Keeps.forM {f : β → ExceptT ε (StateM Disk) PUnit} {bs : List β} (each : ∀ b ∈ bs, Keeps P (f b)) :
    Keeps P (bs.forM f) := by
  induction bs with
  | nil => exact .pure _
  | cons b rest ih =>
      exact (each b List.mem_cons_self).bind fun _ => ih fun other mem => each other (List.mem_cons_of_mem _ mem)

end Keeps

end DiskAction

namespace Disk

open DiskAction

/-! ### Places -/

section Places

variable {d d' : Disk} {place other : Place} {entry : Entry} {route : Route} {path : String}

theorem lookup_filter_of_ne (h : other ≠ place) (tree : List (Place × Entry)) :
    (tree.filter fun e => e.1 ≠ place).lookup other = tree.lookup other := by
  induction tree with
  | nil => rfl
  | cons e rest ih =>
      rcases e with ⟨name, entry⟩
      by_cases same : name = place
      · have passed : (other == name) = false := beq_eq_false_iff_ne.2 fun eq => h (eq.trans same)
        rw [List.filter_cons_of_neg (by simpa using same), List.lookup_cons, passed, ih]
      · rw [List.filter_cons_of_pos (by simpa using same), List.lookup_cons, List.lookup_cons, ih]

/-- The directory that holds everything is there, and no call changes that. -/
theorem at?_root (d : Disk) : d.at? [] = some .directory := if_pos rfl

theorem ne_root (regular : d.at? place ≠ some .directory) : place ≠ [] := by
  rintro rfl
  exact regular (at?_root d)

theorem at?_unlinkAt (h : other ≠ place) : at? (d.unlinkAt place) other = d.at? other := by
  unfold at? unlinkAt
  split
  · rfl
  · exact lookup_filter_of_ne h d.tree

theorem at?_unlinkAt_self (named : place ≠ []) : at? (d.unlinkAt place) place = none := by
  unfold at? unlinkAt
  rw [if_neg named, List.lookup_eq_none_iff]
  intro e mem
  have kept : e.1 ≠ place := of_decide_eq_true (List.mem_filter.1 mem).2
  exact bne_iff_ne.2 kept.symm

theorem at?_linkAt_self (named : place ≠ []) : at? (d.linkAt place entry) place = some entry := by
  unfold at? linkAt
  rw [if_neg named]
  exact List.lookup_cons_self

theorem at?_linkAt_of_ne (h : other ≠ place) : at? (d.linkAt place entry) other = d.at? other := by
  have passed : at? (d.linkAt place entry) other = at? (d.unlinkAt place) other := by
    unfold at? linkAt
    split
    · rfl
    · rw [List.lookup_cons, beq_eq_false_iff_ne.2 h]
  rw [passed, at?_unlinkAt h]

/-- What is at a place when a name was taken away was there before, and it is another place. -/
theorem of_at?_unlinkAt (named : place ≠ []) (h : at? (d.unlinkAt place) other = some entry) :
    other ≠ place ∧ d.at? other = some entry := by
  have apart : other ≠ place := by
    rintro rfl
    rw [at?_unlinkAt_self named] at h
    cases h
  rw [at?_unlinkAt apart] at h
  exact ⟨apart, h⟩

/-- What is at a place when something was put somewhere is that, or was there before. -/
theorem of_at?_linkAt {found : Entry} (h : at? (d.linkAt place entry) other = some found) :
    other = place ∧ found = entry ∨ d.at? other = some found := by
  by_cases same : other = place
  · subst same
    by_cases root : other = []
    · rw [root, at?_root] at h
      exact .inr (root ▸ h)
    · rw [at?_linkAt_self root] at h
      exact .inl ⟨rfl, (Option.some.inj h).symm⟩
  · exact .inr ((at?_linkAt_of_ne same).symm.trans h)

/-- A directory stays when the name of something else is taken away, and when something is put where no directory is. -/
theorem at?_unlinkAt_directory (regular : d.at? place ≠ some .directory) (h : d.at? other = some .directory) :
    at? (d.unlinkAt place) other = some .directory := by
  rw [at?_unlinkAt, h]
  rintro rfl
  exact regular h

theorem at?_linkAt_directory (regular : d.at? place ≠ some .directory) (h : d.at? other = some .directory) :
    at? (d.linkAt place entry) other = some .directory := by
  rw [at?_linkAt_of_ne, h]
  rintro rfl
  exact regular h

/-! ### Paths -/

/-- A route can be followed if all that it passes are directories. -/
theorem blocked?_eq_none : d.blocked? route = none ↔ ∀ place ∈ route.around, d.at? place = some .directory := by
  rw [blocked?, List.findSome?_eq_none_iff]
  refine forall₂_congr fun place _ => ?_
  cases d.at? place with
  | none => simp
  | some entry => cases entry <;> simp

theorem obstacle?_eq_none :
    d.obstacle? path = none ↔ path ≠ "" ∧ ∀ place ∈ (Route.ofPath path).around, d.at? place = some .directory := by
  rw [obstacle?, ← blocked?_eq_none]
  split
  · rename_i none
    simp [none]
  · rename_i some
    simp [some]

/-- Where directories stay, every path can still be followed. -/
theorem obstacle?_of_directories (free : d.obstacle? path = none)
    (stay : ∀ place, d.at? place = some .directory → d'.at? place = some .directory) : d'.obstacle? path = none := by
  rw [obstacle?_eq_none] at free ⊢
  exact ⟨free.1, fun place mem => stay place (free.2 place mem)⟩

/-- A path that can be followed can be followed to all names that it has on its way. -/
theorem obstacle?_of_append {suffix : String} (free : d.obstacle? (path ++ suffix) = none) (some : path ≠ "") :
    d.obstacle? path = none := by
  rw [obstacle?_eq_none] at free ⊢
  exact ⟨some, fun place mem => free.2 place (Route.around_append path suffix mem)⟩

theorem entry?_of_free (free : d.obstacle? path = none) : d.entry? path = d.at? (placeOf path) := by
  unfold entry?
  rw [free]
  rfl

theorem entry?_of_blocked {kind : IoKind} (blocked : d.obstacle? path = some kind) : d.entry? path = none := by
  unfold entry?
  rw [blocked]
  rfl

theorem of_entry?_eq_some (found : d.entry? path = some entry) :
    d.obstacle? path = none ∧ d.at? (placeOf path) = some entry := by
  cases blocked : d.obstacle? path with
  | some kind =>
      rw [entry?_of_blocked blocked] at found
      cases found
  | none => exact ⟨rfl, (entry?_of_free blocked).symm.trans found⟩

theorem entry?_of_absent (absent : d.at? (placeOf path) = none) : d.entry? path = none := by
  cases found : d.entry? path with
  | none => rfl
  | some entry => cases absent.symm.trans (of_entry?_eq_some found).2

/-- What is not found is not found either when the name of something else is taken away. -/
theorem entry?_unlinkAt (regular : d.at? place ≠ some .directory) (absent : d.entry? path = none) :
    entry? (d.unlinkAt place) path = none := by
  cases found : entry? (d.unlinkAt place) path with
  | none => rfl
  | some entry =>
      obtain ⟨free, there⟩ := of_entry?_eq_some found
      have stay : ∀ other entry, at? (d.unlinkAt place) other = some entry → d.at? other = some entry :=
        fun _ _ kept => (of_at?_unlinkAt (ne_root regular) kept).2
      have free' : d.obstacle? path = none := obstacle?_of_directories free fun other => stay other .directory
      cases absent.symm.trans ((entry?_of_free free').trans (stay _ _ there))

/-- Entries of one tree are followed alike. -/
theorem entry?_congr (same : d'.tree = d.tree) (path : String) : d'.entry? path = d.entry? path := by
  unfold entry? obstacle? blocked? at?
  rw [same]

theorem fileAt?_congr (same : d'.tree = d.tree) (files : d'.files = d.files) (path : String) :
    d'.fileAt? path = d.fileAt? path := by
  rw [fileAt?, entry?_congr same, fileAt?]
  unfold bytesOf? contents
  rw [files]

end Places

/-! ### Disks without failures -/

/-- No call is going to fail for a reason of its own. -/
def Quiet (d : Disk) : Prop := ∀ fault ∈ d.faults, fault = none

/-- Every file that is named is there. -/
def Numbered (d : Disk) : Prop := ∀ place number, d.at? place = some (.file number) → number < d.files.length

/-- A disk where no call is going to fail for a reason of its own, and where every file that is named is there. -/
structure Sound (d : Disk) : Prop where
  quiet : d.Quiet
  numbered : d.Numbered

/-- A path that can be followed to a file with some contents, on a disk where no call is going to fail. -/
structure Holds (d : Disk) (path : String) (number : Nat) (bytes : Bytes) : Prop where
  quiet : d.Quiet
  free : d.obstacle? path = none
  entry : d.at? (placeOf path) = some (.file number)
  file : d.files[number]? = some bytes

/-- The disk when one call more has been made. -/
def passed (d : Disk) : Disk := { d with faults := d.faults.drop 1 }

theorem empty_sound : empty.Sound where
  quiet _ mem := by cases mem
  numbered place number h := by
    unfold at? at h
    split at h
    · cases h
    · cases h

section Calls

variable {d d' : Disk} {path : String} {route : Route}

theorem Quiet.passed (quiet : d.Quiet) : d.passed.Quiet := fun fault mem => quiet fault (List.mem_of_mem_drop mem)

theorem Sound.passed (sound : d.Sound) : d.passed.Sound where
  quiet := sound.quiet.passed
  numbered := sound.numbered

theorem nextFault_apply (d : Disk) : nextFault d = (.ok d.faults.head?.join, d.passed) := rfl

theorem Quiet.next (quiet : d.Quiet) : d.faults.head?.join = none := by
  cases faults : d.faults with
  | nil => rfl
  | cons fault rest => exact quiet fault (faults ▸ List.mem_cons_self)

theorem Quiet.nextFault (quiet : d.Quiet) : nextFault d = (.ok none, d.passed) := by
  rw [nextFault_apply, quiet.next]

theorem Quiet.begin (quiet : d.Quiet) : begin d = (.ok (), d.passed) := by
  rw [Disk.begin, bind_ok quiet.nextFault]
  rfl

/-- A call meets the failure laid down for it, or goes on. -/
theorem begin_cases (d : Disk) :
    (∃ fault, d.faults.head?.join = some fault ∧ begin d = (.error fault.error, d.passed)) ∨
      begin d = (.ok (), d.passed) := by
  rw [begin, bind_ok (nextFault_apply d)]
  cases d.faults.head?.join with
  | some fault => exact .inl ⟨fault, rfl, rfl⟩
  | none => exact .inr rfl

theorem of_begin_ok (begun : begin d = (.ok (), d')) : d' = d.passed := by
  rcases begin_cases d with ⟨_, _, refused⟩ | passed
  · cases begun.symm.trans refused
  · cases begun.symm.trans passed
    rfl

/-! ### Following -/

theorem follow_free (free : d.blocked? route = none) : follow route d = (.ok (d.at? route.place), d) := by
  rw [follow, bind_ok (get_apply d)]
  simp only [free]
  rfl

theorem follow_blocked {kind : IoKind} (blocked : d.blocked? route = some kind) :
    follow route d = (.error kind.error, d) := by
  rw [follow, bind_ok (get_apply d)]
  simp only [blocked]
  rfl

theorem follow_cases (route : Route) (d : Disk) :
    (∃ e, follow route d = (.error e, d)) ∨ follow route d = (.ok (d.at? route.place), d) := by
  cases blocked : d.blocked? route with
  | some kind => exact .inl ⟨_, follow_blocked blocked⟩
  | none => exact .inr (follow_free blocked)

theorem resolve_free (free : d.obstacle? path = none) : resolve path d = (.ok (d.at? (placeOf path)), d) := by
  have named := (obstacle?_eq_none.1 free).1
  rw [obstacle?, if_neg named] at free
  rw [resolve, if_neg named]
  exact follow_free free

theorem resolve_blocked {kind : IoKind} (blocked : d.obstacle? path = some kind) :
    resolve path d = (.error kind.error, d) := by
  unfold obstacle? at blocked
  unfold resolve
  split at blocked
  · rename_i none
    cases blocked
    rw [if_pos none]
    rfl
  · rename_i named
    rw [if_neg named]
    exact follow_blocked blocked

theorem resolve_cases (path : String) (d : Disk) :
    (∃ e, resolve path d = (.error e, d) ∧ d.obstacle? path ≠ none) ∨
      d.obstacle? path = none ∧ resolve path d = (.ok (d.at? (placeOf path)), d) := by
  cases blocked : d.obstacle? path with
  | some kind => exact .inl ⟨_, resolve_blocked blocked, nofun⟩
  | none => exact .inr ⟨rfl, resolve_free blocked⟩

/-- A path to a file that may be new cannot be followed, or asks for a directory, or leads to its place. -/
theorem resolveNew_cases (path : String) (d : Disk) :
    (∃ e, resolveNew path d = (.error e, d)) ∨ resolveNew path d = (.ok (some .directory), d) ∨
      d.obstacle? path = none ∧ resolveNew path d = (.ok (d.at? (placeOf path)), d) := by
  unfold resolveNew
  split
  · rcases follow_cases (Route.ofPath path).trimmed d with ⟨e, blocked⟩ | found
    · exact .inl ⟨e, bind_error blocked _⟩
    · exact .inr (.inl (bind_ok found _))
  · rcases resolve_cases path d with ⟨e, blocked, _⟩ | found
    · exact .inl ⟨e, blocked⟩
    · exact .inr (.inr found)

/-- A path to a name that may be new cannot be followed, or has a slash at its end, or leads to the place of the name. -/
theorem resolveName_cases (path : String) (d : Disk) :
    (∃ e, resolveName path d = (.error e, d) ∧ ¬ (d.obstacle? path = none ∧ (Route.ofPath path).ending = .name)) ∨
      ((Route.ofPath path).ending = .slash ∧ ∃ taken, resolveName path d = (.ok taken, d)) ∨
      (Route.ofPath path).ending = .name ∧ d.obstacle? path = none ∧
        resolveName path d = (.ok (d.at? (placeOf path)), d) := by
  unfold resolveName
  cases ending : (Route.ofPath path).ending with
  | name =>
      rcases resolve_cases path d with ⟨e, blocked, reason⟩ | ⟨free, found⟩
      · exact .inl ⟨e, blocked, fun inOrder => reason inOrder.1⟩
      · exact .inr (.inr ⟨rfl, free, found⟩)
  | slash =>
      rcases follow_cases (Route.ofPath path).trimmed d with ⟨e, blocked⟩ | found
      · exact .inl ⟨e, blocked, nofun⟩
      · exact .inr (.inl ⟨rfl, _, found⟩)
  | dots =>
      rcases resolve_cases path d with ⟨e, blocked, _⟩ | ⟨_, found⟩
      · exact .inl ⟨e, bind_error blocked _, nofun⟩
      · exact .inl ⟨_, bind_ok found _, nofun⟩

/-! ### What a call comes to -/

/-- What comes of opening a file for writing.  It is refused, or it meets a device, or there is an empty file, which may
    be new. -/
inductive Created (d : Disk) (path : String) : Except IoError OpenFile → Disk → Prop where
  | refused (e : IoError) : Created d path (.error e) d.passed
  | device : d.obstacle? path = none → d.at? (placeOf path) = some .fullDevice →
    Created d path (.ok .fullDevice) d.passed
  | emptied (number : Nat) : d.obstacle? path = none → d.at? (placeOf path) = some (.file number) →
    Created d path (.ok (.file number)) (d.passed.setContents number [])
  | added : d.obstacle? path = none → d.at? (placeOf path) = none →
    Created d path (.ok (.file d.files.length)) (d.passed.addFile (placeOf path))

theorem of_create {result : Except IoError OpenFile} (ran : create path d = (result, d')) : Created d path result d' := by
  rcases begin_cases d with ⟨fault, _, begun⟩ | begun
  · rw [create, bind_error begun] at ran
    cases ran
    exact .refused _
  rw [create, bind_ok begun] at ran
  rcases resolveNew_cases path d.passed with ⟨e, blocked⟩ | asked | ⟨free, found⟩
  · rw [bind_error blocked] at ran
    cases ran
    exact .refused _
  · rw [bind_ok asked] at ran
    cases ran
    exact .refused _
  · rw [bind_ok found] at ran
    cases there : d.passed.at? (placeOf path) with
    | none =>
        rw [there] at ran
        cases ran
        exact .added free there
    | some entry =>
        rw [there] at ran
        cases entry with
        | directory =>
            cases ran
            exact .refused _
        | fullDevice =>
            cases ran
            exact .device free there
        | file number =>
            cases ran
            exact .emptied number free there

/-- What comes of taking a path away.  It goes, unless the call meets a failure of its own, or the path cannot be
    followed, or there is nothing or a directory. -/
inductive Removed (d : Disk) (path : String) : Except IoError Unit → Disk → Prop where
  | faulty (fault : Fault) : d.faults.head?.join = some fault → Removed d path (.error fault.error) d.passed
  | blocked (kind : IoKind) : d.obstacle? path = some kind → Removed d path (.error kind.error) d.passed
  | absent : d.at? (placeOf path) = none → Removed d path (.error IoKind.notFound.error) d.passed
  | directory : d.at? (placeOf path) = some .directory → Removed d path (.error IoKind.isADirectory.error) d.passed
  | gone : d.at? (placeOf path) ≠ some .directory → Removed d path (.ok ()) (d.passed.unlinkAt (placeOf path))

theorem of_remove {result : Except IoError Unit} (ran : remove path d = (result, d')) : Removed d path result d' := by
  rcases begin_cases d with ⟨fault, next, begun⟩ | begun
  · rw [remove, bind_error begun] at ran
    cases ran
    exact .faulty fault next
  rw [remove, bind_ok begun] at ran
  cases blocked : d.passed.obstacle? path with
  | some kind =>
      rw [bind_error (resolve_blocked blocked)] at ran
      cases ran
      exact .blocked kind blocked
  | none =>
      rw [bind_ok (resolve_free blocked)] at ran
      cases there : d.passed.at? (placeOf path) with
      | none =>
          rw [there] at ran
          cases ran
          exact .absent there
      | some entry =>
          rw [there] at ran
          cases entry with
          | directory =>
              cases ran
              exact .directory there
          | fullDevice | file number =>
              cases ran
              exact .gone fun directory => nomatch there.symm.trans directory

/-- What comes of giving an entry another path.  It meets a failure of its own, or it is refused because the paths or
    the entry are not in order or there is a directory, or both paths name one file and stay, or the entry takes the
    other path. -/
inductive Renamed (d : Disk) (source target : String) : Except IoError Unit → Disk → Prop where
  | faulty (fault : Fault) : d.faults.head?.join = some fault → Renamed d source target (.error fault.error) d.passed
  | refused (e : IoError) :
    ¬ (d.obstacle? source = none ∧ d.obstacle? target = none ∧ (Route.ofPath target).ending = .name ∧
      ∃ entry, d.at? (placeOf source) = some entry ∧ entry ≠ .directory) → Renamed d source target (.error e) d.passed
  | directory : d.at? (placeOf target) = some .directory →
    Renamed d source target (.error IoKind.isADirectory.error) d.passed
  | same (number : Nat) : d.obstacle? target = none → d.at? (placeOf source) = some (.file number) →
    d.at? (placeOf target) = some (.file number) → Renamed d source target (.ok ()) d.passed
  | moved (entry : Entry) : d.obstacle? target = none → d.at? (placeOf source) = some entry → entry ≠ .directory →
    d.at? (placeOf target) ≠ some .directory → (entry ≠ .fullDevice → d.at? (placeOf target) ≠ some entry) →
    Renamed d source target (.ok ()) ((d.passed.unlinkAt (placeOf source)).linkAt (placeOf target) entry)

/-- What comes of the last step of a rename, for what is no directory. -/
theorem of_replace {source target : String} {result : Except IoError Unit} {entry : Entry}
    (free : d.obstacle? target = none) (found : d.at? (placeOf source) = some entry) (regular : entry ≠ .directory)
    (ran : replace (placeOf source) (placeOf target) entry (d.passed.at? (placeOf target)) d.passed = (result, d')) :
    Renamed d source target result d' := by
  unfold replace at ran
  split at ran
  · rename_i taken
    cases ran
    exact .directory taken
  · rename_i vacant
    split at ran
    · rename_i one
      cases ran
      cases entry with
      | directory => cases regular rfl
      | fullDevice => cases one.1 rfl
      | file number => exact .same number free found one.2
    · rename_i other
      cases ran
      exact .moved entry free found regular vacant fun device taken => other ⟨device, taken⟩

/-- What is not there, or is a directory, is not given another path. -/
theorem rename_irregular {source : String} (begun : begin d = (.ok (), d.passed)) (free : d.obstacle? source = none)
    (irregular : ∀ entry, d.at? (placeOf source) = some entry → entry = .directory) (target : String) :
    ∃ e, rename source target d = (.error e, d.passed) := by
  have found : resolve source d.passed = (.ok (d.at? (placeOf source)), d.passed) := resolve_free (d := d.passed) free
  have asked : ∃ answer, resolveName target d.passed = (answer, d.passed) := by
    rcases resolveName_cases target d.passed with ⟨_, blocked, _⟩ | ⟨_, _, known⟩ | ⟨_, _, known⟩
    · exact ⟨_, blocked⟩
    · exact ⟨_, known⟩
    · exact ⟨_, known⟩
  obtain ⟨answer, asked⟩ := asked
  rw [rename, bind_ok begun, bind_ok found]
  cases answer with
  | error e => exact ⟨e, bind_error asked _⟩
  | ok taken =>
      rw [bind_ok asked]
      cases there : d.at? (placeOf source) with
      | none => exact ⟨_, rfl⟩
      | some entry =>
          cases irregular entry there
          exact ⟨_, rfl⟩

/-- Anything else is, if the paths are in order. -/
theorem of_rename_regular {source target : String} {result : Except IoError Unit} {entry : Entry}
    (begun : begin d = (.ok (), d.passed)) (free : d.obstacle? source = none)
    (found : d.at? (placeOf source) = some entry) (regular : entry ≠ .directory)
    (ran : rename source target d = (result, d')) : Renamed d source target result d' := by
  have known : resolve source d.passed = (.ok (some entry), d.passed) := found ▸ resolve_free (d := d.passed) free
  rw [rename, bind_ok begun, bind_ok known] at ran
  rcases resolveName_cases target d.passed with ⟨e, blocked, reason⟩ | ⟨slash, taken, known'⟩ | ⟨name, free', known'⟩
  · rw [bind_error blocked] at ran
    cases ran
    exact .refused e fun inOrder => reason ⟨inOrder.2.1, inOrder.2.2.1⟩
  · rw [bind_ok known'] at ran
    cases entry with
    | directory => cases regular rfl
    | fullDevice | file number =>
        simp only [slash] at ran
        cases ran
        exact .refused _ fun inOrder => nomatch slash.symm.trans inOrder.2.2.1
  · rw [bind_ok known'] at ran
    cases entry with
    | directory => cases regular rfl
    | fullDevice | file number =>
        simp only [name] at ran
        exact of_replace free' found regular ran

theorem of_rename {source target : String} {result : Except IoError Unit} (ran : rename source target d = (result, d')) :
    Renamed d source target result d' := by
  rcases begin_cases d with ⟨fault, next, begun⟩ | begun
  · rw [rename, bind_error begun] at ran
    cases ran
    exact .faulty fault next
  rcases resolve_cases source d.passed with ⟨e, blocked, reason⟩ | ⟨free, _⟩
  · rw [rename, bind_ok begun, bind_error blocked] at ran
    cases ran
    exact .refused e fun inOrder => reason inOrder.1
  by_cases regular : ∃ entry, d.at? (placeOf source) = some entry ∧ entry ≠ .directory
  · obtain ⟨entry, found, regular⟩ := regular
    exact of_rename_regular begun free found regular ran
  · have irregular : ∀ entry, d.at? (placeOf source) = some entry → entry = .directory := by
      simpa using regular
    obtain ⟨e, refused⟩ := rename_irregular begun free irregular target
    cases refused.symm.trans ran
    exact .refused e fun inOrder => regular inOrder.2.2.2

/-- What comes of making a directory. -/
theorem of_createDirectory {result : Except IoError Unit} (ran : createDirectory route d = (result, d')) :
    d' = d.passed ∨ d.blocked? route = none ∧ d.at? route.place = none ∧ d' = d.passed.linkAt route.place .directory := by
  rcases begin_cases d with ⟨fault, _, begun⟩ | begun
  · rw [createDirectory, bind_error begun] at ran
    cases ran
    exact .inl rfl
  rw [createDirectory, bind_ok begun] at ran
  cases blocked : d.passed.blocked? route with
  | some kind =>
      rw [bind_error (follow_blocked blocked)] at ran
      cases ran
      exact .inl rfl
  | none =>
      rw [bind_ok (follow_free blocked)] at ran
      cases there : d.passed.at? route.place with
      | none =>
          rw [there] at ran
          cases ran
          exact .inr ⟨blocked, there, rfl⟩
      | some entry =>
          rw [there] at ran
          cases entry with
          | directory | fullDevice | file number =>
              cases ran
              exact .inl rfl

/-! ### What calls keep -/

section Keeps

variable {P : Disk → Prop}

/-- A call keeps what is kept by all that can come of it. -/
theorem keeps_of {ε : Type} {action : ExceptT ε (StateM Disk) α} {R : Disk → Except ε α → Disk → Prop}
    (inverts : ∀ {d d' result}, action d = (result, d') → R d result d')
    (each : ∀ {d d' result}, P d → R d result d' → P d') : Keeps P action :=
  fun _ holds => each holds (inverts rfl)

theorem begin_keeps (pass : ∀ d, P d → P d.passed) : Keeps P begin := by
  refine Keeps.bind pass fun fault => ?_
  cases fault with
  | some fault => exact .throw _
  | none => exact .pure _

theorem writeAt_keeps {file : OpenFile} {offset : Nat} (pass : ∀ d, P d → P d.passed)
    (write : ∀ number, file = .file number → ∀ d written, P d →
      P (d.setContents number (overwrite (d.contents number) offset written)))
    (data : Bytes) : Keeps P (writeAt file offset data) := by
  intro d holds
  unfold writeAt
  split
  · exact holds
  · revert d
    refine Keeps.bind pass fun fault => ?_
    cases file with
    | fullDevice => exact .throw _
    | file number =>
        refine Keeps.bind (fun d holds => write number rfl d _ holds) fun _ => ?_
        cases fault with
        | some fault => exact .throw _
        | none => exact .pure _

theorem sync_keeps (pass : ∀ d, P d → P d.passed) (file : OpenFile) : Keeps P (sync file) := by
  refine (begin_keeps pass).bind fun _ => ?_
  cases file with
  | file number => exact .pure _
  | fullDevice => exact .throw _

/-- A directory is made where nothing is. -/
theorem createDirectory_keeps (pass : ∀ d, P d → P d.passed)
    (make : ∀ d, P d → d.at? route.place = none → P (d.linkAt route.place .directory)) :
    Keeps P (createDirectory route) := by
  refine keeps_of of_createDirectory ?_
  rintro d _ _ holds (rfl | ⟨_, absent, rfl⟩)
  · exact pass d holds
  · exact make d.passed (pass d holds) absent

/-- To make the directories around a path makes no others. -/
theorem createParent_keeps (pass : ∀ d, P d → P d.passed)
    (make : ∀ parent ∈ (Route.ofPath path).parents, ∀ d, P d → d.at? parent.place = none →
      P (d.linkAt parent.place .directory)) : Keeps P (createParent path) := by
  refine Keeps.bind (fun _ holds => holds) fun d => ?_
  dsimp only
  cases (Route.ofPath path).parents.getLast? with
  | none => exact .pure _
  | some parent =>
      dsimp only
      split
      · exact .pure _
      · exact .forM fun parent mem => createDirectory_keeps pass (make parent (List.mem_filter.1 mem).1)

end Keeps

/-! ### Directories -/

theorem Numbered.link_directory (numbered : d.Numbered) (place : Place) : (d.linkAt place .directory).Numbered := by
  intro other number h
  rcases of_at?_linkAt h with ⟨_, new⟩ | h
  · cases new
  · exact numbered other number h

theorem Numbered.createParent_keeps (path : String) : Keeps Numbered (createParent path) :=
  Disk.createParent_keeps (fun _ numbered => numbered) fun _ _ _ numbered _ => numbered.link_directory _

theorem Sound.createParent_keeps (path : String) : Keeps Sound (createParent path) :=
  Disk.createParent_keeps (fun _ sound => sound.passed) fun _ _ _ sound _ =>
    ⟨sound.quiet, Numbered.link_directory sound.numbered _⟩

/-- A directory stays when something else changes its place for one where no directory is. -/
theorem at?_move_directory {source target place : Place} {entry : Entry} (regular : d.at? source ≠ some .directory)
    (vacant : d.at? target ≠ some .directory) (h : d.at? place = some .directory) :
    at? ((d.unlinkAt source).linkAt target entry) place = some .directory := by
  have notTarget : place ≠ target := by
    rintro rfl
    exact vacant h
  rw [at?_linkAt_of_ne notTarget, at?_unlinkAt_directory regular h]

/-! ### Files -/

theorem bytesAt?_congr {place : Place} (entry : d'.at? place = d.at? place) (files : d'.files = d.files) :
    d'.bytesAt? place = d.bytesAt? place := by
  rw [bytesAt?, entry, bytesAt?]
  unfold bytesOf? contents
  rw [files]

theorem fileAt?_of_free (free : d.obstacle? path = none) : d.fileAt? path = d.bytesAt? (placeOf path) := by
  rw [fileAt?, entry?_of_free free, bytesAt?]

theorem fileAt?_of_holds {number : Nat} {bytes : Bytes} (holds : d.Holds path number bytes) :
    d.fileAt? path = some bytes := by
  rw [fileAt?_of_free holds.free, bytesAt?, holds.entry]
  show some (d.contents number) = _
  rw [contents, holds.file]
  rfl

/-- A file that was opened for writing is at its path, and empty; only the failure of one call was used up. -/
theorem create_opened {number : Nat} (numbered : d.Numbered) (created : create path d = (.ok (.file number), d')) :
    d'.faults = d.passed.faults ∧ d'.obstacle? path = none ∧ d'.at? (placeOf path) = some (.file number) ∧
      d'.files[number]? = some [] := by
  cases of_create created with
  | emptied _ free there => exact ⟨rfl, free, there, List.getElem?_set_self (numbered _ number there)⟩
  | added free absent =>
      have vacant : d.passed.at? (placeOf path) ≠ some .directory := fun directory => nomatch absent.symm.trans directory
      exact ⟨rfl, obstacle?_of_directories (d := d.passed) free fun _ => at?_linkAt_directory vacant,
        at?_linkAt_self (ne_root vacant), List.getElem?_concat_length⟩

theorem create_holds {number : Nat} (sound : d.Sound) (created : create path d = (.ok (.file number), d')) :
    d'.Holds path number [] := by
  obtain ⟨faults, free, entry, file⟩ := create_opened sound.numbered created
  refine ⟨?_, free, entry, file⟩
  intro fault mem
  rw [faults] at mem
  exact sound.quiet.passed fault mem

theorem overwrite_end (bytes data : Bytes) : overwrite bytes bytes.length data = bytes ++ data := by
  rw [overwrite, List.take_length, Nat.sub_self, List.drop_eq_nil_of_le (Nat.le_add_right _ _), List.append_nil]
  exact congrArg (· ++ data) (List.append_nil bytes)

namespace Holds

variable {number : Nat} {bytes : Bytes}

theorem passed (holds : d.Holds path number bytes) : d.passed.Holds path number bytes where
  quiet := holds.quiet.passed
  free := holds.free
  entry := holds.entry
  file := holds.file

theorem contents (holds : d.Holds path number bytes) : d.contents number = bytes := by
  rw [Disk.contents, holds.file]
  rfl

theorem setContents (holds : d.Holds path number bytes) (replaced : Bytes) :
    (d.setContents number replaced).Holds path number replaced where
  quiet := holds.quiet
  free := holds.free
  entry := holds.entry
  file := List.getElem?_set_self (List.getElem?_eq_some_iff.1 holds.file).1

/-- To write at the end of a file is to append. -/
theorem writeAt (holds : d.Holds path number bytes) (data : Bytes) :
    ∃ d', Disk.writeAt (.file number) bytes.length data d = (.ok (), d') ∧ d'.Holds path number (bytes ++ data) ∧
      d'.tree = d.tree := by
  cases data with
  | nil =>
      rw [List.append_nil]
      exact ⟨d, rfl, holds, rfl⟩
  | cons b rest =>
      refine ⟨d.passed.setContents number (bytes ++ b :: rest), ?_, holds.passed.setContents _, rfl⟩
      rw [Disk.writeAt]
      simp only [List.isEmpty_cons, Bool.false_eq_true, if_false]
      rw [bind_ok holds.quiet.nextFault]
      show (Except.ok (), d.passed.setContents number (overwrite (d.contents number) bytes.length (b :: rest))) = _
      rw [holds.contents, overwrite_end]

theorem sync (holds : d.Holds path number bytes) :
    ∃ d', Disk.sync (.file number) d = (.ok (), d') ∧ d'.Holds path number bytes ∧ d'.tree = d.tree := by
  refine ⟨d.passed, ?_, holds.passed, rfl⟩
  rw [Disk.sync, bind_ok holds.quiet.begin]
  rfl

/-- A file that takes another path keeps its contents. -/
theorem rename {target : String} (holds : d.Holds path number bytes)
    (renamed : Disk.rename path target d = (.ok (), d')) : d'.Holds target number bytes := by
  cases of_rename renamed with
  | same _ free found taken =>
      cases holds.entry.symm.trans found
      exact ⟨holds.quiet.passed, free, taken, holds.file⟩
  | moved _ free found _ vacant =>
      cases holds.entry.symm.trans found
      have regular : d.passed.at? (placeOf path) ≠ some .directory := fun directory => nomatch found.symm.trans directory
      exact ⟨holds.quiet.passed, obstacle?_of_directories (d := d.passed) free fun _ => at?_move_directory regular vacant,
        at?_linkAt_self (ne_root vacant), holds.file⟩

/-- A file is opened and read as a whole. -/
theorem openToRead (holds : d.Holds path number bytes) : Disk.openToRead path d = (.ok (.file number), d.passed) := by
  rw [Disk.openToRead, bind_ok holds.quiet.begin, bind_ok (resolve_free holds.passed.free), holds.passed.entry]
  rfl

theorem readOpened (holds : d.Holds path number bytes) : Disk.readOpened (.file number) d = (.ok bytes, d.passed) := by
  rw [Disk.readOpened, bind_ok holds.quiet.nextFault, bind_ok (get_apply d.passed)]
  dsimp only
  rw [holds.passed.contents, readGrowing_plain]
  rfl

end Holds

end Calls

end Disk

end JsonSidecar
