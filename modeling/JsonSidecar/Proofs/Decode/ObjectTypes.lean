/-
Module: JsonSidecar.Proofs.Decode.ObjectTypes
Purpose: The types that are written as objects with known keys: records, complex numbers, ranges and descriptors.  A
  text of such a type is accepted exactly if each of its members can be read or passed over and the last members under
  the known keys give a value.  So nothing else counts: members may be permuted, others may be put between them, and
  keys may be written with any escapes, and a field without a member has its default.
Main exports: Ty.memberKeys, Ty.Admits, Ty.Gives, Ty.read_object_iff, Ty.read_members
-/
import JsonSidecar.Proofs.Decode.Members

namespace JsonSidecar

open Reader

variable {S β : Type}

/-- What the members give under a key: what the text of the last one there holds, or a default if there is none. -/
def Given (key : Bytes) (holds : Bytes → β → Prop) (default : β) (members : List (Bytes × Bytes)) (b : β) : Prop :=
  (∃ u, LastUnder key members u ∧ holds u b) ∨ Lacks key members ∧ b = default

/-- A member of a record: under the key of a field, a text in which the type of the field finds its value, and under any
    other key one that is passed over. -/
inductive FieldMember (schema : Schema S) (store : Option BlobView) (s : S) (key : Bytes) : Option Val → Bytes → Prop where
  | given {f : Field S} {x : Val} {w : Bytes} : (schema s).fields.find? (fun f => f.key = key) = some f → Opens w →
      (f.type.read schema store).Finds w x → FieldMember schema store s key (some x) w
  | unknown {w : Bytes} : (schema s).fields.find? (fun f => f.key = key) = none → Passed w →
      FieldMember schema store s key none w

/-- The keys of the parts of complex numbers. -/
def complexKeys : List Bytes := [ascii "real", ascii "imag"]

/-- The keys of the bounds of ranges. -/
def rangeKeys : List Bytes := [ascii "min", ascii "max"]

namespace Ty

variable (schema : Schema S) (store : Option BlobView)

/-- The keys that a type knows, if its values are written as objects with known keys. -/
def memberKeys : Ty S → Option (List Bytes)
  | .record s => some ((schema s).fields.map Field.key)
  | .scalar .complex => some complexKeys
  | .range => some rangeKeys
  | .descriptor => some descriptorKeys
  | _ => none

/-- The text may stand as the value of a member under the key. -/
def Admits (key u : Bytes) : Ty S → Prop
  | .record s => ∃ x, FieldMember schema store s key x u
  | .scalar .complex => ∃ x, DoubleMember complexKeys key x u
  | .range => ∃ x, DoubleMember rangeKeys key x u
  | .descriptor => ∃ x, DescriptorMember.Spelled key x u
  | _ => False

/-- The members give the value: each part of it is what the last member under its key holds, or a default.  Only the
    range of a descriptor has a default, its other parts have to be given. -/
def Gives (members : List (Bytes × Bytes)) (v : Val) : Ty S → Prop
  | .record s => ∃ values, v = .record values ∧ List.Forall₂ (fun f x =>
      Given f.key (fun u x => FieldMember schema store s f.key (some x) u) f.default members x)
      (schema s).fields values
  | .scalar .complex => ∃ re im, v = .scalar (.complex re im) ∧
      Given (ascii "real") (fun u x => DoubleMember complexKeys (ascii "real") (some x) u) 0 members re ∧
      Given (ascii "imag") (fun u x => DoubleMember complexKeys (ascii "imag") (some x) u) 0 members im
  | .range => ∃ r, v = .range r ∧
      Given (ascii "min") (fun u x => DoubleMember rangeKeys (ascii "min") (some x) u) 0 members r.min ∧
      Given (ascii "max") (fun u x => DoubleMember rangeKeys (ascii "max") (some x) u) 0 members r.max
  | .descriptor => ∃ d, v = .descriptor d ∧
      (∃ u, LastUnder (ascii "dtype") members u ∧
        DescriptorMember.Spelled (ascii "dtype") (.element d.element) u) ∧
      (∃ u, LastUnder (ascii "shape") members u ∧ DescriptorMember.Spelled (ascii "shape") (.shape d.shape) u) ∧
      (∃ u, LastUnder (ascii "offset") members u ∧ DescriptorMember.Spelled (ascii "offset") (.offset d.offset) u) ∧
      (∃ u, LastUnder (ascii "byteLength") members u ∧
        DescriptorMember.Spelled (ascii "byteLength") (.byteLength d.byteLength) u) ∧
      Given (ascii "range") (fun u r => DescriptorMember.Spelled (ascii "range") (.range r) u) .zero members d.range
  | _ => False

end Ty

/-! ### Values from members -/

section Values

variable {members members' : List (Bytes × Bytes)} {key : Bytes}

theorem Given.congr (same : ∀ u, LastUnder key members u ↔ LastUnder key members' u) {holds : Bytes → β → Prop}
    {default b : β} : Given key holds default members b ↔ Given key holds default members' b := by
  simp only [Given, lacks_iff_forall_not, same]

/-- What a reader takes from the last member under a key is what the text gives there. -/
theorem lastOf_getD_eq_iff {value : Bytes → Reader (Option β)} {spelled : Bytes → Option β → Bytes → Prop}
    (recognises : ∀ key, (value key).Recognises EndsToken (spelled key)) {ms : List (Bytes × Option β)}
    (all : MembersRead spelled ms members) (known : ∀ x u, spelled key x u → ∃ b, x = some b) (default : β) {b : β} :
    (lastOf key ms).getD default = b ↔ Given key (fun u b => spelled key (some b) u) default members b := by
  have picks : ∀ m ∈ ms, PicksUnder key some (fun m => if m.1 = key then m.2 else none) m := by
    rintro ⟨name, x⟩ mem
    by_cases same : name = key
    · obtain ⟨m, _, _, spells⟩ := exists_of_forall₂ all.flip mem
      subst same
      obtain ⟨b, rfl⟩ := known x m.2 (by simp_all)
      exact .inl ⟨b, rfl, if_pos rfl⟩
    · exact .inr ⟨same, if_neg same⟩
  rw [lastOf, getLast?_getD_eq_iff picks (Option.some_injective _), lastUnder_read_iff recognises all,
    lacks_read_iff all, Given]

/-- Members are read if each of them can be. -/
theorem exists_membersRead_iff {spelled : Bytes → β → Bytes → Prop} :
    (∃ ms, MembersRead spelled ms members) ↔ ∀ m ∈ members, ∃ x, spelled m.1 x m.2 := by
  constructor
  · rintro ⟨ms, all⟩ m mem
    obtain ⟨m', _, same, spells⟩ := exists_of_forall₂ all mem
    exact ⟨m'.2, spells⟩
  · intro each
    induction members with
    | nil => exact ⟨[], .nil⟩
    | cons m members ih =>
        obtain ⟨x, spells⟩ := each m List.mem_cons_self
        obtain ⟨ms, all⟩ := ih fun m mem => each m (List.mem_cons_of_mem _ mem)
        exact ⟨(m.1, x) :: ms, .cons ⟨rfl, spells⟩ all⟩

/-- A value that is made of the members of an object is told by their texts. -/
theorem exists_membersRead_and_iff {γ : Type} {spelled : Bytes → β → Bytes → Prop} {made : List (Bytes × β) → γ → Prop}
    {gives : γ → Prop} (told : ∀ ms, MembersRead spelled ms members → ∀ v, made ms v ↔ gives v) {v : γ} :
    (∃ ms, MembersRead spelled ms members ∧ made ms v) ↔ (∀ m ∈ members, ∃ x, spelled m.1 x m.2) ∧ gives v := by
  rw [← exists_membersRead_iff]
  constructor
  · rintro ⟨ms, all, makes⟩
    exact ⟨⟨ms, all⟩, (told ms all v).1 makes⟩
  · rintro ⟨⟨ms, all⟩, gives⟩
    exact ⟨ms, all, (told ms all v).2 gives⟩

/-- The values of fields that are computed one by one. -/
theorem eq_map_iff_forall₂ {α : Type} {f : α → β} {as : List α} {bs : List β} :
    bs = as.map f ↔ List.Forall₂ (fun a b => f a = b) as bs := by
  rw [eq_comm, ← List.forall₂_eq_eq_eq, List.forall₂_map_left_iff]

end Values

/-! ### The readers of these types -/

section Types

variable {schema : Schema S} {store : Option BlobView} {members members' : List (Bytes × Bytes)} {w : Bytes}
  {c later : Cursor} {v : Val}

theorem fieldMember_recognises (s : S) (key : Bytes) :
    (orSkip (schema s).name (((schema s).fields.find? fun f => f.key = key).map fun f =>
      f.type.read schema store)).Recognises EndsToken (FieldMember schema store s key) := by
  cases found : (schema s).fields.find? fun f => f.key = key with
  | some f =>
      refine ((f.type.read_relayable schema store).recognises.map some).congr fun x w => ?_
      constructor
      · rintro ⟨x, ⟨opens, finds⟩, rfl⟩
        exact .given found opens finds
      · rintro (⟨known, opens, finds⟩ | ⟨missing, _⟩)
        · cases found.symm.trans known
          exact ⟨_, ⟨opens, finds⟩, rfl⟩
        · cases found.symm.trans missing
  | none =>
      refine ((passValue_recognises (schema s).name).map fun _ => none).congr fun x w => ?_
      constructor
      · rintro ⟨_, passed, rfl⟩
        exact .unknown found passed
      · rintro (⟨known, _⟩ | ⟨_, passed⟩)
        · cases found.symm.trans known
        · exact ⟨(), passed, rfl⟩

theorem fieldMember_skippable (s : S) (key : Bytes) :
    (orSkip (schema s).name (((schema s).fields.find? fun f => f.key = key).map fun f =>
      f.type.read schema store)).Skippable := by
  cases (schema s).fields.find? fun f => f.key = key with
  | some f => exact (f.type.read_skippable store schema).map some
  | none => exact (passValue_skippable _).map fun _ => none

/-- Under the key of a field stands no member that is passed over. -/
theorem FieldMember.known {s : S} {f : Field S} (mem : f ∈ (schema s).fields) {x : Option Val} {u : Bytes}
    (spells : FieldMember schema store s f.key x u) : ∃ b, x = some b := by
  cases spells with
  | given => exact ⟨_, rfl⟩
  | unknown missing =>
      have other := List.find?_eq_none.1 missing f mem
      simp at other

theorem read_record_eq_ok_iff (s : S) : (Ty.record s).read schema store c = .ok v later ↔
    ∃ ms, object (schema s).name (fun key => orSkip (schema s).name
        (((schema s).fields.find? fun f => f.key = key).map fun f => f.type.read schema store)) c = .ok ms later ∧
      Val.record ((schema s).fields.map fun f => (lastOf f.key ms).getD f.default) = v := by
  rw [Ty.read_record]
  exact Outcome.map_eq_ok

theorem read_record_iff (s : S) (text : ObjectText members w) (spans : c.skipSpace.Spans w later) :
    (Ty.record s).read schema store c = .ok v later ↔
      (∀ m ∈ members, (Ty.record s).Admits schema store m.1 m.2) ∧ (Ty.record s).Gives schema store members v := by
  rw [read_record_eq_ok_iff]
  simp only [object_eq_ok_iff (fieldMember_recognises s) (fieldMember_skippable s) text spans]
  have told (ms : List (Bytes × Option Val)) (all : MembersRead (FieldMember schema store s) ms members) (v : Val) :
      Val.record ((schema s).fields.map fun f => (lastOf f.key ms).getD f.default) = v ↔
        (Ty.record s).Gives schema store members v := by
    have field {f : Field S} (mem : f ∈ (schema s).fields) {x : Val} := lastOf_getD_eq_iff (b := x)
      (fieldMember_recognises s) all (fun _ _ => FieldMember.known mem) f.default
    constructor
    · rintro rfl
      refine ⟨_, rfl, (forall₂_mem (eq_map_iff_forall₂.1 rfl)).imp ?_⟩
      rintro f x ⟨mem, _, same⟩
      exact (field mem).1 same
    · rintro ⟨values, rfl, given⟩
      refine congrArg Val.record (eq_map_iff_forall₂.2 ((forall₂_mem given).imp ?_)).symm
      rintro f x ⟨mem, _, given⟩
      exact (field mem).2 given
  exact exists_membersRead_and_iff told

/-- Under a known key stands no member that is passed over. -/
theorem DoubleMember.known {keys : List Bytes} {key : Bytes} (mem : key ∈ keys) {x : Option UInt64} {u : Bytes}
    (spells : DoubleMember keys key x u) : ∃ b, x = some b := by
  cases spells with
  | given => exact ⟨_, rfl⟩
  | unknown other => exact absurd mem other

/-- An object with numbers under some keys gives the numbers of the last members there. -/
theorem readDoubles_iff {expected : String} {keys : List Bytes} (text : ObjectText members w)
    (spans : c.skipSpace.Spans w later) {ms : List (Bytes × Option UInt64)} :
    readDoubles expected keys c = .ok ms later ↔ MembersRead (DoubleMember keys) ms members :=
  object_eq_ok_iff (doubleMember_recognises expected keys) (fun key => (doubleMember_plain expected keys key).skippable)
    text spans

theorem doubleGiven_iff {keys : List Bytes} {ms : List (Bytes × Option UInt64)}
    (all : MembersRead (DoubleMember keys) ms members) {key : Bytes} (mem : key ∈ keys) {b : UInt64} :
    (lastOf key ms).getD 0 = b ↔ Given key (fun u x => DoubleMember keys key (some x) u) 0 members b :=
  lastOf_getD_eq_iff (doubleMember_recognises "" keys) all (fun _ _ => DoubleMember.known mem) 0

theorem read_complex_eq_ok_iff : (Ty.scalar .complex : Ty S).read schema store c = .ok v later ↔
    ∃ ms, readDoubles Scalar.complex.name complexKeys c = .ok ms later ∧
      Val.scalar (.complex ((lastOf (ascii "real") ms).getD 0) ((lastOf (ascii "imag") ms).getD 0)) = v := by
  show (Val.scalar <$> (fun ms => Datum.complex ((lastOf (ascii "real") ms).getD 0) ((lastOf (ascii "imag") ms).getD 0)) <$>
    readDoubles Scalar.complex.name complexKeys) c = _ ↔ _
  simp only [Scan.map_apply, Outcome.map_eq_ok, exists_exists_and_eq_and]

theorem read_complex_iff (text : ObjectText members w) (spans : c.skipSpace.Spans w later) :
    (Ty.scalar .complex : Ty S).read schema store c = .ok v later ↔
      (∀ m ∈ members, (Ty.scalar .complex : Ty S).Admits schema store m.1 m.2) ∧
        (Ty.scalar .complex : Ty S).Gives schema store members v := by
  rw [read_complex_eq_ok_iff]
  simp only [readDoubles_iff text spans]
  have told (ms : List (Bytes × Option UInt64)) (all : MembersRead (DoubleMember complexKeys) ms members) (v : Val) :
      Val.scalar (.complex ((lastOf (ascii "real") ms).getD 0) ((lastOf (ascii "imag") ms).getD 0)) = v ↔
        (Ty.scalar .complex : Ty S).Gives schema store members v := by
    simp only [Ty.Gives, ← doubleGiven_iff all (show ascii "real" ∈ complexKeys by simp [complexKeys]),
      ← doubleGiven_iff all (show ascii "imag" ∈ complexKeys by simp [complexKeys])]
    simp [eq_comm]
  exact exists_membersRead_and_iff told

theorem read_range_eq_ok_iff : (Ty.range : Ty S).read schema store c = .ok v later ↔
    ∃ ms, readDoubles Ty.rangeName rangeKeys c = .ok ms later ∧
      Val.range ⟨(lastOf (ascii "min") ms).getD 0, (lastOf (ascii "max") ms).getD 0⟩ = v := by
  show (Val.range <$> (fun ms => NumericRange.mk ((lastOf (ascii "min") ms).getD 0) ((lastOf (ascii "max") ms).getD 0)) <$>
    readDoubles Ty.rangeName rangeKeys) c = _ ↔ _
  simp only [Scan.map_apply, Outcome.map_eq_ok, exists_exists_and_eq_and]

theorem read_range_iff (text : ObjectText members w) (spans : c.skipSpace.Spans w later) :
    (Ty.range : Ty S).read schema store c = .ok v later ↔
      (∀ m ∈ members, (Ty.range : Ty S).Admits schema store m.1 m.2) ∧
        (Ty.range : Ty S).Gives schema store members v := by
  rw [read_range_eq_ok_iff]
  simp only [readDoubles_iff text spans]
  have told (ms : List (Bytes × Option UInt64)) (all : MembersRead (DoubleMember rangeKeys) ms members) (v : Val) :
      Val.range ⟨(lastOf (ascii "min") ms).getD 0, (lastOf (ascii "max") ms).getD 0⟩ = v ↔
        (Ty.range : Ty S).Gives schema store members v := by
    simp only [Ty.Gives, ← doubleGiven_iff all (show ascii "min" ∈ rangeKeys by simp [rangeKeys]),
      ← doubleGiven_iff all (show ascii "max" ∈ rangeKeys by simp [rangeKeys])]
    constructor
    · rintro rfl
      exact ⟨_, rfl, rfl, rfl⟩
    · rintro ⟨⟨least, greatest⟩, rfl, rfl, rfl⟩
      rfl
  exact exists_membersRead_and_iff told

theorem readDescriptor_iff (text : ObjectText members w) (spans : c.skipSpace.Spans w later) {d : Descriptor} :
    readDescriptor c = .ok d later ↔ ∃ ms, MembersRead DescriptorMember.Spelled ms members ∧ d.GivenBy ms := by
  rw [readDescriptor_recognises.eq_ok_of_spans spans]
  refine exists_congr fun ms => and_congr_left fun _ => ?_
  exact enclosed_iff_membersRead readDescriptorMember_recognises
    (fun key => (readDescriptorMember_plain key).skippable) text

theorem read_descriptor_iff (text : ObjectText members w) (spans : c.skipSpace.Spans w later) :
    (Ty.descriptor : Ty S).read schema store c = .ok v later ↔
      (∀ m ∈ members, (Ty.descriptor : Ty S).Admits schema store m.1 m.2) ∧
        (Ty.descriptor : Ty S).Gives schema store members v := by
  show (Val.descriptor <$> readDescriptor) c = _ ↔ _
  simp only [Scan.map_apply, Outcome.map_eq_ok, readDescriptor_iff text spans]
  have told (ms : List (Bytes × DescriptorMember)) (all : MembersRead DescriptorMember.Spelled ms members) (v : Val) :
      (∃ d : Descriptor, d.GivenBy ms ∧ Val.descriptor d = v) ↔
        (Ty.descriptor : Ty S).Gives schema store members v := by
    have last {key : Bytes} {member : DescriptorMember} : LastUnder key ms member ↔
        ∃ u, LastUnder key members u ∧ DescriptorMember.Spelled key member u :=
      lastUnder_read_iff readDescriptorMember_recognises all
    simp only [Ty.Gives, Given, ← last, ← lacks_read_iff all]
    constructor
    · rintro ⟨d, given, rfl⟩
      exact ⟨d, rfl, given.element, given.shape, given.offset, given.byteLength, given.range⟩
    · rintro ⟨d, rfl, element, shape, offset, byteLength, range⟩
      exact ⟨d, ⟨element, shape, offset, byteLength, range⟩, rfl⟩
  refine Iff.trans ?_ (exists_membersRead_and_iff told)
  constructor
  · rintro ⟨d, ⟨ms, all, given⟩, same⟩
    exact ⟨ms, all, d, given, same⟩
  · rintro ⟨ms, all, d, given, same⟩
    exact ⟨d, ⟨ms, all, given⟩, same⟩

end Types

/-! ### All of these types -/

section Objects

variable {schema : Schema S} {store : Option BlobView} {t : Ty S} {keys : List Bytes}
  {members members' : List (Bytes × Bytes)} {key w : Bytes} {c later : Cursor} {v : Val}

/-- A value that makes a whole text may be passed over in any other one. -/
theorem passed_of_skipValue {u : Bytes} {tree : Skeleton} (spells : tree.Spells u)
    (skipped : skipValue 0 (Cursor.start u) = .ok () ⟨u.length, []⟩) : Passed u := by
  have spans : (Cursor.start u).Spans u ⟨u.length, []⟩ := ⟨(List.append_nil u).symm, (Nat.zero_add _).symm⟩
  have read : passValue "" (Cursor.start u) = .ok () ⟨u.length, []⟩ := by
    rw [passValue, lexed, skipped]
    rfl
  obtain ⟨w, spans', passed⟩ := (passValue_recognises "").sound read
  rw [spells.opens.skipSpace spans] at spans'
  exact spans'.span_eq.symm.trans spans.span_eq ▸ passed

namespace Ty

/-- A text of a type with known keys is accepted exactly if its members can stand there and give a value. -/
theorem read_object_iff (object : t.memberKeys schema = some keys) (text : ObjectText members w)
    (spans : c.skipSpace.Spans w later) : t.read schema store c = .ok v later ↔
      (∀ m ∈ members, t.Admits schema store m.1 m.2) ∧ t.Gives schema store members v := by
  match t, object with
  | .record s, _ => exact read_record_iff s text spans
  | .scalar .complex, _ => exact read_complex_iff text spans
  | .range, _ => exact read_range_iff text spans
  | .descriptor, _ => exact read_descriptor_iff text spans

/-- What is read as a value of such a type is the text of an object. -/
theorem exists_objectText_of_read (object : t.memberKeys schema = some keys)
    (read : t.read schema store c = .ok v later) : ∃ members w, c.skipSpace.Spans w later ∧ ObjectText members w := by
  have numbers (expected : String) (keys : List Bytes) {ms : List (Bytes × Option UInt64)}
      (read : readDoubles expected keys c = .ok ms later) :
      ∃ members w, c.skipSpace.Spans w later ∧ ObjectText members w :=
    object_text (doubleMember_recognises expected keys) (fun key => (doubleMember_plain expected keys key).skippable) read
  match t, object with
  | .record s, _ =>
      obtain ⟨ms, read, _⟩ := (read_record_eq_ok_iff s).1 read
      exact object_text (fieldMember_recognises s) (fieldMember_skippable s) read
  | .scalar .complex, _ =>
      obtain ⟨ms, read, _⟩ := read_complex_eq_ok_iff.1 read
      exact numbers _ _ read
  | .range, _ =>
      obtain ⟨ms, read, _⟩ := read_range_eq_ok_iff.1 read
      exact numbers _ _ read
  | .descriptor, _ =>
      obtain ⟨d, read, _⟩ := Outcome.map_eq_ok.1 read
      obtain ⟨w, spans, ms, text, _⟩ := readDescriptor_recognises.sound read
      obtain ⟨members, text⟩ := exists_objectText readDescriptorMember_recognises
        (fun key => (readDescriptorMember_plain key).skippable) text
      exact ⟨members, w, spans, text⟩

/-- A member under any other key may stand there if its value is passed over. -/
theorem Admits.of_passed (object : t.memberKeys schema = some keys) (other : key ∉ keys) (passed : Passed w) :
    t.Admits schema store key w := by
  match t, object with
  | .record s, rfl =>
      refine ⟨none, .unknown (List.find?_eq_none.2 fun f mem same => other ?_) passed⟩
      exact List.mem_map.2 ⟨f, mem, of_decide_eq_true same⟩
  | .scalar .complex, rfl => exact ⟨none, .unknown other passed⟩
  | .range, rfl => exact ⟨none, .unknown other passed⟩
  | .descriptor, rfl => exact ⟨.unknown, .unknown other passed⟩

/-- The value that members give depends on nothing but the last ones under the known keys. -/
theorem Gives.of_same (object : t.memberKeys schema = some keys)
    (same : ∀ key ∈ keys, ∀ u, LastUnder key members u ↔ LastUnder key members' u)
    (gives : t.Gives schema store members v) : t.Gives schema store members' v := by
  match t, object with
  | .record s, rfl =>
      obtain ⟨values, rfl, given⟩ := gives
      refine ⟨values, rfl, (forall₂_mem given).imp ?_⟩
      rintro f x ⟨mem, _, given⟩
      exact (Given.congr (same _ (List.mem_map_of_mem mem))).1 given
  | .scalar .complex, rfl =>
      obtain ⟨re, im, rfl, real, imag⟩ := gives
      exact ⟨re, im, rfl, (Given.congr (same _ (by simp [complexKeys]))).1 real,
        (Given.congr (same _ (by simp [complexKeys]))).1 imag⟩
  | .range, rfl =>
      obtain ⟨r, rfl, least, greatest⟩ := gives
      exact ⟨r, rfl, (Given.congr (same _ (by simp [rangeKeys]))).1 least,
        (Given.congr (same _ (by simp [rangeKeys]))).1 greatest⟩
  | .descriptor, rfl =>
      have last {name : Bytes} (known : name ∈ descriptorKeys) {holds : Bytes → Prop}
          (given : ∃ u, LastUnder name members u ∧ holds u) : ∃ u, LastUnder name members' u ∧ holds u := by
        obtain ⟨u, last, held⟩ := given
        exact ⟨u, (same name known u).1 last, held⟩
      obtain ⟨d, rfl, element, shape, offset, byteLength, range⟩ := gives
      exact ⟨d, rfl, last (by simp [descriptorKeys]) element, last (by simp [descriptorKeys]) shape,
        last (by simp [descriptorKeys]) offset, last (by simp [descriptorKeys]) byteLength,
        (Given.congr (same _ (by simp [descriptorKeys]))).1 range⟩

variable (schema store)

/-- Every text with these members, wherever it stands, with any white space between its tokens and with its keys written
    in any way, is read as the value. -/
def ReadsAs (t : Ty S) (members : List (Bytes × Bytes)) (v : Val) : Prop :=
  ∀ (w : Bytes) (c later : Cursor), ObjectText members w → c.skipSpace.Spans w later →
    t.read schema store c = .ok v later

/-- What a text with these members is read as depends on the last ones under the known keys only. -/
structure ToldBy (t : Ty S) (keys : List Bytes) (members : List (Bytes × Bytes)) (v : Val) : Prop where
  /-- Each part of the value is what the last member under its key holds, or its default. -/
  gives : t.Gives schema store members v
  /-- Literals with escapes that denote the same key are the same, and so is white space. -/
  spelled : t.ReadsAs schema store members v
  /-- An accepted text with the same last members under the known keys is read as the same value. -/
  determined : ∀ (members' : List (Bytes × Bytes)) (w : Bytes) (c later : Cursor) (v' : Val),
    ObjectText members' w → c.skipSpace.Spans w later → t.read schema store c = .ok v' later →
    (∀ key ∈ keys, ∀ u, LastUnder key members u ↔ LastUnder key members' u) → v' = v
  /-- Members with different keys may change places. -/
  rearranged : ∀ members', Rearranged members members' → t.ReadsAs schema store members' v
  /-- If no key occurs twice, the members may stand in any order. -/
  permuted : (members.map Prod.fst).Nodup → ∀ members', members.Perm members' → t.ReadsAs schema store members' v
  /-- Members under other keys may stand anywhere, as long as their values are passed over. -/
  inserted : ∀ (front behind : List (Bytes × Bytes)) (key u : Bytes), members = front ++ behind → key ∉ keys →
    skipValue 0 (Cursor.start u) = .ok () ⟨u.length, []⟩ →
    t.ReadsAs schema store (front ++ (key, u) :: behind) v

/-- On every text that is accepted as a record, a complex number, a range or a descriptor, the value depends on the last
    member under each known key only: neither on the order of the members, nor on members under other keys, nor on how
    keys are written.  A part without a member has its default. -/
theorem read_members {schema : Schema S} {store : Option BlobView} {t : Ty S} {keys : List Bytes}
    (object : t.memberKeys schema = some keys) {c later : Cursor} {v : Val}
    (read : t.read schema store c = .ok v later) :
    ∃ members w, c.skipSpace.Spans w later ∧ ObjectText members w ∧ t.ToldBy schema store keys members v := by
  obtain ⟨members, w, spans, text⟩ := exists_objectText_of_read object read
  obtain ⟨admits, gives⟩ := (read_object_iff object text spans).1 read
  -- Texts with the same last members under the known keys are read alike if all of their members can stand there.
  have alike {members' : List (Bytes × Bytes)} (admits' : ∀ m ∈ members', t.Admits schema store m.1 m.2)
      (same : ∀ key ∈ keys, ∀ u, LastUnder key members u ↔ LastUnder key members' u) :
      t.ReadsAs schema store members' v :=
    fun w' c' later' text' spans' => (read_object_iff object text' spans').2 ⟨admits', gives.of_same object same⟩
  have rearranged {members' : List (Bytes × Bytes)} (rearranged : Rearranged members members') :
      t.ReadsAs schema store members' v :=
    alike (fun m mem => admits m (rearranged.perm.mem_iff.2 mem)) fun key _ u => rearranged.lastUnder_iff
  refine ⟨members, w, spans, text, gives, alike admits fun _ _ _ => Iff.rfl, ?_, fun _ => rearranged, ?_, ?_⟩
  · intro members' w' c' later' v' text' spans' read' same
    have gives' := ((read_object_iff object text' spans').1 read').2
    have again := (read_object_iff object text spans).2
      ⟨admits, gives'.of_same object fun key known u => (same key known u).symm⟩
    rw [read] at again
    cases again
    rfl
  · intro distinct members' perm
    exact rearranged (.of_perm perm distinct)
  · rintro front behind key u rfl other skipped
    intro w' c' later' text' spans'
    have passed : Passed u := by
      obtain ⟨_, rfl, tree, spells⟩ := text'.member_spelled (key, u) (by simp)
      exact passed_of_skipValue spells skipped
    refine alike ?_ (fun name known x => (lastUnder_append_cons (by rintro rfl; exact other known)).symm) w' c' later'
      text' spans'
    intro m mem
    rcases List.mem_append.1 mem with inside | inside
    · exact admits m (List.mem_append_left _ inside)
    · rcases List.mem_cons.1 inside with rfl | inside
      · exact .of_passed object other passed
      · exact admits m (List.mem_append_right _ inside)

/-- A record whose first field is given twice, with an escape in the key, beside a member under another key; its second
    field is not given. -/
theorem read_members_record :
    let count : Field Unit := ⟨ascii "n", .scalar (.int ⟨false, .w8⟩), .scalar (.int 7)⟩
    let flag : Field Unit := ⟨ascii "flag", .scalar .bool, .scalar (.bool true)⟩
    let schema : Schema Unit := fun _ => ⟨"Count", [count, flag]⟩
    let c := Cursor.start (ascii "\x7b\"n\":1,\"x\":[\"]\"],\"\\u006e\":2\x7d")
    ∃ v members w, (Ty.record ()).read schema none c = .ok v ⟨28, []⟩ ∧
      encodeInline schema (.record ()) v = ascii "\x7b\"n\":2,\"flag\":true\x7d" ∧
      c.skipSpace.Spans w ⟨28, []⟩ ∧ ObjectText members w ∧
      (Ty.record ()).ToldBy schema none [ascii "n", ascii "flag"] members v := by
  intro count flag schema c
  have passed : ((Ty.record ()).read schema none c).map (encodeInline schema (.record ()))
      = .ok (ascii "\x7b\"n\":2,\"flag\":true\x7d") ⟨28, []⟩ := by decide +kernel
  obtain ⟨v, read, encoded⟩ := Outcome.map_eq_ok.1 passed
  obtain ⟨members, w, spans, text, told⟩ := read_members rfl read
  exact ⟨v, members, w, read, encoded, spans, text, told⟩

end Ty

end Objects

end JsonSidecar
