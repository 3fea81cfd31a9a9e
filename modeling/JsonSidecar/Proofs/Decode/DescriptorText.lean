/-
Module: JsonSidecar.Proofs.Decode.DescriptorText
Purpose: The texts of descriptors.  They are objects whose members may stand in any order and be given more than
  once; the last one under each key counts, and members under other keys do not.  The reader of descriptors reads
  exactly these texts.
Main exports: DescriptorMember.Spelled, RangeText, DescriptorText, readDescriptor_recognises
-/
import JsonSidecar.Proofs.Decode.Array
import JsonSidecar.Proofs.Decode.Integer
import JsonSidecar.Proofs.Entries

namespace JsonSidecar

open Reader

variable {α β γ : Type}

/-- The members of an object are spelled as their keys demand. -/
theorem Enclosed.member_spelled {opening close : UInt8} {spelled : Bytes → γ → Bytes → Prop}
    {members : List (Bytes × γ)} {w : Bytes} (text : Enclosed opening close (MemberText spelled) members w) :
    ∀ m ∈ members, ∃ u, spelled m.1 m.2 u := by
  obtain ⟨_, _, text⟩ := text
  intro m mem
  obtain ⟨_, _, _, _, u, _, _, _, _, spells⟩ := text.spelled m mem
  exact ⟨u, spells⟩

/-- The items of a list are converted one by one. -/
theorem enclosed_map_iff {opening close : UInt8} {spelled : α → Bytes → Prop} {f : α → β} {bs : List β} {w : Bytes} :
    Enclosed opening close (fun b u => ∃ a, spelled a u ∧ f a = b) bs w ↔
      ∃ as, Enclosed opening close spelled as w ∧ as.map f = bs := by
  constructor
  · rintro ⟨u, rfl, text⟩
    suffices ∃ as, ListText close spelled as u ∧ as.map f = bs by
      obtain ⟨as, text, same⟩ := this
      exact ⟨as, ⟨u, rfl, text⟩, same⟩
    induction text with
    | done blank => exact ⟨[], .done blank, rfl⟩
    | last blank item blank' =>
        obtain ⟨a, spells, rfl⟩ := item
        exact ⟨[a], .last blank spells blank', rfl⟩
    | more blank item blank' _ ih =>
        obtain ⟨a, spells, rfl⟩ := item
        obtain ⟨as, text, rfl⟩ := ih
        exact ⟨a :: as, .more blank spells blank' text, rfl⟩
  · rintro ⟨as, ⟨u, rfl, text⟩, rfl⟩
    refine ⟨u, rfl, ?_⟩
    induction text with
    | done blank => exact .done blank
    | last blank spells blank' => exact .last blank ⟨_, spells, rfl⟩ blank'
    | more blank spells blank' _ ih => exact .more blank ⟨_, spells, rfl⟩ blank' ih

/-! ### Ranges -/

/-- A member of an object that holds numbers in double precision under some keys. -/
inductive DoubleMember (keys : List Bytes) : Bytes → Option UInt64 → Bytes → Prop where
  | given {key : Bytes} {bits : Nat} {w : Bytes} : key ∈ keys → FloatText .double bits w →
      DoubleMember keys key (some (UInt64.ofNat bits)) w
  | unknown {key w : Bytes} : key ∉ keys → Passed w → DoubleMember keys key none w

/-- The texts of a range.  A bound that is not given is zero. -/
def RangeText (range : NumericRange) (w : Bytes) : Prop :=
  ∃ members, Enclosed Byte.openBrace Byte.closeBrace (MemberText (DoubleMember [ascii "min", ascii "max"])) members w ∧
    (LastUnder (ascii "min") members (some range.min) ∨ Lacks (ascii "min") members ∧ range.min = 0) ∧
    (LastUnder (ascii "max") members (some range.max) ∨ Lacks (ascii "max") members ∧ range.max = 0)

namespace Reader

theorem doubleMember_recognises (expected : String) (keys : List Bytes) (key : Bytes) :
    (orSkip expected (if key ∈ keys then some readDouble else none)).Recognises EndsToken (DoubleMember keys key) := by
  split
  · rename_i known
    refine (((readFloat_recognises .double _).map UInt64.ofNat).map some).congr fun value w => ?_
    constructor
    · rintro ⟨_, ⟨bits, text, rfl⟩, rfl⟩
      exact .given known text
    · rintro (⟨_, text⟩ | ⟨other, _⟩)
      · exact ⟨_, ⟨_, text, rfl⟩, rfl⟩
      · exact absurd known other
  · rename_i other
    refine ((passValue_recognises expected).map fun _ => none).congr fun value w => ?_
    constructor
    · rintro ⟨_, passed, rfl⟩
      exact .unknown other passed
    · rintro (⟨known, _⟩ | ⟨_, passed⟩)
      · exact absurd known other
      · exact ⟨(), passed, rfl⟩

theorem readDoubles_recognises (expected : String) (keys : List Bytes) :
    (readDoubles expected keys).Recognises Anything
      (Enclosed Byte.openBrace Byte.closeBrace (MemberText (DoubleMember keys))) :=
  object_recognises expected (doubleMember_recognises expected keys)

/-- The numbers are picked under their keys. -/
theorem DoubleMember.picks {keys : List Bytes} {key : Bytes} (known : key ∈ keys) {m : Bytes × Option UInt64}
    {w : Bytes} (spells : DoubleMember keys m.1 m.2 w) :
    PicksUnder key some (fun m => if m.1 = key then m.2 else none) m := by
  obtain ⟨name, value⟩ := m
  by_cases same : name = key
  · subst same
    cases spells with
    | given _ _ => exact .inl ⟨_, rfl, if_pos rfl⟩
    | unknown other _ => exact absurd known other
  · exact .inr ⟨same, if_neg same⟩

theorem readRange_recognises : readRange.Recognises Anything RangeText := by
  refine ((readDoubles_recognises Ty.rangeName _).map _).congr fun range w => ?_
  refine exists_congr fun members => and_congr_right fun text => ?_
  have picks {key : Bytes} (known : key ∈ [ascii "min", ascii "max"]) :
      ∀ m ∈ members, PicksUnder key some (fun m => if m.1 = key then m.2 else none) m := by
    intro m mem
    obtain ⟨u, spells⟩ := text.member_spelled m mem
    exact DoubleMember.picks known spells
  rw [← getLast?_getD_eq_iff (picks (by simp)) (Option.some_injective _) 0,
    ← getLast?_getD_eq_iff (picks (by simp)) (Option.some_injective _) 0]
  obtain ⟨least, greatest⟩ := range
  exact NumericRange.mk.injEq .. ▸ Iff.rfl

end Reader

/-! ### Descriptors -/

/-- The keys of the members that make a descriptor. -/
def descriptorKeys : List Bytes := [ascii "dtype", ascii "shape", ascii "offset", ascii "byteLength", ascii "range"]

/-- The texts of the values in a descriptor, by the keys that they stand under. -/
inductive DescriptorMember.Spelled (key : Bytes) : DescriptorMember → Bytes → Prop where
  | element {e : Element} {w : Bytes} : key = ascii "dtype" → Quoted.Denotes w (ascii e.tag) →
      Spelled key (.element e) w
  | shape {dims : List Nat} {w : Bytes} : key = ascii "shape" →
      Enclosed Byte.openBracket Byte.closeBracket WordText dims w → Spelled key (.shape dims) w
  | offset {n : Nat} {w : Bytes} : key = ascii "offset" → WordText n w → Spelled key (.offset n) w
  | byteLength {n : Nat} {w : Bytes} : key = ascii "byteLength" → WordText n w → Spelled key (.byteLength n) w
  | range {r : NumericRange} {w : Bytes} : key = ascii "range" → RangeText r w → Spelled key (.range r) w
  | unknown {w : Bytes} : key ∉ descriptorKeys → Passed w → Spelled key .unknown w

/-- The members give the parts of the descriptor, each the last one under its key.  The range may be missing. -/
structure Descriptor.GivenBy (d : Descriptor) (members : List (Bytes × DescriptorMember)) : Prop where
  element : LastUnder (ascii "dtype") members (.element d.element)
  shape : LastUnder (ascii "shape") members (.shape d.shape)
  offset : LastUnder (ascii "offset") members (.offset d.offset)
  byteLength : LastUnder (ascii "byteLength") members (.byteLength d.byteLength)
  range : LastUnder (ascii "range") members (.range d.range) ∨ Lacks (ascii "range") members ∧ d.range = .zero

/-- The texts of a descriptor: objects whose members are well-formed and give it. -/
def DescriptorText (d : Descriptor) (w : Bytes) : Prop :=
  ∃ members, Enclosed Byte.openBrace Byte.closeBrace (MemberText DescriptorMember.Spelled) members w ∧ d.GivenBy members

theorem ne_of_not_mem_descriptorKeys {key name : Bytes} (other : key ∉ descriptorKeys) (known : name ∈ descriptorKeys) :
    key ≠ name := by
  rintro rfl
  exact other known

namespace DescriptorMember.Spelled

variable {member : DescriptorMember} {m : Bytes × DescriptorMember} {w : Bytes}

/-! Under each key, the values that it demands. -/

theorem of_dtype (spells : Spelled (ascii "dtype") member w) :
    ∃ e, Quoted.Denotes w (ascii e.tag) ∧ .element e = member := by
  cases spells with
  | element _ text => exact ⟨_, text, rfl⟩
  | unknown other _ => exact absurd (by simp [descriptorKeys]) other
  | _ named _ => exact absurd named (by decide)

theorem of_shape (spells : Spelled (ascii "shape") member w) :
    ∃ dims, Enclosed Byte.openBracket Byte.closeBracket WordText dims w ∧ .shape dims = member := by
  cases spells with
  | shape _ text => exact ⟨_, text, rfl⟩
  | unknown other _ => exact absurd (by simp [descriptorKeys]) other
  | _ named _ => exact absurd named (by decide)

theorem of_offset (spells : Spelled (ascii "offset") member w) : ∃ n, WordText n w ∧ .offset n = member := by
  cases spells with
  | offset _ text => exact ⟨_, text, rfl⟩
  | unknown other _ => exact absurd (by simp [descriptorKeys]) other
  | _ named _ => exact absurd named (by decide)

theorem of_byteLength (spells : Spelled (ascii "byteLength") member w) :
    ∃ n, WordText n w ∧ .byteLength n = member := by
  cases spells with
  | byteLength _ text => exact ⟨_, text, rfl⟩
  | unknown other _ => exact absurd (by simp [descriptorKeys]) other
  | _ named _ => exact absurd named (by decide)

theorem of_range (spells : Spelled (ascii "range") member w) : ∃ r, RangeText r w ∧ .range r = member := by
  cases spells with
  | range _ text => exact ⟨_, text, rfl⟩
  | unknown other _ => exact absurd (by simp [descriptorKeys]) other
  | _ named _ => exact absurd named (by decide)

/-! Each kind of value is picked under its key only. -/

theorem picks_element (spells : Spelled m.1 m.2 w) :
    PicksUnder (ascii "dtype") .element (fun m => m.2.element?) m := by
  obtain ⟨key, member⟩ := m
  cases spells with
  | element named _ => exact .inl ⟨_, Prod.ext named rfl, rfl⟩
  | unknown other _ => exact .inr ⟨ne_of_not_mem_descriptorKeys other (by simp [descriptorKeys]), rfl⟩
  | _ named _ => exact .inr ⟨named ▸ (by decide), rfl⟩

theorem picks_shape (spells : Spelled m.1 m.2 w) : PicksUnder (ascii "shape") .shape (fun m => m.2.shape?) m := by
  obtain ⟨key, member⟩ := m
  cases spells with
  | shape named _ => exact .inl ⟨_, Prod.ext named rfl, rfl⟩
  | unknown other _ => exact .inr ⟨ne_of_not_mem_descriptorKeys other (by simp [descriptorKeys]), rfl⟩
  | _ named _ => exact .inr ⟨named ▸ (by decide), rfl⟩

theorem picks_offset (spells : Spelled m.1 m.2 w) : PicksUnder (ascii "offset") .offset (fun m => m.2.offset?) m := by
  obtain ⟨key, member⟩ := m
  cases spells with
  | offset named _ => exact .inl ⟨_, Prod.ext named rfl, rfl⟩
  | unknown other _ => exact .inr ⟨ne_of_not_mem_descriptorKeys other (by simp [descriptorKeys]), rfl⟩
  | _ named _ => exact .inr ⟨named ▸ (by decide), rfl⟩

theorem picks_byteLength (spells : Spelled m.1 m.2 w) :
    PicksUnder (ascii "byteLength") .byteLength (fun m => m.2.byteLength?) m := by
  obtain ⟨key, member⟩ := m
  cases spells with
  | byteLength named _ => exact .inl ⟨_, Prod.ext named rfl, rfl⟩
  | unknown other _ => exact .inr ⟨ne_of_not_mem_descriptorKeys other (by simp [descriptorKeys]), rfl⟩
  | _ named _ => exact .inr ⟨named ▸ (by decide), rfl⟩

theorem picks_range (spells : Spelled m.1 m.2 w) : PicksUnder (ascii "range") .range (fun m => m.2.range?) m := by
  obtain ⟨key, member⟩ := m
  cases spells with
  | range named _ => exact .inl ⟨_, Prod.ext named rfl, rfl⟩
  | unknown other _ => exact .inr ⟨ne_of_not_mem_descriptorKeys other (by simp [descriptorKeys]), rfl⟩
  | _ named _ => exact .inr ⟨named ▸ (by decide), rfl⟩

end DescriptorMember.Spelled

/-- Well-formed members make the descriptor that they give. -/
theorem Descriptor.ofMembers?_eq_some_iff {members : List (Bytes × DescriptorMember)} {d : Descriptor}
    (spelled : ∀ m ∈ members, ∃ u, DescriptorMember.Spelled m.1 m.2 u) :
    Descriptor.ofMembers? (members.map Prod.snd) = some d ↔ d.GivenBy members := by
  have element {e : Element} := getLast?_eq_some_iff_lastUnder (b := e)
    (fun m mem => (spelled m mem).choose_spec.picks_element) (fun _ _ same => DescriptorMember.element.inj same)
  have shape {dims : List Nat} := getLast?_eq_some_iff_lastUnder (b := dims)
    (fun m mem => (spelled m mem).choose_spec.picks_shape) (fun _ _ same => DescriptorMember.shape.inj same)
  have offset {n : Nat} := getLast?_eq_some_iff_lastUnder (b := n)
    (fun m mem => (spelled m mem).choose_spec.picks_offset) (fun _ _ same => DescriptorMember.offset.inj same)
  have byteLength {n : Nat} := getLast?_eq_some_iff_lastUnder (b := n)
    (fun m mem => (spelled m mem).choose_spec.picks_byteLength) (fun _ _ same => DescriptorMember.byteLength.inj same)
  have range {r : NumericRange} := getLast?_getD_eq_iff (b := r)
    (fun m mem => (spelled m mem).choose_spec.picks_range) (fun _ _ same => DescriptorMember.range.inj same) .zero
  simp only [Descriptor.ofMembers?, List.filterMap_map, Option.bind_eq_bind, Option.bind_eq_some_iff, Function.comp_def]
  constructor
  · rintro ⟨_, element', _, shape', _, offset', _, byteLength', made⟩
    cases made
    exact ⟨element.1 element', shape.1 shape', offset.1 offset', byteLength.1 byteLength', range.1 rfl⟩
  · intro given
    refine ⟨_, element.2 given.element, _, shape.2 given.shape, _, offset.2 given.offset, _,
      byteLength.2 given.byteLength, ?_⟩
    rw [range.2 given.range]
    rfl

namespace Reader

open DescriptorMember

/-- A tag names its element type only. -/
theorem ofTag?_eq_some_iff {tag : Bytes} {e : Element} : Element.ofTag? tag = some e ↔ tag = ascii e.tag := by
  constructor
  · intro found
    have same := List.find?_some found
    exact (eq_of_beq same).symm
  · rintro rfl
    exact ofTag?_tag e

theorem readElement_recognises :
    readElement.Recognises Anything fun e w => Quoted.Denotes w (ascii e.tag) := by
  rw [readElement_eq]
  refine ((stringBytes_recognises descriptorName).judged descriptorName _).congr fun e w => ?_
  simp only [accept_eq_ok, ofTag?_eq_some_iff, exists_eq_right]

/-- The values of members are read as their keys demand. -/
theorem readDescriptorMember_recognises (key : Bytes) :
    (readDescriptorMember key).Recognises EndsToken (DescriptorMember.Spelled key) := by
  have words {k : IntKind} (word : k.IsWord) {β : Type} (wrap : Nat → β) :
      Recognises EndsToken ((fun n => wrap n.toNat) <$> readInt k) fun b w => ∃ n, WordText n w ∧ wrap n = b :=
    ((readWord_recognises word).map _).congr fun _ _ => by simp
  have shapes : Recognises EndsToken
      ((fun dims => DescriptorMember.shape (dims.map Int.toNat))
        <$> inlineList (Ty.listName sizeKind.name) (readInt sizeKind))
      fun m w => ∃ dims, Enclosed Byte.openBracket Byte.closeBracket WordText dims w ∧ .shape dims = m := by
    have sizes := inlineList_recognises (Ty.listName sizeKind.name) (readWord_recognises (k := sizeKind) ⟨rfl, rfl⟩)
    refine ((sizes.congr fun _ _ => enclosed_map_iff).weaken.map _).congr fun m w => ?_
    simp [Function.comp_def]
  unfold readDescriptorMember
  split
  · rename_i same
    subst same
    refine (readElement_recognises.weaken.map _).congr fun m w => ⟨?_, Spelled.of_dtype⟩
    rintro ⟨e, text, rfl⟩
    exact .element rfl text
  split
  · rename_i same
    subst same
    refine shapes.congr fun m w => ⟨?_, Spelled.of_shape⟩
    rintro ⟨dims, text, rfl⟩
    exact .shape rfl text
  split
  · rename_i same
    subst same
    refine (words ⟨rfl, rfl⟩ _).congr fun m w => ⟨?_, Spelled.of_offset⟩
    rintro ⟨n, text, rfl⟩
    exact .offset rfl text
  split
  · rename_i same
    subst same
    refine (words ⟨rfl, rfl⟩ _).congr fun m w => ⟨?_, Spelled.of_byteLength⟩
    rintro ⟨n, text, rfl⟩
    exact .byteLength rfl text
  split
  · rename_i same
    subst same
    refine (readRange_recognises.weaken.map _).congr fun m w => ⟨?_, Spelled.of_range⟩
    rintro ⟨r, text, rfl⟩
    exact .range rfl text
  · rename_i dtype shape offset byteLength range
    refine ((passValue_recognises descriptorName).map fun _ => DescriptorMember.unknown).congr fun m w => ?_
    constructor
    · rintro ⟨_, passed, rfl⟩
      exact .unknown (by simp [descriptorKeys, dtype, shape, offset, byteLength, range]) passed
    · intro spells
      cases spells with
      | unknown _ passed => exact ⟨(), passed, rfl⟩
      | _ named _ => exact absurd named ‹_›

/-- The reader of descriptors reads exactly their texts. -/
theorem readDescriptor_recognises : readDescriptor.Recognises Anything DescriptorText := by
  rw [readDescriptor_eq]
  refine ((object_recognises descriptorName readDescriptorMember_recognises).checked descriptorName _).congr fun d w => ?_
  refine exists_congr fun members => and_congr_right fun text => ?_
  rw [accept_eq_ok, Descriptor.ofMembers?_eq_some_iff text.member_spelled]

end Reader

end JsonSidecar
