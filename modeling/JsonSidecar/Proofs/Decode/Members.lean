/-
Module: JsonSidecar.Proofs.Decode.Members
Purpose: What becomes of the members of an object.  A text that is read as an object has a list of members, each a key
  and the text of a value.  A reader of objects reads the values from their texts one by one, so the last member that it
  reads under a key is the last one there in the text.
Main exports: ObjectText, MembersRead, Reader.object_eq_ok_iff, Reader.lastUnder_read_iff
-/
import JsonSidecar.Proofs.Decode.DescriptorText
import JsonSidecar.Proofs.Decode.Relaid

namespace JsonSidecar

open Reader

variable {S α β γ : Type}

/-! ### Objects by the texts of their values -/

/-- A member is told by the bytes of its key and the text of its value, with any literal that denotes the key. -/
def IsMemberText : Bytes × Bytes → Bytes → Prop :=
  MemberText fun _ u u' => u = u' ∧ ∃ tree : Skeleton, tree.Spells u

/-- The text of an object: its members by the bytes of their keys and the texts of their values. -/
def ObjectText (members : List (Bytes × Bytes)) (w : Bytes) : Prop :=
  Enclosed Byte.openBrace Byte.closeBrace IsMemberText members w

/-- Members that are read from the members of a text. -/
def MembersRead (spelled : Bytes → β → Bytes → Prop) (ms : List (Bytes × β)) (members : List (Bytes × Bytes)) : Prop :=
  List.Forall₂ (fun m' m => m'.1 = m.1 ∧ spelled m.1 m'.2 m.2) ms members

theorem MembersRead.keys {spelled : Bytes → β → Bytes → Prop} {ms : List (Bytes × β)} {members : List (Bytes × Bytes)}
    (all : MembersRead spelled ms members) : ms.map Prod.fst = members.map Prod.fst := by
  rw [← List.forall₂_eq_eq_eq, List.forall₂_map_left_iff, List.forall₂_map_right_iff]
  exact all.imp fun _ _ related => related.1

namespace Reader

/-- What is read is the text of a value. -/
theorem Recognises.skeleton {follows : Bytes → Prop} (nothing : follows []) {reader : Reader α}
    {spelled : α → Bytes → Prop} (recognises : reader.Recognises follows spelled) (skippable : reader.Skippable)
    {a : α} {w : Bytes} (spells : spelled a w) : ∃ tree : Skeleton, tree.Spells w := by
  have spans : (Cursor.start w).Spans w ⟨w.length, []⟩ := ⟨(List.append_nil w).symm, (Nat.zero_add _).symm⟩
  have start := (recognises.opens spells).skipSpace spans
  have read := recognises.complete spells (start.symm ▸ spans) nothing
  obtain ⟨tree, passes⟩ := skippable _ _ _ read
  obtain ⟨u, spans', value⟩ := passes.text
  rw [start] at spans'
  exact ⟨tree, spans.span_eq.symm.trans spans'.span_eq ▸ value⟩

/-- A text is read as one value only. -/
theorem Recognises.unique {follows : Bytes → Prop} (nothing : follows []) {reader : Reader α}
    {spelled : α → Bytes → Prop} (recognises : reader.Recognises follows spelled) {a b : α} {w : Bytes}
    (spells : spelled a w) (spells' : spelled b w) : a = b := by
  have spans : (Cursor.start w).Spans w ⟨w.length, []⟩ := ⟨(List.append_nil w).symm, (Nat.zero_add _).symm⟩
  have start := (recognises.opens spells).skipSpace spans
  have read := recognises.complete spells (start.symm ▸ spans) nothing
  rw [recognises.complete spells' (start.symm ▸ spans) nothing] at read
  cases read
  rfl

/-- No member stands under a key if none does in the text. -/
theorem lacks_read_iff {spelled : Bytes → β → Bytes → Prop} {ms : List (Bytes × β)} {members : List (Bytes × Bytes)}
    (all : MembersRead spelled ms members) {key : Bytes} : Lacks key ms ↔ Lacks key members := by
  simp only [lacks_iff_forall_not]
  constructor
  · intro none u last
    obtain ⟨b, last', _⟩ := last.of_forall₂ all.flip fun _ _ related => related.1.symm
    exact none b last'
  · intro none b last
    obtain ⟨u, last', _⟩ := last.of_forall₂ all fun _ _ related => related.1
    exact none u last'

section Objects

variable {expected : String} {value : Bytes → Reader β} {spelled : Bytes → β → Bytes → Prop}
  (recognises : ∀ key, (value key).Recognises EndsToken (spelled key)) (skippable : ∀ key, (value key).Skippable)

include recognises skippable

/-- An object with values that are spelled somehow is an object with the texts of those values. -/
theorem exists_objectText {ms : List (Bytes × β)} {w : Bytes}
    (text : Enclosed Byte.openBrace Byte.closeBrace (MemberText spelled) ms w) : ∃ members, ObjectText members w := by
  obtain ⟨u, rfl, text⟩ := text
  obtain ⟨members, text', _⟩ := text.exists_forall₂ (q := IsMemberText) (r := fun _ _ => True)
    fun m _ v _ member => by
    obtain ⟨literal, behind, before, u, rfl, denotes, blank, blank', spells⟩ := member
    have value := (recognises m.1).skeleton .nil (skippable m.1) spells
    exact ⟨(m.1, u), ⟨literal, behind, before, u, rfl, denotes, blank, blank', rfl, value⟩, trivial⟩
  exact ⟨members, u, rfl, text'⟩

/-- What is read as an object is the text of an object. -/
theorem object_text {c later : Cursor} {ms : List (Bytes × β)} (read : object expected value c = .ok ms later) :
    ∃ members w, c.skipSpace.Spans w later ∧ ObjectText members w := by
  obtain ⟨w, spans, text⟩ := (object_recognises expected recognises).sound read
  obtain ⟨members, text⟩ := exists_objectText recognises skippable text
  exact ⟨members, w, spans, text⟩

/-- The members that a text spells are told by the texts of its values one by one. -/
theorem enclosed_iff_membersRead {members : List (Bytes × Bytes)} {w : Bytes} (text : ObjectText members w)
    {ms : List (Bytes × β)} :
    Enclosed Byte.openBrace Byte.closeBrace (MemberText spelled) ms w ↔ MembersRead spelled ms members := by
  obtain ⟨u, rfl, text⟩ := text
  constructor
  · rintro ⟨u', same, text'⟩
    obtain rfl : u = u' := (List.cons.inj same).2
    -- Both members have the same text, so they have the same key and the same text of a value.
    have isMember {m : Bytes × Bytes} {v : Bytes} (member : IsMemberText m v) :
        ∃ tree, Skeleton.SpellsMember tree v := by
      obtain ⟨_, _, _, _, rfl, denotes, blank, blank', rfl, tree, value⟩ := member
      exact ⟨tree, .mk denotes.isLiteral blank blank' value⟩
    have isMember' {m : Bytes × β} {v : Bytes} (member : MemberText spelled m v) :
        ∃ tree, Skeleton.SpellsMember tree v := by
      obtain ⟨_, _, _, _, rfl, denotes, blank, blank', spells⟩ := member
      obtain ⟨tree, value⟩ := (recognises m.1).skeleton .nil (skippable m.1) spells
      exact ⟨tree, .mk denotes.isLiteral blank blank' value⟩
    refine (text'.aligned closesList_brace Skeleton.SpellsMember.delimiting
      (fun _ member => member.choose_spec.begins) (fun _ _ => isMember') (fun _ _ => isMember) text).imp ?_
    rintro m' m ⟨v, ⟨literal', _, _, v', same, denotes', blank₁, blank₂, spells⟩,
      literal, _, _, v₂, same₂, denotes, blank₃, blank₄, rfl, tree, value⟩
    obtain ⟨rfl, rfl⟩ := member_aligned denotes'.isLiteral denotes.isLiteral blank₁ blank₃ blank₂ blank₄
      ((recognises m'.1).opens spells) value.opens (same.symm.trans same₂)
    have keys := denotes'.unique denotes
    exact ⟨keys, keys ▸ spells⟩
  · intro all
    refine ⟨u, rfl, text.of_forall₂ all.flip ?_⟩
    rintro ⟨key, v⟩ ⟨_, b⟩ v' _ ⟨rfl, spells⟩ ⟨literal, behind, before, _, rfl, denotes, blank, blank', rfl, _⟩
    exact ⟨literal, behind, before, v, rfl, denotes, blank, blank', spells⟩

/-- The members of an object are read from the texts of its values one by one. -/
theorem object_eq_ok_iff {members : List (Bytes × Bytes)} {w : Bytes} (text : ObjectText members w) {c later : Cursor}
    (spans : c.skipSpace.Spans w later) {ms : List (Bytes × β)} :
    object expected value c = .ok ms later ↔ MembersRead spelled ms members := by
  rw [(object_recognises expected recognises).eq_ok_of_spans spans,
    enclosed_iff_membersRead recognises skippable text]

omit skippable

/-- Which member is the last under a key can be told from the text. -/
theorem lastUnder_read_iff {ms : List (Bytes × β)} {members : List (Bytes × Bytes)}
    (all : MembersRead spelled ms members) {key : Bytes} {b : β} :
    LastUnder key ms b ↔ ∃ u, LastUnder key members u ∧ spelled key b u := by
  constructor
  · intro last
    obtain ⟨u, last, _, spells⟩ := last.of_forall₂ all fun _ _ related => related.1
    exact ⟨u, last, spells⟩
  · rintro ⟨u, last, spells⟩
    obtain ⟨b', last', _, spells'⟩ := last.of_forall₂ all.flip fun _ _ related => related.1.symm
    rwa [(recognises key).unique .nil spells spells']

end Objects

end Reader

end JsonSidecar
