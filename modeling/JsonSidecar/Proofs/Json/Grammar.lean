/-
Module: JsonSidecar.Proofs.Json.Grammar
Purpose: The grammar of JSON texts, without any of the freedoms that the readers of the library grant.  What a string
  may escape, which keys the members of an object may have together, and which texts count as values as they stand is
  told by a dialect, so that one grammar serves for all JSON texts and for what the encoder writes by itself.
Main exports: Json.Dialect, Json.Value, Json.Text, Json.standard, Json.encoder, Json.Value.widen, Json.Value.spells
-/
import JsonSidecar.Proofs.Lexer.Skip
import JsonSidecar.Text.Compose

namespace JsonSidecar

theorem Blank.append {v w : Bytes} (blank : Blank v) (blank' : Blank w) : Blank (v ++ w) :=
  List.forall_mem_append.2 ⟨blank, blank'⟩

namespace Json

/-! ### The grammar -/

/-- What kinds of JSON texts differ in. -/
structure Dialect where
  /-- What may stand behind a backslash. -/
  escape : Bytes → Prop
  /-- The keys that the members of one object may have together, as they are written. -/
  keys : List Bytes → Prop
  /-- The texts that count as values as they stand. -/
  kept : Bytes → Prop

/-- What may stand between the quotes of a string: raw bytes that are neither control bytes nor have a meaning of
    their own, and escapes. -/
inductive Content (escape : Bytes → Prop) : Bytes → Prop where
  | nil : Content escape []
  | raw {b : UInt8} {rest : Bytes} : b ≠ Byte.quote → b ≠ Byte.backslash → Byte.isControl b = false →
      Content escape rest → Content escape (b :: rest)
  | escaped {w rest : Bytes} : escape w → Content escape rest → Content escape (Byte.backslash :: (w ++ rest))

/-- A string with its quotes. -/
def IsString (escape : Bytes → Prop) (w : Bytes) : Prop :=
  ∃ content, w = Byte.quote :: (content ++ [Byte.quote]) ∧ Content escape content

mutual

/-- The texts of values, from the first byte to the last.  A comma stands between two items and nowhere else. -/
inductive Value (D : Dialect) : Bytes → Prop where
  | word {w : Bytes} : w ∈ [Word.true, Word.false, Word.null] → Value D w
  | number {l : NumberLiteral} : l.Strict → Value D l.text
  | string {w : Bytes} : IsString D.escape w → Value D w
  | emptyArray {space : Bytes} : Blank space → Value D (Byte.openBracket :: (space ++ [Byte.closeBracket]))
  | array {items : List Bytes} : items ≠ [] → (∀ w ∈ items, Text D w) →
      Value D (Byte.openBracket :: (separated items ++ [Byte.closeBracket]))
  | emptyObject {space : Bytes} : Blank space → Value D (Byte.openBrace :: (space ++ [Byte.closeBrace]))
  | object {members : List (Bytes × Bytes)} : members ≠ [] → (∀ m ∈ members, Member D m.1 m.2) →
      D.keys (members.map Prod.fst) →
      Value D (Byte.openBrace :: (separated (members.map Prod.snd) ++ [Byte.closeBrace]))
  | kept {w : Bytes} : D.kept w → Value D w

/-- A value with white space around it. -/
inductive Text (D : Dialect) : Bytes → Prop where
  | mk {before w behind : Bytes} : Blank before → Value D w → Blank behind → Text D (before ++ w ++ behind)

/-- The texts of members under a key. -/
inductive Member (D : Dialect) : Bytes → Bytes → Prop where
  | mk {before key behind w : Bytes} : Blank before → IsString D.escape key → Blank behind → Text D w →
      Member D key (before ++ key ++ behind ++ Byte.colon :: w)

end

/-- JSON as such: all the escapes there are, and objects with whatever keys. -/
def standard : Dialect where
  escape w := (∃ b ∈ [Byte.quote, Byte.backslash, 0x2f, 0x62, 0x66, 0x6e, 0x72, 0x74], w = [b]) ∨
    ∃ digits, digits.length = 4 ∧ (∀ b ∈ digits, Quoted.IsHexDigit b) ∧ w = 0x75 :: digits
  keys _ := True
  kept _ := False

/-- What the encoder writes around the texts that it is given: four kinds of escapes, and no two members of an object
    under one key, whichever way the keys are escaped. -/
def encoder (kept : Bytes → Prop) : Dialect where
  escape w := w ∈ [[Byte.quote], [Byte.backslash], [0x6e]] ∨
    ∃ high low, Quoted.IsHexDigit high ∧ Quoted.IsHexDigit low ∧ w = [0x75, Byte.zero, Byte.zero, high, low]
  keys literals := (literals.map fun literal => (Quoted.scan (Cursor.start literal)).1).Nodup
  kept := kept

/-! ### From one dialect to a wider one -/

variable {D D' : Dialect}

/-- One dialect allows all strings and objects that another does; nothing is said of kept texts. -/
structure Dialect.Extends (D' D : Dialect) : Prop where
  escape : ∀ w, D.escape w → D'.escape w
  keys : ∀ literals, D.keys literals → D'.keys literals

theorem standard_extends (kept : Bytes → Prop) : standard.Extends (encoder kept) where
  escape w escape := by
    rcases escape with mem | ⟨high, low, hex, hex', rfl⟩
    · simp only [List.mem_cons, List.not_mem_nil, or_false] at mem
      rcases mem with rfl | rfl | rfl
      · exact .inl ⟨Byte.quote, by simp, rfl⟩
      · exact .inl ⟨Byte.backslash, by simp, rfl⟩
      · exact .inl ⟨0x6e, by simp, rfl⟩
    · have zero : Quoted.IsHexDigit Byte.zero := rfl
      exact .inr ⟨[Byte.zero, Byte.zero, high, low], rfl, by simp [zero, hex, hex'], rfl⟩
  keys _ _ := trivial

theorem IsString.imp {escape escape' : Bytes → Prop} (wider : ∀ w, escape w → escape' w) {w : Bytes}
    (string : IsString escape w) : IsString escape' w := by
  obtain ⟨content, same, inside⟩ := string
  refine ⟨content, same, ?_⟩
  clear same
  induction inside with
  | nil => exact .nil
  | raw quote backslash control _ ih => exact .raw quote backslash control ih
  | escaped escape _ ih => exact .escaped (wider _ escape) ih

theorem Value.text {w : Bytes} (value : Value D w) : Text D w := by
  have text : Text D ([] ++ w ++ []) := .mk nofun value nofun
  rwa [List.nil_append, List.append_nil] at text

theorem Text.spaced {before w behind : Bytes} (blank : Blank before) (text : Text D w) (blank' : Blank behind) :
    Text D (before ++ w ++ behind) := by
  cases text with
  | @mk inner w inner' space value space' =>
      have text : Text D ((before ++ inner) ++ w ++ (inner' ++ behind)) :=
        .mk (blank.append space) value (space'.append blank')
      simpa only [List.append_assoc] using text

mutual

/-- The texts of a dialect are texts of a wider one, if those that it keeps are. -/
theorem Value.widen_text (wider : D'.Extends D) (kept : ∀ w, D.kept w → Text D' w) {w : Bytes} :
    Value D w → Text D' w
  | .word mem => (Value.word mem).text
  | .number strict => (Value.number strict).text
  | .string string => (Value.string (string.imp wider.escape)).text
  | .emptyArray blank => (Value.emptyArray blank).text
  | .array nonempty items => (Value.array nonempty fun w mem => (items w mem).widen wider kept).text
  | .emptyObject blank => (Value.emptyObject blank).text
  | .object nonempty members keys =>
      (Value.object nonempty (fun m mem => (members m mem).widen wider kept) (wider.keys _ keys)).text
  | .kept mem => kept _ mem

theorem Text.widen (wider : D'.Extends D) (kept : ∀ w, D.kept w → Text D' w) {w : Bytes} : Text D w → Text D' w
  | .mk blank value blank' => (value.widen_text wider kept).spaced blank blank'

theorem Member.widen (wider : D'.Extends D) (kept : ∀ w, D.kept w → Text D' w) {key w : Bytes} :
    Member D key w → Member D' key w
  | .mk blank string blank' text => .mk blank (string.imp wider.escape) blank' (text.widen wider kept)

end

/-- The values of a dialect are values of a wider one, if the texts that it keeps are. -/
theorem Value.widen (wider : D'.Extends D) (kept : ∀ w, D.kept w → Value D' w) {w : Bytes} (value : Value D w) :
    Value D' w := by
  have texts : ∀ w, D.kept w → Text D' w := fun w mem => (kept w mem).text
  cases value with
  | word mem => exact .word mem
  | number strict => exact .number strict
  | string string => exact .string (string.imp wider.escape)
  | emptyArray blank => exact .emptyArray blank
  | array nonempty items => exact .array nonempty fun w mem => (items w mem).widen wider texts
  | emptyObject blank => exact .emptyObject blank
  | object nonempty members keys =>
      exact .object nonempty (fun m mem => (members m mem).widen wider texts) (wider.keys _ keys)
  | kept mem => exact kept _ mem

/-! ### Strict values are passed over -/

theorem IsString.isLiteral {w : Bytes} (string : IsString standard.escape w) : Quoted.IsLiteral w := by
  obtain ⟨content, same, inside⟩ := string
  refine ⟨content, same, ?_⟩
  clear same
  induction inside with
  | nil => exact .nil
  | raw quote backslash control _ ih => exact .raw quote backslash control ih
  | escaped escape _ ih =>
      rcases escape with ⟨b, mem, rfl⟩ | ⟨digits, count, hex, rfl⟩
      · have named : b ≠ 0x78 ∧ b ≠ 0x75 := by
          constructor
          · rintro rfl
            exact absurd mem (by decide)
          · rintro rfl
            exact absurd mem (by decide)
        exact .escape named.1 named.2 ih
      · exact .codePoint count hex ih

/-- Items with commas between them and white space around each make the text of a list. -/
theorem listText_of_spaced (close : UInt8) {α : Type} {spelled : α → Bytes → Prop} {ws : List Bytes}
    (nonempty : ws ≠ [])
    (all : ∀ w ∈ ws, ∃ before v behind a, w = before ++ v ++ behind ∧ Blank before ∧ spelled a v ∧ Blank behind) :
    ∃ as, ListText close spelled as (separated ws ++ [close]) := by
  induction ws with
  | nil => exact absurd rfl nonempty
  | cons w ws ih =>
      obtain ⟨before, v, behind, a, rfl, blank, first, blank'⟩ := all w List.mem_cons_self
      cases ws with
      | nil => exact ⟨[a], .last blank first blank'⟩
      | cons next ws =>
          obtain ⟨as, rest⟩ := ih (by simp) fun w mem => all w (List.mem_cons_of_mem _ mem)
          have text := ListText.more blank first blank' rest
          refine ⟨a :: as, ?_⟩
          rw [separated, List.append_assoc]
          · exact text
          · simp

mutual

/-- What is strict JSON has a skeleton, which is all it takes to be passed over. -/
theorem Value.spells {w : Bytes} : Value standard w → ∃ tree : Skeleton, tree.Spells w
  | .word mem => ⟨_, .word mem⟩
  | .number strict => ⟨_, .number strict.toWellFormed⟩
  | .string string => ⟨_, .string string.isLiteral⟩
  | .emptyArray blank => ⟨_, .array (.done blank)⟩
  | .array nonempty items =>
      have ⟨_, text⟩ := listText_of_spaced Byte.closeBracket nonempty fun w mem => (items w mem).spells
      ⟨_, .array text⟩
  | .emptyObject blank => ⟨_, .object (.done blank)⟩
  | .object nonempty members _ =>
      have ⟨_, text⟩ := listText_of_spaced Byte.closeBrace (by simpa using nonempty) fun w mem =>
        have ⟨m, listed, same⟩ := List.mem_map.1 mem
        same ▸ (members m listed).spells
      ⟨_, .object text⟩

theorem Text.spells {w : Bytes} : Text standard w → ∃ before v behind, ∃ tree : Skeleton,
    w = before ++ v ++ behind ∧ Blank before ∧ tree.Spells v ∧ Blank behind
  | .mk blank value blank' =>
      have ⟨tree, spells⟩ := value.spells
      ⟨_, _, _, tree, rfl, blank, spells, blank'⟩

theorem Member.spells {key w : Bytes} : Member standard key w → ∃ before v behind, ∃ tree : Skeleton,
    w = before ++ v ++ behind ∧ Blank before ∧ Skeleton.SpellsMember tree v ∧ Blank behind
  | .mk blank string blank' text =>
      have ⟨inner, v, inner', tree, same, space, spells, space'⟩ := text.spells
      ⟨_, _, _, tree, by simp [same], blank, .mk string.isLiteral blank' space spells, space'⟩

end

end Json

end JsonSidecar
