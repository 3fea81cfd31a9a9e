/-
Module: JsonSidecar.Proofs.Decode.Strings
Purpose: Strings and keys that are read from valid text are valid.  A string literal begins and ends with an ASCII byte,
  so what stands between its quotes is valid by itself; and unescaping keeps it so, if no escape names a byte.
Main exports: entryValue, Ty.read_map_eq, unescaping_keeps_text
-/
import JsonSidecar.Proofs.Decode.Bound
import JsonSidecar.Proofs.Lexer.Unescape

namespace JsonSidecar

open Reader Cursor
open Utf8 (encodeChars)

variable {S : Type}

/-! ### Literals in valid text -/

/-- What stands between the quotes of a literal in valid text is valid. -/
theorem Cursor.Reaches.content_valid {text content : Bytes} {c later : Cursor} (valid : Utf8.isValid text = true)
    (inside : (start text).Reaches c) (spans : c.Spans (Byte.quote :: (content ++ [Byte.quote])) later) :
    Utf8.isValid content = true := by
  obtain ⟨front, whole, _⟩ := inside
  have same : text = front ++ Byte.quote :: (content ++ Byte.quote :: later.rest) := by
    have bytes : text = front ++ c.rest := whole
    rw [bytes, spans.1]
    simp
  have opening : Utf8.Seam front (Byte.quote :: (content ++ Byte.quote :: later.rest)) := .before front (by decide) _
  have behind : Utf8.Seam [Byte.quote] (content ++ Byte.quote :: later.rest) := .behind [] (by decide) _
  have closing : Utf8.Seam content (Byte.quote :: later.rest) := .before content (by decide) _
  rw [same, opening.isValid_append, ← List.singleton_append, behind.isValid_append, closing.isValid_append] at valid
  simp only [Bool.and_eq_true] at valid
  exact valid.2.2.1

/-- What stands in a literal of valid text, and what it denotes. -/
theorem exists_unescaped {text content : Bytes} {c later : Cursor} (valid : Utf8.isValid text = true)
    (inside : (start text).Reaches c) (spans : c.Spans (Byte.quote :: (content ++ [Byte.quote])) later)
    (literal : Quoted.Content content) (plain : ¬ Quoted.NamesByte content) :
    ∃ chars chars', content = encodeChars chars ∧ Quoted.Unescaped chars chars' ∧
      Quoted.read c = .ok (encodeChars chars') later := by
  obtain ⟨chars, rfl⟩ := Utf8.isValid_iff.1 (inside.content_valid valid spans)
  obtain ⟨chars', unescaped, means⟩ := literal.unescaped plain
  exact ⟨chars, chars', rfl, unescaped, Quoted.read_of_denotes ⟨_, rfl, means⟩ spans⟩

/-! ### Strings and keys -/

theorem stringBytes_of_read {expected : String} {c later : Cursor} {bytes : Bytes}
    (read : Quoted.read c.skipSpace = .ok bytes later) : stringBytes expected c = .ok bytes later := by
  rw [stringBytes, lexed, read]
  rfl

/-- A literal that denotes valid text is read as a string. -/
theorem Ty.read_string_of_valid (schema : Schema S) (store : Option BlobView) {c later : Cursor} {bytes : Bytes}
    (read : Quoted.read c.skipSpace = .ok bytes later) (valid : Utf8.isValid bytes = true) :
    (Ty.string : Ty S).read schema store c = .ok (.text bytes) later := by
  have again : stringBytes Ty.stringName c.skipSpace = .ok bytes later :=
    stringBytes_of_read (by rw [skipSpace_skipSpace, read])
  rw [Ty.read, Ty.readWith, readString_eq, Scan.map_apply, checked, Scan.bind_apply, Scan.skipSpace_apply,
    Outcome.bind_ok, Scan.bind_apply, Scan.here_apply, Outcome.bind_ok, Scan.bind_apply, again, Outcome.bind_ok,
    if_pos valid]
  rfl

/-- The reader of what stands under a key of a map. -/
def entryValue (expected : String) (value : Reader Val) (key : Bytes) : Reader Val :=
  if Utf8.isValid key then value else fail expected .invalidKey

/-- A map is read from the members of an object. -/
theorem Ty.read_map_eq (schema : Schema S) (store : Option BlobView) {t value : Ty S}
    (map : t = .sortedMap value ∨ t = .hashMap value) :
    t.read schema store = (fun members => .map (Entries.ofList members)) <$>
      object (t.name schema) (entryValue (t.name schema) (value.read schema store)) := by
  funext c
  rcases map with rfl | rfl
  · exact readEntries_read schema store _ value c
  · exact readEntries_read schema store _ value c

/-- A member whose key denotes valid text is read as that text and its value. -/
theorem Reader.member_of_valid (expected : String) (value : Reader Val) {c later afterColon : Cursor} {key : Bytes}
    (read : Quoted.read c.skipSpace = .ok key later) (valid : Utf8.isValid key = true)
    (colon : later.skipSpace.eat? Byte.colon = some afterColon) :
    member expected (entryValue expected value) c = (value afterColon).map fun v => (key, v) := by
  have named : memberKey expected c = .ok key afterColon := by
    rw [memberKey, Scan.bind_apply, stringBytes_of_read read, Outcome.bind_ok, Scan.bind_apply, expect,
      Scan.expect_eq_ok.2 colon, Outcome.bind_ok]
    rfl
  rw [member, Scan.bind_apply, named, Outcome.bind_ok, entryValue, if_pos valid, Scan.bind_apply]
  cases value afterColon <;> rfl

/-- Unescaping keeps text valid.  Where a string literal without escapes that name bytes stands in valid text, it is
    read as a string, and never refused as invalid: what is read is the text between the quotes with each escape
    replaced by its character.  As the key of a member of a map it is read as the same text, and what is left to fail is
    the value. -/
theorem unescaping_keeps_text (schema : Schema S) (store : Option BlobView) {text content : Bytes} {c later : Cursor}
    (valid : Utf8.isValid text = true) (inside : (start text).Reaches c)
    (spans : c.skipSpace.Spans (Byte.quote :: (content ++ [Byte.quote])) later) (literal : Quoted.Content content)
    (plain : ¬ Quoted.NamesByte content) :
    ∃ chars chars', content = encodeChars chars ∧ Quoted.Unescaped chars chars' ∧
      (Ty.string : Ty S).read schema store c = .ok (.text (encodeChars chars')) later ∧
      ∀ t value : Ty S, t = .sortedMap value ∨ t = .hashMap value →
        let entry := entryValue (t.name schema) (value.read schema store)
        t.read schema store = (fun members => .map (Entries.ofList members)) <$> object (t.name schema) entry ∧
          ∀ afterColon, later.skipSpace.eat? Byte.colon = some afterColon →
            member (t.name schema) entry c
              = (value.read schema store afterColon).map fun v => (encodeChars chars', v) := by
  obtain ⟨chars, chars', same, unescaped, read⟩ :=
    exists_unescaped valid (inside.trans (skipSpace_spans c).reaches) spans literal plain
  have valid' : Utf8.isValid (encodeChars chars') = true := Utf8.isValid_iff.2 ⟨chars', rfl⟩
  refine ⟨chars, chars', same, unescaped, Ty.read_string_of_valid schema store read valid', ?_⟩
  intro t value map
  exact ⟨Ty.read_map_eq schema store map, fun afterColon => member_of_valid _ _ read valid'⟩

/-- A character of two bytes and a control character behind backslashes, two surrogates and a newline, in a literal that
    is the key of a member. -/
theorem unescaping_keeps_text_odd_escapes :
    let schema : Schema Empty := nofun
    let value : Ty Empty := .scalar (.int ⟨false, .w8⟩)
    let content := ascii "\\" ++ [0xc3, 0xa9] ++ ascii "\\uD83D\\uDE00\\n\\" ++ [0x01]
    let text := ascii "\x7b \"" ++ content ++ ascii "\" : 7\x7d"
    let c : Cursor := ⟨1, text.drop 1⟩
    (Ty.string : Ty Empty).read schema none c = .ok (.text (utf8 "é\n\x01")) ⟨23, ascii " : 7\x7d"⟩ ∧
      ∃ chars, content = encodeChars chars ∧ Quoted.Unescaped chars "é\n\x01".toList ∧
        member ((Ty.hashMap value).name schema) (entryValue ((Ty.hashMap value).name schema) (value.read schema none)) c
          = (value.read schema none ⟨25, ascii " 7\x7d"⟩).map fun v => (utf8 "é\n\x01", v) := by
  intro schema value content text c
  have valid : Utf8.isValid text = true := by decide +kernel
  have inside : (start text).Reaches c := ⟨[Byte.openBrace], rfl, rfl⟩
  have spans : c.skipSpace.Spans (Byte.quote :: (content ++ [Byte.quote])) ⟨23, ascii " : 7\x7d"⟩ := ⟨rfl, rfl⟩
  have literal : Quoted.Content content := by
    have digits : ((ascii "D83D" ++ ascii "DE00").all fun b => (Byte.hexValue? b).isSome) = true := by decide
    have hex : ∀ b ∈ ascii "D83D" ++ ascii "DE00", Quoted.IsHexDigit b := List.all_eq_true.1 digits
    refine .escape (by decide) (by decide) (.raw (by decide) (by decide) (by decide) ?_)
    refine @Quoted.Content.codePoint (ascii "D83D") _ rfl (fun b mem => hex b (List.mem_append_left _ mem)) ?_
    refine @Quoted.Content.codePoint (ascii "DE00") _ rfl (fun b mem => hex b (List.mem_append_right _ mem)) ?_
    exact .escape (by decide) (by decide) (.escape (by decide) (by decide) .nil)
  have plain : ¬ Quoted.NamesByte content := by
    rintro ⟨front, digits, rest, same, _⟩
    have named : (0x78 : UInt8) ∈ content := by
      rw [same]
      simp
    exact absurd named (by decide +kernel)
  have read : (Ty.string : Ty Empty).read schema none c
      = .ok (.text (utf8 "é\n\x01")) ⟨23, ascii " : 7\x7d"⟩ := by rfl
  obtain ⟨chars, chars', same, unescaped, again, keys⟩ :=
    unescaping_keeps_text schema none valid inside spans literal plain
  have text : chars' = "é\n\x01".toList := by
    rw [read] at again
    injection again with value
    injection value with bytes
    exact Utf8.encodeChars_injective bytes.symm
  subst text
  exact ⟨read, chars, same, unescaped, (keys _ value (.inr rfl)).2 ⟨25, ascii " 7\x7d"⟩ rfl⟩

end JsonSidecar
