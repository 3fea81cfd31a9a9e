/-
Module: JsonSidecar.Proofs.Lexer.Unescape
Purpose: What a string literal stands for, character by character.  The scanner takes one byte behind a backslash and
  knows nothing of characters; still, where the text is valid and no escape names a byte, what it yields is the
  text with each escape replaced by its character, so it is valid too.
Main exports: Quoted.NamesByte, Quoted.Unescaped, Quoted.Content.unescaped
-/
import JsonSidecar.Proofs.Lexer.Denotes
import JsonSidecar.Proofs.Lexer.Onward
import JsonSidecar.Proofs.Text.Chars

namespace JsonSidecar.Quoted

open Utf8 (char? encodeChars)

/-! ### Escapes of characters -/

/-- The number that a hexadecimal digit of either case stands for. -/
def hexDigit? (c : Char) : Option Nat :=
  if '0' ≤ c ∧ c ≤ '9' then some (c.toNat - '0'.toNat)
  else if 'a' ≤ c ∧ c ≤ 'f' then some (c.toNat - 'a'.toNat + 10)
  else if 'A' ≤ c ∧ c ≤ 'F' then some (c.toNat - 'A'.toNat + 10)
  else none

/-- The letters that stand for a control character behind a backslash, with that character. -/
def namedChars : List (Char × Char) :=
  [('b', '\x08'), ('f', '\x0c'), ('n', '\n'), ('r', '\r'), ('t', '\t')]

/-- The text between the quotes of a literal, with each escape replaced by its character.  An escape of a surrogate
    contributes nothing, and a character that names no escape stands for itself behind a backslash too, whatever it
    is. -/
inductive Unescaped : List Char → List Char → Prop where
  | nil : Unescaped [] []
  | raw {c : Char} {rest chars : List Char} : c ≠ '"' → c ≠ '\\' → 0x20 ≤ c.toNat → Unescaped rest chars →
      Unescaped (c :: rest) (c :: chars)
  | codePoint {digits : List Char} {values : List Nat} {rest chars : List Char} : digits.length = 4 →
      digits.map hexDigit? = values.map some → Unescaped rest chars →
      Unescaped ('\\' :: 'u' :: (digits ++ rest))
        ((char? (values.foldl (fun n d => n * 16 + d) 0)).toList ++ chars)
  | named {c x : Char} {rest chars : List Char} : (c, x) ∈ namedChars → Unescaped rest chars →
      Unescaped ('\\' :: c :: rest) (x :: chars)
  | self {c : Char} {rest chars : List Char} : c ≠ 'x' → c ≠ 'u' → (∀ x, (c, x) ∉ namedChars) →
      Unescaped rest chars → Unescaped ('\\' :: c :: rest) (c :: chars)

/-- Between the quotes of a literal there is an escape that names a byte by two digits. -/
def NamesByte (w : Bytes) : Prop :=
  ∃ front digits rest, w = front ++ Byte.backslash :: 0x78 :: (digits ++ rest) ∧ Content front ∧ digits.length = 2 ∧
    ∀ b ∈ digits, IsHexDigit b

theorem Content.append {u w : Bytes} (content : Content u) (content' : Content w) : Content (u ++ w) := by
  induction content with
  | nil => exact content'
  | raw quote slash control _ ih => exact .raw quote slash control ih
  | byte count hex _ ih => simpa using Content.byte count hex ih
  | codePoint count hex _ ih => simpa using Content.codePoint count hex ih
  | escape narrow wide _ ih => exact .escape narrow wide ih

/-- An escape that names a byte is one of the whole text too. -/
theorem NamesByte.append {w rest : Bytes} (names : NamesByte rest) (content : Content w) : NamesByte (w ++ rest) := by
  obtain ⟨front, digits, tail, rfl, inside, count, hex⟩ := names
  exact ⟨w ++ front, digits, tail, by rw [List.append_assoc], content.append inside, count, hex⟩

/-! ### Bytes and characters -/

theorem hexDigit?_ofNat : ∀ n < 128, hexDigit? (Char.ofNat n) = Byte.hexValue? (UInt8.ofNat n) := by
  decide

/-- The digits of an escape are characters, which name the same number. -/
theorem exists_digits {digits w : Bytes} {chars : List Char} (hex : ∀ b ∈ digits, IsHexDigit b)
    (same : encodeChars chars = digits ++ w) :
    ∃ (chars' rest : List Char) (values : List Nat), chars = chars' ++ rest ∧ encodeChars rest = w ∧
      chars'.length = digits.length ∧ chars'.map hexDigit? = values.map some ∧
      ∀ code, hexNumber code digits = values.foldl (fun n d => n * 16 + d) code := by
  induction digits generalizing chars with
  | nil => exact ⟨[], chars, [], rfl, same, rfl, rfl, fun _ => rfl⟩
  | cons b digits ih =>
      obtain ⟨value, known⟩ := Option.isSome_iff_exists.1 (hex b List.mem_cons_self)
      have ascii := Byte.hexValue?_ascii known
      obtain ⟨rest, rfl, further⟩ := Utf8.encodeChars_eq_ascii ascii same
      obtain ⟨chars', rest, values, rfl, behind, count, read, number⟩ :=
        ih (fun x mem => hex x (List.mem_cons_of_mem b mem)) further
      have digit : hexDigit? (Char.ofNat b.toNat) = some value := by
        rw [hexDigit?_ofNat b.toNat (UInt8.lt_iff_toNat_lt.1 ascii), UInt8.ofNat_toNat, known]
      refine ⟨Char.ofNat b.toNat :: chars', rest, value :: values, rfl, behind, by simp [count], ?_, fun code => ?_⟩
      · rw [List.map_cons, List.map_cons, digit, read]
      · rw [List.foldl_cons, ← number]
        simp [hexNumber, known]

/-- A byte that is no ASCII has no meaning of its own. -/
theorem high_plain {b : UInt8} (high : 0x80 ≤ b) : b ≠ Byte.quote ∧ b ≠ Byte.backslash ∧ Byte.isControl b = false := by
  have other {x : UInt8} (ascii : x < 0x80) : b ≠ x := by
    rintro rfl
    exact UInt8.not_lt.2 high ascii
  refine ⟨other (by decide), other (by decide), ?_⟩
  simpa [Byte.isControl] using UInt8.le_trans (by decide) high

/-- Bytes that are no ASCII stand for themselves. -/
theorem Means.raw_append {u w bytes : Bytes} (high : ∀ b ∈ u, 0x80 ≤ b) (means : Means w bytes) :
    Means (u ++ w) (u ++ bytes) := by
  induction u with
  | nil => exact means
  | cons b u ih =>
      obtain ⟨quote, slash, control⟩ := high_plain (high b List.mem_cons_self)
      exact .raw quote slash control (ih fun x mem => high x (List.mem_cons_of_mem b mem))

theorem Content.of_high {u : Bytes} (high : ∀ b ∈ u, 0x80 ≤ b) : Content u := by
  induction u with
  | nil => exact .nil
  | cons b u ih =>
      obtain ⟨quote, slash, control⟩ := high_plain (high b List.mem_cons_self)
      exact .raw quote slash control (ih fun x mem => high x (List.mem_cons_of_mem b mem))

/-- Behind bytes that are no ASCII the content goes on. -/
theorem Content.behind_high {u w : Bytes} (high : ∀ b ∈ u, 0x80 ≤ b) (content : Content (u ++ w)) : Content w := by
  induction u with
  | nil => exact content
  | cons b u ih =>
      obtain ⟨_, slash, _⟩ := high_plain (high b List.mem_cons_self)
      rw [List.cons_append] at content
      generalize u ++ w = v at content ih
      cases content with
      | raw _ _ _ content => exact ih (fun x mem => high x (List.mem_cons_of_mem b mem)) content
      | byte | codePoint | escape => exact absurd rfl slash

theorem namedEscapes_eq :
    namedEscapes = namedChars.map fun p => (UInt8.ofNat p.1.toNat, UInt8.ofNat p.2.toNat) := rfl

theorem namedChars_ascii : ∀ p ∈ namedChars, p.1.toNat < 128 := by
  decide

/-- The letters of escapes are ASCII characters, and so is what they stand for. -/
theorem namedEscapes_chars : ∀ p ∈ namedEscapes,
    p.1 < 0x80 ∧ p.2 < 0x80 ∧ (Char.ofNat p.1.toNat, Char.ofNat p.2.toNat) ∈ namedChars := by
  have all : (namedEscapes.all fun p =>
      decide (p.1 < 0x80 ∧ p.2 < 0x80 ∧ (Char.ofNat p.1.toNat, Char.ofNat p.2.toNat) ∈ namedChars)) = true := by decide
  exact fun p mem => of_decide_eq_true (List.all_eq_true.1 all p mem)

theorem not_namedChar {b : UInt8} (ascii : b < 0x80) (none : ∀ x, (b, x) ∉ namedEscapes) (x : Char) :
    (Char.ofNat b.toNat, x) ∉ namedChars := by
  intro mem
  refine none (UInt8.ofNat x.toNat) ?_
  rw [namedEscapes_eq]
  refine List.mem_map.2 ⟨_, mem, ?_⟩
  rw [Utf8.toNat_ofNat_ascii ascii, UInt8.ofNat_toNat]

/-! ### One character or escape -/

/-- The content of a literal goes on behind its first character or escape, and what is left is unescaped by itself. -/
structure Takes (chars rest : List Char) : Prop where
  shorter : rest.length < chars.length
  content : Content (encodeChars rest)
  front : ∃ front, Content front ∧ encodeChars chars = front ++ encodeChars rest
  unescaped : ∀ chars', Unescaped rest chars' → Means (encodeChars rest) (encodeChars chars') →
    ∃ all, Unescaped chars all ∧ Means (encodeChars chars) (encodeChars all)

section Takes

variable {chars : List Char} {b : UInt8} {digits w : Bytes}

/-- The bytes of a longer character stand for themselves one by one. -/
theorem exists_takes_raw (quote : b ≠ Byte.quote) (slash : b ≠ Byte.backslash) (control : Byte.isControl b = false)
    (content : Content w) (same : encodeChars chars = b :: w) : ∃ rest, Takes chars rest := by
  obtain ⟨ascii, rest, rfl, rfl⟩ | ⟨c, tail, rest, rfl, high, encoded, above, rfl⟩ := Utf8.encodeChars_eq_cons same
  · refine ⟨rest, Nat.lt_succ_self _, content, ⟨[b], .raw quote slash control .nil, same⟩, ?_⟩
    intro chars' unescaped means
    have visible : 0x20 ≤ (Char.ofNat b.toNat).toNat := by
      rw [Utf8.toNat_ofNat_ascii ascii]
      simpa [Byte.isControl, UInt8.le_iff_toNat_le] using control
    refine ⟨_, .raw (Utf8.ofNat_ne ascii quote) (Utf8.ofNat_ne ascii slash) visible unescaped, ?_⟩
    rw [same, Utf8.encodeChars_cons, Utf8.encodeChar_ascii ascii]
    exact .raw quote slash control means
  · refine ⟨rest, Nat.lt_succ_self _, content.behind_high fun x mem => above x (List.mem_cons_of_mem b mem),
      ⟨b :: tail, .of_high above, same⟩, ?_⟩
    intro chars' unescaped means
    refine ⟨_, .raw (by rintro rfl; simp at high) (by rintro rfl; simp at high) (by omega) unescaped, ?_⟩
    rw [same, Utf8.encodeChars_cons, encoded]
    exact means.raw_append above

theorem exists_takes_codePoint (count : digits.length = 4) (hex : ∀ x ∈ digits, IsHexDigit x) (content : Content w)
    (same : encodeChars chars = Byte.backslash :: 0x75 :: (digits ++ w)) : ∃ rest, Takes chars rest := by
  obtain ⟨rest, rfl, mark⟩ := Utf8.encodeChars_eq_ascii (by decide) same
  obtain ⟨rest, rfl, inside⟩ := Utf8.encodeChars_eq_ascii (by decide) mark
  obtain ⟨digits', rest, values, rfl, rfl, count', read, number⟩ := exists_digits hex inside
  have escape : Content (Byte.backslash :: 0x75 :: (digits ++ [])) := .codePoint count hex .nil
  refine ⟨rest, by simp only [List.length_cons, List.length_append]; omega, content,
    ⟨_, escape, by rw [same]; simp⟩, ?_⟩
  intro chars' unescaped means
  refine ⟨_, .codePoint (count'.trans count) read unescaped, ?_⟩
  rw [same, Utf8.encodeChars_append, ← number, ← Utf8.encode_eq]
  exact .codePoint count hex means

/-- The first byte of a longer character is taken as the escape, and the others stand for themselves. -/
theorem exists_takes_escape (narrow : b ≠ 0x78) (wide : b ≠ 0x75) (content : Content w)
    (same : encodeChars chars = Byte.backslash :: b :: w) : ∃ rest, Takes chars rest := by
  obtain ⟨rest, rfl, behind⟩ := Utf8.encodeChars_eq_ascii (by decide) same
  obtain ⟨ascii, rest, rfl, rfl⟩ | ⟨c, tail, rest, rfl, high, encoded, above, rfl⟩ := Utf8.encodeChars_eq_cons behind
  · refine ⟨rest, by simp only [List.length_cons]; omega, content,
      ⟨[Byte.backslash, b], .escape narrow wide .nil, same⟩, ?_⟩
    intro chars' unescaped means
    by_cases letter : ∃ x, (b, x) ∈ namedEscapes
    · obtain ⟨x, mem⟩ := letter
      obtain ⟨_, ascii', mem'⟩ := namedEscapes_chars _ mem
      refine ⟨_, .named mem' unescaped, ?_⟩
      rw [same, Utf8.encodeChars_cons, Utf8.encodeChar_ascii ascii']
      exact .named mem means
    · have none (x : UInt8) : (b, x) ∉ namedEscapes := fun mem => letter ⟨x, mem⟩
      refine ⟨_, .self (Utf8.ofNat_ne ascii narrow) (Utf8.ofNat_ne ascii wide) (not_namedChar ascii none) unescaped,
        ?_⟩
      rw [same, Utf8.encodeChars_cons, Utf8.encodeChar_ascii ascii]
      exact .self narrow wide none means
  · have higher : ∀ x ∈ tail, 0x80 ≤ x := fun x mem => above x (List.mem_cons_of_mem b mem)
    refine ⟨rest, by simp only [List.length_cons]; omega, content.behind_high higher,
      ⟨Byte.backslash :: b :: tail, .escape narrow wide (.of_high higher), same⟩, ?_⟩
    intro chars' unescaped means
    have letter (x : Char) : (c, x) ∉ namedChars := fun mem => Nat.not_lt.2 high (namedChars_ascii _ mem)
    have letter' (x : UInt8) : (b, x) ∉ namedEscapes := fun mem =>
      UInt8.not_le.2 (namedEscapes_chars _ mem).1 (above b List.mem_cons_self)
    refine ⟨_, .self (by rintro rfl; simp at high) (by rintro rfl; simp at high) letter unescaped, ?_⟩
    rw [same, Utf8.encodeChars_cons, encoded]
    exact .self narrow wide letter' (means.raw_append higher)

end Takes

/-! ### Whole literals -/

/-- Between the quotes of a literal that is valid text, and in which no escape names a byte, the meaning is the text
    with each escape replaced by its character.  The induction is on the characters, one character or escape at a
    time. -/
theorem Content.unescaped {chars : List Char} (content : Content (encodeChars chars))
    (plain : ¬ NamesByte (encodeChars chars)) :
    ∃ chars', Unescaped chars chars' ∧ Means (encodeChars chars) (encodeChars chars') := by
  induction length : chars.length using Nat.strongRecOn generalizing chars with
  | ind n ih =>
      have further {rest : List Char} (takes : Takes chars rest) :
          ∃ chars', Unescaped chars chars' ∧ Means (encodeChars chars) (encodeChars chars') := by
        obtain ⟨front, inside, whole⟩ := takes.front
        have plain' : ¬ NamesByte (encodeChars rest) := fun names => plain (whole ▸ names.append inside)
        obtain ⟨chars', unescaped, means⟩ := ih _ (length ▸ takes.shorter) takes.content plain' rfl
        exact takes.unescaped chars' unescaped means
      generalize same : encodeChars chars = w at content
      rw [← same]
      cases content with
      | nil =>
          rw [Utf8.encodeChars_eq_nil same]
          exact ⟨[], .nil, .nil⟩
      | raw quote slash control content =>
          obtain ⟨rest, takes⟩ := exists_takes_raw quote slash control content same
          exact further takes
      | byte count hex content => exact absurd ⟨[], _, _, same, .nil, count, hex⟩ plain
      | codePoint count hex content =>
          obtain ⟨rest, takes⟩ := exists_takes_codePoint count hex content same
          exact further takes
      | escape narrow wide content =>
          obtain ⟨rest, takes⟩ := exists_takes_escape narrow wide content same
          exact further takes

end JsonSidecar.Quoted
