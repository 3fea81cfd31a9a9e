/-
Module: JsonSidecar.Proofs.Text.Chars
Purpose: Valid byte strings are the encodings of texts.  What the decoder finds in the bytes of one character is that
  character and no other bytes give it, so a byte string without invalid pieces is made of encodings; and the
  encoding of a code point is that of its character, or nothing where it has none.
Main exports: Utf8.char?, Utf8.encode_eq, Utf8.isValid_iff, Utf8.Seam.isValid_append
-/
import JsonSidecar.Proofs.Text.Parts

namespace JsonSidecar.Utf8

/-! ### Encodings of code points -/

/-- The encodings of some characters, one behind the other. -/
def encodeChars (chars : List Char) : Bytes := chars.flatMap String.utf8EncodeChar

theorem utf8_eq (text : String) : utf8 text = encodeChars text.toList := rfl

@[simp] theorem encodeChars_nil : encodeChars [] = [] := rfl

@[simp] theorem encodeChars_cons (c : Char) (chars : List Char) :
    encodeChars (c :: chars) = String.utf8EncodeChar c ++ encodeChars chars :=
  List.flatMap_cons

@[simp] theorem encodeChars_append (chars chars' : List Char) :
    encodeChars (chars ++ chars') = encodeChars chars ++ encodeChars chars' :=
  List.flatMap_append

/-- The character with a given code.  Surrogates and numbers above the last code point have none. -/
def char? (code : Nat) : Option Char := if code.isValidChar then some (Char.ofNat code) else none

theorem ofNat_val {code : Nat} (valid : code.isValidChar) : (Char.ofNat code).val.toNat = code := by
  rw [Char.ofNat, dif_pos valid]
  rfl

/-- The four lengths of an encoding. -/
theorem encodeChar_ofNat {code : Nat} (valid : code.isValidChar) :
    String.utf8EncodeChar (Char.ofNat code) =
      if code < 0x80 then [UInt8.ofNat code]
      else if code < 0x800 then [UInt8.ofNat (code / 64 % 32 + 192), UInt8.ofNat (code % 64 + 128)]
      else if code < 0x10000 then [UInt8.ofNat (code / 4096 % 16 + 224), UInt8.ofNat (code / 64 % 64 + 128),
        UInt8.ofNat (code % 64 + 128)]
      else [UInt8.ofNat (code / 262144 % 8 + 240), UInt8.ofNat (code / 4096 % 64 + 128),
        UInt8.ofNat (code / 64 % 64 + 128), UInt8.ofNat (code % 64 + 128)] := by
  unfold String.utf8EncodeChar
  rw [ofNat_val valid]
  dsimp only
  have below (n : Nat) : (code ≤ n) = (code < n + 1) := propext Nat.lt_succ_iff.symm
  simp only [below, Nat.reduceAdd]

/-- The encoding of a code point is that of its character. -/
theorem encode_eq (code : Nat) : encode code = encodeChars (char? code).toList := by
  simp only [encode, Bool.and_eq_true, decide_eq_true_eq]
  by_cases valid : code.isValidChar
  · have range : code < 0xd800 ∨ 0xdfff < code ∧ code < 0x110000 := valid
    rw [char?, if_pos valid, Option.toList_some, encodeChars_cons, encodeChars_nil, List.append_nil,
      encodeChar_ofNat valid,
      if_neg (c := 0xd800 ≤ code ∧ code < 0xe000) (by omega), if_pos (c := code < 0x110000) (by omega)]
    -- The two bound the high bits of a first byte differently.
    split
    · rfl
    split
    · rw [Nat.add_comm 0xc0, Nat.add_comm 0x80, Nat.mod_eq_of_lt (b := 32) (by omega)]
    split
    · rw [Nat.add_comm 0xe0, Nat.add_comm 0x80, Nat.add_comm 0x80, Nat.mod_eq_of_lt (b := 16) (by omega)]
    · rw [Nat.add_comm 0xf0, Nat.add_comm 0x80, Nat.add_comm 0x80, Nat.add_comm 0x80,
        Nat.mod_eq_of_lt (b := 8) (by omega)]
  · have range : ¬ (code < 0xd800 ∨ 0xdfff < code ∧ code < 0x110000) := valid
    rw [char?, if_neg valid, if_neg (c := code < 0x80) (by omega), if_neg (c := code < 0x800) (by omega)]
    split
    · rfl
    · rw [if_neg (c := code < 0x10000) (by omega), if_neg (c := code < 0x110000) (by omega)]
      rfl

/-! ### The bytes of a character -/

/-- Whether the pieces still to come are characters. -/
def ValidFrom (state : State) (bytes : Bytes) : Prop := (piecesFrom state bytes).all Option.isSome = true

theorem ValidFrom.cons {state : State} {b : UInt8} {rest : Bytes} (valid : ValidFrom state (b :: rest)) :
    (step state b).1.all Option.isSome = true ∧ ValidFrom (step state b).2 rest := by
  rw [ValidFrom, piecesFrom_cons, List.all_append, Bool.and_eq_true] at valid
  exact valid

/-- Inside a valid character there is a next byte, in the range that is open to it. -/
theorem ValidFrom.inside {left : Nat} {low high : UInt8} {code : Nat} {bytes : Bytes}
    (valid : ValidFrom (.inside left low high code) bytes) :
    ∃ b rest, bytes = b :: rest ∧ low ≤ b ∧ b ≤ high ∧ ValidFrom (step (.inside left low high code) b).2 rest := by
  cases bytes with
  | nil => cases valid
  | cons b rest =>
      obtain ⟨pieces, further⟩ := valid.cons
      by_cases fits : low ≤ b && b ≤ high
      · have range : low ≤ b ∧ b ≤ high := by simpa using fits
        exact ⟨b, rest, rfl, range.1, range.2, further⟩
      · simp only [step, if_neg fits] at pieces
        cases pieces

/-- A byte behind the first, by its six low bits. -/
theorem exists_behind {b : UInt8} (low : 128 ≤ b.toNat) (high : b.toNat < 192) :
    ∃ n < 64, b = UInt8.ofNat (n + 128) ∧ b.toNat = n + 128 := by
  refine ⟨b.toNat - 128, by omega, ?_, by omega⟩
  rw [Nat.sub_add_cancel low, UInt8.ofNat_toNat]

/-- Behind its first bytes a valid character has one more, which ends it. -/
theorem ValidFrom.last {code : Nat} {bytes : Bytes} (valid : ValidFrom (.inside 0 0x80 0xbf code) bytes) :
    ∃ n < 64, ∃ rest, bytes = UInt8.ofNat (n + 128) :: rest ∧ ValidFrom .start rest := by
  obtain ⟨b, rest, rfl, low, high, further⟩ := valid.inside
  obtain ⟨n, small, same, _⟩ :=
    exists_behind (UInt8.le_iff_toNat_le.1 low) (Nat.lt_succ_of_le (UInt8.le_iff_toNat_le.1 high))
  subst same
  rw [step_last small] at further
  exact ⟨n, small, rest, rfl, further⟩

/-- Behind its first byte a longer valid character has one more, in the range that is open to it, which goes on with
    it. -/
theorem ValidFrom.more {left : Nat} {low high : UInt8} {code : Nat} {bytes : Bytes} (above : 128 ≤ low.toNat)
    (below : high.toNat < 192) (valid : ValidFrom (.inside (left + 1) low high code) bytes) :
    ∃ n < 64, low.toNat ≤ n + 128 ∧ n + 128 ≤ high.toNat ∧ ∃ rest, bytes = UInt8.ofNat (n + 128) :: rest ∧
      ValidFrom (.inside left 0x80 0xbf (code * 64 + n)) rest := by
  obtain ⟨b, rest, rfl, lower, upper, further⟩ := valid.inside
  rw [UInt8.le_iff_toNat_le] at lower upper
  obtain ⟨n, small, same, value⟩ := exists_behind (by omega) (by omega : b.toNat < 192)
  subst same
  rw [value] at lower upper
  rw [step_more small lower upper] at further
  exact ⟨n, small, lower, upper, rest, rfl, further⟩

/-! ### First bytes of valid characters -/

theorem lead_behind : ∀ n < 66, (lead (UInt8.ofNat (n + 128))).1 = [none] := by
  decide

theorem lead_beyond : ∀ n < 11, (lead (UInt8.ofNat (n + 245))).1 = [none] := by
  decide

theorem encodeChar_two {n m : Nat} (lower : 2 ≤ n) (upper : n < 32) (small : m < 64) :
    String.utf8EncodeChar (Char.ofNat (n * 64 + m)) = [UInt8.ofNat (n + 192), UInt8.ofNat (m + 128)] := by
  rw [encodeChar_ofNat (.inl (by omega)), if_neg (by omega), if_pos (by omega),
    show (n * 64 + m) / 64 % 32 = n by omega, show (n * 64 + m) % 64 = m by omega]

theorem encodeChar_three {n m k : Nat} (upper : n < 16) (small : m < 64) (small' : k < 64) (long : n = 0 → 32 ≤ m)
    (scalar : n = 13 → m < 32) :
    String.utf8EncodeChar (Char.ofNat ((n * 64 + m) * 64 + k))
      = [UInt8.ofNat (n + 224), UInt8.ofNat (m + 128), UInt8.ofNat (k + 128)] := by
  have valid : ((n * 64 + m) * 64 + k).isValidChar := by
    show (n * 64 + m) * 64 + k < 0xd800 ∨ 0xdfff < (n * 64 + m) * 64 + k ∧ (n * 64 + m) * 64 + k < 0x110000
    omega
  rw [encodeChar_ofNat valid, if_neg (by omega), if_neg (by omega), if_pos (by omega),
    show ((n * 64 + m) * 64 + k) / 4096 % 16 = n by omega, show ((n * 64 + m) * 64 + k) / 64 % 64 = m by omega,
    show ((n * 64 + m) * 64 + k) % 64 = k by omega]

theorem encodeChar_four {n m k l : Nat} (upper : n < 5) (small : m < 64) (small' : k < 64) (small'' : l < 64)
    (long : n = 0 → 16 ≤ m) (scalar : n = 4 → m < 16) :
    String.utf8EncodeChar (Char.ofNat (((n * 64 + m) * 64 + k) * 64 + l))
      = [UInt8.ofNat (n + 240), UInt8.ofNat (m + 128), UInt8.ofNat (k + 128), UInt8.ofNat (l + 128)] := by
  have valid : (((n * 64 + m) * 64 + k) * 64 + l).isValidChar := .inr (by omega)
  rw [encodeChar_ofNat valid, if_neg (by omega), if_neg (by omega), if_neg (by omega),
    show (((n * 64 + m) * 64 + k) * 64 + l) / 262144 % 8 = n by omega,
    show (((n * 64 + m) * 64 + k) * 64 + l) / 4096 % 64 = m by omega,
    show (((n * 64 + m) * 64 + k) * 64 + l) / 64 % 64 = k by omega,
    show (((n * 64 + m) * 64 + k) * 64 + l) % 64 = l by omega]

/-- The bytes begin with the encoding of a character, behind which they are valid. -/
def BeginsChar (bytes : Bytes) : Prop :=
  ∃ (c : Char) (rest : Bytes), bytes = String.utf8EncodeChar c ++ rest ∧ ValidFrom .start rest

theorem BeginsChar.of_encode {c : Char} {bytes w rest : Bytes} (encoded : String.utf8EncodeChar c = w)
    (same : bytes = w ++ rest) (valid : ValidFrom .start rest) : BeginsChar bytes :=
  ⟨c, rest, by rw [same, encoded], valid⟩

theorem BeginsChar.one {n : Nat} (upper : n < 128) {rest : Bytes} (valid : ValidFrom .start rest) :
    BeginsChar (UInt8.ofNat n :: rest) := by
  refine .of_encode (c := Char.ofNat n) (w := [UInt8.ofNat n]) ?_ rfl valid
  rw [encodeChar_ofNat (.inl (by omega)), if_pos upper]

theorem BeginsChar.two {n : Nat} (lower : 2 ≤ n) (upper : n < 32) {rest : Bytes}
    (valid : ValidFrom (.inside 0 0x80 0xbf n) rest) : BeginsChar (UInt8.ofNat (n + 192) :: rest) := by
  obtain ⟨m, small, behind, same, further⟩ := valid.last
  exact .of_encode (encodeChar_two lower upper small) (by rw [same]; rfl) further

/-- The range of the second byte shuts out surrogates and encodings that are longer than needed. -/
theorem BeginsChar.three {n : Nat} (upper : n < 16) {rest : Bytes}
    (valid : ValidFrom (.inside 1 (if n = 0 then 0xa0 else 0x80) (if n = 13 then 0x9f else 0xbf) n) rest) :
    BeginsChar (UInt8.ofNat (n + 224) :: rest) := by
  obtain ⟨m, small, least, most, behind, same, further⟩ := valid.more (by split <;> decide) (by split <;> decide)
  obtain ⟨k, small', behind', same', further⟩ := further.last
  have long : n = 0 → 32 ≤ m := by
    rintro rfl
    exact Nat.le_of_add_le_add_right (show 32 + 128 ≤ m + 128 from least)
  have scalar : n = 13 → m < 32 := by
    rintro rfl
    exact Nat.lt_of_add_lt_add_right (show m + 128 < 32 + 128 from Nat.lt_succ_of_le most)
  exact .of_encode (encodeChar_three upper small small' long scalar) (by rw [same, same']; rfl) further

/-- The range of the second byte shuts out codes above the last one and encodings that are longer than needed. -/
theorem BeginsChar.four {n : Nat} (upper : n < 5) {rest : Bytes}
    (valid : ValidFrom (.inside 2 (if n = 0 then 0x90 else 0x80) (if n = 4 then 0x8f else 0xbf) n) rest) :
    BeginsChar (UInt8.ofNat (n + 240) :: rest) := by
  obtain ⟨m, small, least, most, behind, same, further⟩ := valid.more (by split <;> decide) (by split <;> decide)
  obtain ⟨k, small', _, _, behind', same', further⟩ := further.more (by decide) (by decide)
  obtain ⟨l, small'', behind'', same'', further⟩ := further.last
  have long : n = 0 → 16 ≤ m := by
    rintro rfl
    exact Nat.le_of_add_le_add_right (show 16 + 128 ≤ m + 128 from least)
  have last : n = 4 → m < 16 := by
    rintro rfl
    exact Nat.lt_of_add_lt_add_right (show m + 128 < 16 + 128 from Nat.lt_succ_of_le most)
  exact .of_encode (encodeChar_four upper small small' small'' long last) (by rw [same, same', same'']; rfl) further

/-- Valid bytes begin with the encoding of a character.  The cases are the lengths of an encoding, by its first byte. -/
theorem ValidFrom.begins {b : UInt8} {rest : Bytes} (valid : ValidFrom .start (b :: rest)) :
    BeginsChar (b :: rest) := by
  obtain ⟨piece, further⟩ := valid.cons
  rw [step] at piece further
  have word : b.toNat < 256 := b.toNat_lt
  have place (base : Nat) (le : base ≤ b.toNat) : b = UInt8.ofNat (b.toNat - base + base) := by
    rw [Nat.sub_add_cancel le, UInt8.ofNat_toNat]
  rcases Nat.lt_or_ge b.toNat 128 with one | behind
  · have same : b = UInt8.ofNat b.toNat := UInt8.ofNat_toNat.symm
    rw [same, lead_one _ one] at further
    rw [same]
    exact .one one further
  rcases Nat.lt_or_ge b.toNat 194 with less | two
  · rw [place 128 behind, lead_behind _ (by omega)] at piece
    cases piece
  rcases Nat.lt_or_ge b.toNat 224 with less | three
  · rw [place 192 (by omega), lead_two _ (by omega) (by omega)] at further
    rw [place 192 (by omega)]
    exact .two (by omega) (by omega) further
  rcases Nat.lt_or_ge b.toNat 240 with less | four
  · rw [place 224 three, lead_three _ (by omega)] at further
    rw [place 224 three]
    exact .three (by omega) further
  rcases Nat.lt_or_ge b.toNat 245 with less | beyond
  · rw [place 240 four, lead_four _ (by omega)] at further
    rw [place 240 four]
    exact .four (by omega) further
  · rw [place 245 beyond, lead_beyond _ (by omega)] at piece
    cases piece

/-! ### ASCII characters and others -/

/-- An ASCII character is one byte, and others have no ASCII bytes. -/
theorem encodeChar_cases (c : Char) :
    (c.toNat < 128 ∧ String.utf8EncodeChar c = [UInt8.ofNat c.toNat]) ∨
      (128 ≤ c.toNat ∧ (∀ b ∈ String.utf8EncodeChar c, 0x80 ≤ b) ∧ ∃ b tail, String.utf8EncodeChar c = b :: tail) := by
  have same : Char.ofNat c.toNat = c := Char.ofNat_toNat c
  have encoded := @encodeChar_ofNat c.toNat c.valid
  rw [same] at encoded
  have above (n k : Nat) (le : 128 ≤ k) (lt : n + k < 256) : (0x80 : UInt8) ≤ UInt8.ofNat (n + k) := by
    rw [UInt8.le_iff_toNat_le, UInt8.toNat_ofNat', Nat.mod_eq_of_lt lt]
    exact Nat.le_trans le (Nat.le_add_left ..)
  have range : c.toNat < 0x110000 := by
    rcases c.valid with low | ⟨_, high⟩
    · exact Nat.lt_trans low (by decide)
    · exact high
  rw [encoded]
  split
  · exact .inl ⟨‹_›, rfl⟩
  refine .inr ⟨Nat.le_of_not_lt ‹_›, ?_, ?_⟩
  · repeat' split
    all_goals
      simp only [List.mem_cons, List.not_mem_nil, or_false]
      rintro b (rfl | rfl | rfl | rfl)
      all_goals exact above _ _ (by decide) (by omega)
  · repeat' split
    all_goals exact ⟨_, _, rfl⟩

theorem encodeChars_eq_nil {chars : List Char} (none : encodeChars chars = []) : chars = [] := by
  cases chars with
  | nil => rfl
  | cons c rest =>
      obtain ⟨_, one⟩ | ⟨_, _, b, tail, more⟩ := encodeChar_cases c
      · simp [one] at none
      · simp [more] at none

/-- The character of an ASCII byte. -/
theorem toNat_ofNat_ascii {b : UInt8} (ascii : b < 0x80) : (Char.ofNat b.toNat).toNat = b.toNat := by
  have small : b.toNat < 128 := UInt8.lt_iff_toNat_lt.1 ascii
  exact ofNat_val (.inl (by omega))

/-- The character of an ASCII byte is encoded as that byte. -/
theorem encodeChar_ascii {b : UInt8} (ascii : b < 0x80) : String.utf8EncodeChar (Char.ofNat b.toNat) = [b] := by
  have small : b.toNat < 128 := UInt8.lt_iff_toNat_lt.1 ascii
  rw [encodeChar_ofNat (.inl (by omega)), if_pos small, UInt8.ofNat_toNat]

theorem ofNat_ne {b : UInt8} (ascii : b < 0x80) {c : Char} (other : b ≠ UInt8.ofNat c.toNat) :
    Char.ofNat b.toNat ≠ c := by
  rintro rfl
  rw [toNat_ofNat_ascii ascii, UInt8.ofNat_toNat] at other
  exact other rfl

/-- The first byte of a text is an ASCII character, or it begins a character without ASCII bytes. -/
theorem encodeChars_eq_cons {chars : List Char} {b : UInt8} {w : Bytes} (same : encodeChars chars = b :: w) :
    (b < 0x80 ∧ ∃ rest, chars = Char.ofNat b.toNat :: rest ∧ w = encodeChars rest) ∨
      ∃ c tail rest, chars = c :: rest ∧ 128 ≤ c.toNat ∧ String.utf8EncodeChar c = b :: tail ∧
        (∀ x ∈ b :: tail, 0x80 ≤ x) ∧ w = tail ++ encodeChars rest := by
  cases chars with
  | nil => cases same
  | cons c rest =>
      rw [encodeChars_cons] at same
      obtain ⟨low, one⟩ | ⟨high, above, x, tail, more⟩ := encodeChar_cases c
      · rw [one] at same
        obtain ⟨rfl, rfl⟩ := List.cons.inj same
        have byte : (UInt8.ofNat c.toNat).toNat = c.toNat := by
          rw [UInt8.toNat_ofNat', Nat.mod_eq_of_lt (by omega)]
        have ascii : UInt8.ofNat c.toNat < 0x80 := by
          rw [UInt8.lt_iff_toNat_lt, byte]
          exact low
        exact .inl ⟨ascii, rest, by rw [byte, Char.ofNat_toNat], rfl⟩
      · rw [more] at same above
        obtain ⟨rfl, rfl⟩ := List.cons.inj same
        exact .inr ⟨c, tail, rest, rfl, high, more, above, rfl⟩

/-- Where the encoding of a text has an ASCII byte, the text has that character. -/
theorem encodeChars_eq_ascii {chars : List Char} {b : UInt8} {w : Bytes} (ascii : b < 0x80)
    (same : encodeChars chars = b :: w) : ∃ rest, chars = Char.ofNat b.toNat :: rest ∧ encodeChars rest = w := by
  obtain ⟨_, rest, text, behind⟩ | ⟨_, _, _, _, _, _, above, _⟩ := encodeChars_eq_cons same
  · exact ⟨rest, text, behind.symm⟩
  · exact absurd (above b List.mem_cons_self) (UInt8.not_le.2 ascii)

/-! ### Valid byte strings -/

theorem ValidFrom.exists_chars {bytes : Bytes} (valid : ValidFrom .start bytes) :
    ∃ chars, bytes = encodeChars chars := by
  induction length : bytes.length using Nat.strongRecOn generalizing bytes with
  | ind n ih =>
      cases bytes with
      | nil => exact ⟨[], rfl⟩
      | cons b rest =>
          obtain ⟨c, behind, same, further⟩ := valid.begins
          have shorter : behind.length < n := by
            have lengths := congrArg List.length same
            have width := c.utf8Size_pos
            rw [List.length_append, String.length_utf8EncodeChar] at lengths
            omega
          obtain ⟨chars, rfl⟩ := ih _ shorter further rfl
          exact ⟨c :: chars, by rw [same, encodeChars_cons]⟩

/-- Valid byte strings are the encodings of texts. -/
theorem isValid_iff {bytes : Bytes} : isValid bytes = true ↔ ∃ chars, bytes = encodeChars chars := by
  constructor
  · exact ValidFrom.exists_chars
  · rintro ⟨chars, rfl⟩
    have valid := isValid_utf8 (String.ofList chars)
    rwa [utf8_eq, String.toList_ofList] at valid

/-- Texts with the same encoding are the same. -/
theorem encodeChars_injective {chars chars' : List Char} (same : encodeChars chars = encodeChars chars') :
    chars = chars' := by
  have read (chars : List Char) : pieces (encodeChars chars) = chars.map some := by
    have whole := pieces_utf8 (String.ofList chars)
    rwa [utf8_eq, String.toList_ofList] at whole
  have pieces := congrArg pieces same
  rw [read, read] at pieces
  exact (List.map_inj_right fun _ _ => Option.some.inj).1 pieces

/-- A byte string is valid if its parts are. -/
theorem isValid_eq_all_parts (bytes : Bytes) : isValid bytes = (parts bytes).all isValid := by
  have each : (parts bytes).map isValid = (pieces bytes).map Option.isSome := by
    calc
      (parts bytes).map isValid = ((parts bytes).map pieces).map fun read => read.all Option.isSome := by
        rw [List.map_map]
        rfl
      _ = ((pieces bytes).map ([·])).map fun read => read.all Option.isSome := by rw [parts_pieces]
      _ = (pieces bytes).map Option.isSome := by simp
  have all (α : Type) (p : α → Bool) (as : List α) : as.all p = (as.map p).all id := by
    rw [List.all_map, Function.id_comp]
  rw [isValid, all, ← each, ← all]

/-- The two sides of a seam are valid if the whole is. -/
theorem Seam.isValid_append {u v : Bytes} (seam : Seam u v) : isValid (u ++ v) = (isValid u && isValid v) := by
  rw [isValid_eq_all_parts, isValid_eq_all_parts u, isValid_eq_all_parts v, seam.parts_append, List.all_append]

end JsonSidecar.Utf8
