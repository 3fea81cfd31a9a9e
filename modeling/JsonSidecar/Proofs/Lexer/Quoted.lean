/-
Module: JsonSidecar.Proofs.Lexer.Quoted
Purpose: String literals: what the writer produces is scanned back as the bytes that were written, and whatever
  the scanner accepts is a literal of a grammar that knows nothing of its states.
Main exports: Quoted.write_eq, Quoted.encode_length, Quoted.scan_encode, Quoted.Content, Quoted.IsLiteral,
  Quoted.scan_sound
-/
import JsonSidecar.Lexer.Quoted
import JsonSidecar.Proofs.Cursor
import JsonSidecar.Text.Compose

namespace JsonSidecar.Quoted

/-! ### Writing -/

theorem encodeByte_length (b : UInt8) : (encodeByte b).length = encodedByteLength b := by
  unfold encodeByte
  split
  · rename_i quote
    simp [encodedByteLength, quote]
  split
  · rename_i quote backslash
    simp [encodedByteLength, backslash]
  split
  · rename_i quote backslash newline
    simp [encodedByteLength, newline]
  split
  · rename_i quote backslash newline control
    simp [encodedByteLength, quote, backslash, newline, control]
  · rename_i quote backslash newline control
    simp [encodedByteLength, quote, backslash, newline, control]

/-- A byte of length one stands for itself. -/
theorem encodeByte_of_length_one {b : UInt8} (one : encodedByteLength b = 1) : encodeByte b = [b] := by
  unfold encodedByteLength at one
  split at one
  · cases one
  split at one
  · cases one
  · rename_i special control
    simp only [Bool.or_eq_true, decide_eq_true_eq, not_or] at special
    simp [encodeByte, special, control]

/-- One byte of the content moves a literal on by what it becomes, with the run in front of it made up for. -/
theorem Writing.take_spec (front behind : Bytes) (b : UInt8) (w : Writing) (inside : w.copied ≤ front.length) :
    (w.take (front ++ b :: behind) (b, front.length)).copied ≤ (front ++ [b]).length ∧
      (w.take (front ++ b :: behind) (b, front.length)).text
          ++ (front ++ [b]).drop (w.take (front ++ b :: behind) (b, front.length)).copied
        = w.text ++ front.drop w.copied ++ encodeByte b := by
  unfold Writing.take
  split
  · rename_i one
    constructor
    · rw [List.length_append]
      omega
    · rw [encodeByte_of_length_one one, List.drop_append_of_le_length inside, List.append_assoc]
  · have run : (front ++ b :: behind).extract w.copied front.length = front.drop w.copied := by
      rw [List.extract_eq_take_drop, List.drop_append_of_le_length inside,
        List.take_append_of_le_length (by simp), List.take_of_length_le (by simp)]
    constructor
    · simp
    · simp [run]

/-- A writer that has seen `front` and passes over what is behind it makes up for all of it in the end. -/
theorem Writing.foldl_take (behind front : Bytes) (w : Writing) (inside : w.copied ≤ front.length) :
    ((behind.zipIdx front.length).foldl (Writing.take (front ++ behind)) w).text
        ++ (front ++ behind).drop ((behind.zipIdx front.length).foldl (Writing.take (front ++ behind)) w).copied
      = w.text ++ front.drop w.copied ++ behind.flatMap encodeByte := by
  induction behind generalizing front w with
  | nil => simp
  | cons b behind ih =>
      obtain ⟨within, same⟩ := Writing.take_spec front behind b w inside
      have further := ih (front ++ [b]) _ within
      rw [List.length_append, List.length_singleton, List.append_assoc, List.singleton_append, same] at further
      rw [List.zipIdx_cons, List.foldl_cons, further, List.flatMap_cons, List.append_assoc]

/-- The literal is the quotes around what each byte becomes, behind the text that is there. -/
theorem write_eq (text content : Bytes) :
    write text content = text ++ Byte.quote :: (content.flatMap encodeByte ++ [Byte.quote]) := by
  have whole := Writing.foldl_take content [] ⟨text ++ [Byte.quote], 0⟩ (Nat.le_refl 0)
  simp only [List.nil_append, List.length_nil, List.drop_nil, List.append_nil] at whole
  simp only [write, whole, List.append_assoc, List.cons_append, List.nil_append]

theorem encode_eq (content : Bytes) :
    encode content = Byte.quote :: (content.flatMap encodeByte ++ [Byte.quote]) :=
  write_eq [] content

/-- Writing behind a text leaves the text alone. -/
theorem write_encode (text content : Bytes) : write text content = text ++ encode content := by
  rw [write_eq, encode_eq]

/-- The length of a literal is told exactly without writing it. -/
theorem encode_length (bytes : Bytes) : (encode bytes).length = encodedLength bytes := by
  have lengths : (bytes.flatMap encodeByte).length = (bytes.map encodedByteLength).sum := by
    rw [List.length_flatMap]
    simp only [encodeByte_length]
  simp [encode_eq, encodedLength, lengths]
  omega

/-- Bytes that need no escape are written as they are. -/
theorem encode_of_plain {bytes : Bytes} (plain : ∀ b ∈ bytes, encodeByte b = [b]) :
    encode bytes = Byte.quote :: (bytes ++ [Byte.quote]) := by
  have same : bytes.flatMap encodeByte = bytes := by
    induction bytes with
    | nil => rfl
    | cons b bytes ih =>
        rw [List.flatMap_cons, plain b (by simp), ih fun b mem => plain b (by simp [mem])]
        rfl
  rw [encode_eq, same]

/-- A key that needs no escapes, with its colon and what follows. -/
theorem keyText_append {key : Bytes} (plain : ∀ b ∈ key, encodeByte b = [b]) (w : Bytes) :
    keyText key ++ w = encode key ++ Byte.colon :: w := by
  rw [encode_of_plain plain]
  simp [keyText]

/-! ### Scanning what was written -/

theorem hexValue?_hexDigit : ∀ n < 16, Byte.hexValue? (Byte.hexDigit n) = some n := by
  decide

/-- A byte that moves the scanner on contributes its content to what the rest yields. -/
theorem body_cons_next {state next : State} {b : UInt8} {content : Bytes}
    (h : step state b = .next content next) (pos : Nat) (rest : Bytes) :
    body state pos (b :: rest)
      = (content ++ (body next (pos + 1) rest).1, (body next (pos + 1) rest).2) := by
  simp [body, h]

/-- One byte of a literal, as the writer puts it down, yields that byte. -/
theorem body_encodeByte (b : UInt8) (pos : Nat) (rest : Bytes) :
    body .plain pos (encodeByte b ++ rest)
      = (b :: (body .plain (pos + (encodeByte b).length) rest).1,
          (body .plain (pos + (encodeByte b).length) rest).2) := by
  unfold encodeByte
  split
  · rename_i quote
    subst quote
    rfl
  split
  · rename_i backslash
    subst backslash
    rfl
  split
  · rename_i newline
    subst newline
    rfl
  split
  · -- A control byte is written as a code point of two digits, which encodes as that byte.
    rename_i control
    have small : b.toNat < 32 := by
      simpa [Byte.isControl, UInt8.lt_iff_toNat_lt] using control
    have mark : step .plain Byte.backslash = .next [] .escaped := rfl
    have wide : step .escaped 0x75 = .next [] (.numeric 3 0 true) := rfl
    have first : step (.numeric 3 0 true) Byte.zero = .next [] (.numeric 2 0 true) := rfl
    have second : step (.numeric 2 0 true) Byte.zero = .next [] (.numeric 1 0 true) := rfl
    have high : step (.numeric 1 0 true) (Byte.hexDigit (b.toNat / 16))
        = .next [] (.numeric 0 (b.toNat / 16) true) := by
      simp [step, hexValue?_hexDigit (b.toNat / 16) (by omega)]
    have code : b.toNat / 16 * 16 + b.toNat % 16 = b.toNat := by omega
    have low : step (.numeric 0 (b.toNat / 16) true) (Byte.hexDigit (b.toNat % 16))
        = .next [b] .plain := by
      simp [step, hexValue?_hexDigit (b.toNat % 16) (by omega), code, numericContent, Utf8.encode,
        show b.toNat < 0x80 by omega]
    simp only [List.cons_append, List.nil_append]
    rw [body_cons_next mark, body_cons_next wide, body_cons_next first, body_cons_next second,
      body_cons_next high, body_cons_next low]
    simp
  · rename_i quote backslash newline control
    simp [body, step, quote, backslash, control]

/-- The content of a literal is scanned as the bytes that were written. -/
theorem body_encode (bytes : Bytes) (pos : Nat) (rest : Bytes) :
    body .plain pos (bytes.flatMap encodeByte ++ Byte.quote :: rest)
      = (bytes, .ok () ⟨pos + (bytes.flatMap encodeByte).length + 1, rest⟩) := by
  induction bytes generalizing pos with
  | nil => rfl
  | cons b bytes ih =>
      rw [List.flatMap_cons, List.append_assoc, body_encodeByte, ih]
      simp [Nat.add_assoc]

/-- A written literal is scanned as its bytes, wherever it stands and whatever follows. -/
theorem scan_encode (bytes : Bytes) (pos : Nat) (rest : Bytes) :
    scan ⟨pos, encode bytes ++ rest⟩ = (bytes, .ok () ⟨pos + (encode bytes).length, rest⟩) := by
  simp only [encode_eq, List.cons_append, List.append_assoc, List.nil_append, scan, Cursor.eat?_cons_self,
    body_encode]
  simp
  omega

theorem read_encode (bytes : Bytes) (pos : Nat) (rest : Bytes) :
    read ⟨pos, encode bytes ++ rest⟩ = .ok bytes ⟨pos + (encode bytes).length, rest⟩ := by
  simp [read, scan_encode]

/-! ### The grammar of literals -/

/-- A hexadecimal digit of either case. -/
def IsHexDigit (b : UInt8) : Prop := (Byte.hexValue? b).isSome = true

/-- What may stand between the quotes of a literal: raw bytes that are neither control bytes nor have a
    meaning of their own, and escapes, of which two take hexadecimal digits. -/
inductive Content : Bytes → Prop where
  | nil : Content []
  | raw {b : UInt8} {rest : Bytes} : b ≠ Byte.quote → b ≠ Byte.backslash → Byte.isControl b = false →
      Content rest → Content (b :: rest)
  | byte {digits rest : Bytes} : digits.length = 2 → (∀ b ∈ digits, IsHexDigit b) → Content rest →
      Content (Byte.backslash :: 0x78 :: (digits ++ rest))
  | codePoint {digits rest : Bytes} : digits.length = 4 → (∀ b ∈ digits, IsHexDigit b) → Content rest →
      Content (Byte.backslash :: 0x75 :: (digits ++ rest))
  | escape {b : UInt8} {rest : Bytes} : b ≠ 0x78 → b ≠ 0x75 → Content rest →
      Content (Byte.backslash :: b :: rest)

/-- A string literal with its quotes. -/
def IsLiteral (w : Bytes) : Prop := ∃ content, w = Byte.quote :: (content ++ [Byte.quote]) ∧ Content content

/-- What lies ahead of a scanner in a given state, up to the closing quote. -/
def State.Ahead : State → Bytes → Prop
  | .plain, w => Content w
  | .escaped, w => Content (Byte.backslash :: w)
  | .numeric left _ _, w =>
    ∃ digits rest, w = digits ++ rest ∧ digits.length = left + 1 ∧ (∀ b ∈ digits, IsHexDigit b) ∧
      Content rest

/-- Only two escapes go on behind the byte that names them. -/
theorem escape_plain {b : UInt8} (narrow : b ≠ 0x78) (wide : b ≠ 0x75) :
    ∃ yielded, escape b = .next yielded .plain := by
  simp only [escape, if_neg narrow, if_neg wide]
  repeat' split
  all_goals exact ⟨_, rfl⟩

/-- A byte behind a backslash keeps what lies ahead in the grammar. -/
theorem ahead_escape {b : UInt8} {content : Bytes} {state : State} {w : Bytes}
    (h : escape b = .next content state) (ahead : state.Ahead w) : Content (Byte.backslash :: b :: w) := by
  by_cases narrow : b = 0x78
  · subst narrow
    cases h
    obtain ⟨digits, rest, rfl, count, hex, content⟩ := ahead
    exact .byte count hex content
  by_cases wide : b = 0x75
  · subst wide
    cases h
    obtain ⟨digits, rest, rfl, count, hex, content⟩ := ahead
    exact .codePoint count hex content
  · obtain ⟨yielded, taken⟩ := escape_plain narrow wide
    rw [taken] at h
    cases h
    exact .escape narrow wide ahead

/-- A byte that moves the scanner on keeps what lies ahead in the grammar. -/
theorem ahead_step {state next : State} {b : UInt8} {content w : Bytes}
    (h : step state b = .next content next) (ahead : next.Ahead w) : state.Ahead (b :: w) := by
  cases state with
  | plain =>
      simp only [step] at h
      split at h
      · cases h
      split at h
      · rename_i backslash
        cases h
        subst backslash
        exact ahead
      split at h
      · cases h
      · rename_i quote backslash control
        cases h
        exact .raw quote backslash (by simpa using control) ahead
  | escaped => exact ahead_escape h ahead
  | numeric left code wide =>
      simp only [step] at h
      cases hex : Byte.hexValue? b with
      | none => simp [hex] at h
      | some d =>
          have isHex : IsHexDigit b := by simp [IsHexDigit, hex]
          cases left with
          | zero =>
              simp only [hex] at h
              cases h
              exact ⟨[b], w, rfl, rfl, by simpa using isHex, ahead⟩
          | succ left =>
              simp only [hex] at h
              cases h
              obtain ⟨digits, rest, rfl, count, digitsHex, content⟩ := ahead
              refine ⟨b :: digits, rest, rfl, by simp [count], ?_, content⟩
              intro x mem
              rcases List.mem_cons.1 mem with rfl | mem
              · exact isHex
              · exact digitsHex x mem

/-- Only the closing quote, met between characters, ends a literal. -/
theorem step_eq_close {state : State} {b : UInt8} (taken : step state b = .close) :
    state = .plain ∧ b = Byte.quote := by
  cases state with
  | plain =>
      simp only [step] at taken
      split at taken
      · rename_i quote
        exact ⟨rfl, quote⟩
      · repeat' split at taken
        all_goals cases taken
  | escaped =>
      simp only [step, escape] at taken
      repeat' split at taken
      all_goals cases taken
  | numeric left code wide =>
      simp only [step] at taken
      repeat' split at taken
      all_goals cases taken

theorem body_sound {state : State} {pos : Nat} {rest : Bytes} {later : Cursor}
    (h : (body state pos rest).2 = .ok () later) :
    ∃ w, rest = w ++ Byte.quote :: later.rest ∧ later.pos = pos + w.length + 1 ∧ state.Ahead w := by
  induction rest generalizing state pos with
  | nil => simp [body] at h
  | cons b rest ih =>
      simp only [body] at h
      cases taken : step state b with
      | stop error => simp [taken] at h
      | next content next =>
          simp only [taken] at h
          obtain ⟨w, same, place, ahead⟩ := ih h
          refine ⟨b :: w, by rw [same]; rfl, ?_, ahead_step taken ahead⟩
          rw [place, List.length_cons]
          omega
      | close =>
          simp only [taken] at h
          cases h
          obtain ⟨rfl, rfl⟩ := step_eq_close taken
          exact ⟨[], rfl, rfl, .nil⟩

/-- Whatever the scanner accepts is a literal of the grammar. -/
theorem scan_sound {c later : Cursor} (h : (scan c).2 = .ok () later) :
    ∃ w, c.Spans w later ∧ IsLiteral w := by
  unfold scan at h
  cases eaten : c.eat? Byte.quote with
  | none => simp [eaten] at h
  | some next =>
      simp only [eaten] at h
      obtain ⟨w, same, place, content⟩ := body_sound h
      have first := Cursor.eat?_spans eaten
      have last : next.Spans (w ++ [Byte.quote]) later :=
        ⟨by rw [same, List.append_assoc]; rfl, by rw [place, List.length_append]; rfl⟩
      exact ⟨Byte.quote :: (w ++ [Byte.quote]), first.cons last, w, rfl, content⟩

/-- A literal that is passed over begins behind white space, if there is any. -/
theorem begins_of_skip {c later : Cursor} (h : skip c = .ok () later) :
    ∃ pos b rest, c = ⟨pos, b :: rest⟩ := by
  obtain ⟨w, spans, content, rfl, _⟩ := scan_sound h
  exact ⟨_, Byte.quote, _, spans.places.1⟩

/-! ### Everything in the grammar is scanned -/

/-- A hexadecimal digit moves a numeric escape on, and the last one ends it. -/
theorem step_hex {b : UInt8} (hex : IsHexDigit b) (left code : Nat) (wide : Bool) :
    ∃ content code', step (.numeric left code wide) b = .next content
      (match left with
        | 0 => .plain
        | left + 1 => .numeric left code' wide) := by
  obtain ⟨d, value⟩ := Option.isSome_iff_exists.1 hex
  cases left with
  | zero => exact ⟨numericContent wide (code * 16 + d), 0, by simp [step, value]⟩
  | succ left => exact ⟨[], code * 16 + d, by simp [step, value]⟩

/-- The scan goes on in the next state behind a byte that moves it on. -/
theorem body_snd_cons {state next : State} {b : UInt8} {content : Bytes}
    (h : step state b = .next content next) (pos : Nat) (rest : Bytes) :
    (body state pos (b :: rest)).2 = (body next (pos + 1) rest).2 := by
  rw [body_cons_next h]

/-- The digits of a numeric escape are passed over as a whole. -/
theorem body_numeric {digits : Bytes} (hex : ∀ b ∈ digits, IsHexDigit b) {left : Nat}
    (count : digits.length = left + 1) (code : Nat) (wide : Bool) (pos : Nat) (rest : Bytes) :
    (body (.numeric left code wide) pos (digits ++ rest)).2 = (body .plain (pos + (left + 1)) rest).2 := by
  induction digits generalizing left code pos with
  | nil => cases count
  | cons b digits ih =>
      obtain ⟨content, code', taken⟩ := step_hex (hex b List.mem_cons_self) left code wide
      rw [List.cons_append, body_snd_cons taken]
      have fewer : digits.length = left := Nat.succ.inj count
      cases left with
      | zero =>
          rw [List.length_eq_zero_iff.1 fewer]
          rfl
      | succ left =>
          dsimp only
          rw [ih (fun x mem => hex x (List.mem_cons_of_mem _ mem)) fewer]
          congr 2
          omega

/-- What may stand between quotes is passed over up to the closing quote. -/
theorem body_content {w : Bytes} (content : Content w) (pos : Nat) (rest : Bytes) :
    (body .plain pos (w ++ Byte.quote :: rest)).2 = .ok () ⟨pos + w.length + 1, rest⟩ := by
  have backslash : step .plain Byte.backslash = .next [] .escaped := rfl
  induction content generalizing pos with
  | nil => rfl
  | @raw b w quote slash control _ ih =>
      have taken : step .plain b = .next [b] .plain := by simp [step, quote, slash, control]
      rw [List.cons_append, body_snd_cons taken, ih, List.length_cons]
      congr 2
      omega
  | @byte digits w count hex _ ih =>
      have taken : step .escaped 0x78 = .next [] (.numeric 1 0 false) := rfl
      simp only [List.cons_append, List.append_assoc]
      rw [body_snd_cons backslash, body_snd_cons taken, body_numeric hex count, ih]
      simp only [List.length_cons, List.length_append]
      congr 2
      omega
  | @codePoint digits w count hex _ ih =>
      have taken : step .escaped 0x75 = .next [] (.numeric 3 0 true) := rfl
      simp only [List.cons_append, List.append_assoc]
      rw [body_snd_cons backslash, body_snd_cons taken, body_numeric hex count, ih]
      simp only [List.length_cons, List.length_append]
      congr 2
      omega
  | @escape b w narrow wide _ ih =>
      obtain ⟨yielded, taken⟩ : ∃ yielded, step .escaped b = .next yielded .plain := escape_plain narrow wide
      rw [List.cons_append, List.cons_append, body_snd_cons backslash, body_snd_cons taken, ih,
        List.length_cons, List.length_cons]
      congr 2
      omega

/-- Every literal of the grammar is passed over. -/
theorem skip_literal {w : Bytes} (literal : IsLiteral w) {c later : Cursor} (spans : c.Spans w later) :
    skip c = .ok () later := by
  obtain ⟨content, rfl, inside⟩ := literal
  obtain ⟨start, stop⟩ := spans.places
  have passed := body_content inside (c.pos + 1) later.rest
  rw [start, stop]
  simp only [skip, scan, List.cons_append, List.append_assoc, List.nil_append, Cursor.eat?_cons_self, passed,
    List.length_cons, List.length_append, List.length_nil]
  congr 2
  omega

end JsonSidecar.Quoted
