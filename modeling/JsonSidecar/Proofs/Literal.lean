/-
Module: JsonSidecar.Proofs.Literal
Purpose: String literals in a text.  A literal is written behind whatever text there is, without control bytes and
  with no quote that ends it before its last byte; whatever follows, it is scanned from its first byte to behind its
  last one for the bytes that were written.
Main exports: Quoted.Guarded, Quoted.UnescapedQuote, Quoted.ReadsBack, EncodeSession.write_literal
-/
import JsonSidecar.Decode.Typed
import JsonSidecar.Encode.Session
import JsonSidecar.Proofs.Lexer.Quoted
import JsonSidecar.Proofs.Text.Utf8

namespace JsonSidecar

namespace Quoted

/-! ### The bytes of a literal -/

theorem hexDigit_plain : ∀ n < 16,
    0x20 ≤ Byte.hexDigit n ∧ Byte.hexDigit n ≠ Byte.quote ∧ Byte.hexDigit n ≠ Byte.backslash := by
  decide

/-- The two digits of a byte are hexadecimal digits. -/
theorem hexDigits_plain (b : UInt8) {x : UInt8}
    (mem : x = Byte.hexDigit (b.toNat / 16) ∨ x = Byte.hexDigit (b.toNat % 16)) :
    0x20 ≤ x ∧ x ≠ Byte.quote ∧ x ≠ Byte.backslash := by
  rcases mem with rfl | rfl
  · exact hexDigit_plain _ (Nat.div_lt_of_lt_mul b.toNat_lt)
  · exact hexDigit_plain _ (Nat.mod_lt _ (by decide))

theorem escape_printable {x : UInt8} (printable : 0x20 ≤ x) : ∀ y ∈ [Byte.backslash, x], 0x20 ≤ y := by
  rw [List.forall_mem_cons, List.forall_mem_singleton]
  exact ⟨by decide, printable⟩

/-- No byte is written as a control byte. -/
theorem encodeByte_printable (b : UInt8) : ∀ x ∈ encodeByte b, 0x20 ≤ x := by
  unfold encodeByte
  split
  · exact escape_printable (by decide)
  split
  · exact escape_printable (by decide)
  split
  · exact escape_printable (by decide)
  split
  · intro x mem
    simp only [List.mem_cons, List.not_mem_nil, or_false] at mem
    rcases mem with rfl | rfl | rfl | rfl | digit
    · decide
    · decide
    · decide
    · decide
    · exact (hexDigits_plain b digit).1
  · rename_i control
    intro x mem
    rw [List.mem_singleton.1 mem]
    simpa [Byte.isControl] using control

theorem encode_printable (content : Bytes) : ∀ x ∈ encode content, 0x20 ≤ x := by
  intro x mem
  rw [encode_eq, List.mem_cons, List.mem_append, List.mem_flatMap, List.mem_singleton] at mem
  rcases mem with rfl | ⟨b, _, inside⟩ | rfl
  · decide
  · exact encodeByte_printable b x inside
  · decide

/-! ### The quotes of a literal -/

/-- How many backslashes a text ends in. -/
def trailing (w : Bytes) : Nat := (w.reverse.takeWhile (· == Byte.backslash)).length

/-- A quote in a text that the backslashes right in front of it leave alone, because they pair up. -/
def UnescapedQuote (w : Bytes) (place : Nat) : Prop :=
  w[place]? = some Byte.quote ∧ trailing (w.take place) % 2 = 0

@[simp] theorem trailing_nil : trailing [] = 0 := rfl

theorem trailing_concat_of_ne (w : Bytes) {x : UInt8} (other : x ≠ Byte.backslash) : trailing (w ++ [x]) = 0 := by
  simp [trailing, other]

@[simp] theorem trailing_concat_backslash (w : Bytes) : trailing (w ++ [Byte.backslash]) = trailing w + 1 := by
  simp [trailing]

/-- Behind a text, no quote of `w` is unescaped. -/
def Guarded (front w : Bytes) : Prop :=
  ∀ before behind, w = before ++ Byte.quote :: behind → trailing (front ++ before) % 2 = 1

theorem Guarded.of_not_mem {front w : Bytes} (absent : Byte.quote ∉ w) : Guarded front w := by
  intro before behind same
  refine absurd ?_ absent
  rw [same, List.mem_append]
  exact .inr List.mem_cons_self

theorem Guarded.append {front u w : Bytes} (first : Guarded front u) (second : Guarded (front ++ u) w) :
    Guarded front (u ++ w) := by
  intro before behind same
  rcases List.append_eq_append_iff.1 same with ⟨between, rfl, rest⟩ | ⟨between, left, rest⟩
  · -- The quote lies in the second part.
    rw [← List.append_assoc]
    exact second between behind rest
  · cases between with
    | nil =>
        rw [List.append_nil] at left
        subst left
        have outside := second [] behind rest.symm
        rwa [List.append_nil] at outside
    | cons b between =>
        cases rest
        exact first before between left

/-- Behind a text that leaves no escape open, one byte is written without an unescaped quote and leaves none open. -/
theorem encodeByte_guarded (b : UInt8) {front : Bytes} (closed : trailing front % 2 = 0) :
    Guarded front (encodeByte b) ∧ trailing (front ++ encodeByte b) % 2 = 0 := by
  have unpaired : trailing (front ++ [Byte.backslash]) % 2 = 1 := by
    rw [trailing_concat_backslash]
    omega
  -- What follows the backslash ends the escape, unless it is another backslash, which pairs up with it.
  have ends : ∀ (w : Bytes) {x : UInt8}, x ≠ Byte.backslash → trailing (front ++ (w ++ [x])) % 2 = 0 := by
    intro w x other
    rw [← List.append_assoc, trailing_concat_of_ne _ other]
  unfold encodeByte
  split
  · refine ⟨?_, ends [Byte.backslash] (by decide)⟩
    intro before behind same
    rcases before with _ | ⟨x, _ | ⟨y, before⟩⟩
    · cases same
    · cases same
      exact unpaired
    · simp at same
  split
  · refine ⟨.of_not_mem (by decide), ?_⟩
    rw [show [Byte.backslash, Byte.backslash] = [Byte.backslash] ++ [Byte.backslash] from rfl, ← List.append_assoc,
      trailing_concat_backslash]
    omega
  split
  · exact ⟨.of_not_mem (by decide), ends [Byte.backslash] (by decide)⟩
  split
  · have high := hexDigits_plain b (.inl rfl)
    have low := hexDigits_plain b (.inr rfl)
    constructor
    · apply Guarded.of_not_mem
      simp only [List.mem_cons, List.not_mem_nil, or_false, not_or]
      exact ⟨by decide, by decide, by decide, by decide, high.2.1.symm, low.2.1.symm⟩
    · exact ends [Byte.backslash, 0x75, Byte.zero, Byte.zero, Byte.hexDigit (b.toNat / 16)] low.2.2
  · rename_i quote backslash newline control
    exact ⟨.of_not_mem (by simpa using Ne.symm quote), ends [] backslash⟩

/-- The same of all bytes of a content. -/
theorem content_guarded (content front : Bytes) (closed : trailing front % 2 = 0) :
    Guarded front (content.flatMap encodeByte) ∧ trailing (front ++ content.flatMap encodeByte) % 2 = 0 := by
  induction content generalizing front with
  | nil =>
      rw [List.flatMap_nil, List.append_nil]
      exact ⟨.of_not_mem List.not_mem_nil, closed⟩
  | cons b content ih =>
      obtain ⟨first, stillClosed⟩ := encodeByte_guarded b closed
      obtain ⟨others, closedBehind⟩ := ih (front ++ encodeByte b) stillClosed
      rw [List.flatMap_cons]
      refine ⟨first.append others, ?_⟩
      rwa [← List.append_assoc]

/-- The first and the last byte of a literal are its only unescaped quotes. -/
theorem encode_unescapedQuote (content : Bytes) (place : Nat) :
    UnescapedQuote (encode content) place ↔ place = 0 ∨ place + 1 = (encode content).length := by
  obtain ⟨guarded, closed⟩ := content_guarded content [Byte.quote] rfl
  rw [encode_eq]
  generalize content.flatMap encodeByte = w at guarded closed
  rw [List.singleton_append] at closed
  constructor
  · rintro ⟨here, paired⟩
    cases place with
    | zero => exact .inl rfl
    | succ i =>
        right
        rw [List.getElem?_cons_succ] at here
        rcases Nat.lt_trichotomy i w.length with inside | same | beyond
        · -- A quote of the content has an odd number of backslashes in front of it.
          rw [List.getElem?_append_left inside] at here
          obtain ⟨within, value⟩ := List.getElem?_eq_some_iff.1 here
          have parts : w = w.take i ++ Byte.quote :: w.drop (i + 1) := by
            rw [← value, List.getElem_cons_drop, List.take_append_drop]
          have odd := guarded _ _ parts
          rw [List.take_succ_cons, List.take_append_of_le_length (Nat.le_of_lt inside)] at paired
          rw [List.singleton_append] at odd
          omega
        · simp [same]
        · rw [List.getElem?_eq_none (by simp; omega)] at here
          cases here
  · rintro (rfl | last)
    · exact ⟨rfl, rfl⟩
    · have place_eq : place = w.length + 1 := by simpa using last
      subst place_eq
      constructor
      · simp
      · rw [List.take_succ_cons, List.take_left']
        · exact closed
        · rfl

/-! ### Scanning a literal where it stands -/

theorem seek_append (front rest : Bytes) : Cursor.seek (front ++ rest) front.length = ⟨front.length, rest⟩ := by
  simp [Cursor.seek]

/-- In a whole text, from one position up to another, a literal is scanned for a content, whether the content is
    collected or passed over, and read as the byte string that it is and, if a text is encoded by it, as that. -/
structure ReadsBack (whole : Bytes) (start : Nat) (content : Bytes) (stop : Nat) : Prop where
  scanned : scan (Cursor.seek whole start) = (content, .ok () (Cursor.seek whole stop))
  collected : read (Cursor.seek whole start) = .ok content (Cursor.seek whole stop)
  skipped : skip (Cursor.seek whole start) = .ok () (Cursor.seek whole stop)
  bytes {S : Type} (schema : Schema S) (store : Option BlobView) :
    Ty.bytes.read schema store (Cursor.seek whole start) = .ok (.text content) (Cursor.seek whole stop)
  string {S : Type} (schema : Schema S) (store : Option BlobView) (text : String) (encodes : utf8 text = content) :
    Ty.string.read schema store (Cursor.seek whole start) = .ok (.text content) (Cursor.seek whole stop)

/-- A literal opens with a quote, so there is no white space to pass over. -/
theorem encode_skipSpace (content : Bytes) (pos : Nat) (rest : Bytes) :
    Cursor.skipSpace ⟨pos, encode content ++ rest⟩ = ⟨pos, encode content ++ rest⟩ := by
  rw [encode_eq, List.cons_append]
  exact Cursor.skipSpace_cons_of_not rfl pos _

theorem stringBytes_encode (expected : String) (content : Bytes) (pos : Nat) (rest : Bytes) :
    Reader.stringBytes expected ⟨pos, encode content ++ rest⟩ = .ok content ⟨pos + (encode content).length, rest⟩ := by
  rw [Reader.stringBytes, encode_skipSpace, Reader.lexed, read_encode]
  rfl

/-- A literal that encodes a text is read as a string, whatever follows. -/
theorem readString_encode (text : String) (pos : Nat) (rest : Bytes) :
    readString ⟨pos, encode (utf8 text) ++ rest⟩ = .ok (utf8 text) ⟨pos + (encode (utf8 text)).length, rest⟩ := by
  simp only [readString, Scan.bind_apply, Scan.skipSpace_apply, Scan.here_apply, Outcome.bind_ok, encode_skipSpace,
    stringBytes_encode, Utf8.isValid_utf8, if_true]
  rfl

theorem write_readsBack (text content rest : Bytes) :
    ReadsBack (write text content ++ rest) text.length content (write text content).length := by
  have start : Cursor.seek (write text content ++ rest) text.length = ⟨text.length, encode content ++ rest⟩ := by
    rw [write_encode, List.append_assoc, seek_append]
  have stop : Cursor.seek (write text content ++ rest) (write text content).length
      = ⟨text.length + (encode content).length, rest⟩ := by
    rw [seek_append, write_encode, List.length_append]
  have scanned := scan_encode content text.length rest
  constructor
  · rw [start, stop, scanned]
  · rw [start, stop, read_encode]
  · rw [start, stop, skip, scanned]
  · intro S schema store
    rw [start, stop]
    simp only [Ty.read, Ty.readWith, Scan.map_apply, stringBytes_encode, Outcome.map_ok]
  · rintro S schema store content' rfl
    rw [start, stop]
    simp only [Ty.read, Ty.readWith, Scan.map_apply, readString_encode, Outcome.map_ok]

end Quoted

variable {S σ : Type} [BlobStore σ]

/-- A byte string and a string are appended to the text of an encode as a literal of exactly the foretold length,
    without control bytes and with no unescaped quotes but its own, and the literal reads back whatever follows. -/
theorem EncodeSession.write_literal (schema : Schema S) (session : EncodeSession σ) (content rest : Bytes) :
    (session.write schema .bytes (.text content)).text = Quoted.write session.text content ∧
    (session.write schema .string (.text content)).text = Quoted.write session.text content ∧
    ∃ literal, Quoted.write session.text content = session.text ++ literal ∧
      literal.length = Quoted.encodedLength content ∧
      (∀ b ∈ literal, 0x20 ≤ b) ∧
      (∀ place, Quoted.UnescapedQuote literal place ↔ place = 0 ∨ place + 1 = literal.length) ∧
      Quoted.ReadsBack (session.text ++ literal ++ rest) session.text.length content
        (session.text ++ literal).length := by
  have written := Quoted.write_encode session.text content
  refine ⟨written.symm, written.symm, Quoted.encode content, written, Quoted.encode_length content,
    Quoted.encode_printable content, Quoted.encode_unescapedQuote content, ?_⟩
  rw [← written]
  exact Quoted.write_readsBack session.text content rest

end JsonSidecar
