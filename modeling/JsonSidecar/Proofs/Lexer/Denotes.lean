/-
Module: JsonSidecar.Proofs.Lexer.Denotes
Purpose: What a string literal stands for.  Beside the grammar of literals, which tells where one ends, `Denotes`
  tells which bytes it holds, escape by escape; reading a literal gives exactly these.
Main exports: Quoted.Means, Quoted.Denotes, Quoted.read_eq_ok_iff
-/
import JsonSidecar.Proofs.Lexer.Quoted

namespace JsonSidecar.Quoted

/-! ### Meanings -/

/-- The number that hexadecimal digits denote behind others that denote `code`. -/
def hexNumber (code : Nat) (digits : Bytes) : Nat :=
  digits.foldl (fun n b => n * 16 + (Byte.hexValue? b).getD 0) code

/-- The letters that stand for a control byte behind a backslash, with that byte. -/
def namedEscapes : List (UInt8 × UInt8) := [(0x62, 0x08), (0x66, 0x0c), (0x6e, 0x0a), (0x72, 0x0d), (0x74, 0x09)]

/-- Which bytes the text between the quotes of a literal stands for. -/
inductive Means : Bytes → Bytes → Prop where
  | nil : Means [] []
  | raw {b : UInt8} {rest bytes : Bytes} : b ≠ Byte.quote → b ≠ Byte.backslash → Byte.isControl b = false →
      Means rest bytes → Means (b :: rest) (b :: bytes)
  | byte {digits rest bytes : Bytes} : digits.length = 2 → (∀ b ∈ digits, IsHexDigit b) → Means rest bytes →
      Means (Byte.backslash :: 0x78 :: (digits ++ rest)) (UInt8.ofNat (hexNumber 0 digits) :: bytes)
  | codePoint {digits rest bytes : Bytes} : digits.length = 4 → (∀ b ∈ digits, IsHexDigit b) → Means rest bytes →
      Means (Byte.backslash :: 0x75 :: (digits ++ rest)) (Utf8.encode (hexNumber 0 digits) ++ bytes)
  | named {b x : UInt8} {rest bytes : Bytes} : (b, x) ∈ namedEscapes → Means rest bytes →
      Means (Byte.backslash :: b :: rest) (x :: bytes)
  | self {b : UInt8} {rest bytes : Bytes} : b ≠ 0x78 → b ≠ 0x75 → (∀ x, (b, x) ∉ namedEscapes) → Means rest bytes →
      Means (Byte.backslash :: b :: rest) (b :: bytes)

/-- The literal with its quotes stands for the bytes. -/
def Denotes (w bytes : Bytes) : Prop := ∃ content, w = Byte.quote :: (content ++ [Byte.quote]) ∧ Means content bytes

theorem Denotes.begins {w bytes : Bytes} (denotes : Denotes w bytes) : ∃ tail, w = Byte.quote :: tail := by
  obtain ⟨content, same, _⟩ := denotes
  exact ⟨_, same⟩

/-- All that may stand between quotes has a meaning. -/
theorem Content.means {w : Bytes} (content : Content w) : ∃ bytes, Means w bytes := by
  induction content with
  | nil => exact ⟨[], .nil⟩
  | raw quote slash control _ ih =>
      obtain ⟨bytes, means⟩ := ih
      exact ⟨_, .raw quote slash control means⟩
  | byte count hex _ ih =>
      obtain ⟨bytes, means⟩ := ih
      exact ⟨_, .byte count hex means⟩
  | codePoint count hex _ ih =>
      obtain ⟨bytes, means⟩ := ih
      exact ⟨_, .codePoint count hex means⟩
  | @escape b rest narrow wide _ ih =>
      obtain ⟨bytes, means⟩ := ih
      by_cases letter : ∃ x, (b, x) ∈ namedEscapes
      · obtain ⟨x, mem⟩ := letter
        exact ⟨_, .named mem means⟩
      · exact ⟨_, .self narrow wide (fun x mem => letter ⟨x, mem⟩) means⟩

/-! ### Scanning for the meaning -/

/-- The digits of a numeric escape are passed over as a whole and yield what they name. -/
theorem body_digits {digits : Bytes} (hex : ∀ b ∈ digits, IsHexDigit b) {left : Nat} (count : digits.length = left + 1)
    (code : Nat) (wide : Bool) (pos : Nat) (rest : Bytes) :
    body (.numeric left code wide) pos (digits ++ rest)
      = (numericContent wide (hexNumber code digits) ++ (body .plain (pos + digits.length) rest).1,
          (body .plain (pos + digits.length) rest).2) := by
  induction digits generalizing left code pos with
  | nil => cases count
  | cons b digits ih =>
      obtain ⟨d, value⟩ := Option.isSome_iff_exists.1 (hex b List.mem_cons_self)
      have number : hexNumber code (b :: digits) = hexNumber (code * 16 + d) digits := by
        simp [hexNumber, value]
      have fewer : digits.length = left := Nat.succ.inj count
      cases left with
      | zero =>
          rw [List.length_eq_zero_iff] at fewer
          subst fewer
          have taken : step (.numeric 0 code wide) b = .next (numericContent wide (code * 16 + d)) .plain := by
            simp [step, value]
          rw [List.singleton_append, body_cons_next taken, number]
          rfl
      | succ left =>
          have taken : step (.numeric (left + 1) code wide) b = .next [] (.numeric left (code * 16 + d) wide) := by
            simp [step, value]
          rw [List.cons_append, body_cons_next taken, ih (fun x mem => hex x (List.mem_cons_of_mem _ mem)) fewer, number,
            List.nil_append, List.length_cons, show pos + 1 + digits.length = pos + (digits.length + 1) by omega]

/-- A letter behind a backslash is scanned as the table of escapes says. -/
theorem escape_named {b x : UInt8} (mem : (b, x) ∈ namedEscapes) : escape b = .next [x] .plain := by
  simp only [namedEscapes, List.mem_cons, Prod.mk.injEq, List.not_mem_nil, or_false] at mem
  rcases mem with ⟨rfl, rfl⟩ | ⟨rfl, rfl⟩ | ⟨rfl, rfl⟩ | ⟨rfl, rfl⟩ | ⟨rfl, rfl⟩
  · rfl
  · rfl
  · rfl
  · rfl
  · rfl

/-- A byte behind a backslash that names no escape is scanned as itself. -/
theorem escape_self {b : UInt8} (narrow : b ≠ 0x78) (wide : b ≠ 0x75) (none : ∀ x, (b, x) ∉ namedEscapes) :
    escape b = .next [b] .plain := by
  have other : ∀ y x, (y, x) ∈ namedEscapes → b ≠ y := by
    rintro y x mem rfl
    exact none x mem
  simp only [escape, if_neg (other 0x62 0x08 (by simp [namedEscapes])), if_neg (other 0x66 0x0c (by simp [namedEscapes])),
    if_neg (other 0x6e 0x0a (by simp [namedEscapes])), if_neg (other 0x72 0x0d (by simp [namedEscapes])),
    if_neg (other 0x74 0x09 (by simp [namedEscapes])), if_neg narrow, if_neg wide]

/-- An escape of one letter yields what the letter stands for. -/
theorem body_letterEscape {b x : UInt8} (taken : escape b = .next [x] .plain) (pos : Nat) (rest : Bytes) :
    body .plain pos (Byte.backslash :: b :: rest)
      = (x :: (body .plain (pos + 2) rest).1, (body .plain (pos + 2) rest).2) := by
  have backslash : step .plain Byte.backslash = .next [] .escaped := rfl
  have letter : step .escaped b = .next [x] .plain := taken
  rw [body_cons_next backslash, body_cons_next letter]
  rfl

/-- An escape with digits yields what they name. -/
theorem body_numericEscape {b : UInt8} {digits : Bytes} (hex : ∀ x ∈ digits, IsHexDigit x) {left : Nat}
    (count : digits.length = left + 1) {wide : Bool} (taken : escape b = .next [] (.numeric left 0 wide)) (pos : Nat)
    (rest : Bytes) :
    body .plain pos (Byte.backslash :: b :: (digits ++ rest))
      = (numericContent wide (hexNumber 0 digits) ++ (body .plain (pos + 2 + digits.length) rest).1,
          (body .plain (pos + 2 + digits.length) rest).2) := by
  have backslash : step .plain Byte.backslash = .next [] .escaped := rfl
  have mark : step .escaped b = .next [] (.numeric left 0 wide) := taken
  rw [body_cons_next backslash, body_cons_next mark, body_digits hex count]
  rfl

/-- The text between quotes is scanned for the bytes it stands for, up to behind the closing quote. -/
theorem body_means {w bytes : Bytes} (means : Means w bytes) (pos : Nat) (rest : Bytes) :
    body .plain pos (w ++ Byte.quote :: rest) = (bytes, .ok () ⟨pos + (w.length + 1), rest⟩) := by
  induction means generalizing pos with
  | nil => rfl
  | @raw b w bytes quote slash control _ ih =>
      have taken : step .plain b = .next [b] .plain := by simp [step, quote, slash, control]
      rw [List.cons_append, body_cons_next taken, ih, List.length_cons, Nat.add_assoc, Nat.add_comm 1]
      rfl
  | @byte digits w bytes count hex _ ih =>
      rw [List.cons_append, List.cons_append, List.append_assoc, body_numericEscape hex count rfl, ih]
      simp only [numericContent, Bool.false_eq_true, if_false, List.singleton_append, List.length_cons,
        List.length_append, Prod.mk.injEq, Outcome.ok.injEq, Cursor.mk.injEq, true_and, and_true]
      omega
  | @codePoint digits w bytes count hex _ ih =>
      rw [List.cons_append, List.cons_append, List.append_assoc, body_numericEscape hex count rfl, ih]
      simp only [numericContent, if_true, List.length_cons, List.length_append, Prod.mk.injEq, Outcome.ok.injEq,
        Cursor.mk.injEq, true_and, and_true]
      omega
  | @named b x w bytes mem _ ih =>
      rw [List.cons_append, List.cons_append, body_letterEscape (escape_named mem), ih]
      simp [Nat.add_comm, Nat.add_left_comm]
  | @self b w bytes narrow wide none _ ih =>
      rw [List.cons_append, List.cons_append, body_letterEscape (escape_self narrow wide none), ih]
      simp [Nat.add_comm, Nat.add_left_comm]

theorem read_of_denotes {w bytes : Bytes} (denotes : Denotes w bytes) {c later : Cursor} (spans : c.Spans w later) :
    read c = .ok bytes later := by
  obtain ⟨content, rfl, means⟩ := denotes
  obtain ⟨start, stop⟩ := spans.places
  rw [start, stop]
  simp only [read, scan, List.cons_append, List.append_assoc, List.nil_append, Cursor.eat?_cons_self,
    body_means means (c.pos + 1), Outcome.map_ok, List.length_cons, List.length_append, List.length_nil]
  rw [Nat.add_assoc, Nat.add_comm 1]

/-- Reading gives some bytes exactly where a literal stands that denotes them, and it ends behind the literal. -/
theorem read_eq_ok_iff {c later : Cursor} {bytes : Bytes} :
    read c = .ok bytes later ↔ ∃ w, c.Spans w later ∧ Denotes w bytes := by
  constructor
  · intro h
    obtain ⟨_, scanned, _⟩ := Outcome.map_eq_ok.1 h
    obtain ⟨w, spans, content, same, inside⟩ := scan_sound scanned
    obtain ⟨bytes', means⟩ := inside.means
    have again := read_of_denotes ⟨content, same, means⟩ spans
    rw [h] at again
    cases again
    exact ⟨w, spans, content, same, means⟩
  · rintro ⟨w, spans, denotes⟩
    exact read_of_denotes denotes spans

end JsonSidecar.Quoted
