/-
Module: JsonSidecar.Proofs.Decode.Lines
Purpose: How many lines a report has.  What a failure tells is put together from names, numbers and pieces of the text,
  and every piece is visible but one: the tag of an unknown element type, which is told as it was unescaped.  So a
  report keeps to its one line, or three with the text, unless such a tag breaks the first.
Main exports: Reason.Clear, Reader.Clear, Ty.read_clear, report_lines
-/
import JsonSidecar.Proofs.Decode.Report
import JsonSidecar.Proofs.Decode.Skippable
import JsonSidecar.Proofs.Lexer.Number
import JsonSidecar.Proofs.Text.Visible

namespace JsonSidecar

open Reader

variable {S α β γ : Type}

/-! ### Names -/

theorem Scalar.name_visible (k : Scalar) : Visible k.name := by
  cases k with
  | int k =>
      obtain ⟨signed, width⟩ := k
      cases signed <;> cases width <;> decide
  | _ => decide

theorem Element.tag_visible (e : Element) : Visible e.tag := by
  cases e <;> decide

/-- The name of a type is visible, if the names of records are. -/
theorem Ty.name_visible {schema : Schema S} (names : ∀ s, Visible (schema s).name) (t : Ty S) :
    Visible (t.name schema) := by
  have array (e : Element) (rank : Nat) : Visible (arrayName e rank) :=
    (((Visible.append (by decide) e.scalar.name_visible).append (by decide)).append
      (visible_toString rank)).append (by decide)
  induction t with
  | scalar k => exact k.name_visible
  | string => exact (by decide : Visible stringName)
  | bytes => exact (by decide : Visible bytesName)
  | json => exact (by decide : Visible jsonName)
  | range => exact (by decide : Visible rangeName)
  | descriptor => exact (by decide : Visible descriptorName)
  | list t ih | option t ih | boxed t ih | shared t ih | sortedMap t ih | hashMap t ih =>
      exact (Visible.append (by decide) ih).append (by decide)
  | pair a b ih ih' =>
      show Visible ("(" ++ a.name schema ++ ", " ++ b.name schema ++ ")")
      exact (((Visible.append (by decide) ih).append (by decide)).append ih').append (by decide)
  | vector e => exact array e 1
  | matrix e => exact array e 2
  | record s => exact names s

/-- The names of types without records are visible. -/
theorem Ty.closedName_visible (t : Ty Empty) : Visible (t.name nofun) := t.name_visible nofun

theorem descriptorName_visible : Visible descriptorName := by decide

/-! ### Reasons -/

/-- The reasons that are worded visibly if what is put into them is. -/
def Reason.Plain : Reason → Prop
  | .notOfKind literal kind => Visible (Utf8.lossyText literal) ∧ Visible kind
  | .unreadable cause => Visible cause.message
  | .unknownElement _ | .other _ => False
  | _ => True

theorem Reason.Plain.message_visible {reason : Reason} (plain : reason.Plain) : Visible reason.message := by
  cases reason with
  | malformed error => cases error <;> decide
  | notOfKind literal kind =>
      show Visible (Utf8.lossyText literal ++ " is not a valid " ++ kind)
      exact (plain.1.append (by decide)).append plain.2
  | elementMismatch found wanted =>
      show Visible ("dtype " ++ found.tag ++ " does not match " ++ wanted.tag)
      exact ((Visible.append (by decide) found.tag_visible).append (by decide)).append wanted.tag_visible
  | rankMismatch found wanted =>
      show Visible ("shape rank " ++ toString found ++ " does not match " ++ toString wanted)
      exact ((Visible.append (by decide) (visible_toString found)).append (by decide)).append
        (visible_toString wanted)
  | lengthMismatch byteLength shape element =>
      have sizes : Visible (", ".intercalate (shape.map toString)) := by
        refine visible_intercalate (by decide) fun text mem => ?_
        obtain ⟨n, _, rfl⟩ := List.mem_map.1 mem
        exact visible_toString n
      show Visible ("byteLength " ++ toString byteLength ++ " does not match shape ["
        ++ ", ".intercalate (shape.map toString) ++ "] of " ++ element.tag)
      exact ((((Visible.append (by decide) (visible_toString byteLength)).append (by decide)).append
        sizes).append (by decide)).append element.tag_visible
  | outsideStore offset byteLength =>
      show Visible ("blob range " ++ toString offset ++ "+" ++ toString byteLength ++ " is outside the blob store")
      exact (((Visible.append (by decide) (visible_toString offset)).append (by decide)).append
        (visible_toString byteLength)).append (by decide)
  | unreadable cause =>
      show Visible ("blob read failed: " ++ cause.message)
      exact Visible.append (by decide) plain
  | unknownElement tag => exact plain.elim
  | other message => exact plain.elim
  | _ => decide

/-- The reason is worded visibly, or it quotes the tag of an unknown element type. -/
def Reason.Clear (reason : Reason) : Prop := reason.Plain ∨ ∃ tag, reason = .unknownElement tag

/-- Signs, digits and exponent marks are visible. -/
theorem Byte.plain_of_numeric {b : UInt8} (numeric : isSign b = true ∨ isDigit b = true ∨ isExponentMark b = true) :
    0x20 ≤ b ∧ b < 0x7f := by
  simp only [isSign, isDigit, isExponentMark, plus, minus, Bool.or_eq_true, Bool.and_eq_true, beq_iff_eq,
    decide_eq_true_eq] at numeric
  rcases numeric with (rfl | rfl) | ⟨low, high⟩ | rfl | rfl
  · decide
  · decide
  · exact ⟨UInt8.le_trans (by decide) low, UInt8.lt_of_le_of_lt high (by decide)⟩
  · decide
  · decide

/-- A number literal is worded visibly. -/
theorem NumberLiteral.WellFormed.text_visible {l : NumberLiteral} (form : l.WellFormed) :
    Visible (Utf8.lossyText l.text) := by
  have dot : 0x20 ≤ Byte.dot ∧ Byte.dot < 0x7f := by decide
  refine visible_lossyText fun b mem => ?_
  simp only [text, List.mem_append] at mem
  rcases mem with ((mem | mem) | mem) | mem
  · exact Byte.plain_of_numeric (.inl (form.sign b (by simpa using mem)))
  · exact Byte.plain_of_numeric (.inr (.inl (form.whole b mem)))
  · cases fraction : l.fraction with
    | none => simp [fraction, fractionText] at mem
    | some digits =>
        rw [fraction, fractionText] at mem
        rcases List.mem_cons.1 mem with rfl | mem
        · exact dot
        · exact Byte.plain_of_numeric (.inr (.inl (form.fraction b (by rwa [fraction]))))
  · cases exponent : l.exponent with
    | none => simp [exponent, exponentText] at mem
    | some e =>
        have form' := form.exponent e exponent
        rw [exponent, exponentText] at mem
        rcases List.mem_cons.1 mem with rfl | mem
        · exact Byte.plain_of_numeric (.inr (.inr form'.mark))
        rcases List.mem_append.1 mem with mem | mem
        · exact Byte.plain_of_numeric (.inl (form'.sign b (by simpa using mem)))
        · exact Byte.plain_of_numeric (.inr (.inl (form'.digits b mem)))

/-- What is refused of a descriptor is told by names and numbers.  Records that are at hand never fail to be read where
    they reach. -/
theorem BlobView.fetch_plain {data : Bytes} {element : Element} {rank : Nat} {d : Descriptor} {reason : Reason}
    (h : (BlobView.ofBytes data).fetch element rank d = .error reason) : reason.Plain := by
  unfold BlobView.fetch at h
  split at h
  · cases h
    exact trivial
  split at h
  · cases h
    exact trivial
  split at h
  · cases h
    exact trivial
  split at h
  · cases h
  split at h
  · cases h
    exact trivial
  · rename_i inside
    have read : (ofBytes data).read d.offset d.byteLength = .ok ((data.drop d.offset).take d.byteLength) :=
      if_pos (Nat.le_of_not_lt inside)
    rw [read] at h
    cases h

/-! ### Readers -/

/-- The failure names the type that was read visibly and has a clear reason. -/
structure Failure.Clear (e : Failure) : Prop where
  expected : Visible e.expected
  reason : e.reason.Clear

/-- If reading fails, the failure is clear. -/
def Outcome.Clear (r : Outcome Failure α) : Prop := ∀ e stop, r = .fail e stop → e.Clear

/-- Wherever the reader fails, the failure is clear. -/
def Reader.Clear (reader : Reader α) : Prop := ∀ c : Cursor, (reader c).Clear

namespace Outcome

theorem clear_ok (a : α) (c : Cursor) : (Outcome.ok a c : Outcome Failure α).Clear := nofun

theorem clear_fail {expected : String} (shown : Visible expected) {reason : Reason} (clear : reason.Clear)
    (offset : Nat) (stop : Cursor) : (Outcome.fail ⟨expected, reason, offset⟩ stop : Outcome Failure α).Clear := by
  rintro e _ ⟨⟩
  exact ⟨shown, clear⟩

theorem Clear.bind {r : Outcome Failure α} {f : α → Cursor → Outcome Failure β} (clear : r.Clear)
    (next : ∀ a later, r = .ok a later → (f a later).Clear) : (r.bind f).Clear := by
  cases r with
  | ok a later => exact next a later rfl
  | fail e stop =>
      rintro _ _ ⟨⟩
      exact clear e stop rfl

theorem Clear.map {r : Outcome Failure α} (clear : r.Clear) (f : α → β) : (r.map f).Clear :=
  clear.bind fun a later _ => clear_ok (f a) later

end Outcome

namespace Reader

open Outcome

variable {expected : String} (shown : Visible expected)

include shown

theorem fail_clear {reason : Reason} (clear : reason.Clear) : (fail expected reason : Reader α).Clear :=
  fun c => clear_fail shown clear c.pos c

theorem lexed_clear (scan : Scan LexError α) : (lexed expected scan).Clear := by
  intro c
  unfold lexed
  cases scan c with
  | ok a later => exact clear_ok a later
  | fail error stop => exact clear_fail shown (.inl (by trivial)) stop.pos stop

theorem expect_clear {b : UInt8} {reason : Reason} (clear : reason.Clear) : (expect expected b reason).Clear := by
  intro c
  unfold expect Scan.expect
  cases c.skipSpace.eat? b with
  | some later => exact clear_ok () later
  | none => exact clear_fail shown clear _ _

theorem number_clear : (number expected).Clear := fun c => lexed_clear shown _ c.skipSpace

theorem stringBytes_clear : (stringBytes expected).Clear := fun c => lexed_clear shown _ c.skipSpace

theorem passValue_clear : (passValue expected).Clear := lexed_clear shown _

theorem finish_clear : (finish expected).Clear := by
  intro c
  unfold finish
  split
  · exact clear_ok () _
  · exact clear_fail shown (.inl (by trivial)) _ _

omit shown

theorem Clear.map {reader : Reader α} (clear : reader.Clear) (f : α → β) : Clear (f <$> reader) := by
  intro c
  rw [Scan.map_apply]
  exact (clear c).map f

theorem Clear.bind {reader : Reader α} (clear : reader.Clear) {next : α → Reader β}
    (clear' : ∀ a, (next a).Clear) : Clear (reader >>= next) :=
  fun c => (clear c).bind fun a later _ => clear' a later

theorem Clear.wordOr {other : Reader α} (clear : other.Clear) (pattern : Bytes) (found : α) :
    (Reader.wordOr pattern found other).Clear := by
  have word : (word pattern).Clear := by
    intro c
    unfold Reader.word
    split
    · exact clear_ok true _
    · exact clear_ok false c
  refine word.bind fun matched => ?_
  cases matched with
  | true => exact fun c => clear_ok found c
  | false => exact clear

theorem Clear.afterPeek {next : Option UInt8 → Reader α} (clear : ∀ b, (next b).Clear) : Clear (peek >>= next) :=
  fun c => (clear_ok c.skipSpace.peek? c.skipSpace).bind fun b later _ => clear b later

include shown

theorem Clear.checked {reader : Reader α} {verdict : α → Except Reason β} (clear : reader.Clear)
    (refused : ∀ c a later, reader c = .ok a later → ∀ reason, verdict a = .error reason → reason.Clear) :
    (Reader.checked expected reader verdict).Clear := by
  intro c
  refine (clear c.skipSpace).bind fun a later read => ?_
  dsimp only
  cases judged : verdict a with
  | ok b => exact clear_ok b later
  | error reason => exact clear_fail shown (refused _ a later read reason judged) _ _

theorem Clear.judged {reader : Reader α} {verdict : α → Except Reason β} (clear : reader.Clear)
    (refused : ∀ a reason, verdict a = .error reason → reason.Clear) :
    (Reader.judged expected reader verdict).Clear := by
  refine clear.bind fun a => ?_
  cases judged : verdict a with
  | ok b => exact fun c => clear_ok b c
  | error reason => exact fail_clear shown (refused a reason judged)

theorem captured_clear (f : Bytes → α) : (captured expected f).Clear :=
  fun c => (passValue_clear shown c.skipSpace).bind fun _ later _ => clear_ok _ later

theorem items_clear {close : UInt8} {error : LexError} {item : Reader α} (clear : item.Clear) (bound : Nat) :
    Reader.Clear (Scan.items close (fun stop => ⟨expected, .malformed error, stop.pos⟩) item bound) := by
  induction bound with
  | zero => exact fun c => clear_fail shown (.inl (by trivial)) _ _
  | succ bound ih =>
      intro c
      cases closed : c.skipSpace.eat? close with
      | some later =>
          simp only [Scan.items, closed]
          exact clear_ok [] later
      | none =>
          rw [Scan.items_open closed]
          refine (clear c.skipSpace).bind fun a after _ => ?_
          unfold Scan.afterItem
          cases after.skipSpace.eat? Byte.comma with
          | some next => exact (ih next).map _
          | none =>
              cases after.skipSpace.eat? close with
              | some later => exact clear_ok [a] later
              | none => exact clear_fail shown (.inl (by trivial)) _ _

theorem Clear.inlineList {item : Reader α} (clear : item.Clear) : (Reader.inlineList expected item).Clear :=
  (expect_clear shown (.inl (by trivial))).bind fun _ c => items_clear shown clear _ c

theorem Clear.object {value : Bytes → Reader β} (clear : ∀ key, (value key).Clear) :
    (Reader.object expected value).Clear := by
  have member : (Reader.member expected value).Clear := by
    refine Clear.bind ?_ fun key => (clear key).bind fun v c => clear_ok (key, v) c
    exact (stringBytes_clear shown).bind fun key =>
      (expect_clear shown (.inl (by trivial))).bind fun _ c => clear_ok key c
  exact (expect_clear shown (.inl (by trivial))).bind fun _ c => items_clear shown member _ c

theorem Clear.twoOf {first : Reader α} {second : Reader β} (clear : first.Clear) (clear' : second.Clear)
    (f : α → β → γ) : (Reader.twoOf expected f first second).Clear :=
  (expect_clear shown (.inl (by trivial))).bind fun _ => clear.bind fun a =>
    (expect_clear shown (.inl (by trivial))).bind fun _ => clear'.bind fun b =>
      (expect_clear shown (.inl (by trivial))).bind fun _ c => clear_ok (f a b) c

end Reader

/-! ### The readers of types -/

theorem accept_clear {reason : Reason} (clear : reason.Clear) {a : Option α} {refusal : Reason}
    (h : accept reason a = .error refusal) : refusal.Clear := by
  cases a with
  | some a => cases h
  | none =>
      cases h
      exact clear

theorem readBool_clear : readBool.Clear :=
  .wordOr (.wordOr (.afterPeek fun _ => fail_clear (Scalar.name_visible .bool) (.inl (by trivial))) _ false) _ true

/-- A number that is no integer of a kind is quoted as it is written, and that is visible. -/
theorem readInt_clear (k : IntKind) : (readInt k).Clear := by
  have shown : Visible k.name := Scalar.name_visible (.int k)
  rw [readInt_eq]
  refine .checked shown (number_clear shown) fun c l later read reason => accept_clear (.inl ?_)
  obtain ⟨_, form⟩ := NumberLiteral.scan_sound (lexed_eq_ok read)
  exact ⟨form.text_visible, shown⟩

theorem readFloat_clear (f : FloatFormat) {expected : String} (shown : Visible expected) :
    (readFloat f expected).Clear :=
  .wordOr ((number_clear shown).map (NumberLiteral.floatBits f)) _ f.nanBits

theorem readDoubles_clear {expected : String} (shown : Visible expected) (keys : List Bytes) :
    (readDoubles expected keys).Clear := by
  refine .object shown fun key => ?_
  split
  · exact .map (.map (readFloat_clear _ (Scalar.name_visible .double)) _) some
  · exact (passValue_clear shown).map fun _ => none

theorem readScalar_clear (k : Scalar) : (readScalar k).Clear := by
  cases k with
  | bool => exact readBool_clear.map _
  | int k => exact (readInt_clear k).map _
  | double => exact .map (.map (readFloat_clear _ (Scalar.name_visible .double)) _) _
  | single => exact .map (.map (readFloat_clear _ (Scalar.name_visible .single)) _) _
  | complex => exact (readDoubles_clear (Scalar.name_visible .complex) _).map _

theorem readRange_clear : readRange.Clear :=
  (readDoubles_clear (Ty.closedName_visible .range) _).map _

theorem readString_clear : readString.Clear := by
  have shown := Ty.closedName_visible .string
  rw [readString_eq]
  refine .checked shown (stringBytes_clear shown) fun c bytes later _ reason refused => ?_
  split at refused
  · cases refused
  · cases refused
    exact .inl trivial

/-- An unknown tag is quoted as it was unescaped, whatever is in it. -/
theorem readElement_clear : readElement.Clear := by
  rw [readElement_eq]
  exact .judged descriptorName_visible (stringBytes_clear descriptorName_visible) fun tag _ =>
    accept_clear (.inr ⟨tag, rfl⟩)

theorem readDescriptorMember_clear (key : Bytes) : (readDescriptorMember key).Clear := by
  unfold readDescriptorMember
  split
  · exact readElement_clear.map _
  split
  · exact .map (.inlineList (Ty.closedName_visible (.list (.scalar (.int sizeKind)))) (readInt_clear sizeKind)) _
  split
  · exact (readInt_clear offsetKind).map _
  split
  · exact (readInt_clear offsetKind).map _
  split
  · exact readRange_clear.map _
  · exact (passValue_clear descriptorName_visible).map fun _ => DescriptorMember.unknown

theorem readDescriptor_clear : readDescriptor.Clear := by
  rw [readDescriptor_eq]
  exact .checked descriptorName_visible (.object descriptorName_visible readDescriptorMember_clear)
    fun _ _ _ _ _ => accept_clear (.inl (by trivial))

section Arrays

variable (records : Option Bytes)

theorem readStored_clear (element : Element) {expected : String} (shown : Visible expected) (rank : Nat) :
    (readStored (records.map BlobView.ofBytes) element expected rank).Clear := by
  cases records with
  | none => exact .afterPeek fun _ => fail_clear shown (.inl (by trivial))
  | some data =>
      rw [Option.map_some, readStored_some]
      refine .checked shown readDescriptor_clear fun c d later _ reason refused => ?_
      cases fetched : (BlobView.ofBytes data).fetch element rank d with
      | ok bytes =>
          rw [fetched] at refused
          cases refused
      | error refusal =>
          rw [fetched] at refused
          cases refused
          exact .inl (BlobView.fetch_plain fetched)

theorem readArray_clear (element : Element) : (readArray (records.map BlobView.ofBytes) element).Clear := by
  have shown := Ty.closedName_visible (.list (.scalar element.scalar))
  refine .afterPeek fun next => ?_
  split
  · exact .inlineList shown (readScalar_clear _)
  split
  · exact (readStored_clear records element shown 1).map _
  · exact fail_clear shown (.inl (by trivial))

theorem readRows_clear (element : Element) : (readRows (records.map BlobView.ofBytes) element).Clear := by
  have shown := Ty.closedName_visible (.list (.vector element))
  rw [readRows_eq]
  refine .afterPeek fun next => ?_
  split
  · refine .checked shown (readStored_clear records element shown 2) fun c stored later _ reason refused => ?_
    simp only [unpackRows] at refused
    split at refused
    · split at refused
      · cases refused
      · cases refused
        exact .inl trivial
    · cases refused
  · exact .inlineList shown (readArray_clear records element)

theorem sizeMatrix_clear {rows cols : Nat} {data : List Datum} {reason : Reason}
    (refused : sizeMatrix rows cols data = .error reason) : reason.Clear := by
  unfold sizeMatrix at refused
  split at refused
  · cases refused
  · cases refused
    exact .inl trivial

theorem readMatrix_clear (element : Element) : (readMatrix (records.map BlobView.ofBytes) element).Clear := by
  have shown := Ty.closedName_visible (.matrix element)
  have shown' := Ty.closedName_visible (.list (.list (.scalar element.scalar)))
  rw [readMatrix_eq]
  refine .afterPeek fun next => ?_
  split
  · exact .checked shown (readStored_clear records element shown 2) fun _ _ _ _ _ => sizeMatrix_clear
  · refine .checked shown (.inlineList shown' (readArray_clear records element)) fun c rows later _ reason refused => ?_
    simp only [stackRows] at refused
    split at refused
    · exact sizeMatrix_clear refused
    · cases refused
      exact .inl trivial

end Arrays

section Types

variable {schema : Schema S} (names : ∀ s, Visible (schema s).name) (records : Option Bytes)

theorem readEntries_clear {expected : String} (shown : Visible expected) {value : Reader Val} (clear : value.Clear) :
    (readEntries expected value).Clear := by
  refine .map (.object shown fun key => ?_) _
  split
  · exact clear
  · exact fail_clear shown (.inl (by trivial))

include names

theorem Ty.readWith_clear {record : S → Reader Val} (clear : ∀ s, (record s).Clear) (t : Ty S) :
    (t.readWith schema (records.map BlobView.ofBytes) record).Clear := by
  have shown := fun t : Ty S => t.name_visible names
  induction t with
  | scalar k => exact (readScalar_clear k).map _
  | string => exact readString_clear.map _
  | bytes => exact (stringBytes_clear (shown .bytes)).map _
  | json => exact captured_clear (shown .json) fun raw => Val.json raw (records.map BlobView.ofBytes).isSome
  | range => exact readRange_clear.map _
  | descriptor => exact readDescriptor_clear.map _
  | vector e => exact (readArray_clear records e).map _
  | matrix e => exact (readMatrix_clear records e).map _
  | list item ih =>
      cases item with
      | scalar k =>
          refine Clear.map ?_ _
          cases k.element? with
          | some e => exact readArray_clear records e
          | none => exact .inlineList (shown (.list (.scalar k))) (readScalar_clear k)
      | vector e => exact (readRows_clear records e).map _
      | _ => exact .map (.inlineList (shown (.list _)) ih) _
  | option content ih => exact .wordOr (ih.map _) _ _
  | boxed content ih => exact ih.map _
  | shared content ih => exact ih.map _
  | sortedMap value ih => exact readEntries_clear (shown (.sortedMap value)) ih
  | hashMap value ih => exact readEntries_clear (shown (.hashMap value)) ih
  | pair first second ih ih' => exact .twoOf (shown (.pair first second)) ih ih' Val.pair
  | record s => exact clear s

theorem readRecord_clear (bound : Nat) (s : S) :
    (readRecord schema (records.map BlobView.ofBytes) bound s).Clear := by
  induction bound generalizing s with
  | zero => exact fun c => fail_clear (names s) (.inl (by trivial)) c.skipSpace
  | succ bound ih =>
      refine .map (.object (names s) fun key => ?_) _
      cases (schema s).fields.find? fun f => f.key = key with
      | none => exact (passValue_clear (names s)).map fun _ => none
      | some f => exact (f.type.readWith_clear names records ih).map some

/-- Whatever type is read, what a failure tells is visible, but for the tag of an unknown element type. -/
theorem Ty.read_clear (t : Ty S) : (t.read schema (records.map BlobView.ofBytes)).Clear :=
  fun c => t.readWith_clear names records (readRecord_clear names records c.rest.length) c

end Types

/-! ### Reports -/

/-- Where a text is not read, what the failure tells is visible, but for the tag of an unknown element type. -/
theorem decode_clear {schema : Schema S} (names : ∀ s, Visible (schema s).name) (records : Option Bytes) {t : Ty S}
    {text : Bytes} {error : DecodeError}
    (failed : decode schema (records.map BlobView.ofBytes) t text = .error error) : error.failure.Clear := by
  have clear : Reader.Clear (t.read schema (records.map BlobView.ofBytes) >>= fun v =>
      finish (t.name schema) >>= fun _ => pure v) :=
    (t.read_clear names records).bind fun v =>
      (finish_clear (t.name_visible names)).bind fun _ c => Outcome.clear_ok v c
  unfold decode at failed
  dsimp only at failed
  split at failed
  · cases failed
  · rename_i failure stop outcome
    cases failed
    exact clear (Cursor.start text) failure stop outcome

namespace DecodeError

/-- The lines of the report. -/
def lines (error : DecodeError) : List (List Char) := error.report.toList.splitOn '\n'

/-- The lines below the first message: the text and the mark in it, if the text is short enough. -/
def shown (text : Bytes) (offset : Nat) : List (List Char) :=
  if text.length < echoLimit then [echo text, caret text offset] else []

theorem newline_not_mem_echo (text : Bytes) : '\n' ∉ echo text := by
  intro mem
  have visible := echo_visible text '\n' mem
  revert visible
  decide

theorem newline_not_mem_caret (text : Bytes) (offset : Nat) : '\n' ∉ caret text offset := by
  simp [caret]

/-- Below the message a report has the text and the mark on one line each, or nothing. -/
theorem lines_inText (failure : Failure) (text : Bytes) :
    (failure.inText text).lines = failure.headline.toList.splitOn '\n' ++ shown text failure.offset := by
  unfold lines report Failure.inText shown
  by_cases short : text.length < echoLimit
  · simp only [if_pos short]
    have parts : (failure.headline ++ "\n" ++ String.ofList (echo text) ++ "\n"
        ++ String.ofList (caret text failure.offset)).toList
        = failure.headline.toList ++ '\n' :: (echo text ++ '\n' :: caret text failure.offset) := by
      simp
    rw [parts, List.splitOn_append_cons_self,
      List.splitOn_append_cons_self_of_not_mem (newline_not_mem_echo text),
      List.splitOn_eq_singleton (newline_not_mem_caret text failure.offset)]
  · simp only [if_neg short, List.append_nil]

end DecodeError

/-- A text has one line more than line breaks. -/
theorem length_splitOn (separator : Char) (chars : List Char) :
    (chars.splitOn separator).length = chars.count separator + 1 := by
  induction chars with
  | nil => rfl
  | cons c chars ih =>
      rw [List.splitOn_cons_eq_if_modifyHead, List.count_cons]
      split <;> simp_all

theorem Visible.count_newline {text : String} (visible : Visible text) : text.toList.count '\n' = 0 :=
  List.count_eq_zero.2 visible.newline_not_mem

namespace Failure.Clear

variable {failure : Failure} (clear : failure.Clear)

include clear

/-- The first line of a report is broken where the reason is. -/
theorem count_newline_headline : failure.headline.toList.count '\n' = failure.reason.message.toList.count '\n' := by
  have front : Visible ("decode " ++ failure.expected ++ ": ") :=
    (Visible.append (by decide) clear.expected).append (by decide)
  have back : Visible (" at offset " ++ toString failure.offset) :=
    Visible.append (by decide) (visible_toString failure.offset)
  have parts : failure.headline = "decode " ++ failure.expected ++ ": " ++ failure.reason.message
      ++ (" at offset " ++ toString failure.offset) := String.append_assoc
  rw [parts, String.toList_append, String.toList_append, List.count_append, List.count_append, front.count_newline,
    back.count_newline, Nat.zero_add, Nat.add_zero]

theorem message_visible (visible : Visible failure.reason.message) : Visible failure.message :=
  ((((Visible.append (by decide) clear.expected).append (by decide)).append
    (visible_toString failure.offset)).append (by decide)).append visible

/-- The reason is worded visibly unless it quotes a tag that is not visible. -/
theorem reason_visible_iff : Visible failure.reason.message ↔
    ∀ tag, failure.reason = .unknownElement tag → Visible (Utf8.lossyText tag) := by
  constructor
  · intro visible tag same
    rw [same] at visible
    exact (visible_append.1 visible).2
  · intro tags
    rcases clear.reason with plain | ⟨tag, same⟩
    · exact plain.message_visible
    · rw [same]
      exact Visible.append (by decide) (tags tag same)

end Failure.Clear

/-- A failure is known by comparison, though values are not compared. -/
theorem eq_error_of_same {outcome : Except DecodeError Val} {error : DecodeError}
    (same : (match outcome with
      | .error e => decide (e = error)
      | .ok _ => false) = true) : outcome = .error error := by
  cases outcome with
  | ok v => cases same
  | error e => rw [of_decide_eq_true same]

/-- A report keeps its lines but for the tag of an unknown element type.  Where a text is not read, the reason has no
    control character exactly if it quotes no tag that has one.  Then the message is one line, and the report is its
    first line alone, or the three lines of the message, the text and the mark if the text is short enough to be shown.
    A tag with line breaks adds as many lines in front of the text, and nothing else does. -/
theorem report_lines {schema : Schema S} (names : ∀ s, Visible (schema s).name) (records : Option Bytes) (t : Ty S)
    {text : Bytes} {error : DecodeError}
    (failed : decode schema (records.map BlobView.ofBytes) t text = .error error) :
    let reason := error.failure.reason
    let shown := DecodeError.shown text error.failure.offset
    (Visible reason.message ↔ ∀ tag, reason = .unknownElement tag → Visible (Utf8.lossyText tag)) ∧
      (Visible reason.message → Visible error.message ∧ error.lines = error.failure.headline.toList :: shown) ∧
      error.lines = error.failure.headline.toList.splitOn '\n' ++ shown ∧
      error.lines.length = 1 + reason.message.toList.count '\n' + shown.length := by
  intro reason shown
  have clear := decode_clear names records failed
  have lines : error.lines = error.failure.headline.toList.splitOn '\n' ++ shown := by
    rw [(decode_fails_at_seam failed).1]
    exact DecodeError.lines_inText error.failure text
  refine ⟨clear.reason_visible_iff, fun visible => ⟨clear.message_visible visible, ?_⟩, lines, ?_⟩
  · have unbroken : '\n' ∉ error.failure.headline.toList := by
      rw [← List.count_eq_zero, clear.count_newline_headline, visible.count_newline]
    rw [lines, List.splitOn_eq_singleton unbroken]
    rfl
  · rw [lines, List.length_append, length_splitOn, clear.count_newline_headline, Nat.add_comm 1]

/-- More text behind a record with an escaped line break, and a line break between tokens.  It is shown on one line all
    the same. -/
theorem report_lines_trailing_text :
    let schema : Schema Unit := fun _ => ⟨"Note", [⟨ascii "text", .bytes, .none⟩]⟩
    let text := ascii "\x7b\"text\":\"a\\nb\"\x7d\n7"
    let error := Failure.inText ⟨"Note", .trailingText, 16⟩ text
    decode schema none (.record ()) text = .error error ∧ Visible error.message ∧
      error.lines = [error.failure.headline.toList, "\x7b\"text\":\"a\\nb\"\x7d 7".toList,
        "                ^".toList] := by
  intro schema text error
  have failed : decode schema none (.record ()) text = .error error := eq_error_of_same (by decide +kernel)
  have shown : DecodeError.shown text error.failure.offset
      = ["\x7b\"text\":\"a\\nb\"\x7d 7".toList, "                ^".toList] := by
    decide +kernel
  have names : ∀ s, Visible (schema s).name := fun _ => (by decide : Visible "Note")
  obtain ⟨visible_iff, one, _⟩ := report_lines names none (.record ()) failed
  have plain : Visible error.failure.reason.message := visible_iff.2 nofun
  obtain ⟨visible, lines⟩ := one plain
  rw [shown] at lines
  exact ⟨failed, visible, lines⟩

/-- An escaped line break in the tag of an element type breaks the message, and the report has four lines. -/
theorem report_broken_by_tag :
    let schema : Schema Empty := nofun
    let text := ascii "\x7b\"dtype\":\"a\\nb\"\x7d"
    let error := Failure.inText ⟨descriptorName, .unknownElement [0x61, 0x0a, 0x62], 15⟩ text
    decode schema none .descriptor text = .error error ∧ text.length < echoLimit ∧
      ¬ Visible error.failure.reason.message ∧ ¬ Visible error.message ∧ error.lines.length = 4 := by
  intro schema text error
  have failed : decode schema none .descriptor text = .error error := eq_error_of_same (by decide +kernel)
  exact ⟨failed, by decide +kernel, by decide +kernel, by decide +kernel, by decide +kernel⟩

end JsonSidecar
