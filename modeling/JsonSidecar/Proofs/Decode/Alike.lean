/-
Module: JsonSidecar.Proofs.Decode.Alike
Purpose: How readers are put together.  Every reader of a type is made of a few tokens, two container loops and
  checks on what was read, up to the readers of the records in it.  `Reader.Alike` relates two readers that are
  made in the same way from different readers of records, and `Reader.Plain` holds of those that are made of tokens,
  containers and checks alone; a property of readers is proved by induction on them, and the composition of each
  reader is looked at here only.
Main exports: Reader.Alike, Reader.Plain, Ty.readWith_alike, Ty.readWith_plain, readRecord_alike
-/
import JsonSidecar.Decode.Typed
import JsonSidecar.Proofs.Cursor

namespace JsonSidecar

open Reader

variable {S α β γ : Type}

/-- A reason that the library's own readers give: one that names what was wrong with the text. -/
def Reason.Reported : Reason → Prop
  | .unknown | .other _ => False
  | _ => True

namespace Reader

/-! ### The forms of readers -/

/-- What a check makes of an optional value. -/
def accept (reason : Reason) : Option α → Except Reason α
  | some a => .ok a
  | none => .error reason

/-- Read a value and check it.  What the check refuses is reported where the value begins. -/
def checked (expected : String) (reader : Reader α) (verdict : α → Except Reason β) : Reader β := do
  Scan.skipSpace
  let start ← Scan.here
  let a ← reader
  match verdict a with
  | .ok b => return b
  | .error reason => failAt expected reason start.pos

/-- Read a value and check it.  What the check refuses is reported behind the value. -/
def judged (expected : String) (reader : Reader α) (verdict : α → Except Reason β) : Reader β := do
  let a ← reader
  match verdict a with
  | .ok b => return b
  | .error reason => fail expected reason

/-- A word, or else another value. -/
def wordOr (pattern : Bytes) (found : α) (other : Reader α) : Reader α := do
  if ← word pattern then return found
  other

/-- The text of a value that is passed over. -/
def captured (expected : String) (f : Bytes → α) : Reader α := do
  Scan.skipSpace
  let start ← Scan.here
  passValue expected
  let stop ← Scan.here
  return f (start.span stop)

/-- Two values between brackets, without a comma behind the second. -/
def twoOf (expected : String) (f : α → β → γ) (first : Reader α) (second : Reader β) : Reader γ := do
  expect expected Byte.openBracket .expectedBracket
  let a ← first
  expect expected Byte.comma .expectedComma
  let b ← second
  expect expected Byte.closeBracket .expectedClosingBracket
  return f a b

/-- Two readers that are put together in the same way, up to the readers of records in them. -/
inductive Alike (record record' : S → Reader Val) : {α : Type} → Reader α → Reader α → Prop where
  | record (s : S) : Alike record record' (record s) (record' s)
  | fail {α : Type} (expected : String) {reason : Reason} : reason.Reported →
      Alike record record' (fail expected reason : Reader α) (fail expected reason)
  | number (expected : String) : Alike record record' (number expected) (number expected)
  | stringBytes (expected : String) : Alike record record' (stringBytes expected) (stringBytes expected)
  | passValue (expected : String) : Alike record record' (passValue expected) (passValue expected)
  | captured {α : Type} (expected : String) (f : Bytes → α) :
      Alike record record' (captured expected f) (captured expected f)
  | map {α β : Type} {reader reader' : Reader α} (f : α → β) : Alike record record' reader reader' →
      Alike record record' (f <$> reader) (f <$> reader')
  | wordOr {α : Type} {pattern : Bytes} {other other' : Reader α}
      (mem : pattern ∈ [Word.true, Word.false, Word.null]) (found : α) : Alike record record' other other' →
      Alike record record' (wordOr pattern found other) (wordOr pattern found other')
  | afterPeek {α : Type} {next next' : Option UInt8 → Reader α} :
      (∀ b, Alike record record' (next b) (next' b)) →
      Alike record record' (peek >>= next) (peek >>= next')
  | checked {α β : Type} {reader reader' : Reader α} {verdict : α → Except Reason β} (expected : String)
      (reported : ∀ a reason, verdict a = .error reason → reason.Reported) : Alike record record' reader reader' →
      Alike record record' (checked expected reader verdict) (checked expected reader' verdict)
  | judged {α β : Type} {reader reader' : Reader α} {verdict : α → Except Reason β} (expected : String)
      (reported : ∀ a reason, verdict a = .error reason → reason.Reported) : Alike record record' reader reader' →
      Alike record record' (judged expected reader verdict) (judged expected reader' verdict)
  | inlineList {α : Type} {item item' : Reader α} (expected : String) : Alike record record' item item' →
      Alike record record' (inlineList expected item) (inlineList expected item')
  | object {β : Type} {value value' : Bytes → Reader β} (expected : String) :
      (∀ key, Alike record record' (value key) (value' key)) →
      Alike record record' (object expected value) (object expected value')
  | twoOf {α β γ : Type} {first first' : Reader α} {second second' : Reader β} (expected : String)
      (f : α → β → γ) : Alike record record' first first' → Alike record record' second second' →
      Alike record record' (twoOf expected f first second) (twoOf expected f first' second')

/-- A reader that is put together without records, without pairs and without texts that are kept. -/
inductive Plain : {α : Type} → Reader α → Prop where
  | fail {α : Type} (expected : String) {reason : Reason} : reason.Reported → Plain (fail expected reason : Reader α)
  | number (expected : String) : Plain (number expected)
  | stringBytes (expected : String) : Plain (stringBytes expected)
  | passValue (expected : String) : Plain (passValue expected)
  | map {α β : Type} {reader : Reader α} (f : α → β) : Plain reader → Plain (f <$> reader)
  | wordOr {α : Type} {pattern : Bytes} {other : Reader α} (mem : pattern ∈ [Word.true, Word.false, Word.null])
      (found : α) : Plain other → Plain (wordOr pattern found other)
  | afterPeek {α : Type} {next : Option UInt8 → Reader α} : (∀ b, Plain (next b)) → Plain (peek >>= next)
  | checked {α β : Type} {reader : Reader α} {verdict : α → Except Reason β} (expected : String)
      (reported : ∀ a reason, verdict a = .error reason → reason.Reported) : Plain reader →
      Plain (checked expected reader verdict)
  | judged {α β : Type} {reader : Reader α} {verdict : α → Except Reason β} (expected : String)
      (reported : ∀ a reason, verdict a = .error reason → reason.Reported) : Plain reader →
      Plain (judged expected reader verdict)
  | inlineList {α : Type} {item : Reader α} (expected : String) : Plain item → Plain (inlineList expected item)
  | object {β : Type} {value : Bytes → Reader β} (expected : String) : (∀ key, Plain (value key)) →
      Plain (object expected value)

/-- Without records in it, a reader is made in the same way from all readers of records. -/
theorem Plain.alike {record record' : S → Reader Val} {reader : Reader α} (plain : Plain reader) :
    Alike record record' reader reader := by
  induction plain with
  | fail expected reported => exact .fail expected reported
  | number expected => exact .number expected
  | stringBytes expected => exact .stringBytes expected
  | passValue expected => exact .passValue expected
  | map f _ ih => exact .map f ih
  | wordOr mem found _ ih => exact .wordOr mem found ih
  | afterPeek _ ih => exact .afterPeek ih
  | checked expected reported _ ih => exact .checked expected reported ih
  | judged expected reported _ ih => exact .judged expected reported ih
  | inlineList expected _ ih => exact .inlineList expected ih
  | object expected _ ih => exact .object expected ih

end Reader

/-! ### The readers in these forms -/

theorem accept_reported {reason : Reason} (reported : reason.Reported) {a : Option α} {refusal : Reason}
    (h : accept reason a = .error refusal) : refusal.Reported := by
  cases a with
  | some a => cases h
  | none =>
      cases h
      exact reported

theorem readInt_eq (k : IntKind) : readInt k = checked k.name (number k.name) fun l =>
    accept (.notOfKind l.text k.name) ((l.int? k.signed).filter k.contains) := by
  simp only [readInt, checked]
  congr; funext _; congr; funext start; congr; funext l
  cases (l.int? k.signed).filter k.contains <;> rfl

theorem readString_eq : readString = checked Ty.stringName (stringBytes Ty.stringName) fun bytes =>
    if Utf8.isValid bytes then .ok bytes else .error .invalidString := by
  simp only [readString, checked]
  congr; funext _; congr; funext start; congr; funext bytes
  cases Utf8.isValid bytes <;> rfl

theorem readElement_eq : readElement = judged descriptorName (stringBytes descriptorName) fun tag =>
    accept (.unknownElement tag) (Element.ofTag? tag) := by
  simp only [readElement, judged]
  congr; funext tag
  cases Element.ofTag? tag <;> rfl

theorem readDescriptor_eq :
    readDescriptor = checked descriptorName (object descriptorName readDescriptorMember) fun members =>
      accept .incompleteDescriptor (Descriptor.ofMembers? (members.map Prod.snd)) := by
  simp only [readDescriptor, checked]
  congr; funext _; congr; funext start; congr; funext members
  cases Descriptor.ofMembers? (members.map Prod.snd) <;> rfl

theorem readStored_none (element : Element) (expected : String) (rank : Nat) :
    readStored none element expected rank = peek >>= fun _ => fail expected .noStore := rfl

theorem readStored_some (view : BlobView) (element : Element) (expected : String) (rank : Nat) :
    readStored (some view) element expected rank = checked expected readDescriptor fun d =>
      (view.fetch element rank d).map fun bytes => (d.shape, element.readAll bytes) := by
  simp only [readStored, checked]
  congr; funext _; congr; funext start; congr; funext d
  cases view.fetch element rank d <;> rfl

/-- The rows that a packed table of a given shape makes. -/
def unpackRows (stored : List Nat × List Datum) : Except Reason (List (List Datum)) :=
  let rows := stored.1.headD 0
  let cols := (stored.1.drop 1).headD 0
  if cols = 0 then if rows = 0 then .ok [] else .error .zeroWidthRows
  else .ok (chunks cols (stored.2.length / cols) stored.2)

/-- A matrix of a given size, if it can be addressed. -/
def sizeMatrix (rows cols : Nat) (data : List Datum) : Except Reason (Nat × Nat × List Datum) :=
  if addressable rows cols then .ok (rows, cols, data) else .error .shapeOverflow

/-- The matrix that rows written in the text make. -/
def stackRows (rows : List (List Datum)) : Except Reason (Nat × Nat × List Datum) :=
  let cols := (rows.headD []).length
  if rows.all fun row => row.length = cols then sizeMatrix rows.length cols rows.flatten else .error .unequalRows

/-- What is read behind white space may be read as if the white space were not passed over yet. -/
theorem peek_checked (expected : String) (reader : Reader α) (verdict : α → Except Reason β) (c : Cursor) :
    checked expected reader verdict c.skipSpace = (reader c.skipSpace).bind fun a later =>
      match verdict a with
      | .ok b => .ok b later
      | .error reason => .fail ⟨expected, reason, c.skipSpace.pos⟩ later := by
  simp only [checked, Scan.bind_apply, Scan.skipSpace_apply, Scan.here_apply, Outcome.bind_ok,
    Cursor.skipSpace_skipSpace]
  cases reader c.skipSpace with
  | fail e stop => rfl
  | ok a later =>
      simp only [Outcome.bind_ok]
      cases verdict a <;> rfl

theorem readRows_eq (store : Option BlobView) (element : Element) :
    readRows store element = peek >>= fun next =>
      if next = some Byte.openBrace then
        checked (Ty.listName (Ty.arrayName element 1))
          (readStored store element (Ty.listName (Ty.arrayName element 1)) 2) unpackRows
      else inlineList (Ty.listName (Ty.arrayName element 1)) (readArray store element) := by
  funext c
  simp only [readRows, Scan.bind_apply, peek, Scan.here_apply, Outcome.bind_ok]
  split
  · rw [peek_checked]
    simp only [Scan.bind_apply]
    congr 1; funext stored later
    simp only [unpackRows]
    split
    · split <;> rfl
    · rfl
  · rfl

theorem readMatrix_eq (store : Option BlobView) (element : Element) :
    readMatrix store element = peek >>= fun next =>
      if next = some Byte.openBrace then
        checked (Ty.arrayName element 2) (readStored store element (Ty.arrayName element 2) 2) fun stored =>
          sizeMatrix (stored.1.headD 0) ((stored.1.drop 1).headD 0) stored.2
      else
        checked (Ty.arrayName element 2) (inlineList (Ty.listName (Ty.listName element.name)) (readArray store element))
          stackRows := by
  funext c
  simp only [readMatrix, Scan.bind_apply, peek, Scan.here_apply, Outcome.bind_ok]
  split
  · rw [peek_checked]
    simp only [Scan.bind_apply]
    cases readStored store element (Ty.arrayName element 2) 2 c.skipSpace with
    | fail e stop => rfl
    | ok stored later =>
        simp only [Outcome.bind_ok, Scan.pure_apply, sizeMatrix]
        cases addressable (stored.1.headD 0) ((stored.1.drop 1).headD 0) <;> rfl
  · rw [peek_checked]
    simp only [Scan.bind_apply]
    cases inlineList (Ty.listName (Ty.listName element.name)) (readArray store element) c.skipSpace with
    | fail e stop => rfl
    | ok rows later =>
        simp only [Outcome.bind_ok, stackRows]
        split
        · rw [Scan.bind_apply, Scan.pure_apply, Outcome.bind_ok]
          dsimp only [sizeMatrix]
          cases addressable rows.length (rows.headD []).length <;> rfl
        · rfl

/-! ### Refusals -/

theorem BlobView.fetch_reported {view : BlobView} {element : Element} {rank : Nat} {d : Descriptor} {reason : Reason}
    (h : view.fetch element rank d = .error reason) : reason.Reported := by
  unfold BlobView.fetch at h
  split at h
  · cases h
    exact trivial
  split at h
  · cases h
    exact trivial
  split at h
  · cases h
    exact trivial
  split at h
  · cases h
  split at h
  · cases h
    exact trivial
  cases read : view.read d.offset d.byteLength with
  | ok bytes =>
      rw [read] at h
      cases h
  | error cause =>
      rw [read] at h
      cases h
      exact trivial

theorem unpackRows_reported (stored : List Nat × List Datum) (reason : Reason) (h : unpackRows stored = .error reason) :
    reason.Reported := by
  simp only [unpackRows] at h
  split at h
  · split at h
    · cases h
    · cases h
      exact trivial
  · cases h

theorem sizeMatrix_reported {rows cols : Nat} {data : List Datum} {reason : Reason}
    (h : sizeMatrix rows cols data = .error reason) : reason.Reported := by
  unfold sizeMatrix at h
  split at h
  · cases h
  · cases h
    exact trivial

theorem stackRows_reported (rows : List (List Datum)) (reason : Reason) (h : stackRows rows = .error reason) :
    reason.Reported := by
  simp only [stackRows] at h
  split at h
  · exact sizeMatrix_reported h
  · cases h
    exact trivial

/-! ### Readers without records -/

theorem readBool_plain : Plain readBool :=
  .wordOr (by simp) true (.wordOr (by simp) false (.afterPeek fun _ => .fail _ (by trivial)))

theorem readInt_plain (k : IntKind) : Plain (readInt k) := by
  rw [readInt_eq]
  exact .checked _ (fun _ _ => accept_reported (by trivial)) (.number _)

theorem readFloat_plain (f : FloatFormat) (expected : String) : Plain (readFloat f expected) :=
  .wordOr (by simp) f.nanBits (.map (NumberLiteral.floatBits f) (.number expected))

theorem doubleMember_plain (expected : String) (keys : List Bytes) (key : Bytes) :
    Plain (orSkip expected (if key ∈ keys then some readDouble else none)) := by
  split
  · exact .map some (.map _ (readFloat_plain _ _))
  · exact .map (fun _ => none) (.passValue expected)

theorem readDoubles_plain (expected : String) (keys : List Bytes) : Plain (readDoubles expected keys) :=
  .object expected (doubleMember_plain expected keys)

theorem readScalar_plain (k : Scalar) : Plain (readScalar k) := by
  cases k with
  | bool => exact .map _ readBool_plain
  | int k => exact .map _ (readInt_plain k)
  | double => exact .map _ (.map _ (readFloat_plain _ _))
  | single => exact .map _ (.map _ (readFloat_plain _ _))
  | complex => exact .map _ (readDoubles_plain _ _)

theorem readRange_plain : Plain readRange :=
  .map _ (readDoubles_plain _ _)

theorem readString_plain : Plain readString := by
  rw [readString_eq]
  refine .checked _ (fun bytes reason h => ?_) (.stringBytes _)
  split at h
  · cases h
  · cases h
    exact trivial

theorem readElement_plain : Plain readElement := by
  rw [readElement_eq]
  exact .judged _ (fun _ _ => accept_reported (by trivial)) (.stringBytes _)

theorem readDescriptorMember_plain (key : Bytes) : Plain (readDescriptorMember key) := by
  unfold readDescriptorMember
  split
  · exact .map _ readElement_plain
  split
  · exact .map _ (.inlineList _ (readInt_plain sizeKind))
  split
  · exact .map _ (readInt_plain offsetKind)
  split
  · exact .map _ (readInt_plain offsetKind)
  split
  · exact .map _ readRange_plain
  · exact .map (fun _ => DescriptorMember.unknown) (.passValue _)

theorem readDescriptor_plain : Plain readDescriptor := by
  rw [readDescriptor_eq]
  exact .checked _ (fun _ _ => accept_reported (by trivial)) (.object _ readDescriptorMember_plain)

section Arrays

variable (store : Option BlobView)

theorem readStored_plain (element : Element) (expected : String) (rank : Nat) :
    Plain (readStored store element expected rank) := by
  cases store with
  | none =>
      rw [readStored_none]
      exact .afterPeek fun _ => .fail _ (by trivial)
  | some view =>
      rw [readStored_some]
      refine .checked _ (fun d reason h => ?_) readDescriptor_plain
      cases fetched : view.fetch element rank d with
      | ok bytes =>
          rw [fetched] at h
          cases h
      | error refusal =>
          rw [fetched] at h
          cases h
          exact BlobView.fetch_reported fetched

theorem readArray_plain (element : Element) : Plain (readArray store element) := by
  refine .afterPeek fun next => ?_
  split
  · exact .inlineList _ (readScalar_plain _)
  split
  · exact .map _ (readStored_plain store element _ 1)
  · exact .fail _ (by trivial)

theorem readRows_plain (element : Element) : Plain (readRows store element) := by
  rw [readRows_eq]
  refine .afterPeek fun next => ?_
  split
  · exact .checked _ unpackRows_reported (readStored_plain store element _ 2)
  · exact .inlineList _ (readArray_plain store element)

theorem readMatrix_plain (element : Element) : Plain (readMatrix store element) := by
  rw [readMatrix_eq]
  refine .afterPeek fun next => ?_
  split
  · exact .checked _ (fun _ _ => sizeMatrix_reported) (readStored_plain store element _ 2)
  · exact .checked _ stackRows_reported (.inlineList _ (readArray_plain store element))

/-- A list of scalars, which is an array if these can be elements of one. -/
theorem readData_plain (k : Scalar) : Plain <|
    match k.element? with
    | some e => readArray store e
    | none => inlineList (Ty.listName k.name) (readScalar k) := by
  cases k.element? with
  | some e => exact readArray_plain store e
  | none => exact .inlineList _ (readScalar_plain k)

end Arrays

/-! ### All types are alike -/

/-- The types that are read without the readers of other types and keep no text: scalars, text, ranges, descriptors and
    arrays. -/
def Ty.IsPlain : Ty S → Prop
  | .scalar _ | .string | .bytes | .range | .descriptor | .vector _ | .matrix _ => True
  | .list (.scalar _) | .list (.vector _) => True
  | _ => False

section Types

variable {record record' : S → Reader Val} (store : Option BlobView) (schema : Schema S)

theorem Ty.readWith_plain {t : Ty S} (isPlain : t.IsPlain) : Plain (t.readWith schema store record) := by
  cases t with
  | scalar k => exact .map _ (readScalar_plain k)
  | string => exact .map _ readString_plain
  | bytes => exact .map _ (.stringBytes _)
  | range => exact .map _ readRange_plain
  | descriptor => exact .map _ readDescriptor_plain
  | vector e => exact .map _ (readArray_plain store e)
  | matrix e => exact .map _ (readMatrix_plain store e)
  | list item =>
      cases item with
      | scalar k => exact .map _ (readData_plain store k)
      | vector e => exact .map _ (readRows_plain store e)
      | _ => exact isPlain.elim
  | _ => exact isPlain.elim

variable {store schema}

theorem readEntries_alike {expected : String} {value value' : Reader Val} (alike : Alike record record' value value') :
    Alike record record' (readEntries expected value) (readEntries expected value') := by
  refine .map _ (.object expected fun key => ?_)
  split
  · exact alike
  · exact .fail _ (by trivial)

/-- The value of a member of a record. -/
theorem fieldValue_alike {expected : String} {fields : List (Field S)} {field field' : Field S → Reader Val}
    (alike : ∀ f, Alike record record' (field f) (field' f)) (key : Bytes) :
    Alike record record' (orSkip expected ((fields.find? fun f => f.key = key).map field))
      (orSkip expected ((fields.find? fun f => f.key = key).map field')) := by
  cases fields.find? fun f => f.key = key with
  | none => exact .map (fun _ => none) (.passValue expected)
  | some f => exact .map some (alike f)

variable (store schema)

/-- The readers of a type from two readers of records are put together in the same way. -/
theorem Ty.readWith_alike (t : Ty S) :
    Alike record record' (t.readWith schema store record) (t.readWith schema store record') := by
  induction t with
  | scalar k => exact .map _ (readScalar_plain k).alike
  | string => exact .map _ readString_plain.alike
  | bytes => exact .map _ (.stringBytes _)
  | json => exact .captured _ fun raw => Val.json raw store.isSome
  | range => exact .map _ readRange_plain.alike
  | descriptor => exact .map _ readDescriptor_plain.alike
  | vector e => exact .map _ (readArray_plain store e).alike
  | matrix e => exact .map _ (readMatrix_plain store e).alike
  | list item ih =>
      cases item with
      | scalar k => exact .map _ (readData_plain store k).alike
      | vector e => exact .map _ (readRows_plain store e).alike
      | _ => exact .map _ (.inlineList _ ih)
  | option content ih => exact .wordOr (by simp) _ (.map _ ih)
  | boxed content ih => exact .map _ ih
  | shared content ih => exact .map _ ih
  | sortedMap value ih => exact readEntries_alike ih
  | hashMap value ih => exact readEntries_alike ih
  | pair first second ih ih' => exact .twoOf _ Val.pair ih ih'
  | record s => exact .record s

/-- Two readers of records of which one more may lie inside each other are put together in the same way from
    those before. -/
theorem readRecord_alike (bound bound' : Nat) (s : S) :
    Alike (readRecord schema store bound) (readRecord schema store bound') (readRecord schema store (bound + 1) s)
      (readRecord schema store (bound' + 1) s) :=
  .map _ (.object _ (fieldValue_alike fun f => f.type.readWith_alike store schema))

end Types

end JsonSidecar
