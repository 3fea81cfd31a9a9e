/-
Module: JsonSidecar.Proofs.Decode.Bound
Purpose: How many records may lie inside each other is no limit.  Two readers that agree on all cursors with so many
  bytes ahead are put together to readers that agree there, and the fields of a record have fewer bytes ahead than
  the record, so every bound that covers the bytes ahead gives the same reader.
Main exports: Reader.AgreeWithin, readRecord_agree, Ty.read_eq_readWith, Ty.read_record
-/
import JsonSidecar.Proofs.Decode.Orderly
import JsonSidecar.Proofs.Decode.Skippable

namespace JsonSidecar

open Reader

variable {S α β γ : Type}

/-- The two readers do the same wherever at most `n` bytes lie ahead. -/
def Reader.AgreeWithin (n : Nat) (reader reader' : Reader α) : Prop :=
  ∀ c : Cursor, c.rest.length ≤ n → reader c = reader' c

namespace Reader

/-- Behind what it accepts a reader has no more bytes ahead than before. -/
theorem Precise.length_le {reader : Reader α} (precise : reader.Precise) {c later : Cursor} {a : α}
    (read : reader c = .ok a later) : later.rest.length ≤ c.rest.length := by
  obtain ⟨w, spans, _⟩ := (precise c).reaches
  rw [read] at spans
  have lengths := congrArg List.length spans.1
  rw [List.length_append] at lengths
  exact lengths ▸ Nat.le_add_left ..

theorem expect_length {expected : String} {b : UInt8} {reason : Reason} {c later : Cursor} {u : Unit}
    (read : expect expected b reason c = .ok u later) : later.rest.length < c.rest.length := by
  have eaten := Items.eat?_length (expect_eq_ok read)
  have blank := Items.skipSpace_length_le c
  omega

namespace AgreeWithin

variable {n : Nat} {reader reader' : Reader α}

theorem refl (reader : Reader α) : AgreeWithin n reader reader := fun _ _ => rfl

theorem of_le {m : Nat} (agree : AgreeWithin n reader reader') (le : m ≤ n) : AgreeWithin m reader reader' :=
  fun c short => agree c (Nat.le_trans short le)

/-- Two steps agree if the first ones do, and the second ones with as many bytes ahead as the first ones leave. -/
theorem bind {m : Nat} (agree : AgreeWithin n reader reader')
    (leaves : ∀ c a later, c.rest.length ≤ n → reader c = .ok a later → later.rest.length ≤ m)
    {next next' : α → Reader β} (behind : ∀ a, AgreeWithin m (next a) (next' a)) :
    AgreeWithin n (reader >>= next) (reader' >>= next') := by
  intro c short
  rw [Scan.bind_apply, Scan.bind_apply, ← agree c short]
  cases read : reader c with
  | fail error stop => rfl
  | ok a later => exact behind a later (leaves c a later short read)

/-- A first step that both readers have in common. -/
theorem after {first : Reader α} (precise : first.Precise) {next next' : α → Reader β}
    (behind : ∀ a, AgreeWithin n (next a) (next' a)) : AgreeWithin n (first >>= next) (first >>= next') :=
  (refl first).bind (fun _ _ _ short read => Nat.le_trans (precise.length_le read) short) behind

theorem map (agree : AgreeWithin n reader reader') (f : α → β) : AgreeWithin n (f <$> reader) (f <$> reader') := by
  intro c short
  rw [Scan.map_apply, Scan.map_apply, agree c short]

theorem afterSpace {next next' : Unit → Cursor → Reader α}
    (behind : ∀ start, AgreeWithin n (next () start) (next' () start)) :
    AgreeWithin n
      (do
        let u ← Scan.skipSpace
        let start ← Scan.here
        next u start)
      (do
        let u ← Scan.skipSpace
        let start ← Scan.here
        next' u start) := by
  intro c short
  exact behind c.skipSpace c.skipSpace (Nat.le_trans (Items.skipSpace_length_le c) short)

theorem checked (agree : AgreeWithin n reader reader') (expected : String) (verdict : α → Except Reason β) :
    AgreeWithin n (Reader.checked expected reader verdict) (Reader.checked expected reader' verdict) := by
  refine .afterSpace fun start c short => ?_
  rw [Scan.bind_apply, Scan.bind_apply, agree c short]

theorem judged (agree : AgreeWithin n reader reader') (expected : String) (verdict : α → Except Reason β) :
    AgreeWithin n (Reader.judged expected reader verdict) (Reader.judged expected reader' verdict) := by
  intro c short
  rw [Reader.judged, Reader.judged, Scan.bind_apply, Scan.bind_apply, agree c short]

theorem wordOr (agree : AgreeWithin n reader reader') (pattern : Bytes) (found : α) :
    AgreeWithin n (Reader.wordOr pattern found reader) (Reader.wordOr pattern found reader') := by
  intro c short
  rw [Reader.wordOr, Reader.wordOr, Scan.bind_apply, Scan.bind_apply, word]
  cases matchWord? pattern c with
  | some later => rfl
  | none => exact agree c short

theorem afterPeek {next next' : Option UInt8 → Reader α} (agree : ∀ b, AgreeWithin n (next b) (next' b)) :
    AgreeWithin n (peek >>= next) (peek >>= next') :=
  .after peek_precise agree

/-- The loop over the items of a list does the same with readers of items that do. -/
theorem items (agree : AgreeWithin n reader reader') (precise : reader.Precise) {close : UInt8}
    {missing : Cursor → Failure} (bound : Nat) :
    AgreeWithin n (Scan.items close missing reader bound) (Scan.items close missing reader' bound) := by
  induction bound with
  | zero => exact refl _
  | succ bound ih =>
      intro c short
      cases closed : c.skipSpace.eat? close with
      | some later => simp only [Scan.items, closed]
      | none =>
          have short : c.skipSpace.rest.length ≤ n := Nat.le_trans (Items.skipSpace_length_le c) short
          rw [Scan.items_open closed, Scan.items_open closed, ← agree c.skipSpace short]
          cases read : reader c.skipSpace with
          | fail error stop => rfl
          | ok a after =>
              simp only [Outcome.bind_ok, Scan.afterItem]
              cases comma : after.skipSpace.eat? Byte.comma with
              | none => rfl
              | some next =>
                  have behind := precise.length_le read
                  have blank := Items.skipSpace_length_le after
                  have passed := Items.eat?_length comma
                  dsimp only
                  rw [ih next (by omega)]

/-- Behind its opening byte a list has fewer bytes ahead. -/
theorem enclosed {expected : String} {opening close : UInt8} {reason : Reason} {missing : Cursor → Failure}
    (agree : AgreeWithin n reader reader') (precise : reader.Precise) :
    AgreeWithin (n + 1)
      (do
        expect expected opening reason
        Scan.itemsUpTo close missing reader)
      (do
        expect expected opening reason
        Scan.itemsUpTo close missing reader') := by
  refine (refl _).bind (m := n) (fun c u later short read => ?_) fun _ c short => ?_
  · have shorter := expect_length read
    omega
  · exact agree.items precise _ c short

theorem inlineList (agree : AgreeWithin n reader reader') (precise : reader.Precise) (expected : String) :
    AgreeWithin (n + 1) (Reader.inlineList expected reader) (Reader.inlineList expected reader') :=
  agree.enclosed precise

/-- The key of a member stands in front of its value. -/
theorem member {value value' : Bytes → Reader β} (agree : ∀ key, AgreeWithin n (value key) (value' key))
    (expected : String) : AgreeWithin n (Reader.member expected value) (Reader.member expected value') := by
  refine .after (memberKey_precise expected) fun key c short => ?_
  rw [Scan.bind_apply, Scan.bind_apply, agree key c short]

theorem object {value value' : Bytes → Reader β} (agree : ∀ key, AgreeWithin n (value key) (value' key))
    (precise : ∀ key, (value key).Precise) (expected : String) :
    AgreeWithin (n + 1) (Reader.object expected value) (Reader.object expected value') :=
  (AgreeWithin.member agree expected).enclosed (.member precise expected)

theorem twoOf {second second' : Reader β} (agree : AgreeWithin n reader reader')
    (agree' : AgreeWithin n second second') (precise : reader.Precise) (expected : String) (f : α → β → γ) :
    AgreeWithin n (Reader.twoOf expected f reader second) (Reader.twoOf expected f reader' second') := by
  refine .after (expect_precise expected (by decide) (by trivial)) fun _ => ?_
  refine agree.bind (fun c a later short read => Nat.le_trans (precise.length_le read) short) fun a => ?_
  refine .after (expect_precise expected (by decide) (by trivial)) fun _ c short => ?_
  rw [Scan.bind_apply, Scan.bind_apply, agree' c short]

end AgreeWithin

/-- Readers that are put together in the same way from agreeing readers of records agree. -/
theorem Alike.agree {record record' : S → Reader Val} {reader reader' : Reader α}
    (alike : Alike record record' reader reader') (precise : ∀ s, (record s).Precise) {n : Nat}
    (records : ∀ s, AgreeWithin n (record s) (record' s)) : AgreeWithin n reader reader' := by
  induction alike with
  | record s => exact records s
  | fail | number | stringBytes | passValue | captured => exact .refl _
  | map f _ ih => exact ih.map f
  | wordOr mem found _ ih => exact ih.wordOr _ found
  | afterPeek _ ih => exact .afterPeek ih
  | checked expected _ _ ih => exact ih.checked expected _
  | judged expected _ _ ih => exact ih.judged expected _
  | inlineList expected alike ih =>
      exact (ih.inlineList (alike.precise precise) expected).of_le (Nat.le_succ n)
  | object expected alike ih =>
      exact (AgreeWithin.object ih (fun key => (alike key).precise precise) expected).of_le (Nat.le_succ n)
  | twoOf expected f alike _ ih ih' => exact ih.twoOf ih' (alike.precise precise) expected f

end Reader

/-! ### All types -/

section Types

variable (schema : Schema S) (store : Option BlobView)

/-- With nothing ahead no record is read, whatever the bound. -/
theorem readRecord_at_end (bound : Nat) (s : S) {c : Cursor} (none : c.rest.length = 0) :
    readRecord schema store bound s c = fail (schema s).name .expectedBrace c.skipSpace := by
  cases bound with
  | zero => rfl
  | succ bound =>
      have blank := Items.skipSpace_length_le c
      have empty : c.skipSpace.rest = [] := List.eq_nil_of_length_eq_zero (by omega)
      have missed : c.skipSpace.eat? Byte.openBrace = .none := by simp [Cursor.eat?, Cursor.passIf?, empty]
      simp only [readRecord, readFields, object, expect, Scan.bind_apply, Scan.expect, missed, Outcome.bind_fail]
      rfl

/-- Two bounds that cover the bytes ahead give the same reader of records. -/
theorem readRecord_agree {n bound bound' : Nat} (le : n ≤ bound) (le' : n ≤ bound') (s : S) :
    AgreeWithin n (readRecord schema store bound s) (readRecord schema store bound' s) := by
  induction n generalizing bound bound' s with
  | zero =>
      intro c short
      have none : c.rest.length = 0 := Nat.le_zero.1 short
      rw [readRecord_at_end schema store bound s none, readRecord_at_end schema store bound' s none]
  | succ n ih =>
      obtain ⟨bound, rfl⟩ := Nat.exists_eq_succ_of_ne_zero (Nat.ne_zero_of_lt le)
      obtain ⟨bound', rfl⟩ := Nat.exists_eq_succ_of_ne_zero (Nat.ne_zero_of_lt le')
      have precise := readRecord_precise schema store bound
      have records := fun s => ih (Nat.le_of_succ_le_succ le) (Nat.le_of_succ_le_succ le') s
      have alike : ∀ f : Field S, Alike (readRecord schema store bound) (readRecord schema store bound') _ _ :=
        fun f => f.type.readWith_alike store schema
      refine (AgreeWithin.object (fun key => ?_) (fun key => ?_) _).map _
      · exact (fieldValue_alike alike key).agree precise records
      · exact (fieldValue_alike alike key).precise precise

/-- A type is read with any bound that covers the bytes ahead. -/
theorem Ty.read_eq_readWith (t : Ty S) {bound : Nat} {c : Cursor} (le : c.rest.length ≤ bound) :
    t.read schema store c = t.readWith schema store (readRecord schema store bound) c :=
  (t.readWith_alike store schema).agree (readRecord_precise schema store _)
    (readRecord_agree schema store (Nat.le_refl _) le) c (Nat.le_refl _)

/-- The fields of a record are read by the readers of their types. -/
theorem Ty.read_record (s : S) : (Ty.record s).read schema store
    = readFields (schema s).name (schema s).fields fun f => f.type.read schema store := by
  funext c
  rw [Ty.read_eq_readWith schema store (.record s) (Nat.le_succ c.rest.length)]
  have field (f : Field S) : AgreeWithin c.rest.length
      (f.type.readWith schema store (readRecord schema store c.rest.length)) (f.type.read schema store) :=
    fun c' short => (f.type.read_eq_readWith schema store short).symm
  refine (AgreeWithin.object (fun key => ?_) (fun key => ?_) _).map _ c (Nat.le_succ _)
  · cases (schema s).fields.find? fun f => f.key = key with
    | none => exact .refl _
    | some f => exact (field f).map some
  · have records := readRecord_precise schema store c.rest.length
    have alike : ∀ f : Field S, Alike (readRecord schema store c.rest.length) (readRecord schema store c.rest.length)
        _ _ := fun f => f.type.readWith_alike store schema
    exact (fieldValue_alike alike key).precise records

/-- The values of a map are read by the reader of their type. -/
theorem readEntries_read (expected : String) (value : Ty S) (c : Cursor) :
    readEntries expected (value.readWith schema store (readRecord schema store c.rest.length)) c
      = readEntries expected (value.read schema store) c := by
  refine (AgreeWithin.object (n := c.rest.length) (fun key => ?_) (fun key => ?_) _).map _ c (Nat.le_succ _)
  · split
    · exact fun c' short => (value.read_eq_readWith schema store short).symm
    · exact .refl _
  · split
    · exact value.readWith_precise schema store (readRecord_precise schema store _)
    · exact fail_precise _ (by trivial)

end Types

end JsonSidecar
