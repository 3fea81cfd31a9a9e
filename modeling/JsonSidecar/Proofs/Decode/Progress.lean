/-
Module: JsonSidecar.Proofs.Decode.Progress
Purpose: Reading comes to an end on every text.  The loops over items and the recursion through record types have no
  counter of their own, so they end because all that is read takes bytes: every pass of a loop that goes on has passed a
  comma, and every record has passed a brace before its fields begin.  That a recursion ends is said by its equation,
  which has no solution but the reader.
Main exports: Scan.Onward, Scan.Progresses, Scan.LoopEnds, readLevels, ReadingEnds, reading_ends
-/
import JsonSidecar.Proofs.Decode.Bound

namespace JsonSidecar

open Reader Cursor

variable {S ε α β : Type}

/-! ### Scans that move on -/

/-- Wherever the scan ends, it has not moved back, and it has not left the text. -/
def Scan.Onward (scan : Scan ε α) : Prop := ∀ c : Cursor, c.Reaches (scan c).cursor

/-- The scan passes over at least one byte when it succeeds, and ends between where it began and the end of the text
    when it fails. -/
structure Scan.Progresses (scan : Scan ε α) : Prop where
  success : ∀ c a later, scan c = .ok a later → c.Reaches later ∧ c.pos < later.pos ∧
    later.pos ≤ c.pos + c.rest.length
  failure : ∀ c e stop, scan c = .fail e stop → c.Reaches stop ∧ c.pos ≤ stop.pos ∧
    stop.pos ≤ c.pos + c.rest.length

theorem Cursor.Reaches.pos_le_end {c later : Cursor} (reaches : c.Reaches later) :
    later.pos ≤ c.pos + c.rest.length := by
  rw [← reaches.end_eq]
  exact Nat.le_add_right ..

theorem Cursor.skipSpace_reaches (c : Cursor) : c.Reaches c.skipSpace := (skipSpace_spans c).reaches

theorem Cursor.eat?_reaches {b : UInt8} {c later : Cursor} (h : c.eat? b = some later) :
    c.Reaches later ∧ later.pos = c.pos + 1 :=
  ⟨(eat?_spans h).reaches, (eat?_spans h).2⟩

namespace Scan

theorem Tidy.onward {scan : Scan ε α} (tidy : scan.Tidy) : scan.Onward := fun c => (tidy c).reaches

namespace Onward

variable {scan : Scan ε α}

theorem reaches (onward : scan.Onward) {c later : Cursor} {a : α} (h : scan c = .ok a later) : c.Reaches later := by
  have moved := onward c
  rw [h] at moved
  exact moved

end Onward

end Scan

theorem Reader.Precise.onward {reader : Reader α} (precise : reader.Precise) : Scan.Onward reader :=
  fun c => (precise c).reaches.reaches

theorem Reader.Plain.onward {reader : Reader α} (plain : Plain reader) : Scan.Onward reader :=
  Precise.onward ((plain.alike : Alike (S := Empty) nofun nofun reader reader).precise nofun)

/-- What is read has a skeleton, and the text of a skeleton is not empty. -/
theorem Reader.Skippable.pos_lt {reader : Reader α} (skippable : reader.Skippable) {c later : Cursor} {a : α}
    (read : reader c = .ok a later) : c.pos < later.pos := by
  obtain ⟨tree, passes⟩ := skippable c a later read
  obtain ⟨w, spans, spells⟩ := passes.text
  obtain ⟨b, tail, rfl, _⟩ := spells.opens
  have space := (skipSpace_spans c).2
  have passed := spans.2
  rw [List.length_cons] at passed
  omega

/-! ### The loop over the items of a list -/

namespace Scan

/-- One pass of the loop over the items of a list, with a scan for the passes behind it. -/
def onePass (close : UInt8) (missing : Cursor → ε) (item : Scan ε α) (further : Scan ε (List α)) :
    Scan ε (List α) := fun c =>
  match c.skipSpace.eat? close with
  | some later => .ok [] later
  | none => (item c.skipSpace).bind fun a after =>
    match after.skipSpace.eat? Byte.comma with
    | some next => (further next).map (a :: ·)
    | none =>
      match after.skipSpace.eat? close with
      | some later => .ok [a] later
      | none => .fail (missing after.skipSpace) after.skipSpace

/-- A pass of the loop that does not return: an item stands ahead, it is read, and a comma follows it. -/
def Pass (close : UInt8) (item : Scan ε α) (c next : Cursor) : Prop :=
  c.skipSpace.eat? close = none ∧
    ∃ a after, item c.skipSpace = .ok a after ∧ after.skipSpace.eat? Byte.comma = some next

/-- So many passes of the loop, one behind the other, none of which returns. -/
inductive Passes (close : UInt8) (item : Scan ε α) : Nat → Cursor → Cursor → Prop where
  | none (c : Cursor) : Passes close item 0 c c
  | more {n : Nat} {c next later : Cursor} (pass : Pass close item c next) (others : Passes close item n next later) :
      Passes close item (n + 1) c later

/-- The loop over the items of a list ends on every text.  No pass that goes on leaves the cursor where it was, so
    there are no more of them than bytes; and the loop without a counter has one meaning, which is that of the loop. -/
structure LoopEnds (close : UInt8) (missing : Cursor → ε) (item : Scan ε α) : Prop where
  pass : ∀ c next, Pass close item c next → c.Reaches next ∧ c.pos < next.pos
  passes : ∀ n c later, Passes close item n c later → c.Reaches later ∧ c.pos + n ≤ later.pos ∧
    later.pos ≤ c.pos + c.rest.length
  unique : ∀ loop : Scan ε (List α),
    loop = onePass close missing item loop ↔ loop = itemsUpTo close missing item
  count : ∀ c as later, itemsUpTo close missing item c = .ok as later → c.Reaches later ∧
    c.pos + as.length ≤ later.pos ∧ later.pos ≤ c.pos + c.rest.length

variable {close : UInt8} {missing : Cursor → ε} {item : Scan ε α}

theorem items_succ (bound : Nat) :
    items close missing item (bound + 1) = onePass close missing item (items close missing item bound) := rfl

/-- The comma behind the item has been passed. -/
theorem Onward.pass (onward : item.Onward) {c next : Cursor} (pass : Pass close item c next) :
    c.Reaches next ∧ c.pos < next.pos := by
  obtain ⟨_, a, after, read, comma⟩ := pass
  obtain ⟨eaten, one⟩ := eat?_reaches comma
  have moved := ((skipSpace_reaches c).trans (onward.reaches read)).trans (skipSpace_reaches after)
  refine ⟨moved.trans eaten, ?_⟩
  rw [one]
  exact Nat.lt_succ_of_le moved.pos_le

theorem Onward.passes (onward : item.Onward) {n : Nat} {c later : Cursor} (passes : Passes close item n c later) :
    c.Reaches later ∧ c.pos + n ≤ later.pos := by
  induction passes with
  | none c => exact ⟨(Spans.refl c).reaches, Nat.le_refl _⟩
  | more pass _ ih =>
      obtain ⟨reaches, further⟩ := onward.pass pass
      exact ⟨reaches.trans ih.1, by omega⟩

/-- A pass does the same with two scans for the passes behind it, if they do the same wherever less lies ahead. -/
theorem Onward.onePass_congr (onward : item.Onward) {further further' : Scan ε (List α)} {c : Cursor}
    (same : ∀ next : Cursor, next.rest.length < c.rest.length → further next = further' next) :
    onePass close missing item further c = onePass close missing item further' c := by
  cases closed : c.skipSpace.eat? close with
  | some later => simp only [onePass, closed]
  | none =>
      simp only [onePass, closed]
      cases read : item c.skipSpace with
      | fail e stop => rfl
      | ok a after =>
          simp only [Outcome.bind_ok]
          cases comma : after.skipSpace.eat? Byte.comma with
          | none => rfl
          | some next =>
              obtain ⟨reaches, further⟩ := onward.pass ⟨closed, a, after, read, comma⟩
              have ends := reaches.end_eq
              dsimp only
              rw [same next (by omega)]

/-- Whatever solves the equation of the loop does what the loop does with any counter that covers the bytes ahead. -/
theorem Onward.solution_eq (onward : item.Onward) {loop : Scan ε (List α)}
    (solves : loop = onePass close missing item loop) {bound : Nat} {c : Cursor} (enough : c.rest.length < bound) :
    loop c = items close missing item bound c := by
  induction bound generalizing c with
  | zero => exact absurd enough (Nat.not_lt_zero _)
  | succ bound ih =>
      rw [solves, items_succ]
      exact onward.onePass_congr fun next less => ih (by omega)

/-- The counter is no limit if it covers the bytes ahead. -/
theorem Onward.items_eq (onward : item.Onward) {bound : Nat} {c : Cursor} (enough : c.rest.length < bound) :
    items close missing item bound c = itemsUpTo close missing item c := by
  rw [itemsUpTo]
  generalize covers : c.rest.length + 1 = bound'
  replace covers : c.rest.length < bound' := by omega
  induction bound generalizing bound' c with
  | zero => exact absurd enough (Nat.not_lt_zero _)
  | succ bound ih =>
      obtain ⟨bound', rfl⟩ := Nat.exists_eq_succ_of_ne_zero (Nat.ne_zero_of_lt covers)
      rw [items_succ, items_succ]
      exact onward.onePass_congr fun next less => ih (by omega) bound' (by omega)

/-- The loop solves its equation. -/
theorem Onward.itemsUpTo_eq (onward : item.Onward) :
    itemsUpTo close missing item = onePass close missing item (itemsUpTo close missing item) := by
  funext c
  rw [itemsUpTo, items_succ]
  exact onward.onePass_congr fun next less => onward.items_eq less

/-- Behind a list the cursor has passed a byte for each item. -/
theorem Onward.items_count (onward : item.Onward) {as : List α} {c later : Cursor}
    (run : Items close item.Accepts as c later) : c.Reaches later ∧ c.pos + as.length ≤ later.pos := by
  induction run with
  | @done c later closed =>
      obtain ⟨eaten, one⟩ := eat?_reaches closed
      have reaches := (skipSpace_reaches c).trans eaten
      exact ⟨reaches, reaches.pos_le⟩
  | @last a c after later isOpen first noComma closed =>
      obtain ⟨eaten, one⟩ := eat?_reaches closed
      have moved := ((skipSpace_reaches c).trans (onward.reaches first)).trans (skipSpace_reaches after)
      refine ⟨moved.trans eaten, ?_⟩
      rw [one]
      exact Nat.succ_le_succ moved.pos_le
  | @more a rest c after next later isOpen first comma others ih =>
      obtain ⟨reaches, further⟩ := onward.pass ⟨isOpen, a, after, first, comma⟩
      refine ⟨reaches.trans ih.1, ?_⟩
      rw [List.length_cons]
      omega

/-- A loop whose items do not move back ends. -/
theorem Onward.loopEnds (onward : item.Onward) (close : UInt8) (missing : Cursor → ε) :
    LoopEnds close missing item where
  pass _ _ := onward.pass
  passes n c later passes := by
    obtain ⟨reaches, further⟩ := onward.passes passes
    exact ⟨reaches, further, reaches.pos_le_end⟩
  unique loop := by
    constructor
    · intro solves
      funext c
      exact onward.solution_eq solves (Nat.lt_succ_self _)
    · rintro rfl
      exact onward.itemsUpTo_eq
  count c as later read := by
    obtain ⟨reaches, count⟩ := onward.items_count (Items.of_items read)
    exact ⟨reaches, count, reaches.pos_le_end⟩

end Scan

/-! ### The loop over the characters of a string literal -/

/-- At a byte the scan of a string literal either returns, with the cursor in front of the byte or behind it, or goes on
    behind it.  So each pass that goes on has passed one byte, and a whole escape more than one. -/
theorem Quoted.body_pass (state : State) (pos : Nat) (b : UInt8) (rest : Bytes) :
    (body state pos (b :: rest) = ([], .ok () ⟨pos + 1, rest⟩)) ∨
      (∃ error, body state pos (b :: rest) = ([], .fail error ⟨pos, b :: rest⟩)) ∨
      ∃ content next, body state pos (b :: rest)
        = (content ++ (body next (pos + 1) rest).1, (body next (pos + 1) rest).2) := by
  cases taken : step state b with
  | close => exact .inl (by simp only [body, taken])
  | stop error => exact .inr (.inl ⟨error, by simp only [body, taken]⟩)
  | next content next => exact .inr (.inr ⟨content, next, body_cons_next taken pos rest⟩)

/-! ### Containers -/

namespace Scan

theorem Onward.bind {scan : Scan ε α} {next : α → Scan ε β} (onward : scan.Onward)
    (behind : ∀ a, (next a).Onward) : Onward (scan >>= next) := by
  intro c
  rw [bind_apply]
  have first := onward c
  cases scanned : scan c with
  | fail e stop =>
      rw [scanned] at first
      exact first
  | ok a later =>
      rw [scanned] at first
      exact first.trans (behind a later)

end Scan

/-- A member does not move back, if its value does not. -/
theorem Reader.member_onward (expected : String) {value : Bytes → Reader β}
    (onward : ∀ key, Scan.Onward (value key)) : Scan.Onward (member expected value) :=
  (memberKey_precise expected).onward.bind fun key => (onward key).bind fun _ c => (Spans.refl c).reaches

/-! ### How much a text can hold -/

namespace Skeleton

mutual

/-- The number of values at all levels of a value, with itself. -/
def size : Skeleton → Nat
  | .token => 1
  | .array items => sizes items + 1
  | .object members => sizes members + 1

/-- The number of values at all levels of some values, with themselves. -/
def sizes : List Skeleton → Nat
  | [] => 0
  | tree :: rest => tree.size + sizes rest

end

/-- The items of a list hold no more values than their texts have bytes. -/
theorem sizes_lt {close : UInt8} {spelled : Skeleton → Bytes → Prop} {trees : List Skeleton} {w : Bytes}
    (text : ListText close spelled trees w)
    (item : ∀ tree u, u.length < w.length → spelled tree u → tree.size ≤ u.length) : sizes trees < w.length := by
  induction text with
  | done blank => simp [sizes]
  | @last tree before u behind blank spells blank' =>
      have held := item tree u (by simp; omega) spells
      simp only [sizes, List.length_append, List.length_singleton]
      omega
  | @more tree trees before u behind rest blank spells blank' _ ih =>
      have held := item tree u (by simp; omega) spells
      have others := ih fun tree u shorter => item tree u (by simp; omega)
      simp only [sizes, List.length_append, List.length_cons]
      omega

/-- A text has a byte for each value at any level of what it is the text of. -/
theorem Spells.size_le {tree : Skeleton} {w : Bytes} (spells : tree.Spells w) : tree.size ≤ w.length := by
  induction length : w.length using Nat.strongRecOn generalizing tree w with
  | ind n ih =>
      have inner : ∀ tree u, u.length < n → Spells tree u → tree.size ≤ u.length :=
        fun tree u shorter spells => ih u.length shorter spells rfl
      have begins := spells.opens
      cases spells with
      | word | number | string =>
          obtain ⟨b, tail, same, _⟩ := begins
          rw [same] at length
          exact length ▸ Nat.succ_le_succ (Nat.zero_le tail.length)
      | array text =>
          have held := sizes_lt text fun tree u shorter => inner tree u (by simp at length; omega)
          simp only [size, List.length_cons] at length ⊢
          omega
      | object text =>
          have held := sizes_lt text fun tree u shorter spells => by
            cases spells with
            | mk literal blank blank' content =>
                have value := inner tree _ (by simp at length shorter; omega) content
                simp
                omega
          simp only [size, List.length_cons] at length ⊢
          omega

end Skeleton

/-! ### Records inside records -/

section Types

variable (schema : Schema S) (store : Option BlobView)

/-- The reader of records in which so many records may lie inside each other, with another reader for those that lie
    deeper. -/
def readLevels (deeper : S → Reader Val) : Nat → S → Reader Val
  | 0 => deeper
  | levels + 1 => fun s =>
    readFields (schema s).name (schema s).fields fun f => f.type.readWith schema store (readLevels deeper levels)

variable {schema store}

/-- A key with its colon takes bytes. -/
theorem Reader.memberKey_length {expected : String} {c later : Cursor} {key : Bytes}
    (read : memberKey expected c = .ok key later) : later.rest.length < c.rest.length := by
  obtain ⟨_, afterKey, quoted, read⟩ := Outcome.bind_eq_ok.1 read
  obtain ⟨_, _, colon, same⟩ := Outcome.bind_eq_ok.1 read
  cases same
  exact Nat.lt_of_lt_of_le (expect_length colon) ((stringBytes_precise expected).length_le quoted)

/-- With nothing ahead of it no member has a value to be read. -/
theorem Reader.AgreeWithin.member_at_end (expected : String) (value value' : Bytes → Reader β) :
    AgreeWithin 0 (Reader.member expected value) (Reader.member expected value') := by
  intro c short
  rw [Reader.member, Reader.member, Scan.bind_apply, Scan.bind_apply]
  cases read : memberKey expected c with
  | fail e stop => rfl
  | ok key later => exact absurd (memberKey_length read) (by omega)

/-- Records that lie deeper than there are bytes are not read. -/
theorem readLevels_agree (deeper : S → Reader Val) (n : Nat) (s : S) :
    AgreeWithin (n + 1) (readRecord schema store (n + 1) s) (readLevels schema store deeper (n + 1) s) := by
  induction n generalizing s with
  | zero =>
      refine AgreeWithin.map (.enclosed (.member_at_end _ _ _) (.member (fun key => ?_) _)) _
      have alike : ∀ f : Field S, Alike (readRecord schema store 0) (readRecord schema store 0) _ _ :=
        fun f => f.type.readWith_alike store schema
      exact (fieldValue_alike alike key).precise (readRecord_precise schema store 0)
  | succ n ih =>
      have precise := readRecord_precise schema store (n + 1)
      have alike : ∀ f : Field S,
          Alike (readRecord schema store (n + 1)) (readLevels schema store deeper (n + 1)) _ _ :=
        fun f => f.type.readWith_alike store schema
      refine (AgreeWithin.object (fun key => ?_) (fun key => ?_) _).map _
      · exact (fieldValue_alike alike key).agree precise ih
      · exact (fieldValue_alike alike key).precise precise

/-- A type is read alike whatever is done with the records that lie deeper than there are bytes ahead. -/
theorem Ty.read_eq_readLevels (deeper : S → Reader Val) (t : Ty S) (c : Cursor) :
    t.readWith schema store (readLevels schema store deeper (max 1 c.rest.length)) c = t.read schema store c := by
  obtain ⟨n, covers⟩ := Nat.exists_eq_add_one.2 (Nat.lt_of_lt_of_le Nat.zero_lt_one (Nat.le_max_left 1 c.rest.length))
  have inside : c.rest.length ≤ n + 1 := covers ▸ Nat.le_max_right ..
  rw [covers, t.read_eq_readWith schema store inside]
  exact ((t.readWith_alike store schema).agree (readRecord_precise schema store _) (readLevels_agree deeper n) c
    inside).symm

/-- A type is read with the readers of the record types in it. -/
theorem Ty.read_eq_readWith_read (t : Ty S) :
    t.read schema store = t.readWith schema store fun s => (Ty.record s).read schema store := by
  funext c
  exact (t.readWith_alike store schema).agree (readRecord_precise schema store _)
    (fun s c' short => ((Ty.record s).read_eq_readWith schema store short).symm) c (Nat.le_refl _)

/-- The recursion through record types has one solution. -/
theorem readRecords_unique (records : S → Reader Val) :
    (records = fun s => readFields (schema s).name (schema s).fields fun f => f.type.readWith schema store records)
      ↔ records = fun s => (Ty.record s).read schema store := by
  constructor
  · intro solves
    have every (levels : Nat) : readLevels schema store records levels = records := by
      induction levels with
      | zero => rfl
      | succ levels ih => rw [readLevels, ih, ← solves]
    funext s c
    rw [← Ty.read_eq_readLevels records (.record s) c, every]
    rfl
  · rintro rfl
    funext s
    rw [Ty.read_record]
    congr
    funext f
    exact f.type.read_eq_readWith_read

variable (schema store)

theorem Ty.read_progresses (t : Ty S) : Scan.Progresses (t.read schema store) where
  success c v later read := by
    have reaches : c.Reaches later := Scan.Onward.reaches (t.read_precise schema store).onward read
    exact ⟨reaches, (t.read_skippable store schema).pos_lt read, reaches.pos_le_end⟩
  failure c e stop failed := by
    have reaches : c.Reaches stop := by
      have moved := (t.read_precise schema store).onward c
      rw [failed] at moved
      exact moved
    exact ⟨reaches, reaches.pos_le, reaches.pos_le_end⟩

/-- Reading comes to an end.  A value takes a byte at least; the loops over the items of lists, the members of objects,
    the values that are passed over and the bytes of string literals take a byte in every pass that goes on; and with
    them the recursion through record types, however they contain themselves, has one solution, in which no more records
    lie inside each other than there are bytes. -/
structure ReadingEnds : Prop where
  reader : ∀ t : Ty S, Scan.Progresses (t.read schema store)
  part : ∀ {α : Type} {part : Reader α}, Plain part → Scan.Onward part
  list : ∀ {α : Type} {item : Reader α} (missing : Cursor → Failure), Scan.Onward item →
    Scan.LoopEnds Byte.closeBracket missing item
  object : ∀ {β : Type} (expected : String) {value : Bytes → Reader β} (missing : Cursor → Failure),
    (∀ key, Scan.Onward (value key)) → Scan.LoopEnds Byte.closeBrace missing (member expected value)
  passed : ∀ (levels : Nat) (missing : Cursor → LexError),
    Scan.LoopEnds Byte.closeBracket missing (skipNested levels) ∧
      Scan.LoopEnds Byte.closeBrace missing (skipMemberWith (skipNested levels))
  literal : ∀ (state : Quoted.State) (pos : Nat) (b : UInt8) (rest : Bytes),
    Quoted.body state pos (b :: rest) = ([], .ok () ⟨pos + 1, rest⟩) ∨
      (∃ error, Quoted.body state pos (b :: rest) = ([], .fail error ⟨pos, b :: rest⟩)) ∨
      ∃ content next, Quoted.body state pos (b :: rest)
        = (content ++ (Quoted.body next (pos + 1) rest).1, (Quoted.body next (pos + 1) rest).2)
  values : ∀ (t : Ty S) c v later, t.read schema store c = .ok v later →
    ∃ (tree : Skeleton) (w : Bytes), c.skipSpace.Spans w later ∧ tree.Spells w ∧ tree.size ≤ w.length
  records : ∀ records : S → Reader Val,
    (records = fun s => readFields (schema s).name (schema s).fields fun f => f.type.readWith schema store records)
      ↔ records = fun s => (Ty.record s).read schema store
  levels : ∀ (deeper : S → Reader Val) (t : Ty S) (c : Cursor),
    t.readWith schema store (readLevels schema store deeper (max 1 c.rest.length)) c = t.read schema store c

theorem reading_ends : ReadingEnds schema store where
  reader t := t.read_progresses schema store
  part plain := plain.onward
  list missing onward := onward.loopEnds _ missing
  object expected _ missing onward := (member_onward expected onward).loopEnds _ missing
  passed levels missing :=
    ⟨(skipNested_tidy levels).onward.loopEnds _ missing,
      (skipMemberWith_tidy (skipNested_tidy levels)).onward.loopEnds _ missing⟩
  literal := Quoted.body_pass
  values t c v later read := by
    obtain ⟨tree, passes⟩ := t.read_skippable store schema c v later read
    obtain ⟨w, spans, spells⟩ := passes.text
    exact ⟨tree, w, spans, spells, spells.size_le⟩
  records := readRecords_unique
  levels deeper t c := t.read_eq_readLevels deeper c

end Types

end JsonSidecar
