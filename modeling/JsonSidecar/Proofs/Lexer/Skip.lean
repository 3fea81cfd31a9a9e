/-
Module: JsonSidecar.Proofs.Lexer.Skip
Purpose: What passing over a value passes over.  A `Skeleton` is the nesting of a value without its contents, and
  `Skeleton.Spells` says in which texts it is written.  A value that is passed over at some limit of nesting has a
  skeleton, and the skeleton decides about every other limit: within its depth the scan fails as too deep,
  beyond it the scan ends at the same place.
Main exports: Skeleton, Skeleton.depth, Skeleton.Spells, Skeleton.Passes, skipNested_passes
-/
import JsonSidecar.Lexer.Skip
import JsonSidecar.Proofs.Items
import JsonSidecar.Proofs.Lexer.Number
import JsonSidecar.Proofs.Lexer.Quoted

namespace JsonSidecar

/-! ### The grammar of what is passed over -/

/-- The nesting of a value: a token, or a container with the nesting of what it holds. -/
inductive Skeleton where
  | token
  | array (items : List Skeleton)
  | object (members : List Skeleton)

namespace Skeleton

mutual

/-- In how many containers the innermost part of a value lies. -/
def depth : Skeleton → Nat
  | .token => 0
  | .array items => depthWithin items
  | .object members => depthWithin members

/-- In how many containers the innermost part of some values lies, counting the one around all of them. -/
def depthWithin : List Skeleton → Nat
  | [] => 0
  | tree :: rest => max (tree.depth + 1) (depthWithin rest)

end

theorem lt_depthWithin {trees : List Skeleton} {m : Nat} :
    m < depthWithin trees ↔ ∃ tree ∈ trees, m ≤ tree.depth := by
  induction trees with
  | nil => simp [depthWithin]
  | cons tree trees ih =>
      have split : m < depthWithin (tree :: trees) ↔ m ≤ tree.depth ∨ m < depthWithin trees := by
        rw [depthWithin]
        omega
      simp [split, ih]

theorem depthWithin_le {trees : List Skeleton} {m : Nat} :
    depthWithin trees ≤ m ↔ ∀ tree ∈ trees, tree.depth < m := by
  rw [← Nat.not_lt, lt_depthWithin]
  constructor
  · intro none tree mem
    exact Nat.lt_of_not_le fun le => none ⟨tree, mem, le⟩
  · rintro all ⟨tree, mem, le⟩
    exact Nat.not_le_of_lt (all tree mem) le

mutual

/-- The texts in which a value with this nesting is written, from its first byte to its last. -/
inductive Spells : Skeleton → Bytes → Prop where
  | word {w : Bytes} : w ∈ [Word.true, Word.false, Word.null] → Spells .token w
  | number {l : NumberLiteral} : l.WellFormed → Spells .token l.text
  | string {w : Bytes} : Quoted.IsLiteral w → Spells .token w
  | array {items : List Skeleton} {w : Bytes} : ListText Byte.closeBracket Spells items w →
      Spells (.array items) (Byte.openBracket :: w)
  | object {members : List Skeleton} {w : Bytes} : ListText Byte.closeBrace SpellsMember members w →
      Spells (.object members) (Byte.openBrace :: w)

/-- The texts in which a member with a value of this nesting is written. -/
inductive SpellsMember : Skeleton → Bytes → Prop where
  | mk {tree : Skeleton} {key behind before w : Bytes} : Quoted.IsLiteral key → Blank behind →
      Blank before → Spells tree w → SpellsMember tree (key ++ behind ++ Byte.colon :: (before ++ w))

end

/-! ### How a value begins -/

/-- A number literal begins as the scan of a value expects of numbers. -/
theorem number_begins {l : NumberLiteral} (form : l.WellFormed) :
    ∃ b tail, l.text = b :: tail ∧ beginsNumber b = true := by
  cases sign : l.sign with
  | some b =>
      refine ⟨b, l.whole ++ NumberLiteral.fractionText l.fraction
        ++ NumberLiteral.exponentText l.exponent, by simp [NumberLiteral.text, sign], ?_⟩
      simp [beginsNumber, form.sign b sign]
  | none =>
      cases whole : l.whole with
      | cons d ds =>
          refine ⟨d, ds ++ NumberLiteral.fractionText l.fraction
            ++ NumberLiteral.exponentText l.exponent, by simp [NumberLiteral.text, sign, whole], ?_⟩
          simp [beginsNumber, form.whole d (by simp [whole])]
      | nil =>
          cases fraction : l.fraction with
          | some digits =>
              exact ⟨Byte.dot, digits ++ NumberLiteral.exponentText l.exponent,
                by simp [NumberLiteral.text, sign, whole, fraction, NumberLiteral.fractionText], rfl⟩
          | none =>
              have mantissa := form.mantissa
              simp [whole, fraction] at mantissa

theorem beginsNumber_ne {b x : UInt8} (begins : beginsNumber b = true) (other : beginsNumber x = false) :
    b ≠ x := by
  rintro rfl
  rw [begins] at other
  cases other

end Skeleton

/-- A byte with which a value can begin. -/
def Byte.opensValue (b : UInt8) : Bool :=
  b == quote || b == openBracket || b == openBrace || b == 0x74 || b == 0x66 || b == 0x6e || beginsNumber b

namespace Byte

theorem opensValue_ne {b x : UInt8} (opens : opensValue b = true) (other : opensValue x = false) : b ≠ x := by
  rintro rfl
  rw [opens] at other
  cases other

theorem opensValue_not_space {b : UInt8} (opens : opensValue b = true) : isSpace b = false := by
  have tab : b ≠ 0x09 := opensValue_ne opens rfl
  have feed : b ≠ 0x0a := opensValue_ne opens rfl
  have carriage : b ≠ 0x0d := opensValue_ne opens rfl
  have blank : b ≠ 0x20 := opensValue_ne opens rfl
  simp [isSpace, tab, feed, carriage, blank]

end Byte

/-- The text begins as a value does. -/
def Opens (w : Bytes) : Prop := ∃ b tail, w = b :: tail ∧ Byte.opensValue b = true

namespace Skeleton

theorem Spells.opens {tree : Skeleton} {w : Bytes} (spells : tree.Spells w) : Opens w := by
  cases spells with
  | word mem =>
      simp only [List.mem_cons, List.not_mem_nil, or_false] at mem
      rcases mem with rfl | rfl | rfl
      · exact ⟨0x74, ascii "rue", rfl, rfl⟩
      · exact ⟨0x66, ascii "alse", rfl, rfl⟩
      · exact ⟨0x6e, ascii "ull", rfl, rfl⟩
  | number form =>
      obtain ⟨b, tail, same, begins⟩ := number_begins form
      exact ⟨b, tail, same, by simp [Byte.opensValue, begins]⟩
  | string literal =>
      obtain ⟨content, rfl, _⟩ := literal
      exact ⟨Byte.quote, _, rfl, rfl⟩
  | array text => exact ⟨Byte.openBracket, _, rfl, rfl⟩
  | object text => exact ⟨Byte.openBrace, _, rfl, rfl⟩

/-! ### One skeleton for all limits -/

/-- A scan with a limit of nesting passes over a text with this skeleton: the limit alone decides whether it
    does. -/
structure Passes (scan : Nat → Scan LexError Unit) (spelled : Skeleton → Bytes → Prop) (tree : Skeleton)
    (c later : Cursor) : Prop where
  text : ∃ w, c.skipSpace.Spans w later ∧ spelled tree w
  within : ∀ levels, tree.depth < levels → scan levels c = .ok () later
  beyond : ∀ levels, levels ≤ tree.depth → ∃ stop, scan levels c = .fail .tooDeep stop

end Skeleton

/-! ### Lists -/

namespace Items

/-- If the scanner follows a run but for some items, at the first of which it fails, the loop fails there. -/
theorem items_fail {α ε β : Type} {close : UInt8} {item : α → Cursor → Cursor → Prop} {missing : Cursor → ε}
    {scan : Scan ε β} {error : ε} {bound : Nat} {c later : Cursor} {as : List α} (refused : α → Prop)
    (run : Items close item as c later) (enough : as.length < bound)
    (follows : ∀ a ∈ as, ¬ refused a → ∀ c later, item a c later → ∃ b, scan c = .ok b later)
    (fails : ∀ a ∈ as, refused a → ∀ c later, item a c later → ∃ stop, scan c = .fail error stop)
    (one : ∃ a ∈ as, refused a) :
    ∃ stop, Scan.items close missing scan bound c = .fail error stop := by
  induction run generalizing bound with
  | done closed => simp at one
  | @last a c after later isOpen first noComma closed =>
      cases bound with
      | zero => simp at enough
      | succ bound =>
          obtain ⟨stop, failed⟩ := fails a (by simp) (by simpa using one) _ _ first
          exact ⟨stop, by simp [Scan.items, isOpen, failed]⟩
  | @more a rest c after next later isOpen first comma others ih =>
      cases bound with
      | zero => simp at enough
      | succ bound =>
          by_cases bad : refused a
          · obtain ⟨stop, failed⟩ := fails a (by simp) bad _ _ first
            exact ⟨stop, by simp [Scan.items, isOpen, failed]⟩
          · obtain ⟨b, scanned⟩ := follows a (by simp) bad _ _ first
            have shorter : rest.length < bound := by simpa using enough
            obtain ⟨stop, failed⟩ := ih shorter
              (fun a mem => follows a (List.mem_cons_of_mem _ mem))
              (fun a mem => fails a (List.mem_cons_of_mem _ mem))
              (by
                obtain ⟨x, mem, bad'⟩ := one
                rcases List.mem_cons.1 mem with rfl | mem
                · exact absurd bad' bad
                · exact ⟨x, mem, bad'⟩)
            exact ⟨stop, by simp [Scan.items, isOpen, scanned, comma, failed]⟩

end Items

namespace Skeleton

variable {scan : Nat → Scan LexError Unit} {spelled : Skeleton → Bytes → Prop}

theorem Passes.onward {tree : Skeleton} {c later : Cursor} (passes : Passes scan spelled tree c later) :
    later.rest.length ≤ c.rest.length := by
  obtain ⟨w, spans, _⟩ := passes.text
  have lengths := congrArg List.length spans.1
  have blank := Items.skipSpace_length_le c
  rw [List.length_append] at lengths
  omega

/-- Where passing over a text ends does not depend on the limit. -/
theorem Passes.stop_eq {tree : Skeleton} {c later stop : Cursor} (passes : Passes scan spelled tree c later)
    {levels : Nat} (h : scan levels c = .ok () stop) : stop = later := by
  rcases Nat.lt_or_ge tree.depth levels with deep | shallow
  · rw [passes.within levels deep] at h
    cases h
    rfl
  · obtain ⟨place, failed⟩ := passes.beyond levels shallow
    rw [failed] at h
    cases h

/-- The loop over a list of such texts, at every limit of nesting. -/
theorem items_passes {close : UInt8} (missing : Cursor → LexError) {trees : List Skeleton} {c later : Cursor}
    (run : Items close (Passes scan spelled) trees c later) :
    (∃ w, c.Spans w later ∧ ListText close spelled trees w) ∧
      (∀ levels, depthWithin trees ≤ levels →
        ∃ units, Scan.itemsUpTo close missing (scan levels) c = .ok units later) ∧
      ∀ levels, levels < depthWithin trees →
        ∃ stop, Scan.itemsUpTo close missing (scan levels) c = .fail .tooDeep stop := by
  have length := run.length_le fun _ _ _ passes => passes.onward
  refine ⟨run.listText fun tree _ c later passes => ?_, ?_, ?_⟩
  · obtain ⟨w, spans, spelled⟩ := passes.text
    exact ⟨w, by simpa using spans, spelled⟩
  · intro levels le
    rw [depthWithin_le] at le
    have accepts : ∀ tree ∈ trees, ∀ c later, Passes scan spelled tree c later →
        ∃ u, (scan levels).Accepts u c later :=
      fun tree mem c later passes => ⟨(), passes.within levels (le tree mem)⟩
    obtain ⟨units, count, accepted⟩ := run.imp accepts
    exact ⟨units, accepted.items_eq (by omega)⟩
  · intro levels lt
    rw [lt_depthWithin] at lt
    refine Items.items_fail (fun tree => levels ≤ tree.depth) run (by omega) ?_ ?_ lt
    · intro tree _ within c later passes
      exact ⟨(), passes.within levels (Nat.lt_of_not_le within)⟩
    · intro tree _ beyond c later passes
      exact passes.beyond levels beyond

/-! ### Values -/

/-- Passing over a value looks at its first byte. -/
theorem skipNested_succ {c : Cursor} {pos : Nat} {b : UInt8} {rest : Bytes}
    (h : c.skipSpace = ⟨pos, b :: rest⟩) (levels : Nat) :
    skipNested (levels + 1) c =
      if b = Byte.quote then Quoted.skip ⟨pos, b :: rest⟩
      else if b = Byte.openBracket then
        (Scan.itemsUpTo Byte.closeBracket (fun _ => .expectedCommaOrBracket) (skipNested levels)
          ⟨pos + 1, rest⟩).map fun _ => ()
      else if b = Byte.openBrace then
        (Scan.itemsUpTo Byte.closeBrace (fun _ => .expectedCommaOrBrace)
          (skipMemberWith (skipNested levels)) ⟨pos + 1, rest⟩).map fun _ => ()
      else if b = 0x74 then skipExact Word.true ⟨pos, b :: rest⟩
      else if b = 0x66 then skipExact Word.false ⟨pos, b :: rest⟩
      else if b = 0x6e then skipExact Word.null ⟨pos, b :: rest⟩
      else if beginsNumber b then (NumberLiteral.scan ⟨pos, b :: rest⟩).map fun _ => ()
      else .fail .expectedValue ⟨pos, b :: rest⟩ := by
  rw [skipNested]
  simp only [h]

/-- What is passed over depends on what stands behind white space only. -/
theorem Passes.of_skipSpace_eq {tree : Skeleton} {c c' later : Cursor} (same : c.skipSpace = c'.skipSpace)
    (passes : Passes skipNested Spells tree c later) : Passes skipNested Spells tree c' later := by
  have scanned : ∀ levels, skipNested (levels + 1) c' = skipNested (levels + 1) c := by
    intro levels
    simp only [skipNested, same]
  refine ⟨same ▸ passes.text, ?_, ?_⟩
  · intro levels deep
    cases levels with
    | zero => simp at deep
    | succ levels => rw [scanned, passes.within _ deep]
  · intro levels shallow
    cases levels with
    | zero => exact ⟨c', rfl⟩
    | succ levels =>
        rw [scanned]
        exact passes.beyond _ shallow

/-- White space in front of a value does not matter to what is passed over. -/
theorem passes_skipSpace {tree : Skeleton} {c later : Cursor} :
    Passes skipNested Spells tree c.skipSpace later ↔ Passes skipNested Spells tree c later := by
  have same : c.skipSpace.skipSpace = c.skipSpace := Cursor.skipSpace_skipSpace c
  constructor
  · exact Passes.of_skipSpace_eq same
  · exact Passes.of_skipSpace_eq same.symm

/-- A text whose scan does not depend on the limit has no containers in it. -/
theorem Passes.token {c later : Cursor} {w : Bytes} (spans : c.skipSpace.Spans w later)
    (spells : Spells .token w) (scanned : ∀ levels, skipNested (levels + 1) c = .ok () later) :
    Passes skipNested Spells .token c later where
  text := ⟨w, spans, spells⟩
  within levels positive := by
    cases levels with
    | zero => simp [depth] at positive
    | succ levels => exact scanned levels
  beyond levels none := by
    have zero : levels = 0 := by simpa [depth] using none
    exact ⟨c, by rw [zero]; rfl⟩

/-- A string literal is passed over. -/
theorem Passes.string {c later : Cursor} (h : Quoted.skip c.skipSpace = .ok () later) :
    Passes skipNested Spells .token c later := by
  obtain ⟨w, spans, literal⟩ := Quoted.scan_sound h
  refine .token spans (.string literal) fun levels => ?_
  obtain ⟨content, same, _⟩ := literal
  cases start : c.skipSpace with
  | mk pos rest =>
      have quote : rest = Byte.quote :: (content ++ [Byte.quote] ++ later.rest) := by
        have first := spans.1
        rw [start, same] at first
        exact first
      subst quote
      rw [skipNested_succ start, if_pos rfl, ← start, h]

/-- What begins as a value does not begin as anything else. -/
theorem Passes.eat?_none {tree : Skeleton} {c later : Cursor} (passes : Passes scan Spells tree c later)
    {x : UInt8} (other : Byte.opensValue x = false) : c.skipSpace.eat? x = none := by
  obtain ⟨w, spans, spells⟩ := passes.text
  obtain ⟨b, tail, rfl, opens⟩ := spells.opens
  cases start : c.skipSpace with
  | mk pos rest =>
      have head : rest = b :: (tail ++ later.rest) := by
        have same := spans.1
        rw [start] at same
        exact same
      rw [head, Cursor.eat?_cons_of_ne (Byte.opensValue_ne opens other)]

/-- Where a number begins, passing over a value is scanning the number. -/
theorem skipNested_number {c : Cursor} {pos : Nat} {b : UInt8} {rest : Bytes}
    (start : c.skipSpace = ⟨pos, b :: rest⟩) (begins : beginsNumber b = true) (levels : Nat) :
    skipNested (levels + 1) c = (NumberLiteral.scan c.skipSpace).map fun _ => () := by
  rw [skipNested_succ start, start, if_neg (beginsNumber_ne begins rfl), if_neg (beginsNumber_ne begins rfl),
    if_neg (beginsNumber_ne begins rfl), if_neg (beginsNumber_ne begins rfl),
    if_neg (beginsNumber_ne begins rfl), if_neg (beginsNumber_ne begins rfl), if_pos begins]

/-- Where the text of a number stands, passing over a value is scanning the number. -/
theorem skipNested_numberText {c later : Cursor} {l : NumberLiteral} (form : l.WellFormed)
    (spans : c.skipSpace.Spans l.text later) (levels : Nat) :
    skipNested (levels + 1) c = (NumberLiteral.scan c.skipSpace).map fun _ => () := by
  obtain ⟨b, tail, first, begins⟩ := number_begins form
  rw [first] at spans
  exact skipNested_number spans.places.1 begins levels

/-- A number literal is passed over. -/
theorem Passes.number {c later : Cursor} {l : NumberLiteral} (h : NumberLiteral.scan c.skipSpace = .ok l later) :
    Passes skipNested Spells .token c later := by
  obtain ⟨spans, form⟩ := NumberLiteral.scan_sound h
  refine .token spans (.number form) fun levels => ?_
  rw [skipNested_numberText form spans, h]
  rfl

/-- Where a word begins, passing over a value is passing over the word. -/
theorem skipNested_word {w : Bytes} (mem : w ∈ [Word.true, Word.false, Word.null]) {c : Cursor} {pos : Nat}
    {b : UInt8} {rest : Bytes} (start : c.skipSpace = ⟨pos, b :: rest⟩) (first : w.head? = some b) (levels : Nat) :
    skipNested (levels + 1) c = skipExact w c.skipSpace := by
  rw [skipNested_succ start, start]
  simp only [List.mem_cons, List.not_mem_nil, or_false] at mem
  rcases mem with rfl | rfl | rfl
  · have same : 0x74 = b := Option.some.inj first
    subst same
    rw [if_neg (by decide), if_neg (by decide), if_neg (by decide), if_pos rfl]
  · have same : 0x66 = b := Option.some.inj first
    subst same
    rw [if_neg (by decide), if_neg (by decide), if_neg (by decide), if_neg (by decide), if_pos rfl]
  · have same : 0x6e = b := Option.some.inj first
    subst same
    rw [if_neg (by decide), if_neg (by decide), if_neg (by decide), if_neg (by decide), if_neg (by decide),
      if_pos rfl]

/-- A word is passed over. -/
theorem Passes.word {c later : Cursor} {w : Bytes} (mem : w ∈ [Word.true, Word.false, Word.null])
    (h : Cursor.eatAll? w c.skipSpace = some later) : Passes skipNested Spells .token c later := by
  have spans := Cursor.eatAll?_spans h
  refine .token spans (.word mem) fun levels => ?_
  obtain ⟨b, tail, first, _⟩ := Spells.opens (.word mem)
  have start : c.skipSpace = ⟨c.skipSpace.pos, b :: (tail ++ later.rest)⟩ := by
    rw [first] at spans
    exact spans.places.1
  rw [skipNested_word mem start (by rw [first]; rfl), skipExact, h]

/-- An array is passed over if its items are. -/
theorem Passes.array {c after later : Cursor} {items : List Skeleton}
    (opening : c.skipSpace.eat? Byte.openBracket = some after)
    (run : Items Byte.closeBracket (Passes skipNested Spells) items after later) :
    Passes skipNested Spells (.array items) c later := by
  obtain ⟨pos, rest, start, rfl⟩ := Cursor.eat?_eq_some opening
  obtain ⟨⟨w, spans, text⟩, within, beyond⟩ :=
    items_passes (fun _ => .expectedCommaOrBracket) run
  refine ⟨⟨Byte.openBracket :: w, ?_, .array text⟩, ?_, ?_⟩
  · exact (Cursor.eat?_spans opening).cons spans
  · intro levels deep
    cases levels with
    | zero => simp at deep
    | succ levels =>
        obtain ⟨units, scanned⟩ := within levels (Nat.le_of_lt_succ deep)
        rw [skipNested_succ start, if_neg (by decide), if_pos rfl, scanned]
        rfl
  · intro levels shallow
    cases levels with
    | zero => exact ⟨c, rfl⟩
    | succ levels =>
        obtain ⟨stop, failed⟩ := beyond levels shallow
        exact ⟨stop, by rw [skipNested_succ start, if_neg (by decide), if_pos rfl, failed]; rfl⟩

/-- An object is passed over if its members are. -/
theorem Passes.object {c after later : Cursor} {members : List Skeleton}
    (opening : c.skipSpace.eat? Byte.openBrace = some after)
    (run : Items Byte.closeBrace (Passes (fun levels => skipMemberWith (skipNested levels)) SpellsMember)
      members after later) :
    Passes skipNested Spells (.object members) c later := by
  obtain ⟨pos, rest, start, rfl⟩ := Cursor.eat?_eq_some opening
  obtain ⟨⟨w, spans, text⟩, within, beyond⟩ :=
    items_passes (fun _ => .expectedCommaOrBrace) run
  refine ⟨⟨Byte.openBrace :: w, ?_, .object text⟩, ?_, ?_⟩
  · exact (Cursor.eat?_spans opening).cons spans
  · intro levels deep
    cases levels with
    | zero => simp at deep
    | succ levels =>
        obtain ⟨units, scanned⟩ := within levels (Nat.le_of_lt_succ deep)
        rw [skipNested_succ start, if_neg (by decide), if_neg (by decide), if_pos rfl, scanned]
        rfl
  · intro levels shallow
    cases levels with
    | zero => exact ⟨c, rfl⟩
    | succ levels =>
        obtain ⟨stop, failed⟩ := beyond levels shallow
        exact ⟨stop, by
          rw [skipNested_succ start, if_neg (by decide), if_neg (by decide), if_pos rfl, failed]; rfl⟩

/-- A member is passed over if its value is. -/
theorem Passes.member {tree : Skeleton} {c afterKey afterColon later : Cursor}
    (key : Quoted.skip c.skipSpace = .ok () afterKey)
    (colon : afterKey.skipSpace.eat? Byte.colon = some afterColon)
    (value : Passes skipNested Spells tree afterColon later) :
    Passes (fun levels => skipMemberWith (skipNested levels)) SpellsMember tree c later := by
  have found : Scan.expect Byte.colon (fun _ => LexError.expectedColon) afterKey = .ok () afterColon :=
    Scan.expect_eq_ok.2 colon
  have unfolded : ∀ levels, skipMemberWith (skipNested levels) c = skipNested levels afterColon := by
    intro levels
    simp [skipMemberWith, key, found]
  obtain ⟨literal, keySpans, isLiteral⟩ := Quoted.scan_sound key
  obtain ⟨w, valueSpans, spells⟩ := value.text
  refine ⟨⟨_, ?_, .mk isLiteral (blank_skipped afterKey) (blank_skipped afterColon) spells⟩, ?_, ?_⟩
  · exact (keySpans.trans (Cursor.skipSpace_spans afterKey)).trans
      ((Cursor.eat?_spans colon).cons ((Cursor.skipSpace_spans afterColon).trans valueSpans))
  · intro levels deep
    exact (unfolded levels).trans (value.within levels deep)
  · intro levels shallow
    obtain ⟨stop, failed⟩ := value.beyond levels shallow
    exact ⟨stop, (unfolded levels).trans failed⟩

/-! ### Everything that is passed over -/

theorem skipExact_eq_ok {w : Bytes} {c later : Cursor} (h : skipExact w c = .ok () later) :
    Cursor.eatAll? w c = some later := by
  unfold skipExact at h
  cases eaten : Cursor.eatAll? w c with
  | none => simp [eaten] at h
  | some next =>
      simp only [eaten] at h
      cases h
      rfl

/-- A member that is passed over has a value that is. -/
theorem skipMemberWith_eq_ok {value : Scan LexError Unit} {c later : Cursor}
    (h : skipMemberWith value c = .ok () later) :
    ∃ afterKey afterColon, Quoted.skip c.skipSpace = .ok () afterKey ∧
      afterKey.skipSpace.eat? Byte.colon = some afterColon ∧ value afterColon = .ok () later := by
  obtain ⟨_, afterKey, key, h⟩ := Outcome.bind_eq_ok.1 h
  obtain ⟨_, afterColon, colon, h⟩ := Outcome.bind_eq_ok.1 h
  exact ⟨afterKey, afterColon, key, Scan.expect_eq_ok.1 colon, h⟩

/-- The value of a member lies behind the beginning of the member. -/
theorem afterColon_onward {c afterKey afterColon : Cursor} (quoted : Quoted.skip c.skipSpace = .ok () afterKey)
    (colon : afterKey.skipSpace.eat? Byte.colon = some afterColon) : afterColon.rest.length ≤ c.rest.length := by
  obtain ⟨w, spans, _⟩ := Quoted.scan_sound quoted
  have key := congrArg List.length spans.1
  rw [List.length_append] at key
  have blank := Items.skipSpace_length_le c
  have blank' := Items.skipSpace_length_le afterKey
  have passed := Items.eat?_length colon
  omega

/-- Whatever is passed over at some limit of nesting has a skeleton.  The induction is on the limit, which falls
    by one inside each container. -/
theorem skipNested_passes {levels : Nat} {c later : Cursor} (h : skipNested levels c = .ok () later) :
    ∃ tree, Passes skipNested Spells tree c later := by
  induction levels generalizing c later with
  | zero => cases h
  | succ levels ih =>
      cases start : c.skipSpace with
      | mk pos rest =>
          cases rest with
          | nil =>
              rw [skipNested] at h
              simp only [start] at h
              cases h
          | cons b rest =>
              rw [skipNested_succ start] at h
              split at h
              · exact ⟨.token, .string (by rw [start]; exact h)⟩
              split at h
              · rename_i bracket
                subst bracket
                obtain ⟨units, scanned, _⟩ := Outcome.map_eq_ok.1 h
                obtain ⟨trees, _, run⟩ := (Items.of_items scanned).imp fun _ _ _ _ item => ih item
                exact ⟨.array trees, .array (by rw [start]; exact Cursor.eat?_cons_self _ _ _) run⟩
              split at h
              · rename_i brace
                subst brace
                obtain ⟨units, scanned, _⟩ := Outcome.map_eq_ok.1 h
                obtain ⟨trees, _, run⟩ := (Items.of_items scanned).imp fun _ _ _ _ member => by
                  obtain ⟨afterKey, afterColon, key, colon, value⟩ := skipMemberWith_eq_ok member
                  obtain ⟨tree, passes⟩ := ih value
                  exact ⟨tree, Passes.member key colon passes⟩
                exact ⟨.object trees, .object (by rw [start]; exact Cursor.eat?_cons_self _ _ _) run⟩
              split at h
              · exact ⟨.token, .word (w := Word.true) (by simp) (by rw [start]; exact skipExact_eq_ok h)⟩
              split at h
              · exact ⟨.token, .word (w := Word.false) (by simp) (by rw [start]; exact skipExact_eq_ok h)⟩
              split at h
              · exact ⟨.token, .word (w := Word.null) (by simp) (by rw [start]; exact skipExact_eq_ok h)⟩
              split at h
              · obtain ⟨l, scanned, _⟩ := Outcome.map_eq_ok.1 h
                exact ⟨.token, .number (by rw [start]; exact scanned)⟩
              · cases h

end Skeleton

end JsonSidecar
