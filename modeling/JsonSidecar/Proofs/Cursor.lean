/-
Module: JsonSidecar.Proofs.Cursor
Purpose: What moving a cursor does to the bytes ahead of it.  `Cursor.Spans` relates two places in one text
  through the bytes between them; every scanner that succeeds is described by it, and spans compose, so no
  proof below has to add up positions.
Main exports: Cursor.Spans, Cursor.skipSpace_spans, Outcome.bind_eq_ok, Outcome.map_eq_ok, Byte.continuesNumber,
  EndsToken
-/
import JsonSidecar.Cursor

namespace JsonSidecar

namespace Cursor

/-! ### The bytes between two places -/

/-- The bytes `w` lie between a cursor and a later one in the same text. -/
def Spans (c : Cursor) (w : Bytes) (later : Cursor) : Prop :=
  c.rest = w ++ later.rest ∧ later.pos = c.pos + w.length

namespace Spans

theorem refl (c : Cursor) : c.Spans [] c := by
  simp [Spans]

theorem trans {a b c : Cursor} {u w : Bytes} (first : a.Spans u b) (second : b.Spans w c) :
    a.Spans (u ++ w) c := by
  rcases first with ⟨restA, posB⟩
  rcases second with ⟨restB, posC⟩
  constructor
  · rw [restA, restB, List.append_assoc]
  · rw [posC, posB, List.length_append, Nat.add_assoc]

theorem cons {a b c : Cursor} {x : UInt8} {w : Bytes} (first : a.Spans [x] b) (second : b.Spans w c) :
    a.Spans (x :: w) c :=
  first.trans second

/-- The text that `Cursor.span` cuts out is the one between the two places. -/
theorem span_eq {c later : Cursor} {w : Bytes} (spans : c.Spans w later) : c.span later = w := by
  rcases spans with ⟨rest, pos⟩
  simp [span, rest, pos]

end Spans

/-! ### Runs of bytes -/

theorem skipWhile_spans (p : UInt8 → Bool) (c : Cursor) :
    c.Spans (c.rest.takeWhile p) (c.skipWhile p) := by
  simp [Spans, skipWhile]

theorem skipSpace_spans (c : Cursor) : c.Spans (c.rest.takeWhile Byte.isSpace) c.skipSpace :=
  skipWhile_spans Byte.isSpace c

/-- In front of a byte outside the class, nothing is passed over. -/
theorem skipWhile_cons_of_not {p : UInt8 → Bool} {b : UInt8} (h : p b = false) (pos : Nat)
    (rest : Bytes) : (⟨pos, b :: rest⟩ : Cursor).skipWhile p = ⟨pos, b :: rest⟩ := by
  simp [skipWhile, h]

theorem skipSpace_cons_of_not {b : UInt8} (h : Byte.isSpace b = false) (pos : Nat) (rest : Bytes) :
    (⟨pos, b :: rest⟩ : Cursor).skipSpace = ⟨pos, b :: rest⟩ :=
  skipWhile_cons_of_not h pos rest

/-- Behind white space there is none. -/
theorem skipSpace_rest_head {c : Cursor} {b : UInt8} {rest : Bytes} (h : c.skipSpace.rest = b :: rest) :
    Byte.isSpace b = false := by
  have head := List.head?_dropWhile_not Byte.isSpace c.rest
  have same : List.dropWhile Byte.isSpace c.rest = b :: rest := h
  simpa [same] using head

@[simp] theorem skipSpace_skipSpace (c : Cursor) : c.skipSpace.skipSpace = c.skipSpace := by
  cases h : c.skipSpace with
  | mk pos rest =>
      cases rest with
      | nil => simp [skipSpace, skipWhile]
      | cons b rest =>
          have blank : Byte.isSpace b = false := skipSpace_rest_head (c := c) (by rw [h])
          exact skipSpace_cons_of_not blank pos rest

/-- A run of bytes of a class is passed over as a whole when a byte outside the class follows it. -/
theorem skipWhile_append {p : UInt8 → Bool} {w rest : Bytes} (h : ∀ b ∈ w, p b = true)
    (stop : ∀ b, rest.head? = some b → p b = false) (pos : Nat) :
    (⟨pos, w ++ rest⟩ : Cursor).skipWhile p = ⟨pos + w.length, rest⟩ ∧
      (w ++ rest).takeWhile p = w := by
  induction w generalizing pos with
  | nil =>
      cases rest with
      | nil => simp [skipWhile]
      | cons b rest =>
          have out : p b = false := stop b rfl
          simp [skipWhile, out]
  | cons x w ih =>
      have inside : p x = true := h x (by simp)
      obtain ⟨skipped, taken⟩ := ih (fun b mem => h b (by simp [mem])) (pos + 1)
      simp only [skipWhile, Cursor.mk.injEq] at skipped ⊢
      simp [inside, taken, skipped.2]

/-! ### Single bytes and words -/

@[simp] theorem eat?_cons_self (b : UInt8) (pos : Nat) (rest : Bytes) :
    (⟨pos, b :: rest⟩ : Cursor).eat? b = some ⟨pos + 1, rest⟩ := by
  simp [eat?, passIf?]

theorem eat?_cons_of_ne {b x : UInt8} (h : x ≠ b) (pos : Nat) (rest : Bytes) :
    (⟨pos, x :: rest⟩ : Cursor).eat? b = none := by
  simp [eat?, passIf?, h]

theorem eat?_eq_some {b : UInt8} {c later : Cursor} (h : c.eat? b = some later) :
    ∃ pos rest, c = ⟨pos, b :: rest⟩ ∧ later = ⟨pos + 1, rest⟩ := by
  cases c with
  | mk pos rest =>
      cases rest with
      | nil => simp [eat?, passIf?] at h
      | cons x rest =>
          simp only [eat?, passIf?, beq_iff_eq] at h
          split at h
          · rename_i same
            cases h
            exact ⟨pos, rest, by rw [same], rfl⟩
          · cases h

theorem eat?_spans {b : UInt8} {c later : Cursor} (h : c.eat? b = some later) : c.Spans [b] later := by
  obtain ⟨pos, rest, rfl, rfl⟩ := eat?_eq_some h
  simp [Spans]

theorem eatAll?_append (w : Bytes) (pos : Nat) (rest : Bytes) :
    eatAll? w ⟨pos, w ++ rest⟩ = some ⟨pos + w.length, rest⟩ := by
  induction w generalizing pos with
  | nil => rfl
  | cons b w ih =>
      simp only [List.cons_append, eatAll?, eat?_cons_self, Option.bind_some, ih, List.length_cons]
      congr 2
      omega

theorem eatAll?_spans {w : Bytes} {c later : Cursor} (h : eatAll? w c = some later) :
    c.Spans w later := by
  induction w generalizing c with
  | nil =>
      cases h
      exact Spans.refl _
  | cons b w ih =>
      obtain ⟨next, eaten, rest⟩ := Option.bind_eq_some_iff.1 h
      exact (eat?_spans eaten).cons (ih rest)

/-! ### Going along a text -/

namespace Spans

variable {c mid later : Cursor} {u w : Bytes} {b : UInt8}

/-- The two places of a text in terms of where it begins and what follows it. -/
theorem places (spans : c.Spans w later) :
    c = ⟨c.pos, w ++ later.rest⟩ ∧ later = ⟨c.pos + w.length, later.rest⟩ := by
  rcases spans with ⟨rest, pos⟩
  constructor
  · rw [← rest]
  · rw [← pos]

theorem split (spans : c.Spans (u ++ w) later) : ∃ mid, c.Spans u mid ∧ mid.Spans w later := by
  rcases spans with ⟨rest, pos⟩
  refine ⟨⟨c.pos + u.length, w ++ later.rest⟩, ⟨by rw [rest, List.append_assoc], rfl⟩, rfl, ?_⟩
  rw [pos, List.length_append, Nat.add_assoc]

theorem head? (spans : c.Spans (b :: w) later) : c.rest.head? = some b := by
  rw [spans.1]
  rfl

theorem eat? (spans : c.Spans (b :: w) later) : ∃ mid, c.eat? b = some mid ∧ mid.Spans w later := by
  obtain ⟨mid, first, second⟩ := split (u := [b]) spans
  refine ⟨mid, ?_, second⟩
  obtain ⟨start, stop⟩ := first.places
  rw [start, stop]
  exact eat?_cons_self b c.pos mid.rest

theorem eat?_last (spans : c.Spans [b] later) : c.eat? b = some later := by
  obtain ⟨start, stop⟩ := spans.places
  rw [start, stop]
  exact eat?_cons_self b c.pos later.rest

theorem eat?_of_ne {x : UInt8} (spans : c.Spans (b :: w) later) (other : b ≠ x) : c.eat? x = none := by
  rw [spans.places.1]
  exact eat?_cons_of_ne other c.pos _

/-- White space is passed over up to the first byte that is none. -/
theorem skipSpace_eq (spans : c.Spans w mid) (blank : ∀ b ∈ w, Byte.isSpace b = true)
    (head : ∀ b, mid.rest.head? = some b → Byte.isSpace b = false) : c.skipSpace = mid := by
  obtain ⟨start, stop⟩ := spans.places
  rw [start, stop]
  exact (skipWhile_append blank head c.pos).1

/-- In front of a byte that is no white space, nothing is passed over. -/
theorem skipSpace_self (spans : c.Spans (b :: w) later) (visible : Byte.isSpace b = false) : c.skipSpace = c := by
  refine skipSpace_eq (Spans.refl c) (by simp) fun x head => ?_
  rw [spans.head?] at head
  cases head
  exact visible

end Spans

end Cursor

/-! ### Outcomes -/

namespace Outcome

variable {ε ε' α β : Type}

@[simp] theorem bind_ok (a : α) (c : Cursor) (f : α → Cursor → Outcome ε β) :
    (Outcome.ok a c : Outcome ε α).bind f = f a c := rfl

@[simp] theorem bind_fail (e : ε) (c : Cursor) (f : α → Cursor → Outcome ε β) :
    (Outcome.fail e c : Outcome ε α).bind f = .fail e c := rfl

@[simp] theorem map_ok (f : α → β) (a : α) (c : Cursor) :
    (Outcome.ok a c : Outcome ε α).map f = .ok (f a) c := rfl

@[simp] theorem map_fail (f : α → β) (e : ε) (c : Cursor) :
    (Outcome.fail e c : Outcome ε α).map f = .fail e c := rfl

@[simp] theorem mapError_ok (f : ε → Cursor → ε') (a : α) (c : Cursor) :
    (Outcome.ok a c : Outcome ε α).mapError f = .ok a c := rfl

@[simp] theorem mapError_fail (f : ε → Cursor → ε') (e : ε) (c : Cursor) :
    (Outcome.fail e c : Outcome ε α).mapError f = .fail (f e c) c := rfl

theorem bind_eq_ok {r : Outcome ε α} {f : α → Cursor → Outcome ε β} {b : β} {later : Cursor} :
    r.bind f = .ok b later ↔ ∃ a c, r = .ok a c ∧ f a c = .ok b later := by
  cases r with
  | ok a c =>
      constructor
      · intro h
        exact ⟨a, c, rfl, h⟩
      · rintro ⟨_, _, same, h⟩
        cases same
        exact h
  | fail e c => simp [bind]

theorem map_eq_ok {r : Outcome ε α} {f : α → β} {b : β} {later : Cursor} :
    r.map f = .ok b later ↔ ∃ a, r = .ok a later ∧ f a = b := by
  cases r with
  | ok a c =>
      constructor
      · intro h
        cases h
        exact ⟨a, rfl, rfl⟩
      · rintro ⟨_, same, rfl⟩
        cases same
        rfl
  | fail e c => simp [map]

theorem mapError_eq_ok {r : Outcome ε α} {f : ε → Cursor → ε'} {a : α} {later : Cursor} :
    r.mapError f = .ok a later ↔ r = .ok a later := by
  cases r <;> simp [mapError]

end Outcome

namespace Scan

variable {ε α β : Type}

@[simp] theorem map_apply (f : α → β) (p : Scan ε α) (c : Cursor) : (f <$> p) c = (p c).map f := by
  show (p c).bind (fun a c => .ok (f a) c) = (p c).map f
  cases p c <;> rfl

@[simp] theorem skipSpace_apply (c : Cursor) : (skipSpace : Scan ε Unit) c = .ok () c.skipSpace := rfl

@[simp] theorem here_apply (c : Cursor) : (here : Scan ε Cursor) c = .ok c c := rfl

theorem expect_eq_ok {b : UInt8} {missing : Cursor → ε} {c later : Cursor} :
    expect b missing c = .ok () later ↔ c.skipSpace.eat? b = some later := by
  unfold expect
  split <;> simp_all

end Scan

/-! ### The end of a token -/

/-- A byte that would go on with a number in front of it. -/
def Byte.continuesNumber (b : UInt8) : Bool := isDigit b || b == dot || isExponentMark b

/-- No number goes on into these bytes. -/
def EndsToken (rest : Bytes) : Prop := ∀ b, rest.head? = some b → Byte.continuesNumber b = false

theorem EndsToken.nil : EndsToken [] := by
  simp [EndsToken]

theorem EndsToken.cons {b : UInt8} (h : Byte.continuesNumber b = false) (rest : Bytes) :
    EndsToken (b :: rest) := by
  simpa [EndsToken] using h

end JsonSidecar
