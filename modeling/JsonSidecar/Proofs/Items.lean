/-
Module: JsonSidecar.Proofs.Items
Purpose: Lists of items between brackets or braces.  All containers are read by one loop, and `Items` is a run
  of that loop without its counter: which items it met, and where each began and ended.  A run of one scanner
  turns into a run of another item by item, and a run is all it takes to know the text that was passed.
Main exports: Items, Items.of_items, Items.items_eq, Items.length_le, Items.imp, ListText, Items.listText
-/
import JsonSidecar.Proofs.Cursor
import Mathlib.Data.List.Forall2

namespace JsonSidecar

variable {α β ε : Type}

/-- The item scanner accepts the item `a` between two cursors. -/
def Scan.Accepts (item : Scan ε α) (a : α) (c later : Cursor) : Prop := item c = .ok a later

/-- What the loop over the items of a list does behind an item. -/
def Scan.afterItem (close : UInt8) (missing : Cursor → ε) (item : Scan ε α) (bound : Nat) (a : α) (c : Cursor) :
    Outcome ε (List α) :=
  match c.skipSpace.eat? Byte.comma with
  | some next => (Scan.items close missing item bound next).map (a :: ·)
  | none =>
    match c.skipSpace.eat? close with
    | some later => .ok [a] later
    | none => .fail (missing c.skipSpace) c.skipSpace

/-- In front of an item the loop reads it and goes on behind it. -/
theorem Scan.items_open {close : UInt8} {missing : Cursor → ε} {item : Scan ε α} {bound : Nat} {c : Cursor}
    (isOpen : c.skipSpace.eat? close = none) :
    Scan.items close missing item (bound + 1) c
      = (item c.skipSpace).bind (Scan.afterItem close missing item bound) := by
  simp only [Scan.items, isOpen]
  rfl

/-- A run of the loop over the items of a list, from behind the opening byte to behind the closing one. -/
inductive Items (close : UInt8) (item : α → Cursor → Cursor → Prop) : List α → Cursor → Cursor → Prop where
  | done {c later : Cursor} (closed : c.skipSpace.eat? close = some later) : Items close item [] c later
  | last {a : α} {c after later : Cursor} (isOpen : c.skipSpace.eat? close = none)
      (first : item a c.skipSpace after) (noComma : after.skipSpace.eat? Byte.comma = none)
      (closed : after.skipSpace.eat? close = some later) : Items close item [a] c later
  | more {a : α} {rest : List α} {c after next later : Cursor} (isOpen : c.skipSpace.eat? close = none)
      (first : item a c.skipSpace after) (comma : after.skipSpace.eat? Byte.comma = some next)
      (others : Items close item rest next later) : Items close item (a :: rest) c later

namespace Items

variable {close : UInt8} {item : α → Cursor → Cursor → Prop}

/-- A list that was scanned has a run behind it. -/
theorem of_items {missing : Cursor → ε} {scan : Scan ε α} {bound : Nat} {c later : Cursor} {as : List α}
    (h : Scan.items close missing scan bound c = .ok as later) : Items close scan.Accepts as c later := by
  induction bound generalizing c as with
  | zero => cases h
  | succ bound ih =>
      rw [Scan.items] at h
      cases closed : c.skipSpace.eat? close with
      | some next =>
          simp only [closed] at h
          cases h
          exact .done closed
      | none =>
          simp only [closed] at h
          obtain ⟨a, after, first, h⟩ := Outcome.bind_eq_ok.1 h
          cases comma : after.skipSpace.eat? Byte.comma with
          | some next =>
              simp only [comma] at h
              obtain ⟨rest, others, same⟩ := Outcome.map_eq_ok.1 h
              cases same
              exact .more closed first comma (ih others)
          | none =>
              simp only [comma] at h
              cases ended : after.skipSpace.eat? close with
              | some next =>
                  simp only [ended] at h
                  cases h
                  exact .last closed first comma ended
              | none =>
                  simp only [ended] at h
                  cases h

/-- The loop follows a run whose items it accepts, if its counter covers the items. -/
theorem items_eq {missing : Cursor → ε} {scan : Scan ε α} {bound : Nat} {c later : Cursor} {as : List α}
    (run : Items close scan.Accepts as c later) (enough : as.length < bound) :
    Scan.items close missing scan bound c = .ok as later := by
  induction run generalizing bound with
  | done closed =>
      cases bound with
      | zero => simp at enough
      | succ bound => simp [Scan.items, closed]
  | last isOpen first noComma closed =>
      cases bound with
      | zero => simp at enough
      | succ bound =>
          rw [Scan.Accepts] at first
          simp [Scan.items, isOpen, first, noComma, closed]
  | more isOpen first comma others ih =>
      cases bound with
      | zero => simp at enough
      | succ bound =>
          rw [Scan.Accepts] at first
          have tail : Scan.items close missing scan bound _ = _ := ih (by simpa using enough)
          simp [Scan.items, isOpen, first, comma, tail]

theorem skipSpace_length_le (c : Cursor) : c.skipSpace.rest.length ≤ c.rest.length := by
  have spans := congrArg List.length (Cursor.skipSpace_spans c).1
  rw [List.length_append] at spans
  omega

theorem eat?_length {b : UInt8} {c later : Cursor} (h : c.eat? b = some later) :
    later.rest.length + 1 = c.rest.length := by
  have spans := congrArg List.length (Cursor.eat?_spans h).1
  rw [List.length_append] at spans
  simp at spans
  omega

/-- In front of a byte behind white space there is something. -/
theorem rest_ne_nil_of_eat? {b : UInt8} {c later : Cursor} (h : c.skipSpace.eat? b = some later) : c.rest ≠ [] := by
  have blank := skipSpace_length_le c
  have passed := eat?_length h
  intro none
  rw [none, List.length_nil] at blank
  omega

/-- Every item takes a byte: that of the comma or of the closing byte behind it. -/
theorem length_le {as : List α} {c later : Cursor} (run : Items close item as c later)
    (onward : ∀ a c later, item a c later → later.rest.length ≤ c.rest.length) :
    as.length + later.rest.length ≤ c.rest.length := by
  induction run with
  | @done c later closed =>
      have closing := eat?_length closed
      have blank := skipSpace_length_le c
      simp
      omega
  | @last a c after later isOpen first noComma closed =>
      have passed := onward _ _ _ first
      have closing := eat?_length closed
      have blank := skipSpace_length_le c
      have blank' := skipSpace_length_le after
      simp
      omega
  | @more a rest c after next later isOpen first comma others ih =>
      have passed := onward _ _ _ first
      have separator := eat?_length comma
      have blank := skipSpace_length_le c
      have blank' := skipSpace_length_le after
      simp
      omega

/-- A run over some items is a run over as many others that stand between the same cursors. -/
theorem imp {other : β → Cursor → Cursor → Prop} {as : List α} {c later : Cursor}
    (run : Items close item as c later)
    (h : ∀ a ∈ as, ∀ c later, item a c later → ∃ b, other b c later) :
    ∃ bs, bs.length = as.length ∧ Items close other bs c later := by
  induction run with
  | done closed => exact ⟨[], rfl, .done closed⟩
  | last isOpen first noComma closed =>
      obtain ⟨b, first⟩ := h _ (by simp) _ _ first
      exact ⟨[b], rfl, .last isOpen first noComma closed⟩
  | more isOpen first comma others ih =>
      obtain ⟨b, first⟩ := h _ (by simp) _ _ first
      obtain ⟨bs, length, others⟩ := ih fun a mem => h a (List.mem_cons_of_mem _ mem)
      exact ⟨b :: bs, by simp [length], .more isOpen first comma others⟩

end Items

/-! ### Related lists -/

/-- Related lists are related item by item, and the items are theirs. -/
theorem forall₂_mem {α β : Type} {R : α → β → Prop} {as : List α} {bs : List β} (all : List.Forall₂ R as bs) :
    List.Forall₂ (fun a b => a ∈ as ∧ b ∈ bs ∧ R a b) as bs := by
  induction all with
  | nil => exact .nil
  | cons first _ ih =>
      refine .cons ⟨List.mem_cons_self, List.mem_cons_self, first⟩ (ih.imp ?_)
      rintro a b ⟨left, right, related⟩
      exact ⟨List.mem_cons_of_mem _ left, List.mem_cons_of_mem _ right, related⟩

/-- What is listed on the right is related to something on the left. -/
theorem exists_of_forall₂ {α β : Type} {R : α → β → Prop} {as : List α} {bs : List β} (all : List.Forall₂ R as bs)
    {b : β} (mem : b ∈ bs) : ∃ a ∈ as, R a b := by
  induction all with
  | nil => cases mem
  | @cons a b' as bs first _ ih =>
      rcases List.mem_cons.1 mem with rfl | mem
      · exact ⟨a, List.mem_cons_self, first⟩
      · obtain ⟨a', listed, related⟩ := ih mem
        exact ⟨a', List.mem_cons_of_mem a listed, related⟩

/-- Lists are the same if each element of the one is the related element of the other. -/
theorem eq_of_forall₂ {R : α → α → Prop} {as bs : List α} (all : List.Forall₂ R as bs)
    (same : ∀ a ∈ as, ∀ b ∈ bs, R a b → a = b) : as = bs := by
  induction all with
  | nil => rfl
  | cons related _ ih =>
      rw [same _ List.mem_cons_self _ List.mem_cons_self related,
        ih fun a left b right => same a (List.mem_cons_of_mem _ left) b (List.mem_cons_of_mem _ right)]

/-! ### The text of a list -/

/-- White space between tokens. -/
def Blank (w : Bytes) : Prop := ∀ b ∈ w, Byte.isSpace b = true

theorem blank_skipped (c : Cursor) : Blank (c.rest.takeWhile Byte.isSpace) :=
  List.all_eq_true.1 List.all_takeWhile

/-- The text of a list behind its opening byte: items with commas between them and white space around each,
    perhaps a comma behind the last, and the closing byte. -/
inductive ListText (close : UInt8) (item : α → Bytes → Prop) : List α → Bytes → Prop where
  | done {space : Bytes} : Blank space → ListText close item [] (space ++ [close])
  | last {a : α} {before w behind : Bytes} : Blank before → item a w → Blank behind →
      ListText close item [a] (before ++ w ++ behind ++ [close])
  | more {a : α} {as : List α} {before w behind rest : Bytes} : Blank before → item a w → Blank behind →
      ListText close item as rest → ListText close item (a :: as) (before ++ w ++ behind ++ Byte.comma :: rest)

/-- What holds of every item of a list. -/
theorem ListText.spelled {close : UInt8} {spelled : α → Bytes → Prop} {as : List α} {w : Bytes}
    (text : ListText close spelled as w) : ∀ a ∈ as, ∃ u, spelled a u := by
  induction text with
  | done => simp
  | last _ spells _ => simpa using ⟨_, spells⟩
  | more _ spells _ _ ih =>
      intro a mem
      rcases List.mem_cons.1 mem with rfl | mem
      · exact ⟨_, spells⟩
      · exact ih a mem

/-- A run over a list passes the text of the list. -/
theorem Items.listText {close : UInt8} {item : α → Cursor → Cursor → Prop} {spelled : α → Bytes → Prop}
    {as : List α} {c later : Cursor} (run : Items close item as c later)
    (h : ∀ a ∈ as, ∀ c later : Cursor, item a c.skipSpace later →
      ∃ w, c.skipSpace.Spans w later ∧ spelled a w) :
    ∃ w, c.Spans w later ∧ ListText close spelled as w := by
  induction run with
  | @done c later closed =>
      exact ⟨_, (Cursor.skipSpace_spans c).trans (Cursor.eat?_spans closed), .done (blank_skipped c)⟩
  | @last a c after later isOpen first noComma closed =>
      obtain ⟨w, spans, spelled⟩ := h a (by simp) c after first
      refine ⟨_, ?_, .last (blank_skipped c) spelled (blank_skipped after)⟩
      exact (((Cursor.skipSpace_spans c).trans spans).trans (Cursor.skipSpace_spans after)).trans
        (Cursor.eat?_spans closed)
  | @more a rest c after next later isOpen first comma others ih =>
      obtain ⟨w, spans, spelled⟩ := h a (by simp) c after first
      obtain ⟨tail, tailSpans, tailText⟩ := ih fun a mem => h a (List.mem_cons_of_mem _ mem)
      refine ⟨_, ?_, .more (blank_skipped c) spelled (blank_skipped after) tailText⟩
      exact (((Cursor.skipSpace_spans c).trans spans).trans (Cursor.skipSpace_spans after)).trans
        ((Cursor.eat?_spans comma).cons tailSpans)

/-- White space ends a number. -/
theorem Blank.endsToken {w rest : Bytes} (blank : Blank w) (ends : EndsToken rest) : EndsToken (w ++ rest) := by
  cases w with
  | nil => exact ends
  | cons b w =>
      refine EndsToken.cons ?_ _
      have space := blank b List.mem_cons_self
      simp only [Byte.isSpace, Bool.or_eq_true, beq_iff_eq] at space
      rcases space with ((rfl | rfl) | rfl) | rfl <;> decide

/-- A byte with which lists end: it is neither white space nor a comma, and no number goes on with it. -/
structure ClosesList (close : UInt8) : Prop where
  visible : Byte.isSpace close = false
  notComma : close ≠ Byte.comma
  endsNumber : Byte.continuesNumber close = false

/-- The text does not begin with white space or with `close`. -/
def BeginsItem (close : UInt8) (w : Bytes) : Prop :=
  ∃ b tail, w = b :: tail ∧ Byte.isSpace b = false ∧ b ≠ close

/-- An item with white space around it is reached and passed, up to the byte behind the white space. -/
theorem BeginsItem.between {close x : UInt8} {item : Cursor → Cursor → Prop} {before w behind rest : Bytes}
    (begins : BeginsItem close w) (blank : Blank before) (blank' : Blank behind) (visible : Byte.isSpace x = false)
    (endsNumber : Byte.continuesNumber x = false)
    (passed : ∀ c later : Cursor, c.Spans w later → EndsToken later.rest → item c later) {c later : Cursor}
    (spans : c.Spans (before ++ w ++ behind ++ x :: rest) later) :
    c.skipSpace.eat? close = none ∧ ∃ after, item c.skipSpace after ∧ after.skipSpace.Spans (x :: rest) later := by
  obtain ⟨b, tail, rfl, visible', other⟩ := begins
  obtain ⟨afterSpace, front, last⟩ := spans.split
  obtain ⟨afterItem, front, space'⟩ := front.split
  obtain ⟨beforeItem, space, content⟩ := front.split
  have start : c.skipSpace = beforeItem := space.skipSpace_eq blank fun y head => by
    rw [content.head?] at head
    cases head
    exact visible'
  have stop : afterItem.skipSpace = afterSpace := space'.skipSpace_eq blank' fun y head => by
    rw [last.head?] at head
    cases head
    exact visible
  have ends : EndsToken afterItem.rest := by
    rw [(space'.trans last).1, List.append_assoc]
    exact blank'.endsToken (.cons endsNumber _)
  rw [start]
  exact ⟨content.eat?_of_ne other, afterItem, passed beforeItem afterItem content ends, stop ▸ last⟩

/-- The text of a list is passed in a run, if the texts of its items are. -/
theorem ListText.items {close : UInt8} {spelled : α → Bytes → Prop} {item : α → Cursor → Cursor → Prop}
    {as : List α} {w : Bytes} (text : ListText close spelled as w) (closes : ClosesList close)
    (h : ∀ a ∈ as, ∀ u, u.length < w.length → spelled a u → BeginsItem close u ∧
      ∀ c later : Cursor, c.Spans u later → EndsToken later.rest → item a c later)
    {c later : Cursor} (spans : c.Spans w later) : Items close item as c later := by
  induction text generalizing c with
  | done blank =>
      obtain ⟨mid, space, last⟩ := spans.split
      have start := space.skipSpace_eq blank fun b head => by
        rw [last.head?] at head
        cases head
        exact closes.visible
      exact .done (by rw [start]; exact last.eat?_last)
  | @last a before u behind blank spelled blank' =>
      obtain ⟨begins, passed⟩ := h a (by simp) u (by simp; omega) spelled
      obtain ⟨isOpen, after, first, last⟩ :=
        begins.between blank blank' closes.visible closes.endsNumber passed spans
      exact .last isOpen first (last.eat?_of_ne closes.notComma) last.eat?_last
  | @more a as before u behind rest blank spelled blank' _ ih =>
      obtain ⟨begins, passed⟩ := h a (by simp) u (by simp; omega) spelled
      obtain ⟨isOpen, after, first, last⟩ := begins.between blank blank' rfl rfl passed spans
      obtain ⟨next, comma, others⟩ := last.eat?
      refine .more isOpen first comma (ih ?_ others)
      intro a mem u shorter
      exact h a (List.mem_cons_of_mem _ mem) u (by simp at shorter ⊢; omega)

end JsonSidecar
