/-
Module: JsonSidecar.Proofs.Lexer.Aligned
Purpose: A text has one division into values.  Where the text of a value ends is told by the text itself, so two
  readings of the same list put its commas at the same places and read their items from the same texts.
Main exports: SelfDelimiting, ListText.exists_forall₂, ListText.of_forall₂, ListText.aligned,
  Skeleton.Spells.delimiting, member_aligned
-/
import JsonSidecar.Proofs.Lexer.Grammar
import JsonSidecar.Proofs.Lexer.Denotes
import Mathlib.Data.List.Forall2

namespace JsonSidecar

variable {α β : Type} {close : UInt8}

/-! ### Items of a list, one by one -/

/-- The text of a list is that of other items, if their texts are. -/
theorem ListText.exists_forall₂ {p : α → Bytes → Prop} {q : β → Bytes → Prop} {r : α → β → Prop} {as : List α}
    {w : Bytes} (text : ListText close p as w)
    (h : ∀ a ∈ as, ∀ u, u.length < w.length → p a u → ∃ b, q b u ∧ r a b) :
    ∃ bs, ListText close q bs w ∧ List.Forall₂ r as bs := by
  induction text with
  | done blank => exact ⟨[], .done blank, .nil⟩
  | @last a before u behind blank spells blank' =>
      obtain ⟨b, spells, related⟩ := h a (by simp) u (by simp; omega) spells
      exact ⟨[b], .last blank spells blank', .cons related .nil⟩
  | @more a as before u behind rest blank spells blank' _ ih =>
      obtain ⟨b, spells, related⟩ := h a (by simp) u (by simp; omega) spells
      obtain ⟨bs, text, all⟩ := ih fun a mem u shorter => h a (List.mem_cons_of_mem _ mem) u (by simp; omega)
      exact ⟨b :: bs, .more blank spells blank' text, .cons related all⟩

/-- The text of a list is that of the related items, if these are spelled alike. -/
theorem ListText.of_forall₂ {p : α → Bytes → Prop} {q : β → Bytes → Prop} {r : α → β → Prop} {as : List α}
    {bs : List β} {w : Bytes} (text : ListText close p as w) (all : List.Forall₂ r as bs)
    (h : ∀ a b u, u.length < w.length → r a b → p a u → q b u) : ListText close q bs w := by
  induction text generalizing bs with
  | done blank =>
      cases all
      exact .done blank
  | @last a before u behind blank spells blank' =>
      cases all with
      | cons related all =>
          cases all
          exact .last blank (h _ _ u (by simp; omega) related spells) blank'
  | @more a as before u behind rest blank spells blank' _ ih =>
      cases all with
      | cons related all =>
          refine .more blank (h _ _ u (by simp; omega) related spells) blank' (ih all fun a b v shorter => ?_)
          exact h a b v (by simp; omega)

/-! ### Where texts end -/

/-- These texts tell themselves where they end: of two that begin at the same place, both complete, none is longer. -/
def SelfDelimiting (spelled : Bytes → Prop) : Prop :=
  ∀ ⦃u v x y : Bytes⦄, spelled u → spelled v → u ++ x = v ++ y → EndsToken x → EndsToken y → u = v

/-- White space ends in front of the first byte that is none. -/
theorem Blank.cancel {a b r s : Bytes} {x y : UInt8} (blank : Blank a) (blank' : Blank b)
    (visible : Byte.isSpace x = false) (visible' : Byte.isSpace y = false) (same : a ++ x :: r = b ++ y :: s) :
    a = b ∧ x = y ∧ r = s := by
  have front {a r : Bytes} {x : UInt8} (blank : Blank a) (visible : Byte.isSpace x = false) :
      (a ++ x :: r).takeWhile Byte.isSpace = a := by
    rw [List.takeWhile_append_of_pos blank, List.takeWhile_cons_of_neg (by simp [visible]), List.append_nil]
  have spaces : a = b := by
    rw [← front (r := r) blank visible, same, front blank' visible']
  subst spaces
  have tails := List.append_cancel_left same
  exact ⟨rfl, List.cons.inj tails⟩

/-- Two first items of the same text are spelled by the same bytes, and the same byte stands behind both. -/
theorem item_aligned {P : Bytes → Prop} (delimiting : SelfDelimiting P) (begins : ∀ u, P u → BeginsItem close u)
    {before u behind rest before' v behind' rest' : Bytes} {x y : UInt8} (first : P u) (first' : P v)
    (blanks : Blank before ∧ Blank behind) (blanks' : Blank before' ∧ Blank behind')
    (visible : Byte.isSpace x = false ∧ Byte.continuesNumber x = false)
    (visible' : Byte.isSpace y = false ∧ Byte.continuesNumber y = false)
    (same : before ++ u ++ behind ++ x :: rest = before' ++ v ++ behind' ++ y :: rest') :
    u = v ∧ x = y ∧ rest = rest' := by
  obtain ⟨b, tail, head, space, _⟩ := begins u first
  obtain ⟨b', tail', head', space', _⟩ := begins v first'
  have fronts : before ++ b :: (tail ++ behind ++ x :: rest) = before' ++ b' :: (tail' ++ behind' ++ y :: rest') := by
    simpa [head, head'] using same
  obtain ⟨rfl, _, _⟩ := blanks.1.cancel blanks'.1 space space' fronts
  have items : u ++ (behind ++ x :: rest) = v ++ (behind' ++ y :: rest') := by simpa using same
  have equal : u = v := delimiting first first' items (blanks.2.endsToken (.cons visible.2 _))
    (blanks'.2.endsToken (.cons visible'.2 _))
  subst equal
  obtain ⟨_, byte, rests⟩ := blanks.2.cancel blanks'.2 visible.1 visible'.1 (List.append_cancel_left items)
  exact ⟨rfl, byte, rests⟩

/-- An empty list is not spelled like one with items. -/
theorem item_ne_done {space before u behind rest : Bytes} {x : UInt8} (closes : ClosesList close)
    (begins : BeginsItem close u) (blank : Blank space) (blank' : Blank before) :
    space ++ [close] ≠ before ++ u ++ behind ++ x :: rest := by
  obtain ⟨b, tail, rfl, visible, other⟩ := begins
  intro same
  have fronts : space ++ close :: [] = before ++ b :: (tail ++ behind ++ x :: rest) := by simpa using same
  exact other (blank.cancel blank' closes.visible visible fronts).2.1.symm

/-- Two readings of the same list read their items from the same texts. -/
theorem ListText.aligned {P : Bytes → Prop} {p : α → Bytes → Prop} {q : β → Bytes → Prop} (closes : ClosesList close)
    (delimiting : SelfDelimiting P) (begins : ∀ u, P u → BeginsItem close u) (left : ∀ a u, p a u → P u)
    (right : ∀ b u, q b u → P u) {as : List α} {bs : List β} {w : Bytes} (text : ListText close p as w)
    (text' : ListText close q bs w) : List.Forall₂ (fun a b => ∃ u, p a u ∧ q b u) as bs := by
  have comma : Byte.isSpace Byte.comma = false ∧ Byte.continuesNumber Byte.comma = false := ⟨rfl, rfl⟩
  have closing : Byte.isSpace close = false ∧ Byte.continuesNumber close = false :=
    ⟨closes.visible, closes.endsNumber⟩
  induction text generalizing bs with
  | @done space blank =>
      generalize same : space ++ [close] = w at text'
      cases text' with
      | done => exact .nil
      | last blank' spells => exact absurd same (item_ne_done closes (begins _ (right _ _ spells)) blank blank')
      | more blank' spells => exact absurd same (item_ne_done closes (begins _ (right _ _ spells)) blank blank')
  | @last a before u behind blank spells blank₂ =>
      generalize same : before ++ u ++ behind ++ [close] = w at text'
      cases text' with
      | done blank' => exact absurd same.symm (item_ne_done closes (begins _ (left _ _ spells)) blank' blank)
      | last blank' spells' blank₂' =>
          obtain ⟨rfl, _, _⟩ := item_aligned delimiting begins (left _ _ spells) (right _ _ spells') ⟨blank, blank₂⟩
            ⟨blank', blank₂'⟩ closing closing same
          exact .cons ⟨u, spells, spells'⟩ .nil
      | more blank' spells' blank₂' =>
          have aligned := item_aligned delimiting begins (left _ _ spells) (right _ _ spells') ⟨blank, blank₂⟩
            ⟨blank', blank₂'⟩ closing comma same
          exact absurd aligned.2.1 closes.notComma
  | @more a as before u behind rest blank spells blank₂ _ ih =>
      generalize same : before ++ u ++ behind ++ Byte.comma :: rest = w at text'
      cases text' with
      | done blank' => exact absurd same.symm (item_ne_done closes (begins _ (left _ _ spells)) blank' blank)
      | last blank' spells' blank₂' =>
          have aligned := item_aligned delimiting begins (left _ _ spells) (right _ _ spells') ⟨blank, blank₂⟩
            ⟨blank', blank₂'⟩ comma closing same
          exact absurd aligned.2.1.symm closes.notComma
      | more blank' spells' blank₂' others =>
          obtain ⟨rfl, _, rfl⟩ := item_aligned delimiting begins (left _ _ spells) (right _ _ spells')
            ⟨blank, blank₂⟩ ⟨blank', blank₂'⟩ comma comma same
          exact .cons ⟨u, spells, spells'⟩ (ih others)

/-! ### Values and members -/

namespace Skeleton

/-- Texts that a scan passes over wherever they stand tell themselves where they end, since the scan ends there. -/
theorem Passes.delimiting {scan : Nat → Scan LexError Unit} {spelled : Skeleton → Bytes → Prop}
    (passes : ∀ tree u, spelled tree u → ∀ c later : Cursor, c.Spans u later → EndsToken later.rest →
      Passes scan spelled tree c later) : SelfDelimiting fun u => ∃ tree, spelled tree u := by
  rintro u v x y ⟨tree, spells⟩ ⟨tree', spells'⟩ same ends ends'
  have first := passes tree u spells (Cursor.start (u ++ x)) ⟨u.length, x⟩ ⟨rfl, (Nat.zero_add _).symm⟩ ends
  have second := passes tree' v spells' (Cursor.start (u ++ x)) ⟨v.length, y⟩ ⟨same, (Nat.zero_add _).symm⟩ ends'
  have places := first.stop_eq (second.within _ (Nat.lt_succ_self _))
  have lengths : v.length = u.length := congrArg Cursor.pos places
  exact (List.append_inj same lengths.symm).1

theorem Spells.passes_anywhere {tree : Skeleton} {u : Bytes} (spells : tree.Spells u) {c later : Cursor}
    (spans : c.Spans u later) (ends : EndsToken later.rest) : Passes skipNested Spells tree c later :=
  spells.passes spans fun l _ _ => .of_endsToken ends l

theorem Spells.delimiting : SelfDelimiting fun u => ∃ tree : Skeleton, tree.Spells u :=
  Passes.delimiting fun _ _ spells _ _ spans ends => spells.passes_anywhere spans ends

theorem SpellsMember.delimiting : SelfDelimiting fun u => ∃ tree, SpellsMember tree u :=
  Passes.delimiting fun _ _ spells _ _ spans ends =>
    spells.passes (fun _ _ spells _ _ spans ends => spells.passes_anywhere spans ends) spans ends

theorem SpellsMember.begins {tree : Skeleton} {w : Bytes} (spells : SpellsMember tree w) :
    BeginsItem Byte.closeBrace w := by
  cases spells with
  | mk literal =>
      obtain ⟨content, rfl, _⟩ := literal
      exact ⟨Byte.quote, _, rfl, rfl, by decide⟩

end Skeleton

/-- Two readings of the same member find the same key and the same text of the value. -/
theorem member_aligned {key behind before u key' behind' before' v : Bytes} (literal : Quoted.IsLiteral key)
    (literal' : Quoted.IsLiteral key') (blank : Blank behind) (blank' : Blank behind') (space : Blank before)
    (space' : Blank before') (opens : Opens u) (opens' : Opens v)
    (same : key ++ behind ++ Byte.colon :: (before ++ u) = key' ++ behind' ++ Byte.colon :: (before' ++ v)) :
    key = key' ∧ u = v := by
  have keys : key ++ (behind ++ Byte.colon :: (before ++ u)) = key' ++ (behind' ++ Byte.colon :: (before' ++ v)) := by
    simpa using same
  have equal : key = key' := Skeleton.Spells.delimiting ⟨_, .string literal⟩ ⟨_, .string literal'⟩ keys
    (blank.endsToken (.cons rfl _)) (blank'.endsToken (.cons rfl _))
  subst equal
  obtain ⟨_, _, values⟩ := blank.cancel blank' rfl rfl (List.append_cancel_left keys)
  obtain ⟨b, tail, rfl, first⟩ := opens
  obtain ⟨b', tail', rfl, first'⟩ := opens'
  obtain ⟨_, rfl, rfl⟩ := space.cancel space' (Byte.opensValue_not_space first) (Byte.opensValue_not_space first') values
  exact ⟨rfl, rfl⟩

namespace Quoted

/-- What denotes bytes is a literal. -/
theorem Denotes.isLiteral {w bytes : Bytes} (denotes : Denotes w bytes) : IsLiteral w := by
  have spans : (Cursor.start w).Spans w ⟨w.length, []⟩ := ⟨(List.append_nil w).symm, (Nat.zero_add _).symm⟩
  obtain ⟨_, scanned, _⟩ := Outcome.map_eq_ok.1 (read_of_denotes denotes spans)
  obtain ⟨v, spans', literal⟩ := scan_sound scanned
  rwa [spans.span_eq.symm.trans spans'.span_eq]

/-- A literal denotes no more than one sequence of bytes. -/
theorem Denotes.unique {w bytes bytes' : Bytes} (denotes : Denotes w bytes) (denotes' : Denotes w bytes') :
    bytes = bytes' := by
  have spans : (Cursor.start w).Spans w ⟨w.length, []⟩ := ⟨(List.append_nil w).symm, (Nat.zero_add _).symm⟩
  have read := read_of_denotes denotes spans
  rw [read_of_denotes denotes' spans] at read
  cases read
  rfl

end Quoted

end JsonSidecar
