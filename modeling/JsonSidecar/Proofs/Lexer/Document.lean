/-
Module: JsonSidecar.Proofs.Lexer.Document
Purpose: A text without its layout.  A `Document` is the tree of the tokens of a text: which white space stands between
  them is left open, and so is whether a comma follows the last item of a list or the last member of an object.
  The two values of a pair have no comma behind them, and a text that is kept stays as it is.  A text is a layout of at
  most one document of values, lists and objects.
Main exports: Document, Document.Spells, Document.Text, Document.Plain, Document.Plain.unique,
  Skeleton.Spells.exists_document
-/
import JsonSidecar.Proofs.Lexer.Aligned

namespace JsonSidecar

open Skeleton

/-- The tokens of a value: one token, a text that is kept, or a container with what it holds.  The keys of members are
    the literals that they are written as. -/
inductive Document where
  | token (text : Bytes)
  | kept (text : Bytes)
  | array (items : List Document)
  | pair (first second : Document)
  | object (members : List (Bytes × Document))

namespace Document

mutual

/-- The layouts of a document, from its first byte to its last. -/
inductive Spells : Document → Bytes → Prop where
  | token {w : Bytes} : Skeleton.Spells .token w → Spells (.token w) w
  | kept {tree : Skeleton} {w : Bytes} : tree.Spells w → Spells (.kept w) w
  | array {items : List Document} {w : Bytes} : ListText Byte.closeBracket Spells items w →
      Spells (.array items) (Byte.openBracket :: w)
  | pair {first second : Document} {before u behind before' v behind' : Bytes} : Blank before → Spells first u →
      Blank behind → Blank before' → Spells second v → Blank behind' →
      Spells (.pair first second)
        (Byte.openBracket :: (before ++ u ++ behind ++ Byte.comma :: (before' ++ v ++ behind' ++ [Byte.closeBracket])))
  | object {members : List (Bytes × Document)} {w : Bytes} : ListText Byte.closeBrace SpellsMember members w →
      Spells (.object members) (Byte.openBrace :: w)

/-- The layouts of a member of an object. -/
inductive SpellsMember : Bytes × Document → Bytes → Prop where
  | mk {document : Document} {key behind before w : Bytes} : Quoted.IsLiteral key → Blank behind → Blank before →
      Spells document w → SpellsMember (key, document) (key ++ behind ++ Byte.colon :: (before ++ w))

end

/-- The layouts of a document that is a whole text. -/
def Text (d : Document) (w : Bytes) : Prop :=
  ∃ before u behind, w = before ++ u ++ behind ∧ Blank before ∧ d.Spells u ∧ Blank behind

/-- The document holds neither pairs nor kept texts. -/
inductive Plain : Document → Prop where
  | token (w : Bytes) : Plain (.token w)
  | array {items : List Document} : (∀ d ∈ items, Plain d) → Plain (.array items)
  | object {members : List (Bytes × Document)} : (∀ m ∈ members, Plain m.2) → Plain (.object members)

/-! ### Layouts are texts of values -/

/-- A layout of a document is the text of a value.  The induction is on the length of the text. -/
theorem Spells.skeleton {d : Document} {w : Bytes} (spells : d.Spells w) : ∃ tree : Skeleton, tree.Spells w := by
  induction length : w.length using Nat.strongRecOn generalizing d w with
  | ind n ih =>
      cases spells with
      | token token => exact ⟨_, token⟩
      | kept spells => exact ⟨_, spells⟩
      | array text =>
          obtain ⟨trees, text, _⟩ := text.exists_forall₂ (q := Skeleton.Spells) (r := fun _ _ => True)
            fun d _ u shorter spells => by
            obtain ⟨tree, spells⟩ := ih u.length (by simp at length; omega) spells rfl
            exact ⟨tree, spells, trivial⟩
          exact ⟨.array trees, .array text⟩
      | @pair first second before u behind before' v behind' blank spells blank₂ blank' spells' blank₂' =>
          obtain ⟨tree, spells⟩ := ih u.length (by simp at length; omega) spells rfl
          obtain ⟨tree', spells'⟩ := ih v.length (by simp at length; omega) spells' rfl
          exact ⟨.array [tree, tree'], .array (.more blank spells blank₂ (.last blank' spells' blank₂'))⟩
      | object text =>
          obtain ⟨trees, text, _⟩ := text.exists_forall₂ (q := Skeleton.SpellsMember) (r := fun _ _ => True)
            fun m _ u shorter spells => by
            cases spells with
            | mk literal blank blank' spells =>
                obtain ⟨tree, spells⟩ := ih _ (by simp at length shorter ⊢; omega) spells rfl
                exact ⟨tree, .mk literal blank blank' spells, trivial⟩
          exact ⟨.object trees, .object text⟩

theorem Spells.opens {d : Document} {w : Bytes} (spells : d.Spells w) : Opens w := by
  obtain ⟨tree, spells⟩ := spells.skeleton
  exact spells.opens

theorem SpellsMember.skeleton {m : Bytes × Document} {w : Bytes} (spells : SpellsMember m w) :
    ∃ tree : Skeleton, Skeleton.SpellsMember tree w := by
  cases spells with
  | mk literal blank blank' spells =>
      obtain ⟨tree, spells⟩ := spells.skeleton
      exact ⟨tree, .mk literal blank blank' spells⟩

end Document

/-! ### How layouts begin -/

/-- A token does not begin as a container does. -/
theorem Skeleton.Spells.token_head {w : Bytes} (token : Skeleton.Spells .token w) {b : UInt8} {tail : Bytes}
    (head : w = b :: tail) : b ≠ Byte.openBracket ∧ b ≠ Byte.openBrace := by
  cases token with
  | word mem =>
      simp only [List.mem_cons, List.not_mem_nil, or_false] at mem
      rcases mem with rfl | rfl | rfl <;> cases head <;> decide
  | number form =>
      obtain ⟨b', tail', same, begins⟩ := number_begins form
      rw [same] at head
      cases head
      exact ⟨beginsNumber_ne begins rfl, beginsNumber_ne begins rfl⟩
  | string literal =>
      obtain ⟨content, rfl, _⟩ := literal
      cases head
      decide

/-- Different words begin with different bytes. -/
theorem word_heads : ∀ w ∈ [Word.true, Word.false, Word.null], ∀ w' ∈ [Word.true, Word.false, Word.null],
    w ≠ w' → w.head? ≠ w'.head? := by
  decide +kernel

/-- No word begins as a string or as a container does. -/
theorem opening_ne_word {b : UInt8} (opening : b ∈ [Byte.quote, Byte.openBracket, Byte.openBrace]) {tail pattern : Bytes}
    (mem : pattern ∈ [Word.true, Word.false, Word.null]) : (b :: tail).head? ≠ pattern.head? := by
  have differs : ∀ b ∈ [Byte.quote, Byte.openBracket, Byte.openBrace],
      ∀ w ∈ [Word.true, Word.false, Word.null], some b ≠ w.head? := by
    decide +kernel
  exact differs b opening pattern mem

/-- The text of a value that is not a given word does not begin like it. -/
theorem Skeleton.Spells.head_ne_word {tree : Skeleton} {w pattern : Bytes} (spells : tree.Spells w)
    (mem : pattern ∈ [Word.true, Word.false, Word.null]) (other : w ≠ pattern) : w.head? ≠ pattern.head? := by
  cases spells with
  | word mem' => exact word_heads w mem' pattern mem other
  | number form =>
      obtain ⟨b, tail, same, begins⟩ := number_begins form
      have differs : ∀ x, beginsNumber x = false → (b :: tail).head? ≠ some x := fun x none equal =>
        beginsNumber_ne begins none (Option.some.inj equal)
      rw [same]
      simp only [List.mem_cons, List.not_mem_nil, or_false] at mem
      rcases mem with rfl | rfl | rfl <;> exact differs _ rfl
  | string literal =>
      obtain ⟨content, rfl, _⟩ := literal
      exact opening_ne_word (by simp) mem
  | array => exact opening_ne_word (by simp) mem
  | object => exact opening_ne_word (by simp) mem

namespace Document

variable {d d' : Document} {w w' : Bytes}

/-- All layouts of a document begin with the same byte. -/
theorem Spells.head_eq (spells : d.Spells w) (spells' : d.Spells w') : w.head? = w'.head? := by
  cases spells <;> cases spells' <;> rfl

/-- A token has no other layout. -/
theorem Spells.eq_of_token (spells : d.Spells w) (token : Skeleton.Spells .token w) (spells' : d.Spells w') :
    w' = w := by
  cases spells with
  | token => cases spells' with | token => rfl
  | kept => cases spells' with | kept => rfl
  | array => exact absurd rfl (token.token_head rfl).1
  | pair => exact absurd rfl (token.token_head rfl).1
  | object => exact absurd rfl (token.token_head rfl).2

/-! ### One document for each text -/

theorem SpellsMember.aligned {m m' : Bytes × Document} (spells : SpellsMember m w) (spells' : SpellsMember m' w) :
    m.1 = m'.1 ∧ ∃ u, m.2.Spells u ∧ m'.2.Spells u := by
  generalize same : w = w' at spells'
  cases spells with
  | mk literal blank space value =>
      cases spells' with
      | mk literal' blank' space' value' =>
          obtain ⟨keys, rfl⟩ := member_aligned literal literal' blank blank' space space' value.opens value'.opens same
          exact ⟨keys, _, value, value'⟩

/-- The items of two arrays with the same layout are laid out by the same texts. -/
theorem aligned_items {items items' : List Document} {u : Bytes} (text : ListText Byte.closeBracket Spells items u)
    (text' : ListText Byte.closeBracket Spells items' u) :
    List.Forall₂ (fun d d' => ∃ v, d.Spells v ∧ d'.Spells v) items items' :=
  text.aligned closesList_bracket Skeleton.Spells.delimiting (fun _ value => value.choose_spec.opens.beginsItem rfl)
    (fun _ _ spells => spells.skeleton) (fun _ _ spells => spells.skeleton) text'

/-- The members of two objects with the same layout have the same keys, and their values are laid out by the same
    texts. -/
theorem aligned_members {members members' : List (Bytes × Document)} {u : Bytes}
    (text : ListText Byte.closeBrace SpellsMember members u) (text' : ListText Byte.closeBrace SpellsMember members' u) :
    List.Forall₂ (fun m m' => m.1 = m'.1 ∧ ∃ v, m.2.Spells v ∧ m'.2.Spells v) members members' := by
  refine (text.aligned closesList_brace Skeleton.SpellsMember.delimiting (fun _ member => member.choose_spec.begins)
    (fun _ _ spells => spells.skeleton) (fun _ _ spells => spells.skeleton) text').imp ?_
  rintro m m' ⟨v, spells, spells'⟩
  exact spells.aligned spells'

/-- White space around a layout is not part of it. -/
theorem Text.aligned (text : d.Text w) (text' : d'.Text w) : ∃ u, d.Spells u ∧ d'.Spells u := by
  obtain ⟨before, u, behind, rfl, blank, spells, blank₂⟩ := text
  obtain ⟨before', v, behind', same, blank', spells', blank₂'⟩ := text'
  obtain ⟨b, tail, head, opens⟩ := spells.opens
  obtain ⟨b', tail', head', opens'⟩ := spells'.opens
  have fronts : before ++ b :: (tail ++ behind) = before' ++ b' :: (tail' ++ behind') := by
    simpa [head, head'] using same
  obtain ⟨rfl, _, _⟩ := blank.cancel blank' (Byte.opensValue_not_space opens) (Byte.opensValue_not_space opens') fronts
  have values : u ++ behind = v ++ behind' := by simpa using same
  have ends {space : Bytes} (blank : Blank space) : EndsToken space := by
    have ended := blank.endsToken .nil
    rwa [List.append_nil] at ended
  have equal : u = v := Skeleton.Spells.delimiting spells.skeleton spells'.skeleton values (ends blank₂) (ends blank₂')
  exact ⟨u, spells, equal ▸ spells'⟩

/-- The two values of pairs with the same layout are laid out by the same texts. -/
theorem aligned_pair {first second first' second' : Document} (spells : (pair first second).Spells w)
    (spells' : (pair first' second').Spells w) :
    (∃ u, first.Spells u ∧ first'.Spells u) ∧ ∃ v, second.Spells v ∧ second'.Spells v := by
  have begins : ∀ u, (∃ tree : Skeleton, tree.Spells u) → BeginsItem Byte.closeBracket u := fun _ value =>
    value.choose_spec.opens.beginsItem rfl
  generalize same : w = w' at spells'
  cases spells with
  | pair blank value blank₂ blank₃ value₂ blank₄ =>
      cases spells' with
      | pair blank' value' blank₂' blank₃' value₂' blank₄' =>
          obtain ⟨rfl, _, rest⟩ := item_aligned Skeleton.Spells.delimiting begins value.skeleton value'.skeleton
            ⟨blank, blank₂⟩ ⟨blank', blank₂'⟩ ⟨rfl, rfl⟩ ⟨rfl, rfl⟩ (List.cons.inj same).2
          obtain ⟨rfl, _, _⟩ := item_aligned Skeleton.Spells.delimiting begins value₂.skeleton value₂'.skeleton
            ⟨blank₃, blank₄⟩ ⟨blank₃', blank₄'⟩ ⟨rfl, rfl⟩ ⟨rfl, rfl⟩ rest
          exact ⟨⟨_, value, value'⟩, _, value₂, value₂'⟩

/-- A text is a layout of at most one document without pairs and kept texts. -/
theorem Plain.unique (plain : d.Plain) (plain' : d'.Plain) (spells : d.Spells w) (spells' : d'.Spells w) : d = d' := by
  induction plain generalizing d' w with
  | token =>
      cases spells with
      | token token =>
          cases spells' with
          | token => rfl
          | array => exact absurd rfl (token.token_head rfl).1
          | object => exact absurd rfl (token.token_head rfl).2
          | kept | pair => cases plain'
  | array _ ih =>
      generalize same : w = w' at spells'
      cases spells with
      | array text =>
          cases spells' with
          | token token => exact absurd rfl (token.token_head same.symm).1
          | object => cases same
          | kept | pair => cases plain'
          | array text' =>
              cases same
              cases plain' with
              | array plain' =>
                  refine congrArg Document.array (eq_of_forall₂ (aligned_items text text') ?_)
                  rintro d mem d' mem' ⟨v, spells, spells'⟩
                  exact ih d mem (plain' d' mem') spells spells'
  | object _ ih =>
      generalize same : w = w' at spells'
      cases spells with
      | object text =>
          cases spells' with
          | token token => exact absurd rfl (token.token_head same.symm).2
          | array => cases same
          | kept | pair => cases plain'
          | object text' =>
              cases same
              cases plain' with
              | object plain' =>
                  refine congrArg Document.object (eq_of_forall₂ (aligned_members text text') ?_)
                  rintro m mem m' mem' ⟨keys, v, spells, spells'⟩
                  exact Prod.ext keys (ih m mem (plain' m' mem') spells spells')

end Document

/-! ### Every text of a value is a layout -/

/-- The text of a value is a layout of a document, of which all layouts have the nesting of the value. -/
theorem Skeleton.Spells.exists_document {tree : Skeleton} {w : Bytes} (spells : tree.Spells w) :
    ∃ d : Document, d.Spells w ∧ d.Plain ∧ ∀ w', d.Spells w' → tree.Spells w' := by
  induction length : w.length using Nat.strongRecOn generalizing tree w with
  | ind n ih =>
      have token (token : Skeleton.Spells .token w) :
          ∃ d : Document, d.Spells w ∧ d.Plain ∧ ∀ w', d.Spells w' → Skeleton.Spells .token w' := by
        refine ⟨.token w, .token token, .token w, fun w' spells => ?_⟩
        cases spells with
        | token token => exact token
      cases spells with
      | word mem => exact token (.word mem)
      | number form => exact token (.number form)
      | string literal => exact token (.string literal)
      | @array trees u text =>
          obtain ⟨items, text, all⟩ := text.exists_forall₂ (q := Document.Spells)
            (r := fun (tree : Skeleton) (d : Document) => d.Plain ∧ ∀ w', d.Spells w' → tree.Spells w')
            fun tree _ v shorter spells => ih v.length (by simp at length; omega) spells rfl
          refine ⟨.array items, .array text, .array fun d mem => ?_, fun w' spells => ?_⟩
          · obtain ⟨tree, _, plain, _⟩ := exists_of_forall₂ all mem
            exact plain
          · cases spells with
            | array text =>
                exact .array (text.of_forall₂ all.flip fun d tree v _ related spells => related.2 v spells)
      | @object trees u text =>
          obtain ⟨members, text, all⟩ := text.exists_forall₂ (q := Document.SpellsMember)
            (r := fun (tree : Skeleton) (m : Bytes × Document) =>
              m.2.Plain ∧ ∀ w', m.2.Spells w' → tree.Spells w')
            fun tree _ v shorter spells => by
              cases spells with
              | @mk _ key behind before u literal blank blank' spells =>
                  obtain ⟨d, spells, related⟩ := ih u.length (by simp at length shorter ⊢; omega) spells rfl
                  exact ⟨(key, d), .mk literal blank blank' spells, related⟩
          refine ⟨.object members, .object text, .object fun m mem => ?_, fun w' spells => ?_⟩
          · obtain ⟨tree, _, plain, _⟩ := exists_of_forall₂ all mem
            exact plain
          · cases spells with
            | object text =>
                refine .object (text.of_forall₂ all.flip fun m tree v _ related spells => ?_)
                cases spells with
                | mk literal blank blank' spells => exact .mk literal blank blank' (related.2 _ spells)

end JsonSidecar
