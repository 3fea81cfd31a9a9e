/-
Module: JsonSidecar.Proofs.Decode.Relaid
Purpose: Decoding does not see the layout of a text.  `Ty.Shape` says of which documents a text of a type is a layout:
  they have pairs and kept texts where the type has them.  A text that is decoded is a layout of exactly one such
  document, and every other layout of that document is decoded to the same value, whatever the white space between its
  tokens and whether or not a comma follows the last item of a list or the last member of an object.
Main exports: Ty.Shape, Ty.Shape.unique, Ty.read_relayable, decode_relaid
-/
import JsonSidecar.Proofs.Decode.Bound
import JsonSidecar.Proofs.Decode.Deferred
import JsonSidecar.Proofs.Decode.Layout

namespace JsonSidecar

open Reader

variable {S : Type}

/-- The document has pairs and kept texts where the type has them, and nowhere else. -/
inductive Ty.Shape (schema : Schema S) : Ty S → Document → Prop where
  | plain {t : Ty S} {d : Document} : t.IsPlain → d.Plain → Shape schema t d
  | json (w : Bytes) : Shape schema .json (.kept w)
  | list {item : Ty S} {items : List Document} : ¬ (Ty.list item).IsPlain → (∀ d ∈ items, Shape schema item d) →
      Shape schema (.list item) (.array items)
  | null {content : Ty S} : Shape schema (.option content) (.token Word.null)
  | present {content : Ty S} {d : Document} : Shape schema content d → ¬ d.Spells Word.null →
      Shape schema (.option content) d
  | boxed {content : Ty S} {d : Document} : Shape schema content d → Shape schema (.boxed content) d
  | shared {content : Ty S} {d : Document} : Shape schema content d → Shape schema (.shared content) d
  | sortedMap {value : Ty S} {members : List (Bytes × Document)} : (∀ m ∈ members, Shape schema value m.2) →
      Shape schema (.sortedMap value) (.object members)
  | hashMap {value : Ty S} {members : List (Bytes × Document)} : (∀ m ∈ members, Shape schema value m.2) →
      Shape schema (.hashMap value) (.object members)
  | pair {first second : Ty S} {d d' : Document} : Shape schema first d → Shape schema second d' →
      Shape schema (.pair first second) (.pair d d')
  | record {s : S} {members : List (Bytes × Document)}
      (known : ∀ m ∈ members, ∀ key f, Quoted.Denotes m.1 key →
        (schema s).fields.find? (fun f => f.key = key) = some f → Shape schema f.type m.2)
      (unknown : ∀ m ∈ members, ∀ key, Quoted.Denotes m.1 key →
        (schema s).fields.find? (fun f => f.key = key) = none → m.2.Plain) :
      Shape schema (.record s) (.object members)

/-! ### One document for each text -/

namespace Ty.Shape

variable {schema : Schema S} {t : Ty S} {d d' : Document} {w : Bytes}

/-- The members of two objects with the same layout are the same, if the values are that belong to a key. -/
theorem members_unique {members members' : List (Bytes × Document)}
    (spells : (Document.object members).Spells w) (spells' : (Document.object members').Spells w)
    (same : ∀ m ∈ members, ∀ m' ∈ members', m.1 = m'.1 → ∀ u, m.2.Spells u → m'.2.Spells u → m.2 = m'.2) :
    Document.object members = .object members' := by
  cases spells with
  | object text =>
      cases spells' with
      | object text' =>
          refine congrArg _ (eq_of_forall₂ (Document.aligned_members text text') ?_)
          rintro m mem m' mem' ⟨keys, u, spells, spells'⟩
          exact Prod.ext keys (same m mem m' mem' keys u spells spells')

/-- A member that an object has denotes a key. -/
theorem exists_key {members : List (Bytes × Document)} (spells : (Document.object members).Spells w)
    {m : Bytes × Document} (mem : m ∈ members) : ∃ key, Quoted.Denotes m.1 key := by
  cases spells with
  | object text =>
      obtain ⟨u, member⟩ := text.spelled m mem
      cases member with
      | mk literal =>
          obtain ⟨content, same, inside⟩ := literal
          obtain ⟨bytes, means⟩ := inside.means
          exact ⟨bytes, content, same, means⟩

/-- A text is a layout of at most one document that has the shape of a type. -/
theorem unique (shape : t.Shape schema d) (shape' : t.Shape schema d') (spells : d.Spells w) (spells' : d'.Spells w) :
    d = d' := by
  induction shape generalizing d' w with
  | plain isPlain plain =>
      cases shape' with
      | plain _ plain' => exact plain.unique plain' spells spells'
      | list other => exact absurd isPlain other
      | _ => exact isPlain.elim
  | json text =>
      cases shape' with
      | plain isPlain => exact isPlain.elim
      | json =>
          cases spells with
          | kept => cases spells' with | kept => rfl
  | list other _ ih =>
      cases shape' with
      | plain isPlain => exact absurd isPlain other
      | list _ items' =>
          cases spells with
          | array text =>
              cases spells' with
              | array text' =>
                  refine congrArg _ (eq_of_forall₂ (Document.aligned_items text text') ?_)
                  rintro d mem d' mem' ⟨u, spells, spells'⟩
                  exact ih d mem (items' d' mem') spells spells'
  | null =>
      cases shape' with
      | plain isPlain => exact isPlain.elim
      | null => rfl
      | present _ other =>
          cases spells with
          | token => exact absurd spells' other
  | present _ other ih =>
      cases shape' with
      | plain isPlain => exact isPlain.elim
      | null =>
          cases spells' with
          | token => exact absurd spells other
      | present shape' => exact ih shape' spells spells'
  | boxed _ ih =>
      cases shape' with
      | plain isPlain => exact isPlain.elim
      | boxed shape' => exact ih shape' spells spells'
  | shared _ ih =>
      cases shape' with
      | plain isPlain => exact isPlain.elim
      | shared shape' => exact ih shape' spells spells'
  | sortedMap _ ih =>
      cases shape' with
      | plain isPlain => exact isPlain.elim
      | sortedMap values' =>
          exact members_unique spells spells' fun m mem m' mem' _ u s s' => ih m mem (values' m' mem') s s'
  | hashMap _ ih =>
      cases shape' with
      | plain isPlain => exact isPlain.elim
      | hashMap values' =>
          exact members_unique spells spells' fun m mem m' mem' _ u s s' => ih m mem (values' m' mem') s s'
  | pair _ _ ih ih' =>
      cases shape' with
      | plain isPlain => exact isPlain.elim
      | pair first' second' =>
          obtain ⟨⟨u, s₁, s₁'⟩, v, s₂, s₂'⟩ := Document.aligned_pair spells spells'
          rw [ih first' s₁ s₁', ih' second' s₂ s₂']
  | record known unknown ih =>
      cases shape' with
      | plain isPlain => exact isPlain.elim
      | record known' unknown' =>
          refine members_unique spells spells' fun m mem m' mem' keys u s s' => ?_
          obtain ⟨key, denotes⟩ := exists_key spells mem
          have denotes' : Quoted.Denotes m'.1 key := keys ▸ denotes
          cases found : (schema _).fields.find? fun f => f.key = key with
          | some f => exact ih m mem key f denotes found (known' m' mem' key f denotes' found) s s'
          | none =>
              exact (unknown m mem key denotes found).unique (unknown' m' mem' key denotes' found) s s'

end Ty.Shape

/-! ### All types -/

section Types

variable (schema : Schema S) (store : Option BlobView)

theorem readEntries_relayable {value : Reader Val} {shape : Document → Prop} (relayable : value.Relayable shape)
    (expected : String) :
    (readEntries expected value).Relayable fun d => ∃ members, d = .object members ∧ ∀ m ∈ members, shape m.2 := by
  have values (key : Bytes) :
      Relayable shape (if Utf8.isValid key then value else fail expected .invalidKey) := by
    split
    · exact relayable
    · exact fail_relayable _ _
  refine ((Relayable.object values expected).map _).weaken ?_
  rintro _ ⟨members, rfl, all⟩
  refine ⟨members, rfl, fun m mem => ?_⟩
  obtain ⟨_, _, shaped⟩ := all m mem
  exact shaped

/-- No type sees the layout, if the records in it do not. -/
theorem Ty.readWith_relayable {record : S → Reader Val}
    (records : ∀ s, (record s).Relayable (Ty.Shape schema (.record s))) (t : Ty S) :
    (t.readWith schema store record).Relayable (t.Shape schema) := by
  have plainTypes {t : Ty S} (isPlain : t.IsPlain) :
      (t.readWith schema store record).Relayable (t.Shape schema) :=
    (Ty.readWith_plain store schema isPlain).relayable.weaken fun _ plain => .plain isPlain plain
  induction t with
  | scalar | string | bytes | range | descriptor | vector | matrix => exact plainTypes trivial
  | json =>
      refine (captured_relayable Ty.jsonName fun raw => Val.json raw store.isSome).weaken ?_
      rintro _ ⟨w, rfl⟩
      exact .json w
  | list item ih =>
      have items (expected : String) (other : ¬ (Ty.list item).IsPlain) :
          Relayable (Ty.Shape schema (.list item))
            (Val.list <$> inlineList expected (item.readWith schema store record)) := by
        refine ((ih.inlineList expected).map Val.list).weaken ?_
        rintro _ ⟨items, rfl, shaped⟩
        exact .list other shaped
      cases item with
      | scalar | vector => exact plainTypes trivial
      | _ => exact items _ id
  | option content ih =>
      exact (ih.map Val.some).wordOr (by simp) Val.none .null fun d shaped other => .present shaped other
  | boxed content ih => exact (ih.map Val.referred).weaken fun _ => .boxed
  | shared content ih => exact (ih.map Val.referred).weaken fun _ => .shared
  | sortedMap value ih =>
      refine (readEntries_relayable ih _).weaken ?_
      rintro _ ⟨members, rfl, shaped⟩
      exact .sortedMap shaped
  | hashMap value ih =>
      refine (readEntries_relayable ih _).weaken ?_
      rintro _ ⟨members, rfl, shaped⟩
      exact .hashMap shaped
  | pair first second ih ih' =>
      refine (ih.twoOf ih' _ Val.pair).weaken ?_
      rintro _ ⟨d, d', rfl, shaped, shaped'⟩
      exact .pair shaped shaped'
  | record s => exact records s

theorem readRecord_relayable (bound : Nat) (s : S) :
    (readRecord schema store bound s).Relayable (Ty.Shape schema (.record s)) := by
  induction bound generalizing s with
  | zero => exact fun _ _ _ read => absurd read fail_ne_ok
  | succ bound ih =>
      -- A member has the shape that its key demands, or that of a value that is passed over.
      let shape (key : Bytes) (d : Document) : Prop :=
        match (schema s).fields.find? fun f => f.key = key with
        | some f => f.type.Shape schema d
        | none => d.Plain
      have members (key : Bytes) : Relayable (shape key) (orSkip (schema s).name
          (((schema s).fields.find? fun f => f.key = key).map fun f =>
            f.type.readWith schema store (readRecord schema store bound))) := by
        dsimp only [shape]
        cases (schema s).fields.find? fun f => f.key = key with
        | some f => exact (f.type.readWith_relayable schema store ih).map some
        | none => exact (passValue_relayable _).map fun _ => none
      refine ((Relayable.object members (schema s).name).map _).weaken ?_
      rintro _ ⟨members, rfl, all⟩
      refine .record (fun m mem key f denotes found => ?_) fun m mem key denotes found => ?_
      · obtain ⟨key', denotes', shaped⟩ := all m mem
        rw [denotes'.unique denotes] at shaped
        simpa only [shape, found] using shaped
      · obtain ⟨key', denotes', shaped⟩ := all m mem
        rw [denotes'.unique denotes] at shaped
        simpa only [shape, found] using shaped

/-- No type sees the layout. -/
theorem Ty.read_relayable (t : Ty S) : (t.read schema store).Relayable (t.Shape schema) := by
  have bounded (bound : Nat) : (t.readWith schema store (readRecord schema store bound)).Relayable (t.Shape schema) :=
    t.readWith_relayable schema store (readRecord_relayable schema store bound)
  intro c v later read
  obtain ⟨d, w, shaped, spans, spells, _⟩ := bounded _ c v later read
  refine ⟨d, w, shaped, spans, spells, fun w' spells' c' later' spans' ends => ?_⟩
  -- Both texts are read with a bound that covers either; the document found there is the same one.
  have covers := Nat.le_max_left c.rest.length c'.rest.length
  have covers' := Nat.le_max_right c.rest.length c'.rest.length
  rw [t.read_eq_readWith schema store covers] at read
  rw [t.read_eq_readWith schema store covers']
  obtain ⟨d₂, w₂, shaped₂, spans₂, spells₂, finds⟩ := bounded _ c v later read
  have texts : w₂ = w := spans₂.span_eq.symm.trans spans.span_eq
  subst texts
  obtain rfl := shaped.unique shaped₂ spells spells₂
  exact finds w' spells' c' later' spans' ends

variable {schema store}

/-- A text that is decoded is a layout of a document with the shape of the type, and every layout of that document is
    decoded to the same value: with any white space between tokens, in front of the first and behind the last, with a
    comma behind the last item or member of a container or without one.  In pairs no such comma is a layout, and a
    value that is kept as text stays as it is. -/
theorem decode_relaid {t : Ty S} {w : Bytes} {v : Val} (decoded : decode schema store t w = .ok v) :
    (∃ d, t.Shape schema d ∧ d.Text w) ∧
      ∀ d w', t.Shape schema d → d.Text w → d.Text w' → decode schema store t w' = .ok v := by
  obtain ⟨stop, read, ended⟩ := decode_eq_ok_iff.1 decoded
  obtain ⟨d, u, shaped, spans, spells, finds⟩ := t.read_relayable schema store _ v stop read
  have text : d.Text w := by
    have whole := (Cursor.skipSpace_spans (Cursor.start w)).trans spans
    exact ⟨_, u, stop.rest, whole.1, blank_skipped _, spells, ended⟩
  refine ⟨⟨d, shaped, text⟩, fun d' w' shaped' text' layout => ?_⟩
  obtain ⟨_, same, same'⟩ := text.aligned text'
  obtain rfl := shaped.unique shaped' same same'
  obtain ⟨before, u', behind, rfl, blank, spells', blank'⟩ := layout
  have front : (Cursor.start (before ++ u' ++ behind)).Spans before ⟨before.length, u' ++ behind⟩ :=
    ⟨by simp [Cursor.start], (Nat.zero_add _).symm⟩
  have inside : (Cursor.mk before.length (u' ++ behind)).Spans u' ⟨before.length + u'.length, behind⟩ := ⟨rfl, rfl⟩
  have start := front.skipSpace_eq blank fun b head => by
    obtain ⟨x, tail, rfl, opens⟩ := spells'.opens
    rw [inside.head?] at head
    cases head
    exact Byte.opensValue_not_space opens
  refine decode_eq_ok_iff.2 ⟨_, finds u' spells' _ _ (start ▸ inside) ?_, blank'⟩
  have ends := blank'.endsToken .nil
  rwa [List.append_nil] at ends

/-- A map of pairs as it is written by machines and as it is written by people. -/
theorem decode_relaid_map :
    let schema : Schema Empty := nofun
    let byte : Ty Empty := .scalar (.int ⟨false, .w8⟩)
    let t : Ty Empty := .sortedMap (.pair byte (.list byte))
    ∃ v, decode schema none t (ascii "\x7b\"a\":[1,[2]]\x7d") = .ok v ∧
      decode schema none t (ascii " \x7b\"a\" : [1, [2,] ],\n\x7d\n") = .ok v := by
  intro schema byte t
  have accepted : (decode schema none t (ascii "\x7b\"a\":[1,[2]]\x7d")).toOption.isSome = true := by decide +kernel
  obtain ⟨v, decoded⟩ : ∃ v, decode schema none t (ascii "\x7b\"a\":[1,[2]]\x7d") = .ok v := by
    cases outcome : decode schema none t (ascii "\x7b\"a\":[1,[2]]\x7d") with
    | ok v => exact ⟨v, rfl⟩
    | error e =>
        rw [outcome] at accepted
        cases accepted
  have digit (b : UInt8) (inside : Byte.isDigit b = true) : (Document.token [b]).Spells [b] := by
    have form : (⟨none, [b], none, none⟩ : NumberLiteral).WellFormed :=
      ⟨nofun, by simpa using inside, by simp, .inl (by simp), by simp⟩
    exact .token (.number form)
  have key : Quoted.IsLiteral (ascii "\"a\"") := ⟨ascii "a", rfl, .raw (by decide) (by decide) rfl .nil⟩
  have tight : Blank [] := by simp [Blank]
  have space : Blank (ascii " ") := by simp [Blank, ascii, Byte.isSpace]
  have line : Blank (ascii "\n") := by simp [Blank, ascii, Byte.isSpace]
  have one := digit 0x31 rfl
  have two := digit 0x32 rfl
  let d : Document := .object [(ascii "\"a\"", .pair (.token (ascii "1")) (.array [.token (ascii "2")]))]
  have shape : t.Shape schema d := by
    refine .sortedMap fun m mem => ?_
    rw [List.mem_singleton.1 mem]
    refine .pair (.plain trivial (.token _)) (.plain trivial (.array fun item mem => ?_))
    rw [List.mem_singleton.1 mem]
    exact .token _
  have compact : d.Text (ascii "\x7b\"a\":[1,[2]]\x7d") :=
    ⟨[], _, [], rfl, tight, .object (.last tight
      (.mk key tight tight (.pair tight one tight tight (.array (.last tight two tight)) tight)) tight), tight⟩
  have spread : d.Text (ascii " \x7b\"a\" : [1, [2,] ],\n\x7d\n") :=
    ⟨ascii " ", _, ascii "\n", rfl, space, .object (.more tight
      (.mk key space space (.pair tight one tight space (.array (.more tight two tight (.done tight))) space)) tight
        (.done line)), line⟩
  exact ⟨v, decoded, (decode_relaid decoded).2 d _ shape compact spread⟩

end Types

end JsonSidecar
