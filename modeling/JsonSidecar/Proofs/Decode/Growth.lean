/-
Module: JsonSidecar.Proofs.Decode.Growth
Purpose: A decode that succeeded succeeds with more.  A reader depends on its store only through the bytes that it was
  given; so what it read, it reads again when the store has grown, and what it read without a store it reads with
  any.  Values kept as text show whether there was a store, hence values are compared up to that mark.
Main exports: Val.mark, StoreGrown, Reader.Follows, Ty.read_follows, decode_grown
-/
import JsonSidecar.Proofs.Blob.AppendOnly
import JsonSidecar.Proofs.Decode.Alike
import JsonSidecar.Proofs.Entries
import JsonSidecar.Proofs.Items

namespace JsonSidecar

open Reader

variable {S α β γ δ : Type}

/-! ### Values up to their marks -/

namespace Val

variable (f : Bool → Bool)

mutual

/-- A value with the marks of its kept texts changed, which tell whether a store came with them. -/
def mark : Val → Val
  | .json raw attached => .json raw (f attached)
  | .list items => .list (markItems items)
  | .some content => .some (mark content)
  | .referred content => .referred (mark content)
  | .map entries => .map (markEntries entries)
  | .pair first second => .pair (mark first) (mark second)
  | .record fields => .record (markItems fields)
  | v => v

/-- Values in a row with their marks changed. -/
def markItems : List Val → List Val
  | [] => []
  | v :: rest => mark v :: markItems rest

/-- Entries of a map with their marks changed. -/
def markEntries : List (Bytes × Val) → List (Bytes × Val)
  | [] => []
  | (key, v) :: rest => (key, mark v) :: markEntries rest

end

/-- A value as its texts tell it, without the marks. -/
def unmarked (v : Val) : Val := v.mark fun _ => false

variable {f}

theorem markItems_eq_map (items : List Val) : markItems f items = items.map (mark f) := by
  induction items with
  | nil => simp [markItems]
  | cons v items ih => simp [markItems, ih]

theorem markEntries_eq_map (entries : List (Bytes × Val)) :
    markEntries f entries = entries.map (Prod.map id (mark f)) := by
  induction entries with
  | nil => simp [markEntries]
  | cons entry entries ih => simp [markEntries, ih, Prod.map]

mutual

/-- A value keeps its marks if none is changed. -/
theorem mark_id : ∀ v : Val, mark id v = v
  | .scalar _ | .text _ | .range _ | .descriptor _ | .array _ | .matrix .. | .none => by rw [mark]; all_goals nofun
  | .json _ _ => by rw [mark, id]
  | .list items => by rw [mark, markItems_id items]
  | .some content => by rw [mark, mark_id content]
  | .referred content => by rw [mark, mark_id content]
  | .map entries => by rw [mark, markEntries_id entries]
  | .pair first second => by rw [mark, mark_id first, mark_id second]
  | .record fields => by rw [mark, markItems_id fields]

theorem markItems_id : ∀ items : List Val, markItems id items = items
  | [] => by rw [markItems]
  | v :: rest => by rw [markItems, mark_id v, markItems_id rest]

theorem markEntries_id : ∀ entries : List (Bytes × Val), markEntries id entries = entries
  | [] => by rw [markEntries]
  | (_, v) :: rest => by rw [markEntries, mark_id v, markEntries_id rest]

end

end Val

/-! ### Entries and members -/

theorem Reader.lastOf_map (g : α → β) (key : Bytes) (members : List (Bytes × Option α)) :
    lastOf key (members.map (Prod.map id (Option.map g))) = (lastOf key members).map g := by
  have held : (members.map (Prod.map id (Option.map g))).filterMap (fun m => if m.1 = key then m.2 else none)
      = (members.filterMap fun m => if m.1 = key then m.2 else none).map g := by
    rw [List.filterMap_map, List.map_filterMap]
    congr 1
    funext m
    simp only [Function.comp_apply, Prod.map_fst, Prod.map_snd, id]
    split
    · rfl
    · rfl
  rw [lastOf, held, List.getLast?_map]
  rfl

/-! ### Readers that follow others -/

/-- What the first reader reads, the second reads too, with values that a function does not tell apart. -/
def Reader.Follows (g : α → γ) (reader reader' : Reader α) : Prop :=
  ∀ c a later, reader c = .ok a later → ∃ a', reader' c = .ok a' later ∧ g a' = g a

namespace Reader.Follows

variable {g : α → γ} {h : β → δ} {reader reader' : Reader α}

theorem refl (g : α → γ) (reader : Reader α) : Follows g reader reader :=
  fun _ a _ read => ⟨a, read, rfl⟩

/-- Anything follows a reader that reads nothing. -/
theorem of_fails (fails : ∀ c a later, reader c ≠ .ok a later) : Follows g reader reader' :=
  fun c a later read => absurd read (fails c a later)

theorem pure {a a' : α} (same : g a' = g a) : Follows g (pure a) (pure a') := by
  rintro c _ _ ⟨⟩
  exact ⟨a', rfl, same⟩

theorem bind (follows : Follows g reader reader') {next next' : α → Reader β}
    (onward : ∀ a a', g a' = g a → Follows h (next a) (next' a')) :
    Follows h (reader >>= next) (reader' >>= next') := by
  intro c b later read
  obtain ⟨a, mid, first, second⟩ := Outcome.bind_eq_ok.1 read
  obtain ⟨a', first', same⟩ := follows c a mid first
  obtain ⟨b', second', same'⟩ := onward a a' same mid b later second
  refine ⟨b', ?_, same'⟩
  rw [Scan.bind_apply, first']
  exact second'

/-- Readers that go on after the same reader. -/
theorem after (first : Reader α) {next next' : α → Reader β} (onward : ∀ a, Follows h (next a) (next' a)) :
    Follows h (first >>= next) (first >>= next') := by
  refine (refl id first).bind fun a a' same => ?_
  rw [show a' = a from same]
  exact onward a

theorem map (follows : Follows g reader reader') {k : α → β} (respects : ∀ a a', g a' = g a → h (k a') = h (k a)) :
    Follows h (k <$> reader) (k <$> reader') :=
  follows.bind fun a a' same => pure (respects a a' same)

/-- Readers with the same check, or one that accepts more. -/
theorem checked (follows : Follows g reader reader') {expected : String} {verdict verdict' : α → Except Reason β}
    (accepts : ∀ a a' b, g a' = g a → verdict a = .ok b → ∃ b', verdict' a' = .ok b' ∧ h b' = h b) :
    Follows h (checked expected reader verdict) (checked expected reader' verdict') := by
  refine .after _ fun _ => .after _ fun start => follows.bind fun a a' same => ?_
  cases judged : verdict a with
  | ok b =>
      obtain ⟨b', judged', same'⟩ := accepts a a' b same judged
      rw [judged']
      exact pure same'
  | error reason => exact of_fails nofun

/-- Readers with the same check of the same values. -/
theorem checked_same (follows : Follows id reader reader') {expected : String} {verdict : α → Except Reason β} :
    Follows id (Reader.checked expected reader verdict) (Reader.checked expected reader' verdict) := by
  refine follows.checked fun a a' b same judged => ⟨b, ?_, rfl⟩
  rw [show a' = a from same]
  exact judged

/-- The items of a list follow if each item does. -/
theorem items (follows : Follows g reader reader') (close : UInt8) (missing : Cursor → Failure) (bound : Nat) :
    Follows (List.map g) (Scan.items close missing reader bound) (Scan.items close missing reader' bound) := by
  induction bound with
  | zero => exact of_fails nofun
  | succ bound ih =>
      intro c as later read
      cases closed : c.skipSpace.eat? close with
      | some next =>
          simp only [Scan.items, closed] at read ⊢
          cases read
          exact ⟨[], rfl, rfl⟩
      | none =>
          rw [Scan.items_open closed] at read ⊢
          obtain ⟨a, mid, first, rest⟩ := Outcome.bind_eq_ok.1 read
          obtain ⟨a', first', same⟩ := follows _ a mid first
          rw [first', Outcome.bind_ok]
          unfold Scan.afterItem at rest ⊢
          cases comma : mid.skipSpace.eat? Byte.comma with
          | some next =>
              simp only [comma] at rest ⊢
              obtain ⟨others, met, rfl⟩ := Outcome.map_eq_ok.1 rest
              obtain ⟨others', met', same'⟩ := ih _ _ _ met
              refine ⟨a' :: others', ?_, ?_⟩
              · rw [met']
                rfl
              · rw [List.map_cons, List.map_cons, same, same']
          | none =>
              simp only [comma] at rest ⊢
              cases ended : mid.skipSpace.eat? close with
              | some next =>
                  simp only [ended] at rest ⊢
                  cases rest
                  exact ⟨[a'], rfl, congrArg (fun value => [value]) same⟩
              | none =>
                  simp only [ended] at rest
                  cases rest

theorem inlineList (follows : Follows g reader reader') (expected : String) :
    Follows (List.map g) (Reader.inlineList expected reader) (Reader.inlineList expected reader') :=
  .after _ fun _ c => follows.items _ _ _ c

theorem object {value value' : Bytes → Reader α} (expected : String)
    (follows : ∀ key, Follows g (value key) (value' key)) :
    Follows (List.map (Prod.map id g)) (Reader.object expected value) (Reader.object expected value') := by
  have member : Follows (Prod.map id g) (Reader.member expected value) (Reader.member expected value') :=
    .after _ fun key => (follows key).bind fun v v' same => pure (congrArg (key, ·) same)
  exact .after _ fun _ c => member.items _ _ _ c

theorem orSkip {value value' : Option (Reader α)} (expected : String) (follows : Option.Rel (Follows g) value value') :
    Follows (Option.map g) (Reader.orSkip expected value) (Reader.orSkip expected value') := by
  cases follows with
  | some follows => exact follows.map fun a a' same => congrArg some same
  | none => exact .refl _ _

end Reader.Follows

/-! ### Readers with stores -/

/-- A store that replaces another one, or none, and from which all can be read that could be read before. -/
inductive StoreGrown : Option BlobView → Option BlobView → Prop where
  | attached (store : Option BlobView) : StoreGrown none store
  | extended {view more : BlobView} : view.Extends more → StoreGrown (some view) (some more)

/-- What a descriptor points at is there in every extension. -/
theorem BlobView.Extends.fetch {view more : BlobView} (extension : view.Extends more) {element : Element} {rank : Nat}
    {d : Descriptor} {bytes : Bytes} (fetched : view.fetch element rank d = .ok bytes) :
    more.fetch element rank d = .ok bytes := by
  unfold BlobView.fetch at fetched ⊢
  split at fetched
  · cases fetched
  split at fetched
  · cases fetched
  split at fetched
  · cases fetched
  rename_i element rank length
  rw [if_neg element, if_neg rank, if_neg length]
  split at fetched
  · rename_i empty
    rw [if_pos empty]
    exact fetched
  split at fetched
  · cases fetched
  rename_i nonempty inside
  have inside' : ¬ more.reserved < d.offset + d.byteLength :=
    fun outside => inside (Nat.lt_of_le_of_lt extension.reserved outside)
  rw [if_neg nonempty, if_neg inside']
  cases found : view.read d.offset d.byteLength with
  | ok contents =>
      rw [found] at fetched
      rw [extension.read _ _ _ found]
      exact fetched
  | error cause =>
      rw [found] at fetched
      cases fetched

section Stores

variable {store store' : Option BlobView} (grown : StoreGrown store store')
include grown

theorem readStored_follows (element : Element) (expected : String) (rank : Nat) :
    Follows id (readStored store element expected rank) (readStored store' element expected rank) := by
  cases grown with
  | attached =>
      rw [readStored_none]
      exact .of_fails nofun
  | @extended view more extension =>
      rw [readStored_some, readStored_some]
      refine (Follows.refl id readDescriptor).checked fun d d' stored same judged => ⟨stored, ?_, rfl⟩
      rw [show d' = d from same]
      cases fetched : view.fetch element rank d with
      | ok bytes =>
          rw [extension.fetch fetched, ← fetched]
          exact judged
      | error reason =>
          rw [fetched] at judged
          cases judged

theorem readArray_follows (element : Element) :
    Follows id (readArray store element) (readArray store' element) := by
  refine .after _ fun next => ?_
  split
  · exact .refl _ _
  split
  · exact (readStored_follows grown element _ 1).map fun _ _ same => congrArg Prod.snd same
  · exact .refl _ _

/-- Arrays in a row. -/
theorem readArrays_follows (element : Element) (expected : String) :
    Follows id (Reader.inlineList expected (readArray store element))
      (Reader.inlineList expected (readArray store' element)) := by
  have follows := (readArray_follows grown element).inlineList expected
  rwa [List.map_id_fun] at follows

theorem readRows_follows (element : Element) : Follows id (readRows store element) (readRows store' element) := by
  rw [readRows_eq, readRows_eq]
  refine .after _ fun next => ?_
  split
  · exact (readStored_follows grown element _ 2).checked_same
  · exact readArrays_follows grown element _

theorem readMatrix_follows (element : Element) : Follows id (readMatrix store element) (readMatrix store' element) := by
  rw [readMatrix_eq, readMatrix_eq]
  refine .after _ fun next => ?_
  split
  · exact (readStored_follows grown element _ 2).checked_same
  · exact (readArrays_follows grown element _).checked_same

end Stores

/-! ### Readers of values -/

section Values

variable {f : Bool → Bool} {expected : String}

theorem readJson_follows {store store' : Option BlobView} (marks : f store'.isSome = f store.isSome) :
    Follows (Val.mark f) (readJson store) (readJson store') := by
  refine .after _ fun _ => .after _ fun start => .after _ fun _ => .after _ fun stop => .pure ?_
  rw [Val.mark, Val.mark, marks]

theorem readEntries_follows {value value' : Reader Val} (follows : Follows (Val.mark f) value value') :
    Follows (Val.mark f) (readEntries expected value) (readEntries expected value') := by
  have members : Follows (List.map (Prod.map id (Val.mark f)))
      (Reader.object expected fun key => if Utf8.isValid key then value else fail expected .invalidKey)
      (Reader.object expected fun key => if Utf8.isValid key then value' else fail expected .invalidKey) := by
    refine .object expected fun key => ?_
    split
    · exact follows
    · exact .refl _ _
  refine members.map fun ms ms' same => ?_
  have marked (entries : List (Bytes × Val)) : Entries.ofList (entries.map (Prod.map id (Val.mark f)))
      = (Entries.ofList entries).map (Prod.map id (Val.mark f)) := Entries.ofList_map (fun _ => Val.mark f) entries
  rw [Val.mark, Val.mark, Val.markEntries_eq_map, Val.markEntries_eq_map, ← marked, ← marked, same]

theorem readFields_follows {fields : List (Field S)} {value value' : Field S → Reader Val}
    (follows : ∀ field, Follows (Val.mark f) (value field) (value' field)) :
    Follows (Val.mark f) (readFields expected fields value) (readFields expected fields value') := by
  have members : Follows (List.map (Prod.map id (Option.map (Val.mark f))))
      (Reader.object expected fun key => orSkip expected ((fields.find? fun field => field.key = key).map value))
      (Reader.object expected fun key => orSkip expected ((fields.find? fun field => field.key = key).map value')) := by
    refine .object expected fun key => .orSkip expected ?_
    cases fields.find? fun field => field.key = key with
    | none => exact .none
    | some field => exact .some (follows field)
  refine members.map fun ms ms' same => ?_
  rw [Val.mark, Val.mark, Val.markItems_eq_map, Val.markItems_eq_map, List.map_map, List.map_map]
  congr 1
  refine List.map_congr_left fun field _ => ?_
  -- A field without a member has its default both times, marks and all.
  have held : (lastOf field.key ms').map (Val.mark f) = (lastOf field.key ms).map (Val.mark f) := by
    rw [← lastOf_map, ← lastOf_map, same]
  show Val.mark f ((lastOf field.key ms').getD _) = Val.mark f ((lastOf field.key ms).getD _)
  rw [← Option.getD_map (Val.mark f), ← Option.getD_map (Val.mark f), held]

end Values

section Types

variable {store store' : Option BlobView} (grown : StoreGrown store store') {f : Bool → Bool}
  (marks : f store'.isSome = f store.isSome) (schema : Schema S)
include grown marks

/-- A reader of a type follows if the readers of the records in it do. -/
theorem Ty.readWith_follows {record record' : S → Reader Val}
    (records : ∀ s, Follows (Val.mark f) (record s) (record' s)) (t : Ty S) :
    Follows (Val.mark f) (t.readWith schema store record) (t.readWith schema store' record') := by
  have equal : ∀ {α : Type} {reader reader' : Reader α} (k : α → Val), Follows id reader reader' →
      Follows (Val.mark f) (k <$> reader) (k <$> reader') :=
    fun k follows => follows.map fun _ _ same => congrArg (fun a => Val.mark f (k a)) same
  induction t with
  | scalar | string | bytes | range | descriptor => exact .refl _ _
  | json => exact readJson_follows marks
  | list item ih =>
      cases item with
      | scalar k =>
          refine equal _ ?_
          cases k.element? with
          | some e => exact readArray_follows grown e
          | none => exact .refl _ _
      | vector e => exact equal _ (readRows_follows grown e)
      | _ =>
          refine (ih.inlineList _).map fun items items' same => ?_
          rw [Val.mark, Val.mark, Val.markItems_eq_map, Val.markItems_eq_map, same]
  | option content ih =>
      refine .after _ fun absent => ?_
      cases absent with
      | true => exact .refl _ _
      | false => exact ih.map fun v v' same => by rw [Val.mark, Val.mark, same]
  | boxed content ih => exact ih.map fun v v' same => by rw [Val.mark, Val.mark, same]
  | shared content ih => exact ih.map fun v v' same => by rw [Val.mark, Val.mark, same]
  | sortedMap value ih => exact readEntries_follows ih
  | hashMap value ih => exact readEntries_follows ih
  | pair first second ih ih' =>
      refine .after _ fun _ => ih.bind fun a a' same => ?_
      refine .after _ fun _ => ih'.bind fun b b' same' => ?_
      exact .after _ fun _ => .pure (by rw [Val.mark, Val.mark, same, same'])
  | vector e => exact equal _ (readArray_follows grown e)
  | matrix e => exact equal _ (readMatrix_follows grown e)
  | record s => exact records s

theorem readRecord_follows (bound : Nat) (s : S) :
    Follows (Val.mark f) (readRecord schema store bound s) (readRecord schema store' bound s) := by
  induction bound generalizing s with
  | zero => exact .refl _ _
  | succ bound ih => exact readFields_follows fun field => Ty.readWith_follows grown marks schema ih field.type

theorem Ty.read_follows (t : Ty S) : Follows (Val.mark f) (t.read schema store) (t.read schema store') :=
  fun c => t.readWith_follows grown marks schema (readRecord_follows grown marks schema c.rest.length) c

/-- A decode follows up to the marks that it leaves. -/
theorem decode_follows {t : Ty S} {text : Bytes} {v : Val} (decoded : decode schema store t text = .ok v) :
    ∃ v', decode schema store' t text = .ok v' ∧ v'.mark f = v.mark f := by
  have whole : Follows (Val.mark f)
      (do let v ← t.read schema store; finish (t.name schema); return v)
      (do let v ← t.read schema store'; finish (t.name schema); return v) :=
    (t.read_follows grown marks schema).bind fun v v' same => .after _ fun _ => .pure same
  unfold decode at decoded ⊢
  dsimp only at decoded ⊢
  split at decoded
  · rename_i v last read
    cases decoded
    obtain ⟨v', read', same⟩ := whole _ v last read
    rw [read']
    exact ⟨v', rfl, same⟩
  · cases decoded

end Types

/-- What was decoded against a store is decoded against it after any writes, and what was decoded without a store is
    decoded with any: the same value, whose kept texts then have the mark that there is a store. -/
theorem decode_grown {σ : Type} [BlobStore σ] [BlobStore.AppendOnly σ] (schema : Schema S) (t : Ty S) (text : Bytes)
    (v : Val) :
    (∀ (store : σ) (chunks : List Bytes), decode schema (some (BlobStore.view store)) t text = .ok v →
        decode schema (some (BlobStore.view (BlobStore.writeAll chunks store).2)) t text = .ok v) ∧
      (decode schema none t text = .ok v → ∀ view : BlobView,
        ∃ v', decode schema (some view) t text = .ok v' ∧ v'.unmarked = v.unmarked) := by
  constructor
  · intro store chunks decoded
    obtain ⟨v', decoded', same⟩ :=
      decode_follows (f := id) (.extended (BlobStore.writeAll_extends chunks store)) rfl schema decoded
    rw [Val.mark_id, Val.mark_id] at same
    rw [decoded', same]
  · intro decoded view
    exact decode_follows (.attached (some view)) rfl schema decoded

/-- Whether a value is a vector with a kept text after it. -/
def Val.isVectorThenText (data : List Datum) (raw : Bytes) (attached : Bool) : Val → Bool
  | .pair (.array data') (.json raw' attached') => decide (data' = data ∧ raw' = raw ∧ attached' = attached)
  | _ => false

theorem Val.eq_of_isVectorThenText {data : List Datum} {raw : Bytes} {attached : Bool} {v : Val}
    (holds : v.isVectorThenText data raw attached = true) : v = .pair (.array data) (.json raw attached) := by
  unfold isVectorThenText at holds
  split at holds
  · obtain ⟨rfl, rfl, rfl⟩ := of_decide_eq_true holds
    rfl
  · cases holds

/-- A descriptor whose range begins in the header of a record, and a kept text, before and after more writes. -/
theorem decode_grown_into_header :
    let schema : Schema Empty := nofun
    let t : Ty Empty := .pair (.vector .uint8) .json
    let text := ascii "[\x7b\"dtype\":\"uint8\",\"shape\":[3],\"offset\":6,\"byteLength\":3\x7d, 1e3]"
    let c := Collection.ofChunks [[5, 6, 7]]
    decode schema (some (BlobStore.view c)) t text
        = .ok (.pair (.array [.int 0, .int 0, .int 5]) (.json (ascii "1e3") true)) ∧
      decode schema (some (BlobStore.view (BlobStore.writeAll [[8], [], [9, 9]] c).2)) t text
        = .ok (.pair (.array [.int 0, .int 0, .int 5]) (.json (ascii "1e3") true)) := by
  intro schema t text c
  have decoded : decode schema (some (BlobStore.view c)) t text
      = .ok (.pair (.array [.int 0, .int 0, .int 5]) (.json (ascii "1e3") true)) := by
    have checked : (decode schema (some (BlobStore.view c)) t text).toOption.any
        (Val.isVectorThenText [.int 0, .int 0, .int 5] (ascii "1e3") true) = true := by
      decide +kernel
    cases read : decode schema (some (BlobStore.view c)) t text with
    | error e =>
        rw [read] at checked
        cases checked
    | ok v =>
        rw [read] at checked
        rw [Val.eq_of_isVectorThenText checked]
  exact ⟨decoded, (decode_grown schema t text _).1 c [[8], [], [9, 9]] decoded⟩

end JsonSidecar
