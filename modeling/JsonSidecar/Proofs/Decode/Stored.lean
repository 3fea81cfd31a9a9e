/-
Module: JsonSidecar.Proofs.Decode.Stored
Purpose: Descriptors are not trusted.  An array is loaded exactly if its descriptor is well-formed and describes an
  array of the wanted element type and number of dimensions whose bytes lie in the store; what comes back are the
  elements at their places, and nothing beyond the store is ever asked for.
Main exports: Descriptor.Sized, Descriptor.Describes, Descriptor.Refused, Element.At, readStored_validates
-/
import JsonSidecar.Blob.Collection
import JsonSidecar.Blob.Loaded
import JsonSidecar.Proofs.Decode.DescriptorText
import Mathlib.Algebra.Order.BigOperators.GroupWithZero.List

namespace JsonSidecar

open Reader

/-! ### Checked products -/

theorem mulWord?_eq_some_iff {a b n : Nat} : mulWord? a b = some n ↔ a * b < wordLimit ∧ a * b = n := by
  unfold mulWord?
  split <;> simp_all

/-- Every product on the way is the product of the first dimensions. -/
theorem foldlM_mulWord?_eq_some_iff {shape : List Nat} {start n : Nat} (word : start < wordLimit) :
    shape.foldlM mulWord? start = some n ↔
      (∀ front, front <+: shape → start * front.prod < wordLimit) ∧ start * shape.prod = n := by
  induction shape generalizing start with
  | nil => simp [word]
  | cons a rest ih =>
      rw [List.foldlM_cons, Option.bind_eq_bind, Option.bind_eq_some_iff]
      constructor
      · rintro ⟨_, step, others⟩
        obtain ⟨fits, rfl⟩ := mulWord?_eq_some_iff.1 step
        obtain ⟨products, whole⟩ := (ih fits).1 others
        refine ⟨fun front ahead => ?_, by rw [List.prod_cons, ← Nat.mul_assoc, whole]⟩
        rcases List.prefix_cons_iff.1 ahead with rfl | ⟨others, rfl, shorter⟩
        · simpa using word
        · rw [List.prod_cons, ← Nat.mul_assoc]
          exact products others shorter
      · rintro ⟨products, whole⟩
        have fits : start * a < wordLimit := by simpa using products [a] (by simp)
        refine ⟨_, mulWord?_eq_some_iff.2 ⟨fits, rfl⟩, (ih fits).2 ⟨fun front ahead => ?_, ?_⟩⟩
        · rw [Nat.mul_assoc, ← List.prod_cons]
          exact products (a :: front) (List.prefix_cons_iff.2 (.inr ⟨front, rfl, ahead⟩))
        · rw [Nat.mul_assoc, ← List.prod_cons, whole]

/-- A dimension of zero does not undo an overflow in front of it. -/
example : shapeCount? [2 ^ 63, 2, 0] = none ∧ shapeCount? [0, 2 ^ 63, 2] = some 0 := by decide

/-- The length in bytes is the product of the dimensions and the size of an element, and neither it nor a product of
    the first dimensions goes past a word. -/
structure Descriptor.Sized (d : Descriptor) : Prop where
  products : ∀ front, front <+: d.shape → front.prod < wordLimit
  length : d.shape.prod * d.element.size = d.byteLength
  word : d.byteLength < wordLimit

theorem Descriptor.expectedByteLength?_eq_some_iff {d : Descriptor} :
    d.expectedByteLength? = some d.byteLength ↔ d.Sized := by
  rw [expectedByteLength?, elementCount?, shapeCount?, Option.bind_eq_some_iff]
  constructor
  · rintro ⟨count, counted, sized⟩
    obtain ⟨products, whole⟩ := (foldlM_mulWord?_eq_some_iff (by decide)).1 counted
    obtain ⟨fits, length⟩ := mulWord?_eq_some_iff.1 sized
    rw [Nat.one_mul] at whole
    subst whole
    exact ⟨by simpa using products, length, length ▸ fits⟩
  · rintro ⟨products, length, word⟩
    refine ⟨d.shape.prod, (foldlM_mulWord?_eq_some_iff (by decide)).2 ⟨by simpa using products, Nat.one_mul _⟩, ?_⟩
    exact mulWord?_eq_some_iff.2 ⟨length ▸ word, length⟩

/-- The products on the way matter only where a dimension of zero stands behind two others: otherwise they are bounded
    by the whole. -/
theorem Descriptor.sized_iff {d : Descriptor} (words : ∀ n ∈ d.shape, n < wordLimit)
    (plain : (∀ n ∈ d.shape, 0 < n) ∨ d.shape.length ≤ 2) :
    d.Sized ↔ d.shape.prod * d.element.size = d.byteLength ∧ d.byteLength < wordLimit := by
  constructor
  · exact fun sized => ⟨sized.length, sized.word⟩
  · rintro ⟨length, word⟩
    have whole : d.shape.prod < wordLimit :=
      calc d.shape.prod ≤ d.shape.prod * d.element.size := Nat.le_mul_of_pos_right _ d.element.size_pos
        _ = d.byteLength := length
        _ < wordLimit := word
    refine ⟨fun front ahead => ?_, length, word⟩
    obtain ⟨behind, same⟩ := ahead
    rcases plain with positive | few
    · have more : 0 < behind.prod := List.prod_pos fun n mem => positive n (by simp [← same, mem])
      calc front.prod ≤ front.prod * behind.prod := Nat.le_mul_of_pos_right _ more
        _ = d.shape.prod := by rw [← same, List.prod_append]
        _ < wordLimit := whole
    · match front, behind with
      | [], _ => exact (by decide : 1 < wordLimit)
      | [n], _ => simpa using words n (by simp [← same])
      | front, [] => rwa [← same, List.append_nil] at whole
      | _ :: _ :: _, _ :: _ =>
          rw [← same] at few
          simp at few

/-! ### What is accepted and what is refused -/

/-- The descriptor describes an array of the given element type and number of dimensions whose bytes lie in a store
    of the given length. -/
structure Descriptor.Describes (d : Descriptor) (element : Element) (rank length : Nat) : Prop where
  element : d.element = element
  rank : d.shape.length = rank
  sized : d.Sized
  inside : d.byteLength = 0 ∨ d.offset + d.byteLength ≤ length

/-- Why a descriptor is refused: the first check that it does not pass. -/
inductive Descriptor.Refused (d : Descriptor) (element : Element) (rank length : Nat) : Reason → Prop where
  | element : d.element ≠ element → Refused d element rank length (.elementMismatch d.element element)
  | rank : d.element = element → d.shape.length ≠ rank →
      Refused d element rank length (.rankMismatch d.shape.length rank)
  | sized : d.element = element → d.shape.length = rank → ¬ d.Sized →
      Refused d element rank length (.lengthMismatch d.byteLength d.shape d.element)
  | inside : d.element = element → d.shape.length = rank → d.Sized → d.byteLength ≠ 0 →
      length < d.offset + d.byteLength → Refused d element rank length (.outsideStore d.offset d.byteLength)

/-- Every descriptor is accepted or refused. -/
theorem Descriptor.describes_or_refused (d : Descriptor) (element : Element) (rank length : Nat) :
    d.Describes element rank length ∨ ∃ reason, d.Refused element rank length reason := by
  by_cases kind : d.element = element
  · by_cases dims : d.shape.length = rank
    · by_cases sized : d.Sized
      · by_cases inside : d.byteLength = 0 ∨ d.offset + d.byteLength ≤ length
        · exact .inl ⟨kind, dims, sized, inside⟩
        · rw [not_or, Nat.not_le] at inside
          exact .inr ⟨_, .inside kind dims sized inside.1 inside.2⟩
      · exact .inr ⟨_, .sized kind dims sized⟩
    · exact .inr ⟨_, .rank kind dims⟩
  · exact .inr ⟨_, .element kind⟩

namespace BlobView

variable (view : BlobView) {d : Descriptor} {element : Element} {rank : Nat}

/-- A refused descriptor is refused before the store is read. -/
theorem fetch_of_refused {reason : Reason} (refused : d.Refused element rank view.reserved reason) :
    view.fetch element rank d = .error reason := by
  unfold fetch
  cases refused with
  | element kind => rw [if_pos kind]
  | rank kind dims => rw [if_neg (not_not.2 kind), if_pos dims]
  | sized kind dims sized =>
      rw [if_neg (not_not.2 kind), if_neg (not_not.2 dims),
        if_pos (mt Descriptor.expectedByteLength?_eq_some_iff.1 sized)]
  | inside kind dims sized some outside =>
      rw [if_neg (not_not.2 kind), if_neg (not_not.2 dims),
        if_neg (not_not.2 (Descriptor.expectedByteLength?_eq_some_iff.2 sized)), if_neg some, if_pos outside]

/-- For an accepted descriptor, the store is asked for the bytes that lie in it. -/
theorem fetch_of_describes (describes : d.Describes element rank view.reserved) :
    view.fetch element rank d =
      if d.byteLength = 0 then .ok [] else (view.read d.offset d.byteLength).mapError .unreadable := by
  unfold fetch
  rw [if_neg (not_not.2 describes.element), if_neg (not_not.2 describes.rank),
    if_neg (not_not.2 (Descriptor.expectedByteLength?_eq_some_iff.2 describes.sized))]
  split
  · rfl
  · rename_i some
    rw [if_neg (Nat.not_lt.2 (describes.inside.resolve_left some))]

/-- Only reads inside the store are made: a view that answers them in the same way is as good. -/
theorem fetch_congr {view' : BlobView} (reserved : view'.reserved = view.reserved)
    (same : ∀ offset length, offset + length ≤ view.reserved → view'.read offset length = view.read offset length) :
    view'.fetch element rank d = view.fetch element rank d := by
  rcases d.describes_or_refused element rank view.reserved with describes | ⟨reason, refused⟩
  · rw [fetch_of_describes view describes, fetch_of_describes view' (reserved ▸ describes)]
    split
    · rfl
    · rename_i some
      rw [same _ _ (describes.inside.resolve_left some)]
  · rw [fetch_of_refused view refused, fetch_of_refused view' (reserved ▸ refused)]

/-- What is fetched from records at hand is the part that the descriptor points at. -/
theorem fetch_ofBytes_eq_ok_iff {store bytes : Bytes} :
    (ofBytes store).fetch element rank d = .ok bytes ↔
      d.Describes element rank store.length ∧ bytes = (store.drop d.offset).take d.byteLength := by
  rcases d.describes_or_refused element rank store.length with describes | ⟨reason, refused⟩
  · rw [fetch_of_describes (ofBytes store) describes]
    split
    · rename_i none
      simp [describes, none, eq_comm]
    · rename_i some
      simp only [ofBytes, slice, if_pos (describes.inside.resolve_left some), Except.mapError, Except.ok.injEq, describes,
        true_and, eq_comm]
  · rw [fetch_of_refused (ofBytes store) refused]
    constructor
    · nofun
    · rintro ⟨describes, _⟩
      cases refused with
      | element kind => exact absurd describes.element kind
      | rank _ dims => exact absurd describes.rank dims
      | sized _ _ sized => exact absurd describes.sized sized
      | inside _ _ _ some outside => exact absurd (describes.inside.resolve_left some) (Nat.not_le.2 outside)

end BlobView

/-! ### Elements at their places -/

/-- The elements lie one behind another from an offset on. -/
structure Element.At (e : Element) (store : Bytes) (offset count : Nat) (data : List Datum) : Prop where
  count : data.length = count
  each : ∀ i (inside : i < data.length), data[i] = e.read ((store.drop (offset + i * e.size)).take e.size)

/-- The elements of a part of the store are those at its place. -/
theorem Element.readAll_eq_iff_at {e : Element} {store : Bytes} {offset count : Nat} {data : List Datum}
    (inside : count = 0 ∨ offset + count * e.size ≤ store.length) :
    e.readAll ((store.drop offset).take (count * e.size)) = data ↔ e.At store offset count data := by
  have length : ((store.drop offset).take (count * e.size)).length = count * e.size := by
    rw [List.length_take, List.length_drop]
    rcases inside with rfl | inside
    · simp
    · omega
  have read : e.At store offset count (e.readAll ((store.drop offset).take (count * e.size))) := by
    rw [readAll, length, Nat.mul_div_cancel _ e.size_pos]
    refine ⟨by rw [List.length_map, chunks_length], fun i less => ?_⟩
    rw [List.length_map, chunks_length] at less
    have room : e.size ≤ count * e.size - i * e.size := by
      have next : (i + 1) * e.size ≤ count * e.size := Nat.mul_le_mul_right _ less
      rw [Nat.add_one_mul] at next
      omega
    rw [List.getElem_map, chunks_getElem, List.drop_take, List.take_take, List.drop_drop, Nat.min_eq_left room]
  constructor
  · rintro rfl
    exact read
  · intro at'
    refine List.ext_getElem (by rw [read.count, at'.count]) fun i less less' => ?_
    rw [read.each i less, at'.each i less']

/-! ### Stores -/

/-- The stores that chunks can be read back from: one in memory and one that was loaded. -/
inductive ReadableBlobs where
  | collected (collection : Collection)
  | loaded (blobs : LoadedBlobs)

namespace ReadableBlobs

/-- The bytes of all records. -/
def bytes : ReadableBlobs → Bytes
  | collected collection => collection.bytes
  | loaded blobs => blobs.bytes

/-- What can be read from the store. -/
def view : ReadableBlobs → BlobView
  | collected collection => BlobStore.view collection
  | loaded blobs => BlobStore.view blobs

theorem view_eq (blobs : ReadableBlobs) : blobs.view = BlobView.ofBytes blobs.bytes := by
  cases blobs <;> rfl

end ReadableBlobs

/-- The texts of the descriptors through which an array is loaded: it has the shape of the descriptor and the elements
    that lie where the descriptor points. -/
def StoredText (element : Element) (rank : Nat) (store : Bytes) (stored : List Nat × List Datum) (w : Bytes) : Prop :=
  ∃ d, DescriptorText d w ∧ d.Describes element rank store.length ∧ stored.1 = d.shape ∧
    element.At store d.offset d.shape.prod stored.2

/-- The reader of stored arrays reads exactly the descriptors of arrays in the store. -/
theorem readStored_recognises (store : Bytes) (element : Element) (expected : String) (rank : Nat) :
    (readStored (some (BlobView.ofBytes store)) element expected rank).Recognises Anything
      (StoredText element rank store) := by
  rw [readStored_some]
  refine (readDescriptor_recognises.checked expected _).congr fun stored w => ?_
  obtain ⟨shape, data⟩ := stored
  refine exists_congr fun d => and_congr_right fun _ => ?_
  have elements (describes : d.Describes element rank store.length) :
      element.readAll ((store.drop d.offset).take d.byteLength) = data ↔
        element.At store d.offset d.shape.prod data := by
    obtain ⟨rfl, _, sized, inside⟩ := describes
    rw [← sized.length] at inside ⊢
    refine Element.readAll_eq_iff_at (inside.imp_left fun none => ?_)
    exact (Nat.mul_eq_zero.1 none).resolve_right (Nat.ne_of_gt d.element.size_pos)
  constructor
  · intro loaded
    cases fetched : (BlobView.ofBytes store).fetch element rank d with
    | error reason =>
        rw [fetched] at loaded
        cases loaded
    | ok bytes =>
        rw [fetched] at loaded
        cases loaded
        obtain ⟨describes, rfl⟩ := BlobView.fetch_ofBytes_eq_ok_iff.1 fetched
        exact ⟨describes, rfl, (elements describes).1 rfl⟩
  · rintro ⟨describes, rfl, at'⟩
    rw [BlobView.fetch_ofBytes_eq_ok_iff.2 ⟨describes, rfl⟩]
    exact congrArg (fun data => Except.ok (d.shape, data)) ((elements describes).2 at')

/-- A refused descriptor is reported where it begins. -/
theorem readStored_refused (view : BlobView) {element : Element} {rank : Nat} {d : Descriptor} {w : Bytes}
    {reason : Reason} (text : DescriptorText d w) (refused : d.Refused element rank view.reserved reason)
    (expected : String) {c later : Cursor} (spans : c.skipSpace.Spans w later) :
    readStored (some view) element expected rank c = .fail ⟨expected, reason, c.skipSpace.pos⟩ later := by
  rw [readStored_some]
  refine readDescriptor_recognises.checked_fail text ?_ spans
  rw [view.fetch_of_refused refused]
  rfl

/-- What is loaded takes no more bytes than the store has. -/
theorem StoredText.length_le {element : Element} {rank : Nat} {store w : Bytes} {stored : List Nat × List Datum}
    (text : StoredText element rank store stored w) : stored.2.length * element.size ≤ store.length := by
  obtain ⟨d, _, ⟨rfl, _, sized, inside⟩, _, elements⟩ := text
  rw [elements.count, sized.length]
  omega

/-- Arrays are loaded exactly through the descriptors that describe an array in the store, and they have the shape of
    the descriptor and the elements at their places.  A descriptor that is refused is reported where it begins, by
    the first check that it does not pass.  No more bytes come back than the store has, and only such are asked for:
    it makes no difference what a store answers where it has none. -/
theorem readStored_validates (store : Option ReadableBlobs) (element : Element) (expected : String) (rank : Nat)
    (c : Cursor) :
    (∀ stored later,
      readStored (store.map ReadableBlobs.view) element expected rank c = .ok stored later ↔
        ∃ blobs w, store = some blobs ∧ c.skipSpace.Spans w later ∧ StoredText element rank blobs.bytes stored w) ∧
      ∀ blobs : ReadableBlobs,
        (∀ d w later reason, c.skipSpace.Spans w later → DescriptorText d w →
          d.Refused element rank blobs.bytes.length reason →
          readStored (some blobs.view) element expected rank c = .fail ⟨expected, reason, c.skipSpace.pos⟩ later) ∧
        (∀ stored later, readStored (some blobs.view) element expected rank c = .ok stored later →
          stored.2.length * element.size ≤ blobs.bytes.length) ∧
        ∀ view : BlobView, view.reserved = blobs.bytes.length →
          (∀ offset length, offset + length ≤ blobs.bytes.length →
            view.read offset length = blobs.view.read offset length) →
          readStored (some view) element expected rank c = readStored (some blobs.view) element expected rank c := by
  have loaded (blobs : ReadableBlobs) (stored : List Nat × List Datum) (later : Cursor) :
      readStored (some blobs.view) element expected rank c = .ok stored later ↔
        ∃ w, c.skipSpace.Spans w later ∧ StoredText element rank blobs.bytes stored w := by
    rw [blobs.view_eq]
    exact (readStored_recognises blobs.bytes element expected rank).eq_ok_iff
  refine ⟨fun stored later => ?_, fun blobs => ⟨?_, ?_, ?_⟩⟩
  · cases store with
    | none =>
        rw [Option.map_none, readStored_none]
        constructor
        · intro read
          cases read
        · rintro ⟨_, _, none, _⟩
          cases none
    | some blobs =>
        rw [Option.map_some, loaded blobs stored later]
        simp
  · intro d w later reason spans text refused
    rw [blobs.view_eq]
    exact readStored_refused (BlobView.ofBytes blobs.bytes) text refused expected spans
  · intro stored later read
    obtain ⟨w, _, text⟩ := (loaded blobs stored later).1 read
    exact text.length_le
  · intro view reserved same
    rw [blobs.view_eq] at same ⊢
    rw [readStored_some, readStored_some]
    congr
    funext d
    rw [(BlobView.ofBytes blobs.bytes).fetch_congr reserved same]

end JsonSidecar
