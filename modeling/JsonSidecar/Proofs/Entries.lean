/-
Module: JsonSidecar.Proofs.Entries
Purpose: Lists of entries under keys.  Of the entries under one key the last one counts: it is what remains when the
  entries are put in one after another, and it does not depend on the order of entries under other keys.
Main exports: LastUnder, Lacks, Rearranged, Entries.mem_ofList, Entries.ofList_increasing
-/
import JsonSidecar.Entries
import JsonSidecar.Proofs.Items
import Mathlib.Data.List.Induction
import Mathlib.Data.List.Sort

namespace JsonSidecar

variable {α β γ : Type}

/-! ### Last members -/

/-- The last member under a key has the given value. -/
def LastUnder (key : Bytes) (members : List (Bytes × γ)) (value : γ) : Prop :=
  ∃ front behind, members = front ++ (key, value) :: behind ∧ ∀ m ∈ behind, m.1 ≠ key

/-- No member stands under a key. -/
def Lacks (key : Bytes) (members : List (Bytes × γ)) : Prop := ∀ m ∈ members, m.1 ≠ key

/-- The member gives a value exactly if it stands under the key. -/
def PicksUnder (key : Bytes) (wrap : β → γ) (pick : Bytes × γ → Option β) (m : Bytes × γ) : Prop :=
  (∃ b, m = (key, wrap b) ∧ pick m = some b) ∨ m.1 ≠ key ∧ pick m = none

section Picks

variable {key : Bytes} {wrap : β → γ} {pick : Bytes × γ → Option β} {members : List (Bytes × γ)}

theorem PicksUnder.eq_none_iff {m : Bytes × γ} (picks : PicksUnder key wrap pick m) : pick m = none ↔ m.1 ≠ key := by
  rcases picks with ⟨b, rfl, given⟩ | ⟨other, missing⟩
  · simp [given]
  · simp [missing, other]

theorem PicksUnder.eq_some_iff {m : Bytes × γ} (picks : PicksUnder key wrap pick m)
    (injective : Function.Injective wrap) {b : β} : pick m = some b ↔ m = (key, wrap b) := by
  rcases picks with ⟨b', rfl, given⟩ | ⟨other, missing⟩
  · rw [given, Option.some_inj, Prod.mk_right_inj, injective.eq_iff]
  · rw [missing]
    constructor
    · nofun
    · rintro rfl
      exact absurd rfl other

/-- The last value that is picked is the one of the last member under the key. -/
theorem getLast?_eq_some_iff_lastUnder (picks : ∀ m ∈ members, PicksUnder key wrap pick m)
    (injective : Function.Injective wrap) {b : β} :
    (members.filterMap pick).getLast? = some b ↔ LastUnder key members (wrap b) := by
  rw [List.getLast?_filterMap, List.findSome?_eq_some_iff]
  constructor
  · rintro ⟨behind, m, front, same, given, others⟩
    have order : members = front.reverse ++ m :: behind.reverse := by
      rw [← List.reverse_reverse members, same]
      simp
    have found : m = (key, wrap b) := ((picks m (by simp [order])).eq_some_iff injective).1 given
    refine ⟨front.reverse, behind.reverse, by rw [order, found], fun x mem => ?_⟩
    exact (picks x (by simp [order, List.mem_reverse.1 mem])).eq_none_iff.1 (others x (List.mem_reverse.1 mem))
  · rintro ⟨front, behind, rfl, others⟩
    refine ⟨behind.reverse, (key, wrap b), front.reverse, by simp, ?_, fun x mem => ?_⟩
    · exact ((picks _ (by simp)).eq_some_iff injective).2 rfl
    · have mem := List.mem_reverse.1 mem
      exact (picks x (by simp [mem])).eq_none_iff.2 (others x mem)

/-- No value is picked exactly if no member stands under the key. -/
theorem getLast?_eq_none_iff_lacks (picks : ∀ m ∈ members, PicksUnder key wrap pick m) :
    (members.filterMap pick).getLast? = none ↔ Lacks key members := by
  rw [List.getLast?_eq_none_iff, List.filterMap_eq_nil_iff]
  exact forall₂_congr fun m mem => (picks m mem).eq_none_iff

/-- With a default for a missing member. -/
theorem getLast?_getD_eq_iff (picks : ∀ m ∈ members, PicksUnder key wrap pick m)
    (injective : Function.Injective wrap) (default : β) {b : β} :
    (members.filterMap pick).getLast?.getD default = b ↔
      LastUnder key members (wrap b) ∨ Lacks key members ∧ b = default := by
  rw [← getLast?_eq_some_iff_lastUnder picks injective, ← getLast?_eq_none_iff_lacks picks]
  cases (members.filterMap pick).getLast? with
  | none => simp [eq_comm]
  | some b' => simp

end Picks

section Last

variable {key : Bytes} {members members' front behind : List (Bytes × γ)} {x : γ}

/-- The values of the members under a key. -/
def valuesUnder (key : Bytes) (members : List (Bytes × γ)) : List γ :=
  members.filterMap fun m => if m.1 = key then some m.2 else none

theorem picksUnder_id (m : Bytes × γ) : PicksUnder key id (fun m => if m.1 = key then some m.2 else none) m := by
  by_cases same : m.1 = key
  · exact .inl ⟨m.2, Prod.ext same rfl, if_pos same⟩
  · exact .inr ⟨same, if_neg same⟩

theorem lastUnder_iff : LastUnder key members x ↔ (valuesUnder key members).getLast? = some x :=
  (getLast?_eq_some_iff_lastUnder (fun m _ => picksUnder_id m) Function.injective_id).symm

theorem LastUnder.unique {y : γ} (last : LastUnder key members x) (last' : LastUnder key members y) : x = y := by
  rw [lastUnder_iff] at last last'
  exact Option.some_inj.1 (last.symm.trans last')

theorem lacks_iff : Lacks key members ↔ (valuesUnder key members).getLast? = none :=
  (getLast?_eq_none_iff_lacks fun m _ => picksUnder_id m).symm

/-- No member stands under a key exactly if none is the last one there. -/
theorem lacks_iff_forall_not : Lacks key members ↔ ∀ x, ¬ LastUnder key members x := by
  simp only [lacks_iff, lastUnder_iff]
  exact Option.eq_none_iff_forall_ne_some

/-- Under every key that occurs, one member is the last one. -/
theorem exists_lastUnder_iff : (∃ x, LastUnder key members x) ↔ key ∈ members.map Prod.fst := by
  rw [← not_iff_not, not_exists, ← lacks_iff_forall_not, Lacks, List.mem_map]
  simp only [not_exists, not_and, ne_eq]

theorem lastUnder_cons {m : Bytes × γ} :
    LastUnder key (m :: members) x ↔ LastUnder key members x ∨ Lacks key members ∧ m = (key, x) := by
  constructor
  · rintro ⟨front, behind, same, others⟩
    cases front with
    | nil =>
        obtain ⟨rfl, rfl⟩ := List.cons.inj same
        exact .inr ⟨others, rfl⟩
    | cons first front => exact .inl ⟨front, behind, (List.cons.inj same).2, others⟩
  · rintro (⟨front, behind, rfl, others⟩ | ⟨lacks, rfl⟩)
    · exact ⟨m :: front, behind, rfl, others⟩
    · exact ⟨[], members, rfl, lacks⟩

/-- If no key occurs twice, every member is the last one under its key. -/
theorem lastUnder_iff_mem (distinct : (members.map Prod.fst).Nodup) : LastUnder key members x ↔ (key, x) ∈ members := by
  constructor
  · rintro ⟨front, behind, rfl, _⟩
    simp
  · intro mem
    obtain ⟨front, behind, rfl⟩ := List.append_of_mem mem
    refine ⟨front, behind, rfl, fun m inside same => ?_⟩
    rw [List.map_append, List.map_cons] at distinct
    have apart := (List.nodup_cons.1 (List.nodup_append.1 distinct).2.1).1
    exact apart (List.mem_map.2 ⟨m, inside, same⟩)

/-- Of related members the last ones under a key are related. -/
theorem LastUnder.of_forall₂ {R : Bytes × γ → Bytes × β → Prop} {related : List (Bytes × β)}
    (all : List.Forall₂ R members related) (keys : ∀ m m', R m m' → m.1 = m'.1) (last : LastUnder key members x) :
    ∃ y, LastUnder key related y ∧ R (key, x) (key, y) := by
  have lacks {members : List (Bytes × γ)} {related : List (Bytes × β)} (all : List.Forall₂ R members related)
      (lacks : Lacks key members) : Lacks key related := by
    intro m' mem
    obtain ⟨m, listed, same⟩ := exists_of_forall₂ all mem
    exact keys m m' same ▸ lacks m listed
  induction all with
  | nil =>
      obtain ⟨front, behind, same, _⟩ := last
      simp at same
  | @cons m m' members related first rest ih =>
      rcases lastUnder_cons.1 last with last | ⟨none, rfl⟩
      · obtain ⟨y, last', same⟩ := ih last
        exact ⟨y, lastUnder_cons.2 (.inl last'), same⟩
      · have same : m' = (key, m'.2) := Prod.ext (keys _ _ first).symm rfl
        exact ⟨m'.2, lastUnder_cons.2 (.inr ⟨lacks rest none, same⟩), same ▸ first⟩

theorem lastUnder_append_cons {m : Bytes × γ} (other : m.1 ≠ key) :
    LastUnder key (front ++ m :: behind) x ↔ LastUnder key (front ++ behind) x := by
  simp [lastUnder_iff, valuesUnder, List.filterMap_append, other]

/-- Members in another order, in which those under one key have kept theirs. -/
inductive Rearranged : List (Bytes × γ) → List (Bytes × γ) → Prop where
  | nil : Rearranged [] []
  | cons (m : Bytes × γ) {members members' : List (Bytes × γ)} : Rearranged members members' →
      Rearranged (m :: members) (m :: members')
  | swap {m m' : Bytes × γ} (members : List (Bytes × γ)) : m.1 ≠ m'.1 →
      Rearranged (m :: m' :: members) (m' :: m :: members)
  | trans {members members' members'' : List (Bytes × γ)} : Rearranged members members' →
      Rearranged members' members'' → Rearranged members members''

namespace Rearranged

theorem perm (rearranged : Rearranged members members') : members.Perm members' := by
  induction rearranged with
  | nil => exact .nil
  | cons m _ ih => exact .cons m ih
  | swap members _ => exact .swap _ _ members
  | trans _ _ ih ih' => exact ih.trans ih'

/-- If no key occurs twice, every order keeps that of the members under one key. -/
theorem of_perm (perm : members.Perm members') (distinct : (members.map Prod.fst).Nodup) :
    Rearranged members members' := by
  induction perm with
  | nil => exact .nil
  | cons m _ ih => exact .cons m (ih (List.nodup_cons.1 distinct).2)
  | swap m m' members =>
      refine .swap members fun same => ?_
      simp [same] at distinct
  | trans first _ ih ih' => exact .trans (ih distinct) (ih' ((first.map Prod.fst).nodup_iff.1 distinct))

theorem valuesUnder_eq (rearranged : Rearranged members members') (key : Bytes) :
    valuesUnder key members = valuesUnder key members' := by
  induction rearranged with
  | nil => rfl
  | cons m _ ih =>
      simp only [valuesUnder, List.filterMap_cons] at ih ⊢
      rw [ih]
  | @swap m m' members apart =>
      by_cases first : m.1 = key
      · have second : m'.1 ≠ key := fun second => apart (first.trans second.symm)
        simp [valuesUnder, first, second]
      · simp [valuesUnder, List.filterMap_cons, first]
  | trans _ _ ih ih' => exact ih.trans ih'

theorem lastUnder_iff (rearranged : Rearranged members members') :
    LastUnder key members x ↔ LastUnder key members' x := by
  rw [JsonSidecar.lastUnder_iff, JsonSidecar.lastUnder_iff, rearranged.valuesUnder_eq]

end Rearranged

end Last

theorem lastUnder_snoc {key : Bytes} {members : List (Bytes × γ)} {m : Bytes × γ} {x : γ} :
    LastUnder key (members ++ [m]) x ↔ m = (key, x) ∨ LastUnder key members x ∧ m.1 ≠ key := by
  obtain ⟨name, y⟩ := m
  by_cases same : name = key
  · simp [lastUnder_iff, valuesUnder, same]
  · simp [lastUnder_iff, valuesUnder, same]

/-! ### Entries in the order of their keys -/

namespace Entries

variable {key : Bytes} {value : α} {entry : Bytes × α} {entries sorted : List (Bytes × α)}

theorem increasing_nodup (increasing : entries.Pairwise fun first second => first.1 < second.1) :
    (entries.map Prod.fst).Nodup := by
  rw [List.Nodup, List.pairwise_map]
  exact increasing.imp Std.ne_of_lt

theorem mem_insert (increasing : sorted.Pairwise fun first second => first.1 < second.1) :
    entry ∈ insert key value sorted ↔ entry = (key, value) ∨ entry ∈ sorted ∧ entry.1 ≠ key := by
  have greater {rest : List (Bytes × α)} (greater : ∀ other ∈ rest, key < other.1) :
      entry ∈ rest ↔ entry ∈ rest ∧ entry.1 ≠ key :=
    (and_iff_left_of_imp fun mem => (Std.ne_of_lt (greater entry mem)).symm).symm
  induction sorted with
  | nil => simp [insert]
  | cons first rest ih =>
      obtain ⟨first_least, increasing⟩ := List.pairwise_cons.1 increasing
      rw [insert]
      split
      · rename_i less
        rw [List.mem_cons]
        refine or_congr_right (greater fun other mem => ?_)
        rcases List.mem_cons.1 mem with rfl | mem
        · exact less
        · exact List.lt_trans less (first_least other mem)
      split
      · rename_i same
        rw [List.mem_cons, List.mem_cons]
        refine or_congr_right ((greater fun other mem => same ▸ first_least other mem).trans ?_)
        refine and_congr_left fun other => (or_iff_right ?_).symm
        rintro rfl
        exact other same.symm
      · rename_i other
        have ih : entry ∈ insert key value rest ↔ entry = (key, value) ∨ entry ∈ rest ∧ entry.1 ≠ key := ih increasing
        rw [List.mem_cons, ih, List.mem_cons, or_and_right, or_left_comm]
        refine or_congr_right (or_congr_left (and_iff_left_of_imp ?_).symm)
        rintro rfl same
        exact other same.symm

theorem insert_increasing (increasing : sorted.Pairwise fun first second => first.1 < second.1) (key : Bytes)
    (value : α) : (insert key value sorted).Pairwise fun first second => first.1 < second.1 := by
  induction sorted with
  | nil => exact List.pairwise_singleton _ _
  | cons first rest ih =>
      obtain ⟨least, increasing⟩ := List.pairwise_cons.1 increasing
      rw [insert]
      split
      · rename_i less
        refine .cons (fun other mem => ?_) (.cons least increasing)
        rcases List.mem_cons.1 mem with rfl | mem
        · exact less
        · exact List.lt_trans less (least other mem)
      split
      · rename_i same
        exact .cons (fun other mem => same ▸ least other mem) increasing
      · rename_i notLess other
        refine .cons (fun entry mem => ?_) (ih increasing)
        rcases (mem_insert increasing).1 mem with rfl | ⟨mem, _⟩
        · exact Std.lt_of_le_of_ne notLess (Ne.symm other)
        · exact least entry mem

theorem ofList_snoc (entries : List (Bytes × α)) (entry : Bytes × α) :
    ofList (entries ++ [entry]) = insert entry.1 entry.2 (ofList entries) := by
  simp [ofList]

/-- What remains has increasing keys. -/
theorem ofList_increasing (entries : List (Bytes × α)) :
    (ofList entries).Pairwise fun first second => first.1 < second.1 := by
  induction entries using List.reverseRecOn with
  | nil => exact .nil
  | append_singleton entries entry ih =>
      rw [ofList_snoc]
      exact insert_increasing ih _ _

/-- Of the entries under each key the last one remains. -/
theorem mem_ofList : (key, value) ∈ ofList entries ↔ LastUnder key entries value := by
  induction entries using List.reverseRecOn with
  | nil => simp [ofList, lastUnder_iff, valuesUnder]
  | append_singleton entries entry ih =>
      rw [ofList_snoc, mem_insert (ofList_increasing entries), lastUnder_snoc, ← ih]
      obtain ⟨name, x⟩ := entry
      simp [eq_comm]

theorem keys_eq_of_increasing {entries' : List (Bytes × β)}
    (increasing : entries.Pairwise fun first second => first.1 < second.1)
    (increasing' : entries'.Pairwise fun first second => first.1 < second.1)
    (same : ∀ key, key ∈ entries.map Prod.fst ↔ key ∈ entries'.map Prod.fst) :
    entries.map Prod.fst = entries'.map Prod.fst :=
  (List.pairwise_map.2 increasing).eq_of_mem_iff (List.pairwise_map.2 increasing') same

theorem mem_keys_ofList : key ∈ (ofList entries).map Prod.fst ↔ key ∈ entries.map Prod.fst := by
  rw [← exists_lastUnder_iff, ← exists_lastUnder_iff]
  refine exists_congr fun value => ?_
  rw [lastUnder_iff_mem (increasing_nodup (ofList_increasing entries)), mem_ofList]

/-- Entries with increasing keys are told by their members. -/
theorem eq_of_increasing (increasing : entries.Pairwise fun first second => first.1 < second.1)
    (increasing' : sorted.Pairwise fun first second => first.1 < second.1)
    (same : ∀ entry, entry ∈ entries ↔ entry ∈ sorted) : entries = sorted := by
  have : Std.Irrefl fun first second : Bytes × α => first.1 < second.1 := ⟨fun entry => List.lt_irrefl entry.1⟩
  have : Std.Antisymm fun first second : Bytes × α => first.1 < second.1 :=
    ⟨fun _ _ less greater => absurd greater (List.lt_asymm less)⟩
  exact increasing.eq_of_mem_iff increasing' same

/-- Entries that are sorted already stay as they are. -/
theorem ofList_of_sorted (increasing : entries.Pairwise fun first second => first.1 < second.1) :
    ofList entries = entries := by
  refine eq_of_increasing (ofList_increasing entries) increasing ?_
  rintro ⟨key, value⟩
  rw [mem_ofList, lastUnder_iff_mem (increasing_nodup increasing)]

/-- Without repeated keys all entries remain. -/
theorem perm_ofList (distinct : (entries.map Prod.fst).Nodup) : entries.Perm (ofList entries) := by
  rw [List.perm_ext_iff_of_nodup distinct.of_map (increasing_nodup (ofList_increasing entries)).of_map]
  rintro ⟨key, value⟩
  rw [mem_ofList, lastUnder_iff_mem distinct]

/-- Without repeated keys it does not matter in which order entries are put in. -/
theorem ofList_of_perm (perm : entries.Perm sorted) (distinct : (entries.map Prod.fst).Nodup) :
    ofList entries = ofList sorted := by
  refine eq_of_increasing (ofList_increasing entries) (ofList_increasing sorted) ?_
  rintro ⟨key, value⟩
  have distinct' : (sorted.map Prod.fst).Nodup := (perm.map Prod.fst).nodup_iff.1 distinct
  rw [mem_ofList, mem_ofList, lastUnder_iff_mem distinct, lastUnder_iff_mem distinct', perm.mem_iff]

/-- The entries that remain are made one by one from those that were put in. -/
theorem insert_map (f : Bytes → α → β) (key : Bytes) (value : α) (sorted : List (Bytes × α)) :
    insert key (f key value) (sorted.map fun entry => (entry.1, f entry.1 entry.2))
      = (insert key value sorted).map fun entry => (entry.1, f entry.1 entry.2) := by
  induction sorted with
  | nil => rfl
  | cons entry rest ih =>
      simp only [List.map_cons, insert]
      split
      · rfl
      split
      · rfl
      · rw [ih]
        rfl

theorem ofList_map (f : Bytes → α → β) (entries : List (Bytes × α)) :
    ofList (entries.map fun entry => (entry.1, f entry.1 entry.2))
      = (ofList entries).map fun entry => (entry.1, f entry.1 entry.2) := by
  induction entries using List.reverseRecOn with
  | nil => rfl
  | append_singleton entries entry ih =>
      rw [List.map_append, List.map_singleton, ofList_snoc, ofList_snoc, ih, insert_map]

/-- Parts made from entries are put in order with them. -/
theorem inOrder_map (f : Bytes × α → β) (entries : List (Bytes × α)) :
    inOrder (entries.map Prod.fst) (entries.map f) = (ofList entries).map f := by
  have parts : (entries.map Prod.fst).zip (entries.map f) = entries.map fun entry => (entry.1, f (entry.1, entry.2)) := by
    simp [List.zip_map']
  rw [inOrder, parts, ofList_map fun key value => f (key, value), List.map_map]
  rfl

end Entries

end JsonSidecar
