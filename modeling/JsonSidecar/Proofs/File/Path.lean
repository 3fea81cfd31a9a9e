/-
Module: JsonSidecar.Proofs.File.Path
Purpose: Where paths lead that go on from one path.  Such a path passes all the places that the first one does; and
  where only its last name goes on, different endings lead to different places.  A path that does not lead upwards is
  none of the directories around it.
Main exports: PlainSuffix, Route.around_append, Route.ofPath_append_plain, Route.parents_length_lt, placeOf_append,
  placeOf_append_inj
-/
import JsonSidecar.File.Path

namespace JsonSidecar

/-- What makes another name of any path when it is put behind it. -/
structure PlainSuffix (suffix : String) : Prop where
  noSlash : '/' ∉ suffix.toList
  ne_dot : suffix ≠ "."
  ne_dots : suffix ≠ ".."

instance (suffix : String) : Decidable (PlainSuffix suffix) :=
  decidable_of_iff ('/' ∉ suffix.toList ∧ suffix ≠ "." ∧ suffix ≠ "..")
    ⟨fun ⟨noSlash, ne_dot, ne_dots⟩ => ⟨noSlash, ne_dot, ne_dots⟩,
      fun ⟨noSlash, ne_dot, ne_dots⟩ => ⟨noSlash, ne_dot, ne_dots⟩⟩

/-- Behind anything it makes a name. -/
theorem PlainSuffix.append_ne {suffix : String} (plain : PlainSuffix suffix) (some : suffix ≠ "") (part : String) :
    part ++ suffix ≠ "." ∧ part ++ suffix ≠ ".." := by
  have content : suffix.toList ≠ [] := fun none => some (String.toList_eq_nil_iff.1 none)
  constructor
  · intro same
    have chars : part.toList ++ suffix.toList = ['.'] := by
      rw [← String.toList_append, same]
      rfl
    rcases List.append_eq_singleton_iff.1 chars with ⟨_, dot⟩ | ⟨_, none⟩
    · exact plain.ne_dot (String.toList_injective dot)
    · exact content none
  · intro same
    have chars : part.toList ++ suffix.toList = ['.', '.'] := by
      rw [← String.toList_append, same]
      rfl
    rcases List.append_eq_cons_iff.1 chars with ⟨_, dots⟩ | ⟨_, _, rest⟩
    · exact plain.ne_dots (String.toList_injective dots)
    · rcases List.append_eq_singleton_iff.1 rest.symm with ⟨_, dot⟩ | ⟨_, none⟩
      · exact plain.ne_dot (String.toList_injective dot)
      · exact content none

theorem PlainSuffix.append {suffix other : String} (plain : PlainSuffix suffix) (plain' : PlainSuffix other) :
    PlainSuffix (suffix ++ other) := by
  by_cases some : other = ""
  · rwa [some, String.append_empty]
  · obtain ⟨ne_dot, ne_dots⟩ := plain'.append_ne some suffix
    refine ⟨?_, ne_dot, ne_dots⟩
    rw [String.toList_append, List.mem_append, not_or]
    exact ⟨plain.noSlash, plain'.noSlash⟩

namespace Route

variable {place : Place} {path suffix : String}

theorem ofPath_append (path suffix : String) : ofPath (path ++ suffix) = suffix.toList.foldl push (ofPath path) := by
  rw [ofPath, String.toList_append, List.foldl_append, ofPath]

/-! ### Places on the way -/

/-- As a path goes on, its parts stay in front. -/
theorem front_prefix (chars : List Char) (route : Route) : route.front <+: (chars.foldl push route).front := by
  induction chars generalizing route with
  | nil => exact List.prefix_refl _
  | cons c chars ih =>
      have grown : route.front <+: (push route c).front := by
        unfold push
        split
        · exact List.prefix_append _ _
        · exact List.prefix_refl _
      exact grown.trans (ih _)

theorem passed_append (place : Place) (parts more : List String) :
    passed place (parts ++ more) = passed place parts ++ passed (walk place parts) more := by
  induction parts generalizing place with
  | nil => rfl
  | cons part parts ih => exact congrArg (enter place part :: ·) (ih (enter place part))

/-- A path that goes on passes what it passed before. -/
theorem around_append (path suffix : String) : (ofPath path).around ⊆ (ofPath (path ++ suffix)).around := by
  obtain ⟨more, longer⟩ := front_prefix suffix.toList (ofPath path)
  rw [around, around, ofPath_append, ← longer, passed_append]
  exact List.subset_append_left _ _

/-! ### Places around a path -/

theorem place_eq_walk (route : Route) : route.place = walk [] (route.front ++ [route.last]) := by
  rw [walk, List.foldl_append]
  rfl

theorem walk_length_le (place : Place) (parts : List String) :
    (walk place parts).length ≤ place.length + parts.length := by
  induction parts generalizing place with
  | nil => exact Nat.le_refl _
  | cons part parts ih =>
      have down : (enter place part).length ≤ place.length + 1 := by
        unfold enter
        split
        · exact Nat.le_succ _
        · split
          · rw [List.length_dropLast]
            omega
          · exact Nat.le_of_eq (List.length_append ..)
      have rest := ih (enter place part)
      rw [List.length_cons]
      exact Nat.le_trans rest (by omega)

/-- Where no part leads upwards, all names are steps down. -/
theorem walk_length {parts : List String} (level : ".." ∉ parts) (place : Place) :
    (walk place parts).length = place.length + (parts.filter leads).length := by
  induction parts generalizing place with
  | nil => rfl
  | cons part parts ih =>
      rw [List.mem_cons, not_or] at level
      have rest : (walk place (part :: parts)).length = (enter place part).length + (parts.filter leads).length :=
        ih level.2 (enter place part)
      rw [rest, enter, if_neg (Ne.symm level.1)]
      by_cases stays : part = "" ∨ part = "."
      · have idle : ¬ leads part = true := by
          rcases stays with rfl | rfl <;> decide
        rw [if_pos stays, List.filter_cons_of_neg idle]
      · have named : leads part = true := by
          rw [not_or] at stays
          simp [leads, stays]
        rw [if_neg stays, List.filter_cons_of_pos named, List.length_append, List.length_singleton, List.length_cons]
        omega

/-- The directories around the end of a route lie less deep than it has names. -/
theorem beginnings_length_le {front names : List String} {parent : Route} (mem : parent ∈ beginnings front names) :
    parent.place.length ≤ front.length + names.length := by
  induction names generalizing front with
  | nil => cases mem
  | cons name names ih =>
      rw [List.length_cons]
      rcases List.mem_cons.1 mem with rfl | mem
      · have down : (Route.place ⟨front, name⟩).length ≤ 0 + (front ++ [name]).length := by
          rw [place_eq_walk]
          exact walk_length_le [] (front ++ [name])
        rw [List.length_append, List.length_singleton] at down
        omega
      · have rest := ih mem
        rw [List.length_append, List.length_singleton] at rest
        omega

theorem parents_length_lt {route parent : Route} (mem : parent ∈ route.parents) :
    parent.place.length < route.names.length := by
  have inside := beginnings_length_le mem
  have some : route.names ≠ [] := by
    intro none
    rw [parents, none] at mem
    cases mem
  have positive := List.length_pos_iff.2 some
  rw [List.length_dropLast, List.length_nil] at inside
  omega

/-- A path that does not lead upwards is not around itself. -/
theorem names_length_le_place {route : Route} (level : ".." ∉ route.names) :
    route.names.length ≤ route.place.length := by
  have level' : ".." ∉ route.front ++ [route.last] := fun mem => level (List.mem_filter.2 ⟨mem, by decide⟩)
  rw [place_eq_walk, walk_length level', names]
  exact Nat.le_add_left _ _

/-! ### Names that go on -/

/-- What has no slash goes to the last part. -/
theorem foldl_push {chars : List Char} (noSlash : '/' ∉ chars) (route : Route) :
    chars.foldl push route = ⟨route.front, route.last ++ String.ofList chars⟩ := by
  induction chars generalizing route with
  | nil => rw [List.foldl_nil, String.ofList_nil, String.append_empty]
  | cons c chars ih =>
      rw [List.mem_cons, not_or] at noSlash
      rw [List.foldl_cons, ih noSlash.2, push, if_neg (Ne.symm noSlash.1)]
      congr 1
      apply String.toList_injective
      simp

theorem ofPath_append_plain (noSlash : '/' ∉ suffix.toList) (path : String) :
    ofPath (path ++ suffix) = ⟨(ofPath path).front, (ofPath path).last ++ suffix⟩ := by
  rw [ofPath_append, foldl_push noSlash, String.ofList_toList]

/-- A name that goes on stays a name, or becomes one. -/
theorem enter_append (plain : PlainSuffix suffix) (some : suffix ≠ "") (place : Place) (part : String) :
    enter place (part ++ suffix) = place ++ [part ++ suffix] := by
  obtain ⟨ne_dot, ne_dots⟩ := plain.append_ne some part
  have named : part ++ suffix ≠ "" := fun none => some (String.append_eq_empty_iff.1 none).2
  rw [enter, if_neg (by simp [named, ne_dot]), if_neg ne_dots]

/-- No part leads from a place to where a longer part leads from it. -/
theorem enter_ne_append (some : suffix ≠ "") (place : Place) (part : String) :
    enter place part ≠ place ++ [part ++ suffix] := by
  intro same
  unfold enter at same
  split at same
  · simpa using congrArg List.length same
  · split at same
    · have lengths := congrArg List.length same
      rw [List.length_dropLast, List.length_append, List.length_singleton] at lengths
      omega
    · have longer := List.singleton_inj.1 (List.append_cancel_left same)
      exact some (String.append_eq_left_iff.1 longer.symm)

end Route

open Route

variable {path suffix other : String}

/-- A path whose last name goes on leads to another name in the same directory. -/
theorem placeOf_append (plain : PlainSuffix suffix) (some : suffix ≠ "") (path : String) :
    placeOf (path ++ suffix) = walk [] (ofPath path).front ++ [(ofPath path).last ++ suffix] := by
  rw [placeOf, ofPath_append_plain plain.noSlash, place]
  exact enter_append plain some _ _

theorem placeOf_append_ne (plain : PlainSuffix suffix) (some : suffix ≠ "") (path : String) :
    placeOf (path ++ suffix) ≠ placeOf path := by
  rw [placeOf_append plain some]
  exact (enter_ne_append some _ _).symm

/-- Nor is a path in the same directory around it. -/
theorem names_length_le_append (plain : PlainSuffix suffix) (some : suffix ≠ "") {path : String}
    (level : ".." ∉ (ofPath path).names) : (ofPath path).names.length ≤ (placeOf (path ++ suffix)).length := by
  have level' : ".." ∉ (ofPath path).front := fun mem =>
    level (List.mem_filter.2 ⟨List.mem_append_left _ mem, by decide⟩)
  have last := List.length_filter_le leads [(ofPath path).last]
  rw [placeOf_append plain some, List.length_append, walk_length level', names, List.filter_append, List.length_append,
    List.length_nil, Nat.zero_add]
  exact Nat.add_le_add_left last _

/-- Paths that end differently behind one path lead to different places. -/
theorem placeOf_append_inj (plain : PlainSuffix suffix) (plain' : PlainSuffix other)
    (same : placeOf (path ++ suffix) = placeOf (path ++ other)) : suffix = other := by
  by_cases some : suffix = ""
  · subst some
    by_cases some' : other = ""
    · exact some'.symm
    · rw [String.append_empty] at same
      cases placeOf_append_ne plain' some' path same.symm
  · by_cases some' : other = ""
    · subst some'
      rw [String.append_empty] at same
      cases placeOf_append_ne plain some path same
    · rw [placeOf_append plain some, placeOf_append plain' some'] at same
      exact (String.append_right_inj _).1 (List.singleton_inj.1 (List.append_cancel_left same))

end JsonSidecar
