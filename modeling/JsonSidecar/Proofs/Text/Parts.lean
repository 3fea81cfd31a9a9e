/-
Module: JsonSidecar.Proofs.Text.Parts
Purpose: Where the characters of a byte string lie.  The lenient reading makes one character of each part of a byte
  string, be it an encoding or an invalid piece.  A byte string may be cut in two next to an ASCII byte: no part
  reaches over such a place, so both sides are read on their own as they are read together.
Main exports: Utf8.parts, Utf8.flatten_parts, Utf8.parts_pieces, Utf8.Seam, Utf8.Seam.parts_append
-/
import JsonSidecar.Proofs.Text.Utf8

namespace JsonSidecar.Utf8

/-! ### Parts -/

/-- What a first byte makes: a part of its own, or the beginning of one. -/
def cutLead (b : UInt8) : List Bytes × Bytes := if (lead b).2 = .start then ([[b]], []) else ([], [b])

/-- What a byte makes of the bytes read of the present character: the parts that end with it or in front of it, and
    what is read of a character behind it. -/
def cut : State → Bytes → UInt8 → List Bytes × Bytes
  | .start, _, b => cutLead b
  | .inside left low high _, begun, b =>
    if low ≤ b && b ≤ high then
      match left with
      | 0 => ([begun ++ [b]], [])
      | _ + 1 => ([], begun ++ [b])
    else (begun :: (cutLead b).1, (cutLead b).2)

/-- The parts still to come from a given state, behind the bytes read of the present character. -/
def partsFrom : State → Bytes → Bytes → List Bytes
  | .start, _, [] => []
  | .inside .., begun, [] => [begun]
  | state, begun, b :: rest => (cut state begun b).1 ++ partsFrom (step state b).2 (cut state begun b).2 rest

/-- The bytes of each character and invalid piece of a byte string, in order. -/
def parts (bytes : Bytes) : List Bytes := partsFrom .start [] bytes

theorem partsFrom_cons (state : State) (begun : Bytes) (b : UInt8) (rest : Bytes) :
    partsFrom state begun (b :: rest)
      = (cut state begun b).1 ++ partsFrom (step state b).2 (cut state begun b).2 rest := by
  cases state with
  | start => rfl
  | inside left low high code => rfl

/-! ### Characters in progress -/

/-- What a first byte can be read as: a character or an invalid piece by itself, or the beginning of a character,
    whose next byte is no ASCII byte. -/
def Leads (outcome : List (Option Char) × State) : Prop :=
  (∃ piece, outcome = ([piece], .start)) ∨
    ∃ left low high code, outcome = ([], .inside left low high code) ∧ 0x80 ≤ low

theorem lead_cases (b : UInt8) : Leads (lead b) := by
  have one (piece : Option Char) : Leads ([piece], .start) := .inl ⟨piece, rfl⟩
  have more {left : Nat} {low high : UInt8} {code : Nat} (above : 0x80 ≤ low) :
      Leads ([], .inside left low high code) := .inr ⟨left, low, high, code, rfl, above⟩
  exact iteInduction (fun _ => one _) fun _ => iteInduction (fun _ => one _) fun _ =>
    iteInduction (fun _ => more (by decide)) fun _ => iteInduction (fun _ => more (by decide)) fun _ =>
    iteInduction (fun _ => more (by decide)) fun _ => iteInduction (fun _ => more (by decide)) fun _ =>
    iteInduction (fun _ => more (by decide)) fun _ => iteInduction (fun _ => more (by decide)) fun _ =>
    iteInduction (fun _ => more (by decide)) fun _ => one _

/-- What a byte does inside a character: it is the last byte of the character, or it goes on with it, or it breaks it
    off and is looked at as a first byte. -/
theorem inside_cases (left : Nat) (low high : UInt8) (code : Nat) (begun : Bytes) (b : UInt8) :
    (∃ piece, step (.inside left low high code) b = ([piece], .start) ∧
      cut (.inside left low high code) begun b = ([begun ++ [b]], []) ∧ low ≤ b) ∨
    (∃ left' code', step (.inside left low high code) b = ([], .inside left' 0x80 0xbf code') ∧
      cut (.inside left low high code) begun b = ([], begun ++ [b]) ∧ low ≤ b) ∨
    (step (.inside left low high code) b = (none :: (lead b).1, (lead b).2) ∧
      cut (.inside left low high code) begun b = (begun :: (cutLead b).1, (cutLead b).2)) := by
  by_cases fits : low ≤ b && b ≤ high
  · have above : low ≤ b := by
      rw [Bool.and_eq_true, decide_eq_true_eq] at fits
      exact fits.1
    cases left with
    | zero => exact .inl ⟨_, if_pos fits, if_pos fits, above⟩
    | succ left => exact .inr (.inl ⟨_, _, if_pos fits, if_pos fits, above⟩)
  · exact .inr (.inr ⟨if_neg fits, if_neg fits⟩)

/-- The bytes read so far lead from the beginning of a character to the state, in which no ASCII byte goes on with
    the character. -/
structure Begun (state : State) (begun : Bytes) : Prop where
  ahead : ∀ rest, pieces (begun ++ rest) = piecesFrom state rest
  empty : state = .start → begun = []
  high : ∀ {left low high code}, state = .inside left low high code → 0x80 ≤ low

theorem Begun.start : Begun .start [] where
  ahead _ := rfl
  empty _ := rfl
  high := nofun

theorem Begun.lead (b : UInt8) : Begun (lead b).2 (cutLead b).2 := by
  unfold cutLead
  obtain ⟨piece, same⟩ | ⟨left, low, high, code, same, above⟩ := lead_cases b
  · rw [same]
    exact .start
  · rw [same]
    refine ⟨fun rest => ?_, nofun, ?_⟩
    · show piecesFrom .start (b :: rest) = _
      rw [piecesFrom_cons, step, same]
      rfl
    · rintro _ _ _ _ ⟨⟩
      exact above

/-- A byte is read on, in the character or at the beginning of the next one. -/
theorem Begun.step {state : State} {begun : Bytes} (progress : Begun state begun) (b : UInt8) :
    Begun (step state b).2 (cut state begun b).2 := by
  cases state with
  | start => exact .lead b
  | inside left low high code =>
      obtain ⟨piece, stepped, split, _⟩ | ⟨left', code', stepped, split, _⟩ | ⟨stepped, split⟩ :=
        inside_cases left low high code begun b
      · rw [stepped, split]
        exact .start
      · rw [stepped, split]
        refine ⟨fun rest => ?_, nofun, ?_⟩
        · rw [List.append_assoc, progress.ahead, List.singleton_append, piecesFrom_cons, stepped]
          rfl
        · rintro _ _ _ _ ⟨⟩
          exact UInt8.le_refl _
      · rw [stepped, split]
        exact .lead b

/-! ### One character for each part -/

theorem cutLead_pieces (b : UInt8) : (cutLead b).1.map pieces = (lead b).1.map ([·]) := by
  unfold cutLead
  obtain ⟨piece, same⟩ | ⟨left, low, high, code, same, _⟩ := lead_cases b
  · have alone : pieces [b] = (lead b).1 ++ piecesFrom (lead b).2 [] := rfl
    rw [same] at alone ⊢
    exact congrArg ([·]) alone
  · rw [same]
    rfl

theorem cutLead_flatten (b : UInt8) : (cutLead b).1.flatten ++ (cutLead b).2 = [b] := by
  unfold cutLead
  split <;> rfl

theorem lead_ascii {b : UInt8} (ascii : b < 0x80) : lead b = ([some (Char.ofNat b.toNat)], .start) :=
  if_pos ascii

theorem cutLead_ascii {b : UInt8} (ascii : b < 0x80) : cutLead b = ([[b]], []) :=
  if_pos (by rw [lead_ascii ascii])

theorem parts_ascii {b : UInt8} (ascii : b < 0x80) (rest : Bytes) : parts (b :: rest) = [b] :: parts rest := by
  rw [parts, partsFrom_cons, cut, step, cutLead_ascii ascii, lead_ascii ascii]
  rfl

namespace Begun

variable {state : State} {begun : Bytes}

/-- What is broken off is an invalid piece. -/
theorem pieces_begun {left : Nat} {low high : UInt8} {code : Nat} (progress : Begun (.inside left low high code) begun) :
    pieces begun = [none] := by
  rw [← List.append_nil begun, progress.ahead]
  rfl

theorem cut_pieces (progress : Begun state begun) (b : UInt8) :
    (cut state begun b).1.map pieces = (Utf8.step state b).1.map ([·]) := by
  cases state with
  | start => exact cutLead_pieces b
  | inside left low high code =>
      obtain ⟨piece, stepped, split, _⟩ | ⟨left', code', stepped, split, _⟩ | ⟨stepped, split⟩ :=
        inside_cases left low high code begun b
      · have whole : pieces (begun ++ [b]) = [piece] := by
          rw [progress.ahead, piecesFrom_cons, stepped]
          rfl
        rw [stepped, split]
        exact congrArg ([·]) whole
      · rw [stepped, split]
        rfl
      · rw [stepped, split, List.map_cons, List.map_cons, cutLead_pieces, progress.pieces_begun]

/-- Each part, read by itself, is the character or the invalid piece that it is read as in the whole. -/
theorem partsFrom_pieces (progress : Begun state begun) (rest : Bytes) :
    (partsFrom state begun rest).map pieces = (piecesFrom state rest).map ([·]) := by
  induction rest generalizing state begun with
  | nil =>
      cases state with
      | start => rfl
      | inside left low high code => exact congrArg ([·]) progress.pieces_begun
  | cons b rest ih =>
      rw [partsFrom_cons, piecesFrom_cons, List.map_append, List.map_append, progress.cut_pieces b,
        ih (progress.step b)]

theorem cut_flatten (progress : Begun state begun) (b : UInt8) :
    (cut state begun b).1.flatten ++ (cut state begun b).2 = begun ++ [b] := by
  cases state with
  | start =>
      rw [progress.empty rfl]
      exact cutLead_flatten b
  | inside left low high code =>
      obtain ⟨_, _, split, _⟩ | ⟨_, _, _, split, _⟩ | ⟨_, split⟩ := inside_cases left low high code begun b
      · rw [split, List.flatten_singleton, List.append_nil]
      · rw [split, List.flatten_nil, List.nil_append]
      · rw [split, List.flatten_cons, List.append_assoc, cutLead_flatten]

theorem flatten_partsFrom (progress : Begun state begun) (rest : Bytes) :
    (partsFrom state begun rest).flatten = begun ++ rest := by
  induction rest generalizing state begun with
  | nil =>
      cases state with
      | start =>
          rw [progress.empty rfl]
          rfl
      | inside left low high code => rfl
  | cons b rest ih =>
      rw [partsFrom_cons, List.flatten_append, ih (progress.step b), ← List.append_assoc, progress.cut_flatten b,
        List.append_assoc, List.singleton_append]

/-- An ASCII byte ends whatever is in progress in front of it. -/
theorem partsFrom_ascii (progress : Begun state begun) {b : UInt8} (ascii : b < 0x80) (rest : Bytes) :
    partsFrom state begun (b :: rest) = partsFrom state begun [] ++ parts (b :: rest) := by
  cases state with
  | start =>
      rw [progress.empty rfl]
      rfl
  | inside left low high code =>
      have outside : ¬ low ≤ b := fun le =>
        UInt8.lt_irrefl _ (UInt8.lt_of_le_of_lt (UInt8.le_trans (progress.high rfl) le) ascii)
      obtain ⟨_, _, _, le⟩ | ⟨_, _, _, _, le⟩ | ⟨stepped, split⟩ := inside_cases left low high code begun b
      · exact absurd le outside
      · exact absurd le outside
      · rw [partsFrom_cons, stepped, split, cutLead_ascii ascii, lead_ascii ascii, parts_ascii ascii]
        rfl

theorem partsFrom_append_ascii (progress : Begun state begun) (front : Bytes) {b : UInt8} (ascii : b < 0x80)
    (rest : Bytes) : partsFrom state begun (front ++ b :: rest) = partsFrom state begun front ++ parts (b :: rest) := by
  induction front generalizing state begun with
  | nil => exact progress.partsFrom_ascii ascii rest
  | cons x front ih =>
      rw [List.cons_append, partsFrom_cons, partsFrom_cons, ih (progress.step x), List.append_assoc]

end Begun

theorem parts_pieces (bytes : Bytes) : (parts bytes).map pieces = (pieces bytes).map ([·]) :=
  Begun.start.partsFrom_pieces bytes

/-- A byte string is made of its parts. -/
theorem flatten_parts (bytes : Bytes) : (parts bytes).flatten = bytes :=
  Begun.start.flatten_partsFrom bytes

theorem parts_eq_nil_iff {bytes : Bytes} : parts bytes = [] ↔ bytes = [] := by
  constructor
  · intro none
    rw [← flatten_parts bytes, none, List.flatten_nil]
  · rintro rfl
    rfl

/-- The lenient reading has one character for each part, which is what the part is read as by itself. -/
theorem parts_lossy (bytes : Bytes) : (parts bytes).map lossy = (lossy bytes).map ([·]) := by
  have read := congrArg (List.map (List.map fun piece => piece.getD '\uFFFD')) (parts_pieces bytes)
  rw [List.map_map, List.map_map] at read
  rw [lossy, List.map_map]
  exact read

/-- A character of two bytes, an encoding that breaks off, and an ASCII character. -/
example : parts [0xc3, 0xa9, 0xe2, 0x82, 0x41] = [[0xc3, 0xa9], [0xe2, 0x82], [0x41]] := by decide

theorem length_lossy (bytes : Bytes) : (lossy bytes).length = (parts bytes).length := by
  simpa using congrArg List.length (parts_lossy bytes).symm

/-- No part reaches over the place in front of an ASCII byte. -/
theorem parts_append_ascii {b : UInt8} (ascii : b < 0x80) (front rest : Bytes) :
    parts (front ++ b :: rest) = parts front ++ parts (b :: rest) :=
  Begun.start.partsFrom_append_ascii front ascii rest

/-! ### Seams -/

/-- The two sides of a place in a byte string that no character reaches over: one side is empty, or an ASCII byte
    stands in front of the place or behind it. -/
inductive Seam : Bytes → Bytes → Prop where
  | start (rest : Bytes) : Seam [] rest
  | finish (front : Bytes) : Seam front []
  | behind (front : Bytes) {b : UInt8} (ascii : b < 0x80) (rest : Bytes) : Seam (front ++ [b]) rest
  | before (front : Bytes) {b : UInt8} (ascii : b < 0x80) (rest : Bytes) : Seam front (b :: rest)

namespace Seam

variable {u v : Bytes}

/-- More bytes in front make no difference, unless there was nothing in front. -/
theorem append_left {front : Bytes} (seam : Seam u v) (first : Seam front (u ++ v)) : Seam (front ++ u) v := by
  cases seam with
  | start => simpa using first
  | finish => exact .finish _
  | @behind u b ascii =>
      rw [← List.append_assoc]
      exact .behind _ ascii _
  | before u ascii rest => exact .before _ ascii rest

/-- On the two sides of a seam the parts are those of the whole. -/
theorem parts_append (seam : Seam u v) : parts (u ++ v) = parts u ++ parts v := by
  cases seam with
  | start => rfl
  | finish => simp [parts, partsFrom]
  | @behind front b ascii =>
      have cut (rest : Bytes) : parts (front ++ b :: rest) = parts front ++ [b] :: parts rest := by
        rw [parts_append_ascii ascii, parts_ascii ascii]
      rw [List.append_assoc, List.singleton_append, cut, cut [], List.append_assoc]
      rfl
  | before _ ascii rest => exact parts_append_ascii ascii u rest

end Seam

end JsonSidecar.Utf8
