/-
Module: JsonSidecar.Proofs.Text.Utf8
Purpose: UTF-8 read byte by byte gives back the characters that were encoded, so the encoding of any text is valid.
Main exports: Utf8.pieces_utf8, Utf8.isValid_utf8
-/
import JsonSidecar.Text.Utf8
import Mathlib.Data.List.Basic

namespace JsonSidecar.Utf8

theorem piecesFrom_cons (state : State) (b : UInt8) (rest : Bytes) :
    piecesFrom state (b :: rest) = (step state b).1 ++ piecesFrom (step state b).2 rest := by
  cases state with
  | start => rfl
  | inside left low high code => rfl

/-! ### First bytes -/

theorem lead_one : ∀ n < 128, lead (UInt8.ofNat n) = ([some (Char.ofNat n)], .start) := by
  decide

theorem lead_two : ∀ n < 32, 2 ≤ n → lead (UInt8.ofNat (n + 192)) = ([], .inside 0 0x80 0xbf n) := by
  decide

theorem lead_three : ∀ n < 16, lead (UInt8.ofNat (n + 224))
    = ([], .inside 1 (if n = 0 then 0xa0 else 0x80) (if n = 13 then 0x9f else 0xbf) n) := by
  decide

theorem lead_four : ∀ n < 5, lead (UInt8.ofNat (n + 240))
    = ([], .inside 2 (if n = 0 then 0x90 else 0x80) (if n = 4 then 0x8f else 0xbf) n) := by
  decide

/-! ### Bytes behind the first -/

theorem toNat_behind {n : Nat} (small : n < 64) : (UInt8.ofNat (n + 128)).toNat = n + 128 := by
  rw [UInt8.toNat_ofNat']
  omega

/-- A byte in the range that is open to it continues the character. -/
theorem step_more {low high : UInt8} {n : Nat} (small : n < 64) (lower : low.toNat ≤ n + 128)
    (upper : n + 128 ≤ high.toNat) (left code : Nat) :
    step (.inside (left + 1) low high code) (UInt8.ofNat (n + 128))
      = ([], .inside left 0x80 0xbf (code * 64 + n)) := by
  have range : low ≤ UInt8.ofNat (n + 128) ∧ UInt8.ofNat (n + 128) ≤ high := by
    rw [UInt8.le_iff_toNat_le, UInt8.le_iff_toNat_le, toNat_behind small]
    exact ⟨lower, upper⟩
  simp only [step, Bool.and_eq_true, decide_eq_true_eq, if_pos range, toNat_behind small, Nat.add_sub_cancel]

/-- Behind the second byte the whole range is open. -/
theorem step_behind {n : Nat} (small : n < 64) (left code : Nat) :
    step (.inside (left + 1) 0x80 0xbf code) (UInt8.ofNat (n + 128))
      = ([], .inside left 0x80 0xbf (code * 64 + n)) := by
  apply step_more small
  · exact Nat.le_add_left 128 n
  · exact Nat.add_le_add_right (Nat.le_of_lt_succ small) 128

/-- The byte behind all others ends the character. -/
theorem step_last {n : Nat} (small : n < 64) (code : Nat) :
    step (.inside 0 0x80 0xbf code) (UInt8.ofNat (n + 128)) = ([some (Char.ofNat (code * 64 + n))], .start) := by
  have range : 0x80 ≤ UInt8.ofNat (n + 128) ∧ UInt8.ofNat (n + 128) ≤ 0xbf := by
    rw [UInt8.le_iff_toNat_le, UInt8.le_iff_toNat_le, toNat_behind small]
    exact ⟨Nat.le_add_left 128 n, Nat.add_le_add_right (Nat.le_of_lt_succ small) 128⟩
  simp only [step, Bool.and_eq_true, decide_eq_true_eq, if_pos range, toNat_behind small, Nat.add_sub_cancel]

/-! ### Whole characters -/

/-- The bytes of one character are read as that character. -/
theorem piecesFrom_encodeChar (c : Char) (rest : Bytes) :
    piecesFrom .start (String.utf8EncodeChar c ++ rest) = some c :: piecesFrom .start rest := by
  have same : Char.ofNat c.val.toNat = c := Char.ofNat_toNat c
  have valid : c.val.toNat < 0xd800 ∨ 0xdfff < c.val.toNat ∧ c.val.toNat < 0x110000 := c.valid
  unfold String.utf8EncodeChar
  generalize c.val.toNat = v at same valid
  dsimp only
  split
  · rename_i one
    have first : step .start (UInt8.ofNat v) = _ := lead_one v (by omega)
    simp only [List.cons_append, List.nil_append, piecesFrom_cons, first, same]
  split
  · rename_i two
    have first : step .start (UInt8.ofNat (v / 64 % 32 + 192)) = _ := lead_two (v / 64 % 32) (by omega) (by omega)
    have last := step_last (n := v % 64) (by omega) (v / 64 % 32)
    have whole : v / 64 % 32 * 64 + v % 64 = v := by omega
    simp only [List.cons_append, List.nil_append, piecesFrom_cons, first, last, whole, same]
  split
  · rename_i three
    have first : step .start (UInt8.ofNat (v / 4096 % 16 + 224)) = _ := lead_three (v / 4096 % 16) (by omega)
    -- The ranges for the second byte shut out codes of fewer bytes and surrogates.
    have lower : (if v / 4096 % 16 = 0 then 0xa0 else 0x80 : UInt8).toNat ≤ v / 64 % 64 + 128 := by
      split
      · show 160 ≤ _
        omega
      · exact Nat.le_add_left 128 _
    have upper : v / 64 % 64 + 128 ≤ (if v / 4096 % 16 = 13 then 0x9f else 0xbf : UInt8).toNat := by
      split
      · show _ ≤ 159
        omega
      · show _ ≤ 191
        omega
    have second := step_more (by omega) lower upper 0 (v / 4096 % 16)
    have last := step_last (n := v % 64) (by omega) (v / 4096 % 16 * 64 + v / 64 % 64)
    have whole : (v / 4096 % 16 * 64 + v / 64 % 64) * 64 + v % 64 = v := by omega
    simp only [List.cons_append, List.nil_append, piecesFrom_cons, first, second, last, whole, same]
  · rename_i four
    have first : step .start (UInt8.ofNat (v / 262144 % 8 + 240)) = _ := lead_four (v / 262144 % 8) (by omega)
    -- The ranges for the second byte shut out codes of fewer bytes and those above the last one.
    have lower : (if v / 262144 % 8 = 0 then 0x90 else 0x80 : UInt8).toNat ≤ v / 4096 % 64 + 128 := by
      split
      · show 144 ≤ _
        omega
      · exact Nat.le_add_left 128 _
    have upper : v / 4096 % 64 + 128 ≤ (if v / 262144 % 8 = 4 then 0x8f else 0xbf : UInt8).toNat := by
      split
      · show _ ≤ 143
        omega
      · show _ ≤ 191
        omega
    have second := step_more (by omega) lower upper 1 (v / 262144 % 8)
    have third := step_behind (n := v / 64 % 64) (by omega) 0 (v / 262144 % 8 * 64 + v / 4096 % 64)
    have last := step_last (n := v % 64) (by omega)
      ((v / 262144 % 8 * 64 + v / 4096 % 64) * 64 + v / 64 % 64)
    have whole : ((v / 262144 % 8 * 64 + v / 4096 % 64) * 64 + v / 64 % 64) * 64 + v % 64 = v := by omega
    simp only [List.cons_append, List.nil_append, piecesFrom_cons, first, second, third, last, whole, same]

/-- The bytes of a text are read as its characters. -/
theorem pieces_utf8 (text : String) : pieces (utf8 text) = text.toList.map some := by
  unfold pieces utf8
  induction text.toList with
  | nil => rfl
  | cons c rest ih => rw [List.flatMap_cons, piecesFrom_encodeChar, ih, List.map_cons]

/-- Every text is encoded validly. -/
theorem isValid_utf8 (text : String) : isValid (utf8 text) = true := by
  rw [isValid, pieces_utf8, List.all_map]
  exact List.all_eq_true.2 fun _ _ => rfl

end JsonSidecar.Utf8
