/-
Module: JsonSidecar.Proofs.Text.Visible
Purpose: Text that has no control character and so takes one line.  Texts are put together from visible ones: digits are
  visible, and so are ASCII bytes that are no control characters when they are read as text.
Main exports: Visible, visible_append, visible_toString, visible_intercalate, visible_lossyText
-/
import JsonSidecar.Decode.Failure
import JsonSidecar.Proofs.Text.Chars

namespace JsonSidecar

/-- No character of the text is a control character. -/
def Visible (text : String) : Prop := ∀ c ∈ text.toList, isControlChar c = false

instance (text : String) : Decidable (Visible text) :=
  decidable_of_iff ((text.toList.all fun c => !isControlChar c) = true) (by simp [Visible])

theorem visible_append {text text' : String} : Visible (text ++ text') ↔ Visible text ∧ Visible text' := by
  simp only [Visible, String.toList_append, List.forall_mem_append]

theorem Visible.append {text text' : String} (visible : Visible text) (visible' : Visible text') :
    Visible (text ++ text') := visible_append.2 ⟨visible, visible'⟩

/-- Visible text has no line break. -/
theorem Visible.newline_not_mem {text : String} (visible : Visible text) : '\n' ∉ text.toList := by
  intro mem
  have control := visible '\n' mem
  revert control
  decide

theorem visible_toString (n : Nat) : Visible (toString n) := by
  intro c mem
  have digits : (toString n).toList = Nat.toDigits 10 n := Nat.toList_repr
  rw [digits] at mem
  have digit := Nat.isDigit_of_mem_toDigits (by decide) (by decide) mem
  simp only [Char.isDigit, Bool.and_eq_true, decide_eq_true_eq, UInt32.le_iff_toNat_le] at digit
  have low : 0x30 ≤ c.toNat := digit.1
  have high : c.toNat ≤ 0x39 := digit.2
  simp only [isControlChar, Bool.or_eq_false_iff, Bool.and_eq_false_iff, decide_eq_false_iff_not]
  omega

theorem visible_intercalate {separator : String} (visible : Visible separator) {texts : List String}
    (all : ∀ text ∈ texts, Visible text) : Visible (separator.intercalate texts) := by
  induction texts with
  | nil => simp [Visible]
  | cons first rest ih =>
      have head := all first List.mem_cons_self
      have tail := ih fun text mem => all text (List.mem_cons_of_mem _ mem)
      cases rest with
      | nil => simpa using head
      | cons second rest =>
          rw [String.intercalate_cons_cons]
          exact (head.append visible).append tail

/-- Bytes that are neither control characters nor parts of longer characters are read as visible text. -/
theorem visible_lossyText {bytes : Bytes} (plain : ∀ b ∈ bytes, 0x20 ≤ b ∧ b < 0x7f) :
    Visible (Utf8.lossyText bytes) := by
  rw [Visible, Utf8.lossyText, String.toList_ofList]
  induction bytes with
  | nil => simp [Utf8.lossy, Utf8.pieces, Utf8.piecesFrom]
  | cons b bytes ih =>
      obtain ⟨low, high⟩ := plain b List.mem_cons_self
      have ascii : b < 0x80 := UInt8.lt_trans high (by decide)
      have first : Utf8.lossy (b :: bytes) = Char.ofNat b.toNat :: Utf8.lossy bytes := by
        rw [Utf8.lossy, Utf8.pieces, Utf8.piecesFrom_cons, Utf8.step, Utf8.lead_ascii ascii]
        rfl
      rw [first, List.forall_mem_cons]
      refine ⟨?_, ih fun b mem => plain b (List.mem_cons_of_mem _ mem)⟩
      rw [isControlChar, Utf8.toNat_ofNat_ascii ascii]
      rw [UInt8.le_iff_toNat_le] at low
      rw [UInt8.lt_iff_toNat_lt] at high
      simp at low high ⊢
      omega

end JsonSidecar
