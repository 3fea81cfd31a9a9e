/-
Module: JsonSidecar.Proofs.Floats
Purpose: Floating-point numbers come back from their texts bit for bit, in both precisions and wherever the texts stand.
  So the law that the readers of whole values ask for holds of every value.
Main exports: FloatFormat.readFloat_text, FloatFormat.Survives, floats_survive, Val.leafReadsBack
-/
import JsonSidecar.Proofs.Number.Survival
import JsonSidecar.Proofs.Restored

namespace JsonSidecar

open Reader

namespace FloatFormat

variable {f : FloatFormat}

/-- The law of numbers that are written by their digits. -/
theorem readsBack (standard : f.IsStandard) {bits : Nat} (word : bits < 2 * f.signBit) : f.ReadsBack bits := by
  intro written
  obtain ⟨_, _, _, l, strict, text, same⟩ := text_floatBits standard word written
  have reads := readFloat_literal f "" strict.toWellFormed
  rw [text, same] at reads
  have whole : (Cursor.start (f.text bits)).Spans (f.text bits) ⟨(f.text bits).length, []⟩ :=
    ⟨(List.append_nil _).symm, (Nat.zero_add _).symm⟩
  exact ⟨_, reads _ _ whole .nil⟩

/-- Every text of a number is read as `reread` says. -/
theorem readFloat_text (standard : f.IsStandard) (expected : String) {bits : Nat} (word : bits < 2 * f.signBit) :
    (readFloat f expected).Reads (f.text bits) (f.reread bits) := by
  obtain ⟨bits', reads, same⟩ := readFloat_reads standard expected bits
  rwa [same (readsBack standard word)] at reads

/-! ### Kinds of patterns -/

/-- Only the pattern zero stands for no units. -/
theorem magnitude_of_units_eq_zero {magnitude : Nat} (none : f.units magnitude = 0) : magnitude = 0 := by
  obtain ⟨mantissa, exponent, value, same, _, normal⟩ := units_eq (f := f) magnitude
  rw [none] at value
  have empty : mantissa = 0 := by
    rcases Nat.mul_eq_zero.1 value.symm with empty | power
    · exact empty
    · exact absurd power (Nat.pos_iff_ne_zero.1 (Nat.pow_pos (by decide)))
  have least : exponent = 0 := by
    apply normal.resolve_left
    rw [empty, Nat.not_le]
    exact Nat.pow_pos (by decide)
  rw [same, empty, least, Nat.zero_mul]

theorem classify_of_isFinite {bits : Nat} (finite : f.isFinite bits = true) :
    f.classify bits = .finite (f.isNegative bits) (f.units (f.magnitude bits)) := by
  have below : f.magnitude bits < f.infinityBits := of_decide_eq_true finite
  rw [classify, if_neg (by omega), if_neg (by omega)]

theorem classify_of_isNan {bits : Nat} (nan : f.isNan bits = true) : f.classify bits = .nan :=
  if_pos (of_decide_eq_true nan)

/-- A finite number is read back as it is, negative zero excepted. -/
theorem reread_of_isFinite {bits : Nat} (word : bits < 2 * f.signBit) (finite : f.isFinite bits = true)
    (other : bits ≠ f.signBit) : f.reread bits = bits := by
  rw [reread, classify_of_isFinite finite]
  dsimp only
  split
  · rename_i none
    have zero : bits % f.signBit = 0 := magnitude_of_units_eq_zero none
    have positive : 0 < f.signBit := Nat.pow_pos (by decide)
    rcases Nat.lt_or_ge bits f.signBit with unsigned | signed
    · rw [Nat.mod_eq_of_lt unsigned] at zero
      exact zero.symm
    · rw [Nat.mod_eq_sub_mod signed, Nat.mod_eq_of_lt (by omega)] at zero
      omega
  · rfl

/-- Negative zero is read back as zero. -/
theorem reread_signBit (standard : f.IsStandard) : f.reread f.signBit = 0 := by
  rcases standard with rfl | rfl
  · decide +kernel
  · decide +kernel

/-! ### Words -/

/-- How the numbers of a format fare that words of a type hold, when a reader reads their texts; infinity is read as
    the number that is given for its sign. -/
structure Survives (f : FloatFormat) {W : Type} (toNat : W → Nat) (ofNat : Nat → W) (text : W → Bytes)
    (reader : Reader W) (infinity : Bool → W) : Prop where
  /-- A finite number other than negative zero comes back bit for bit. -/
  finite (w : W) : f.isFinite (toNat w) = true → toNat w ≠ f.signBit → reader.Reads (text w) w
  /-- Negative zero comes back as zero. -/
  negativeZero (w : W) : toNat w = f.signBit → reader.Reads (text w) (ofNat 0)
  /-- What is no number is written as `null` and comes back as no number. -/
  nan (w : W) : f.isNan (toNat w) = true →
    text w = Word.null ∧ reader.Reads (text w) (ofNat f.nanBits) ∧ f.isNan (toNat (ofNat f.nanBits)) = true
  /-- Infinity comes back as what is given for it. -/
  infinite (w : W) (negative : Bool) : f.classify (toNat w) = .infinite negative →
    reader.Reads (text w) (infinity negative)
  /-- There is always room for the rendering, so that the text is a layout of it. -/
  rendered (w : W) : f.isFinite (toNat w) = true → f.units (f.magnitude (toNat w)) ≠ 0 →
    ∃ rendering, (Scientific.ofRatio f.decimalDigits (f.units (f.magnitude (toNat w))) (2 ^ f.unitExponent)).rendered?
        = some rendering ∧
      rendering.length ≤ Scientific.renderingRoom ∧
      text w = Scientific.layoutRendering f.decimalDigits (f.isNegative (toNat w)) rendering

theorem rendered?_length {s : Scientific} {rendering : Bytes} (rendered : s.rendered? = some rendering) :
    rendering.length ≤ Scientific.renderingRoom := by
  unfold Scientific.rendered? at rendered
  dsimp only at rendered
  split at rendered
  · rename_i fits
    rwa [← Option.some.inj rendered]
  · cases rendered

/-- The numbers of a standard format survive in words that hold just its patterns. -/
theorem survives (standard : f.IsStandard) {W : Type} {toNat : W → Nat} {ofNat : Nat → W}
    (word : ∀ w, toNat w < 2 * f.signBit) (same : ∀ w, ofNat (toNat w) = w) (expected : String)
    (none : f.isNan (toNat (ofNat f.nanBits)) = true) :
    f.Survives toNat ofNat (fun w => f.text (toNat w)) (ofNat <$> readFloat f expected)
      (fun negative => ofNat (f.withSign negative (f.nearest (10 ^ 308) 1))) := by
  have reads (w : W) : (ofNat <$> readFloat f expected).Reads (f.text (toNat w)) (ofNat (f.reread (toNat w))) :=
    (readFloat_text standard expected (word w)).map ofNat
  constructor
  · intro w finite other
    have back := reads w
    rwa [reread_of_isFinite (word w) finite other, same] at back
  · intro w zero
    have back := reads w
    rwa [zero, reread_signBit standard, ← zero] at back
  · intro w nan
    have kind := classify_of_isNan nan
    have back := reads w
    rw [reread, kind] at back
    exact ⟨text_nan kind, back, none⟩
  · intro w negative infinite
    have back := reads w
    rwa [reread, infinite] at back
  · intro w finite other
    have written : f.hasDigits (toNat w) = true := by
      rw [hasDigits, classify_of_isFinite finite]
      exact bne_iff_ne.2 other
    obtain ⟨rendering, rendered, text, _⟩ := text_floatBits standard (word w) written
    exact ⟨rendering, rendered, rendered?_length rendered, text⟩

/-- The number that is written for infinity is finite in double precision, and infinity in single precision. -/
theorem nearest_infinity :
    double.isFinite (double.nearest (10 ^ 308) 1) = true ∧ single.nearest (10 ^ 308) 1 = single.infinityBits := by
  decide +kernel

example : double.nearest (10 ^ 308) 1 = 0x7fe1ccf385ebc8a0 := by decide +kernel

end FloatFormat

/-- Numbers survive their texts in both precisions.  Infinity comes back as the number nearest to `1e308` in double
    precision and as itself in single precision. -/
theorem floats_survive :
    FloatFormat.double.Survives UInt64.toNat UInt64.ofNat doubleText readDouble
      (fun negative => UInt64.ofNat (FloatFormat.double.withSign negative (FloatFormat.double.nearest (10 ^ 308) 1))) ∧
    FloatFormat.single.Survives UInt32.toNat UInt32.ofNat singleText readSingle
      (fun negative => UInt32.ofNat (FloatFormat.single.withSign negative FloatFormat.single.infinityBits)) := by
  constructor
  · exact FloatFormat.survives FloatFormat.double_isStandard (fun w => w.toNat_lt) (fun _ => UInt64.ofNat_toNat)
      Scalar.double.name (by decide +kernel)
  · have survives := FloatFormat.survives FloatFormat.single_isStandard (fun w => UInt32.toNat_lt w)
      (fun _ => UInt32.ofNat_toNat) Scalar.single.name (by decide +kernel)
    rwa [FloatFormat.nearest_infinity.2] at survives

/-! ### The law of whole values -/

theorem doubleReadsBack (bits : UInt64) : DoubleReadsBack bits :=
  FloatFormat.readsBack FloatFormat.double_isStandard bits.toNat_lt

theorem singleReadsBack (bits : UInt32) : SingleReadsBack bits :=
  FloatFormat.readsBack FloatFormat.single_isStandard bits.toNat_lt

theorem Datum.readsBack (d : Datum) : d.ReadsBack := by
  cases d with
  | bool b => trivial
  | int n => trivial
  | double bits => exact doubleReadsBack bits
  | single bits => exact singleReadsBack bits
  | complex re im => exact ⟨doubleReadsBack re, doubleReadsBack im⟩

theorem NumericRange.readsBack (r : NumericRange) : r.ReadsBack := ⟨doubleReadsBack r.min, doubleReadsBack r.max⟩

theorem Placement.readsBack (p : Placement) (data : List Datum) : p.ReadsBack data := fun _ d _ => d.readsBack

/-- All that must be known of a leaf for its text to be read back is that a kept text is one complete value. -/
theorem Val.leafReadsBack {S : Type} (p : Placement) (t : Ty S) (v : Val)
    (kept : ∀ raw live, v = .json raw live → raw ≠ [] → IsCompleteValue raw) : LeafReadsBack p t v := by
  unfold LeafReadsBack
  split
  · exact Datum.readsBack _
  · exact kept _ _ rfl
  · exact NumericRange.readsBack _
  · exact NumericRange.readsBack _
  · exact Placement.readsBack p _
  · exact fun _ _ _ => Placement.readsBack p _
  · exact Placement.readsBack p _
  · exact Placement.readsBack p _
  · trivial

end JsonSidecar
