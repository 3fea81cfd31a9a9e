/-
Module: JsonSidecar.Proofs.Element
Purpose: The bytes of arrays.  Every element takes as many bytes as its type says and is read back from them bit for
  bit, so an array is read back from its bytes, and the rows of a packed array from its elements.
Main exports: ofLittleEndian_littleEndian, chunks_flatten, Element.read_write, Element.writeAll_length,
  Element.readAll_writeAll
-/
import JsonSidecar.Proofs.Typing

namespace JsonSidecar

/-! ### Little-endian numbers -/

@[simp] theorem littleEndian_length (width n : Nat) : (littleEndian width n).length = width := by
  induction width generalizing n with
  | zero => rfl
  | succ width ih => simp [littleEndian, ih]

theorem ofLittleEndian_littleEndian {width n : Nat} (small : n < 256 ^ width) :
    ofLittleEndian (littleEndian width n) = n := by
  induction width generalizing n with
  | zero =>
      have zero : n = 0 := by simpa using small
      rw [zero]
      rfl
  | succ width ih =>
      have quotient : n / 256 < 256 ^ width := by
        rw [Nat.pow_succ] at small
        exact Nat.div_lt_of_lt_mul (by rw [Nat.mul_comm]; exact small)
      rw [littleEndian, ofLittleEndian, ih quotient, UInt8.toNat_ofNat']
      omega

/-! ### Pieces of equal length -/

theorem chunks_flatten {α : Type} {size : Nat} {rows : List (List α)} (equal : ∀ row ∈ rows, row.length = size) :
    chunks size rows.length rows.flatten = rows := by
  induction rows with
  | nil => rfl
  | cons row rows ih =>
      have first : row.length = size := equal row (by simp)
      rw [List.length_cons, List.flatten_cons, chunks, ← first, List.take_left, List.drop_left, first,
        ih fun row mem => equal row (List.mem_cons_of_mem _ mem)]

theorem length_flatten_of_equal {α : Type} {size : Nat} {rows : List (List α)}
    (equal : ∀ row ∈ rows, row.length = size) : rows.flatten.length = rows.length * size := by
  induction rows with
  | nil => simp
  | cons row rows ih =>
      rw [List.flatten_cons, List.length_append, ih fun row mem => equal row (List.mem_cons_of_mem _ mem),
        equal row (by simp), List.length_cons, Nat.succ_mul, Nat.add_comm]

theorem chunks_length {α : Type} (size count : Nat) (entries : List α) :
    (chunks size count entries).length = count := by
  induction count generalizing entries with
  | zero => rfl
  | succ count ih => rw [chunks, List.length_cons, ih]

/-- Each piece begins behind the pieces in front of it. -/
theorem chunks_getElem {α : Type} {size count : Nat} {entries : List α} {i : Nat}
    (inside : i < (chunks size count entries).length) :
    (chunks size count entries)[i] = (entries.drop (i * size)).take size := by
  induction count generalizing entries i with
  | zero => simp [chunks] at inside
  | succ count ih =>
      cases i with
      | zero => simp [chunks]
      | succ i =>
          simp only [chunks, List.getElem_cons_succ]
          rw [ih, List.drop_drop, Nat.succ_mul, Nat.add_comm]

/-- Pieces that use up all entries are what the entries fall into. -/
theorem flatten_chunks {α : Type} {size count : Nat} {entries : List α} (length : entries.length = count * size) :
    (chunks size count entries).flatten = entries ∧ ∀ row ∈ chunks size count entries, row.length = size := by
  induction count generalizing entries with
  | zero =>
      have empty : entries = [] := List.eq_nil_of_length_eq_zero (by simpa using length)
      simp [chunks, empty]
  | succ count ih =>
      have more : entries.length = count * size + size := by rw [length, Nat.succ_mul]
      have fewer : (entries.drop size).length = count * size := by
        rw [List.length_drop]
        omega
      obtain ⟨flat, equal⟩ := ih fewer
      rw [chunks]
      refine ⟨by rw [List.flatten_cons, flat, List.take_append_drop], ?_⟩
      intro row mem
      rcases List.mem_cons.1 mem with rfl | mem
      · rw [List.length_take]
        omega
      · exact equal row mem

/-! ### Elements -/

namespace Element

theorem size_pos (e : Element) : 0 < e.size := by
  cases e <;> decide

/-- The elements of integer types have as many bits as their kind. -/
theorem bits_of_int {e : Element} {k : IntKind} (h : e.scalar = .int k) : k.width.bits = 8 * e.size := by
  cases e <;> simp [scalar] at h <;> subst h <;> rfl

theorem write_length {e : Element} {d : Datum} (holds : e.scalar.holds d = true) : (e.write d).length = e.size := by
  cases e <;> cases d <;> simp [scalar, Scalar.holds] at holds <;> simp [write, size]

/-- Two's complement leaves numbers that are not negative as they are and adds the whole range to the others. -/
theorem toNat_emod {half : Nat} {n : Int} (least : -(half : Int) ≤ n) (less : n < 2 * half) :
    (n % (2 * half : Int)).toNat = if n < 0 then (n + 2 * half).toNat else n.toNat := by
  by_cases negative : n < 0
  · rw [if_pos negative, ← Int.add_emod_right, Int.emod_eq_of_lt (by omega) (by omega)]
  · rw [if_neg negative, Int.emod_eq_of_lt (by omega) less]

/-- An integer is read back from its bytes in two's complement. -/
theorem readInt_littleEndian {k : IntKind} {width : Nat} (bits : k.width.bits = 8 * width) {n : Int}
    (contains : k.contains n = true) :
    readInt k.signed (littleEndian width (n % 2 ^ (8 * width)).toNat) = n := by
  have positive : 0 < width := by
    have some : 0 < k.width.bits := by cases k.width <;> decide
    omega
  obtain ⟨half, whole⟩ : ∃ half : Nat, 2 ^ (8 * width) = 2 * half ∧ 2 ^ (8 * width - 1) = half :=
    ⟨2 ^ (8 * width - 1), by rw [← Nat.pow_succ']; congr 1; omega, rfl⟩
  have wholeInt : (2 : Int) ^ (8 * width) = 2 * half := by exact_mod_cast whole.1
  have halfInt : (2 : Int) ^ (8 * width - 1) = half := by exact_mod_cast whole.2
  have bytes : 256 ^ width = 2 * half := by rw [← whole.1, Nat.pow_mul]
  simp only [IntKind.contains, IntKind.least, IntKind.greatest, bits, wholeInt, halfInt, Bool.and_eq_true,
    decide_eq_true_eq] at contains
  cases signed : k.signed with
  | true =>
      simp only [signed, if_true] at contains
      rw [wholeInt, toNat_emod contains.1 (by omega), readInt,
        ofLittleEndian_littleEndian (by rw [bytes]; split <;> omega), littleEndian_length, whole.1]
      by_cases negative : n < 0
      · rw [if_pos negative, if_pos (by simp; omega)]
        omega
      · rw [if_neg negative, if_neg (by simp; omega)]
        omega
  | false =>
      simp only [signed, Bool.false_eq_true, if_false] at contains
      rw [wholeInt, toNat_emod (by omega) (by omega), if_neg (show ¬ n < 0 by omega), readInt,
        ofLittleEndian_littleEndian (by rw [bytes]; omega), littleEndian_length, whole.1]
      exact Int.toNat_of_nonneg contains.1

/-- An element is read back from its bytes bit for bit. -/
theorem read_write {e : Element} {d : Datum} (holds : e.scalar.holds d = true) : e.read (e.write d) = d := by
  cases kind : e.scalar with
  | bool =>
      cases d <;> simp [kind, Scalar.holds] at holds
      rename_i b
      cases b <;> simp [read, write, kind]
  | int k =>
      cases d <;> simp [kind, Scalar.holds] at holds
      simp [read, write, kind, readInt_littleEndian (bits_of_int kind) holds]
  | double =>
      cases d <;> simp [kind, Scalar.holds] at holds
      rename_i bits
      have small : bits.toNat < 256 ^ 8 := bits.toNat_lt
      simp [read, write, kind, ofLittleEndian_littleEndian small]
  | single =>
      cases d <;> simp [kind, Scalar.holds] at holds
      rename_i bits
      have small : bits.toNat < 256 ^ 4 := bits.toNat_lt
      simp [read, write, kind, ofLittleEndian_littleEndian small]
  | complex =>
      cases d <;> simp [kind, Scalar.holds] at holds
      rename_i re im
      have small : re.toNat < 256 ^ 8 := re.toNat_lt
      have small' : im.toNat < 256 ^ 8 := im.toNat_lt
      simp [read, write, kind, List.take_left', List.drop_left', ofLittleEndian_littleEndian small,
        ofLittleEndian_littleEndian small']

theorem rows_length {e : Element} {data : List Datum} (holds : ∀ d ∈ data, e.scalar.holds d = true) :
    ∀ bytes ∈ data.map e.write, bytes.length = e.size := by
  intro bytes mem
  obtain ⟨d, inside, rfl⟩ := List.mem_map.1 mem
  exact write_length (holds d inside)

theorem writeAll_length {e : Element} {data : List Datum} (holds : ∀ d ∈ data, e.scalar.holds d = true) :
    (e.writeAll data).length = data.length * e.size := by
  rw [writeAll, List.flatMap_def, length_flatten_of_equal (rows_length holds), List.length_map]

/-- An array is read back from its bytes. -/
theorem readAll_writeAll {e : Element} {data : List Datum} (holds : ∀ d ∈ data, e.scalar.holds d = true) :
    e.readAll (e.writeAll data) = data := by
  rw [readAll, writeAll_length holds, Nat.mul_div_cancel _ e.size_pos, writeAll, List.flatMap_def,
    ← List.length_map (f := e.write), chunks_flatten (rows_length holds), List.map_map]
  exact (List.map_congr_left fun d mem => read_write (holds d mem)).trans (List.map_id data)

end Element

end JsonSidecar
