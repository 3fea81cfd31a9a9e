/-
Module: JsonSidecar.Proofs.Zstd.Frame
Purpose: A compressed file holds what was compressed.  The writer cuts contents into plain blocks; the reader passes
  on each of them as it is, whatever was read before, and ends behind the last one.
Main exports: BlockHeader.read_bytes, readBlocks_plainBlocks, decompress_compress, codec_lossless
-/
import JsonSidecar.Proofs.Element
import JsonSidecar.Zstd.Codec

namespace JsonSidecar.Zstd

/-- Bytes in front of others are taken as they are. -/
theorem take?_append {count : Nat} {bytes : Bytes} (length : bytes.length = count) (rest : Bytes) :
    take? count (bytes ++ rest) = .ok (bytes, rest) := by
  have enough : count ≤ (bytes ++ rest).length := by
    rw [List.length_append, length]
    exact Nat.le_add_right _ _
  rw [take?, if_pos enough, List.take_left' length, List.drop_left' length]

/-! ### Blocks -/

theorem BlockHeader.bytes_length (header : BlockHeader) : header.bytes.length = 3 := littleEndian_length ..

/-- The header of a block is read back, if its size has a place in it. -/
theorem BlockHeader.read_bytes {header : BlockHeader} (small : header.size < 2 ^ 21) (rest : Bytes) :
    BlockHeader.read (header.bytes ++ rest) = .ok (header, rest) := by
  rcases header with ⟨last, kind, size⟩
  have number : ofLittleEndian (bytes ⟨last, kind, size⟩)
      = (if last then 1 else 0) + 2 * kindNumber kind + 8 * size := by
    apply ofLittleEndian_littleEndian
    cases last <;> cases kind <;> simp [kindNumber] at small ⊢ <;> omega
  have kindBack : kindOf? (((if last then 1 else 0) + 2 * kindNumber kind + 8 * size) / 2 % 4) = some kind := by
    have part : ((if last then 1 else 0) + 2 * kindNumber kind + 8 * size) / 2 % 4 = kindNumber kind := by
      cases last <;> cases kind <;> simp [kindNumber] <;> omega
    rw [part]
    cases kind <;> rfl
  have lastBack : decide (((if last then 1 else 0) + 2 * kindNumber kind + 8 * size) % 2 = 1) = last := by
    cases last <;> simp <;> omega
  have sizeBack : ((if last then 1 else 0) + 2 * kindNumber kind + 8 * size) / 8 = size := by
    cases last <;> cases kind <;> simp [kindNumber] <;> omega
  rw [read, take?_append (bytes_length _)]
  simp only [bind, Except.bind, number, kindBack, lastBack, sizeBack]
  rfl

/-! ### Frames -/

/-- The header that the writer puts in front of the blocks: a window of one block and nothing else. -/
def plainHeader : Header := ⟨maxBlock, none, 0, false⟩

theorem Header.read_plain (rest : Bytes) : Header.read (0x00 :: 0x38 :: rest) = .ok (plainHeader, rest) := by
  have descriptor : take? 1 (0x00 :: 0x38 :: rest) = .ok ([0x00], 0x38 :: rest) :=
    take?_append List.length_singleton _
  have fields : take? (1 + dictionaryWidth 0 + sizeWidth 0) (0x38 :: rest) = .ok ([0x38], rest) :=
    take?_append List.length_singleton _
  have zero : ofLittleEndian [0x00] = 0 := rfl
  have notSingle : isSingle 0 = false := rfl
  rw [read, descriptor]
  simp only [bind, Except.bind, zero, notSingle, Bool.false_eq_true, if_false, fields]
  rfl

/-- How the state of a read goes on when a plain block was passed on. -/
theorem Progress.add_content (header : Header) (target : Target) (progress : Progress) (content : Array UInt8)
    (memory : Memory) : (progress.add header target content memory).content = content := by
  unfold add
  split
  · rfl
  · rfl

/-- A plain block is passed on behind what was read. -/
theorem readBlock_plain (progress : Progress) (last : Bool) {data : Bytes} (fits : data.length ≤ maxBlock)
    (rest : Bytes) :
    ∃ progress', readBlock plainHeader .buffered ⟨last, .plain, data.length⟩ progress (data ++ rest)
        = .ok (progress', rest) ∧ progress'.content.toList = progress.content.toList ++ data := by
  have content : (progress.add plainHeader .buffered (progress.content ++ data) progress.memory).content.toList
      = progress.content.toList ++ data := by
    rw [Progress.add_content, Array.toList_appendList]
  refine ⟨_, ?_, content⟩
  have room : ¬ roomFor plainHeader .buffered progress < min data.length (data ++ rest).length := by
    have limit : roomFor plainHeader .buffered progress = maxBlock := rfl
    rw [limit]
    exact Nat.not_lt.2 (Nat.le_trans (Nat.min_le_left ..) fits)
  have taken : take? (BlockHeader.length ⟨last, .plain, data.length⟩) (data ++ rest) = .ok (data, rest) :=
    take?_append rfl rest
  unfold readBlock
  simp only [room, taken]
  rfl

/-- One plain block, which may be the last one. -/
theorem readBlocks_plain (bound : Nat) (progress : Progress) (last : Bool) {data : Bytes}
    (fits : data.length ≤ maxBlock) (rest : Bytes) :
    ∃ progress', progress'.content.toList = progress.content.toList ++ data ∧
      readBlocks plainHeader .buffered (bound + 1) progress
          (BlockHeader.bytes ⟨last, .plain, data.length⟩ ++ (data ++ rest))
        = if last then .ok (progress', rest) else readBlocks plainHeader .buffered bound progress' rest := by
  have small : data.length < 2 ^ 21 := Nat.lt_of_le_of_lt fits (by decide)
  have head : BlockHeader.read (BlockHeader.bytes ⟨last, .plain, data.length⟩ ++ (data ++ rest))
      = .ok (⟨last, .plain, data.length⟩, data ++ rest) := BlockHeader.read_bytes small (data ++ rest)
  have limit : plainHeader.blockLimit = maxBlock := rfl
  have length : BlockHeader.length ⟨last, .plain, data.length⟩ = data.length := rfl
  have told : ∀ progress, sizeHolds plainHeader .buffered ⟨last, .plain, data.length⟩ progress = true :=
    fun _ => Bool.or_true _
  cases data with
  | nil =>
      refine ⟨progress, (List.append_nil _).symm, ?_⟩
      rw [readBlocks, head]
      cases last with
      | true => rfl
      | false => rfl
  | cons b data =>
      obtain ⟨progress', read, content⟩ := readBlock_plain progress last fits rest
      have inside : ¬ maxBlock < (b :: data).length := Nat.not_lt.2 fits
      have present : ¬ (b :: data).length = 0 := Nat.succ_ne_zero _
      refine ⟨progress', content, ?_⟩
      rw [readBlocks, head]
      simp only [bind, Except.bind, limit, length, read, told, inside, present, decide_false, Bool.and_false,
        Bool.false_eq_true, if_false]
      cases last with
      | true => rfl
      | false => rfl

/-- Plain blocks are read to the last one, behind what was read. -/
theorem readBlocks_plainBlocks {count bound : Nat} (enough : count < bound) (progress : Progress) {data : Bytes}
    (fits : data.length ≤ (count + 1) * maxBlock) (rest : Bytes) :
    ∃ progress', progress'.content.toList = progress.content.toList ++ data ∧
      readBlocks plainHeader .buffered bound progress (plainBlocks count data ++ rest) = .ok (progress', rest) := by
  induction count generalizing bound progress data with
  | zero =>
      rw [Nat.zero_add, Nat.one_mul] at fits
      obtain ⟨bound, rfl⟩ := Nat.exists_eq_add_of_lt enough
      rw [plainBlocks, List.append_assoc, Nat.zero_add]
      exact readBlocks_plain bound progress true fits rest
  | succ count ih =>
      obtain ⟨bound, rfl⟩ : ∃ less, bound = less + 1 := Nat.exists_eq_succ_of_ne_zero (Nat.ne_zero_of_lt enough)
      rw [plainBlocks]
      split
      · rename_i one
        rw [List.append_assoc]
        exact readBlocks_plain bound progress true one rest
      · rename_i many
        have full : (data.take maxBlock).length = maxBlock :=
          List.length_take_of_le (Nat.le_of_lt (Nat.lt_of_not_le many))
        have others : (data.drop maxBlock).length ≤ (count + 1) * maxBlock := by
          rw [List.length_drop]
          rw [Nat.add_mul, Nat.one_mul] at fits
          exact Nat.sub_le_of_le_add fits
        obtain ⟨first, content, step⟩ := readBlocks_plain bound progress false (Nat.le_of_eq full)
          (plainBlocks count (data.drop maxBlock) ++ rest)
        obtain ⟨last, content', run⟩ := ih (Nat.lt_of_succ_lt_succ enough) first others
        rw [full] at step
        refine ⟨last, ?_, ?_⟩
        · rw [content', content, List.append_assoc, List.take_append_drop]
        · rw [List.append_assoc, List.append_assoc, step]
          exact run

/-! ### Files -/

theorem length_le_plainBlocks (count : Nat) (data : Bytes) : data.length ≤ (plainBlocks count data).length := by
  induction count generalizing data with
  | zero =>
      rw [plainBlocks, List.length_append]
      exact Nat.le_add_left _ _
  | succ count ih =>
      rw [plainBlocks]
      split
      · rw [List.length_append]
        exact Nat.le_add_left _ _
      · have others := ih (data.drop maxBlock)
        rw [List.length_drop] at others
        rw [List.length_append, List.length_append, List.length_take]
        omega

/-- The frame of some contents is read back from behind its first four bytes. -/
theorem readFrame_plain (room present : Nat) (data : Bytes) :
    ∃ content, content.toList = data ∧
      readFrame room present (0x00 :: 0x38 :: plainBlocks (data.length / maxBlock) data) = .ok (content, []) := by
  have fits : data.length ≤ (data.length / maxBlock + 1) * maxBlock := by
    rw [Nat.mul_comm]
    exact Nat.le_of_lt (Nat.lt_mul_div_succ data.length (by decide))
  have enough : data.length / maxBlock < (plainBlocks (data.length / maxBlock) data).length + 1 :=
    Nat.lt_succ_of_le (Nat.le_trans (Nat.div_le_self ..) (length_le_plainBlocks ..))
  obtain ⟨progress, content, read⟩ := readBlocks_plainBlocks enough Progress.start fits []
  rw [List.append_nil] at read
  refine ⟨progress.content, content, ?_⟩
  have whole : readContent plainHeader .buffered (plainBlocks (data.length / maxBlock) data)
      = .ok (progress.content, []) := by
    rw [readContent]
    simp only [plainHeader] at read ⊢
    simp only [bind, Except.bind, read]
    rfl
  have window : ¬ maxWindow < plainHeader.window := by decide
  have untold : ∀ fits : Nat → Bool, plainHeader.size.any fits = false := fun _ => rfl
  rw [readFrame, Header.read_plain]
  simp only [bind, Except.bind, untold, Bool.false_and, Bool.false_eq_true, if_false, if_neg window]
  exact whole

/-- A frame in front, which has something behind its first four bytes. -/
theorem readFrames_magic {bound total : Nat} {content more : Array UInt8} {b : UInt8} {bytes rest : Bytes}
    (read : readFrame (readIncrement content.size) (atHand total (magic ++ b :: bytes) - 4) (b :: bytes)
      = .ok (more, rest)) :
    readFrames (bound + 1) total none content (magic ++ b :: bytes)
      = readFrames bound total none (content ++ more) rest := by
  have present : (magic ++ b :: bytes).isEmpty = false := rfl
  have long : ¬ (magic ++ b :: bytes).length < 5 := by
    simp [magic]
  have start : (magic ++ b :: bytes).take 4 = magic := rfl
  have behind : (magic ++ b :: bytes).drop 4 = b :: bytes := rfl
  rw [readFrames]
  simp only [present, long, start, behind, read, bind, Except.bind, Bool.false_eq_true, if_false, if_true]

theorem readFrames_nil (bound total : Nat) (content : Array UInt8) :
    readFrames bound total none content [] = .ok content := by
  cases bound with
  | zero => rfl
  | succ bound => rfl

/-- A compressed file holds what was compressed. -/
theorem decompress_compress (data : Bytes) : decompress (compress data) = .ok data := by
  let frame : Bytes := 0x00 :: 0x38 :: plainBlocks (data.length / maxBlock) data
  have whole : compress data = magic ++ frame := rfl
  have length : (magic ++ frame).length = frame.length + 3 + 1 := List.length_append.trans (Nat.add_comm ..)
  obtain ⟨content, same, read⟩ := readFrame_plain (readIncrement 0)
    (atHand (magic ++ frame).length (magic ++ frame) - 4) data
  have frames : readFrames (magic ++ frame).length (magic ++ frame).length none #[] (magic ++ frame)
      = .ok (#[] ++ content) := by
    rw [length, readFrames_magic (by rw [← length]; exact read), readFrames_nil]
  have present : (magic ++ frame).isEmpty = false := rfl
  rw [whole, decompress]
  simp only [present, frames, bind, Except.bind, Bool.false_eq_true, if_false]
  rw [Array.empty_append, same]
  rfl

/-- The codec that programs run with loses nothing. -/
theorem codec_lossless : @Codec.Lossless codec := by
  rintro level data bytes ⟨⟩
  show (decompress (compress data)).mapError IoKind.error = _
  rw [decompress_compress]
  rfl

end JsonSidecar.Zstd
