/-
Module: JsonSidecar.Proofs.Blob.AppendOnly
Purpose: Stores that only append.  A write leaves what could be read before as it is, so that whatever was read from
  a store can be read from it ever after.  All stores of chunks are of this kind: the one in memory, records that were
  loaded, which do not change at all, and the writers of files, which read nothing back.
Main exports: BlobView.Extends, BlobStore.AppendOnly, BlobStore.writeAll_extends
-/
import JsonSidecar.Blob.Collection
import JsonSidecar.Blob.Loaded
import JsonSidecar.File.Writer
import JsonSidecar.Proofs.Blob.Layout

namespace JsonSidecar

/-- A view of more: all that can be read in the first can be read in the second. -/
structure BlobView.Extends (view more : BlobView) : Prop where
  reserved : view.reserved ≤ more.reserved
  read : ∀ offset length bytes, view.read offset length = .ok bytes → more.read offset length = .ok bytes

namespace BlobView

theorem Extends.refl (view : BlobView) : view.Extends view where
  reserved := Nat.le_refl _
  read _ _ _ found := found

theorem Extends.trans {first second third : BlobView} (left : first.Extends second) (right : second.Extends third) :
    first.Extends third where
  reserved := Nat.le_trans left.reserved right.reserved
  read offset length bytes found := right.read offset length bytes (left.read offset length bytes found)

/-- A part of some bytes is there too when others follow. -/
theorem slice_append {data bytes : Bytes} {offset length : Nat} (found : slice data offset length = .ok bytes)
    (more : Bytes) : slice (data ++ more) offset length = .ok bytes := by
  unfold slice at found ⊢
  split at found
  · rename_i inside
    have enough : length ≤ (data.drop offset).length := by
      rw [List.length_drop]
      omega
    have inside' : offset + length ≤ (data ++ more).length := by
      rw [List.length_append]
      exact Nat.le_add_right_of_le inside
    rw [if_pos inside', List.drop_append_of_le_length (Nat.le_of_add_right_le inside),
      List.take_append_of_le_length enough]
    exact found
  · cases found

theorem ofBytes_extends (data more : Bytes) : (ofBytes data).Extends (ofBytes (data ++ more)) where
  reserved := by
    show data.length ≤ (data ++ more).length
    rw [List.length_append]
    exact Nat.le_add_right _ _
  read _ _ _ found := slice_append found more

/-- Where nothing can be read back, only the count of bytes can grow. -/
theorem writeOnly_extends {reserved more : Nat} (h : reserved ≤ more) :
    (writeOnly reserved).Extends (writeOnly more) where
  reserved := h
  read _ _ _ found := by cases found

end BlobView

namespace BlobStore

/-- Stores whose writes leave what can be read as it is. -/
class AppendOnly (σ : Type) [BlobStore σ] : Prop where
  write_extends (data : Bytes) (store : σ) : (view store).Extends (view (write data store).2)

/-- After any writes, all that could be read before can be read. -/
theorem writeAll_extends {σ : Type} [BlobStore σ] [AppendOnly σ] (chunks : List Bytes) (store : σ) :
    (view store).Extends (view (writeAll chunks store).2) := by
  induction chunks generalizing store with
  | nil => exact .refl _
  | cons data rest ih => exact (AppendOnly.write_extends data store).trans (ih _)

end BlobStore

/-! ### The stores -/

instance : BlobStore.AppendOnly Collection where
  write_extends data c := by
    cases data with
    | nil => exact .refl _
    | cons b rest => exact BlobView.ofBytes_extends c.bytes (Chunk.record (b :: rest))

instance : BlobStore.AppendOnly LoadedBlobs where
  write_extends _ blobs := .refl (BlobStore.view blobs)

theorem PlainWriter.reserved_le_write (data : Bytes) (w : PlainWriter) (d : Disk) :
    w.reserved ≤ (w.write data d).1.2.reserved := by
  unfold PlainWriter.write
  split
  · exact Nat.le_refl _
  · split
    · exact Nat.le_add_right _ _
    · exact Nat.le_add_right _ _

theorem StreamWriter.reserved_le_write (data : Bytes) (w : StreamWriter) (d : Disk) :
    w.reserved ≤ (w.write data d).1.2.reserved := by
  unfold StreamWriter.write
  split
  · exact Nat.le_refl _
  · exact Nat.le_refl _
  · dsimp only
    split
    · exact Nat.le_add_right _ _
    · exact Nat.le_add_right _ _

instance : BlobStore.AppendOnly OnDisk where
  write_extends data s := by
    rcases s with ⟨writer, disk⟩
    cases writer with
    | plain w => exact BlobView.writeOnly_extends (w.reserved_le_write data disk)
    | stream w => exact BlobView.writeOnly_extends (w.reserved_le_write data disk)

end JsonSidecar
