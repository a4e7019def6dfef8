import BitTorrentLite.Controller.Geometry

/-! # Pieces on the Disk

    `write_to_disk` writes a piece to its own region of the file. What a region
    holds, of which only a property may be known, it holds after the other
    pieces are written as well.
-/

open Region

namespace BitTorrentLite

/-- The offset of a piece in the file, computed in 64 bits. -/
theorem Metadata.Consistent.file_offset_eq {m : Metadata} {i : ℕ} (h : m.Consistent) :
    ((i : ℤ) * m.piece_length) = (m.piece_start i : ℕ) := by
  have hpl := h.piece_length_pos
  unfold Metadata.piece_start
  push_cast
  rw [Int.toNat_of_nonneg (by omega)]

/-- And that of a block. -/
theorem Metadata.Consistent.file_offset_block {m : Metadata} {i b : ℕ} (h : m.Consistent)
    (hb : b < m.block_count i) :
    (i : ℤ) * m.piece_length + Metadata.block_offset b = (m.piece_start i + b * 16384 : ℕ) := by
  rw [h.file_offset_eq, h.block_offset_eq hb]
  push_cast
  rfl

namespace Controller

variable {c : Controller} {i j : ℕ} {P : Bytes → Prop}

/-- What is served of a block is its part of the region of the piece. -/
theorem Served.block_eq {b : ℕ} {f d : Bytes} (hg : c.Consistent) (hb : b < c.block_count i)
    (h : c.Served i (Metadata.block_offset b) f d) :
    d = slice (slice f (c.piece_start i) (c.piece_size i)) (b * 16384)
      (Tiling.tile_size (c.piece_size i) 16384 b) := by
  rw [h.bytes, hg.file_offset_block hb, hg.block_size_eq h.piece hb, Int.toNat_natCast,
    Int.toNat_natCast, slice_slice _ _ _ _ _ (Tiling.tile_end_le (by norm_num) hb)]

/-- Piece `i` lies on the disk, and its bytes have the property `P`. -/
def OnDisk (c : Controller) (i : ℕ) (P : Bytes → Prop) : Prop :=
  ∃ f, c.file = some f ∧ c.piece_start i + c.piece_size i ≤ f.length ∧
    P (slice f (c.piece_start i) (c.piece_size i))

/-- The file `write_to_disk` leaves: the piece written at its start. -/
theorem write_to_disk_file (hg : c.Consistent) (piece : Bytes) :
    (c.write_to_disk i piece).file = some (overwrite 0
      (c.file.getD (List.replicate c.length.toNat 0)) (c.piece_start i) piece) := by
  have hnonneg : ¬ ((c.piece_start i : ℕ) : ℤ) < 0 := by omega
  simp only [write_to_disk, hg.file_offset_eq, if_neg hnonneg, Int.toNat_natCast]

/-- A piece of the right length is on the disk once written. -/
theorem onDisk_write_self (hg : c.Consistent) (hi : i < c.total_pieces) {piece : Bytes}
    (hlen : piece.length = c.piece_size i) (hP : P piece) :
    (c.write_to_disk i piece).OnDisk i P := by
  have hpos := hg.piece_size_pos hi
  have hne : piece ≠ [] := by
    intro hnil
    rw [hnil, List.length_nil] at hlen
    omega
  have hself := slice_overwrite_self 0
    (c.file.getD (List.replicate c.length.toNat 0)) (c.piece_start i) piece
  rw [hlen] at hself
  refine ⟨_, write_to_disk_file hg piece, ?_, ?_⟩
  · rw [overwrite_length _ _ _ hne, hlen]
    exact le_max_right _ _
  · show P (slice _ (c.piece_start i) (c.piece_size i))
    rw [hself]
    exact hP

/-- Writing one piece leaves every other piece as it is. -/
theorem onDisk_write_other (hg : c.Consistent) (hij : i ≠ j) {piece : Bytes}
    (hlen : piece.length = c.piece_size i) (hv : c.OnDisk j P) :
    (c.write_to_disk i piece).OnDisk j P := by
  obtain ⟨f, hf, hend, hP⟩ := hv
  have hfile : c.file.getD (List.replicate c.length.toNat 0) = f := by rw [hf]; rfl
  have hkeep : slice (overwrite 0 f (c.piece_start i) piece) (c.piece_start j) (c.piece_size j)
      = slice f (c.piece_start j) (c.piece_size j) := by
    rcases Nat.lt_or_gt_of_ne hij with hlt | hgt
    · have hsep := c.piece_end_le_start hlt
      exact slice_overwrite_after _ _ _ _ (by omega)
    · have hsep := c.piece_end_le_start hgt
      exact slice_overwrite_before _ _ _ hsep hend
  refine ⟨overwrite 0 f (c.piece_start i) piece, ?_, ?_, ?_⟩
  · rw [write_to_disk_file hg, hfile]
  · by_cases hne : piece = []
    · subst hne
      rw [overwrite_nil]
      exact hend
    · rw [overwrite_length _ _ _ hne]
      exact le_trans hend (le_max_left _ _)
  · show P (slice _ (c.piece_start j) (c.piece_size j))
    rw [hkeep]
    exact hP

end Controller

end BitTorrentLite
