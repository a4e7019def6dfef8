import BitTorrentLite.Controller.System

/-! # Verified Pieces of Any Torrent

    The numbers of a torrent need not agree. Still, what a leecher writes goes
    to the region of one piece: the regions of the pieces that have a place in
    the file do not overlap, and a piece that `count_blocks` counts right is
    written at the length `piece_length_for` gives. So such a piece is verified
    once it is done.
-/

open Machine Region Tiling LTS

namespace BitTorrentLite

/-- A piece with a place in the file, and one that is not taken for complete
    before a block has come in: its blocks can be counted, or the hash of
    nothing is not its hash. -/
structure Metadata.Workable (sha1 : Bytes → Bytes) (m : Metadata) (i : ℕ) : Prop where
  placed : 0 ≤ i * m.piece_length
  counted : m.piece_length_for i ≤ 2 ^ 31 - 16384 ∨ sha1 [] ≠ m.piece_hash.getD i []

namespace Controller

open Metadata (block_offset)

/-- Piece `i` lies on the disk and its bytes match its hash. -/
def VerifiedAt (sha1 : Bytes → Bytes) (c : Controller) (i : ℕ) : Prop :=
  ∃ f, c.file = some f ∧ 0 ≤ i * c.piece_length ∧
    i * c.piece_length + c.piece_length_for i ≤ f.length ∧
    sha1 (slice f (i * c.piece_length).toNat (c.piece_length_for i).toNat)
      = c.piece_hash.getD i []

/-- What holds between any two calls of a leecher of any torrent. -/
structure Trusted (sha1 : Bytes → Bytes) (c : Controller) : Prop where
  /-- A stored block that lies on a block boundary has the size of that block. -/
  sized : ∀ i < c.total_pieces, ∀ b < tile_count (c.piece_length_for i).toNat 16384, ∀ d,
    c.piece_blocks i (block_offset b) = some d →
      d.length = tile_size (c.piece_length_for i).toNat 16384 b
  /-- A piece that is done, and has any bytes, is verified. -/
  done : ∀ i < c.total_pieces, c.Workable sha1 i → c.piece_status i = 1 →
    0 < c.piece_length_for i → c.VerifiedAt sha1 i

section trusted

variable {sha1 : Bytes → Bytes} {c c' : Controller} {i j : ℕ} {off : ℤ} {data : Bytes}

theorem trusted_make {m : Metadata} (hm : m.mode = .LEECHER) (disk : Option Bytes) :
    (make m disk).Trusted sha1 where
  sized := by
    intro i _ b _ d hd
    cases hd
  done := by
    intro i _ _ hst
    simp [make, hm] at hst

theorem Trusted.undisturbed (h : c.Trusted sha1) (hq : c.Undisturbed c') : c'.Trusted sha1 where
  sized := by
    rw [hq.toMetadata, hq.piece_blocks]
    exact h.sized
  done := by
    intro i hi hw hst hpos
    unfold VerifiedAt
    rw [hq.toMetadata] at hi hw hpos ⊢
    rw [hq.file]
    exact h.done i hi hw (hq.done i hst) hpos

/-! ### Stored Blocks -/

/-- A block of the length `received_block` asks for keeps the sizes. -/
theorem Trusted.store (hint : FitsInt c.piece_length) (h : c.Trusted sha1)
    (hlen : (data.length : ℤ) = c.block_size i off) : (c.store i off data).Trusted sha1 := by
  refine ⟨fun j hj b hb d hd => ?_, h.done⟩
  have hj : j < c.total_pieces := hj
  have hb : b < tile_count (c.piece_length_for j).toNat 16384 := hb
  have hstart := (lt_tile_count (by norm_num)).mp hb
  have hint := (Metadata.piece_length_for_fits hint j).2
  rcases store_cases hd with ⟨rfl, hoff, rfl⟩ | hold
  -- the new block, at the offset of block `b`
  · rw [← hoff, Metadata.block_offset_of_lt (by omega),
      Metadata.block_size_of_inside hint (by omega) (by omega)] at hlen
    show d.length = tile_size (c.piece_length_for j).toNat 16384 b
    unfold tile_size
    omega
  · exact h.sized j hj b hb d hold

/-- The blocks of a complete piece make up the piece. -/
theorem Trusted.assembled_length (h : c.Trusted sha1) (hi : i < c.total_pieces)
    (hpos : 0 < c.piece_length_for i) (hle : c.piece_length_for i ≤ 2 ^ 31 - 16384)
    (hcomp : c.complete i = true) : (c.assembled i).length = (c.piece_length_for i).toNat := by
  have hn : c.piece_length_for i = ((c.piece_length_for i).toNat : ℕ) := by omega
  exact length_assembled (Metadata.count_blocks_of_pos hn hle) hcomp (h.sized i hi)

/-- Of a piece whose blocks cannot be counted nothing is assembled. -/
theorem assembled_eq_nil (hint : FitsInt c.piece_length)
    (hno : c.piece_length_for i ≤ 0 ∨ 2 ^ 31 - 16384 < c.piece_length_for i) :
    c.assembled i = [] := by
  have hcount := Metadata.count_blocks_nonpos (Metadata.piece_length_for_fits hint i) hno
  unfold assembled
  rw [Int.toNat_of_nonpos hcount]
  rfl

/-! ### Pieces on the Disk -/

/-- A piece with another one behind it ends where that starts, or before. -/
theorem piece_end_le (hpl : 0 ≤ c.piece_length) (hij : i < j) (hj : j < c.total_pieces) :
    i * c.piece_length + c.piece_length_for i ≤ j * c.piece_length := by
  have hplen : c.piece_length_for i = c.piece_length := if_pos (by omega)
  have hmul := mul_le_mul_of_nonneg_right (show ((i + 1 : ℕ) : ℤ) ≤ j by omega) hpl
  rw [hplen]
  push_cast at hmul
  linarith

/-- Two pieces that have a place in the file: one is behind the other. -/
theorem piece_length_nonneg_of_placed (hij : i ≠ j) (hi : 0 ≤ i * c.piece_length)
    (hj : 0 ≤ j * c.piece_length) : 0 ≤ c.piece_length := by
  by_contra hneg
  have hzero : ∀ k : ℕ, 0 ≤ k * c.piece_length → k = 0 := by
    intro k hk
    by_contra hne
    exact absurd hk (not_le.mpr (mul_neg_of_pos_of_neg (by omega) (not_le.mp hneg)))
  exact hij ((hzero i hi).trans (hzero j hj).symm)

/-- The file after a piece was written. -/
theorem write_to_disk_placed (hi : 0 ≤ i * c.piece_length) (piece : Bytes) :
    (c.write_to_disk i piece).file = some (overwrite 0
      (c.file.getD (List.replicate c.length.toNat 0)) (i * c.piece_length).toNat piece) := by
  simp only [write_to_disk, if_neg (not_lt.mpr hi)]

/-- A file that is there stays as it is when there is nothing to write or no
    place to write it to. -/
theorem write_to_disk_nothing {piece : Bytes} {f : Bytes} (hf : c.file = some f)
    (hno : piece = [] ∨ i * c.piece_length < 0) : (c.write_to_disk i piece).file = some f := by
  simp only [write_to_disk, hf, Option.getD_some]
  split
  · rfl
  · rw [hno.resolve_right ‹_›, overwrite_nil]

/-- The piece that is written is verified when its hash matches. -/
theorem verifiedAt_write_self (hi : 0 ≤ i * c.piece_length) {piece : Bytes}
    (hpos : 0 < c.piece_length_for i) (hlen : piece.length = (c.piece_length_for i).toNat)
    (hhash : sha1 piece = c.piece_hash.getD i []) :
    (c.write_to_disk i piece).VerifiedAt sha1 i := by
  have hne : piece ≠ [] := by
    rintro rfl
    rw [List.length_nil] at hlen
    omega
  refine ⟨_, write_to_disk_placed hi piece, hi, ?_, ?_⟩
  · show i * c.piece_length + c.piece_length_for i ≤ _
    rw [overwrite_length _ _ _ hne]
    omega
  · show sha1 (slice _ (i * c.piece_length).toNat (c.piece_length_for i).toNat) = _
    rw [← hlen, slice_overwrite_self]
    exact hhash

/-- The other pieces stay verified. -/
theorem verifiedAt_write_other (hij : i ≠ j) (hi : i < c.total_pieces) (hj : j < c.total_pieces)
    {piece : Bytes} (hpos : 0 < c.piece_length_for j)
    (hlen : piece = [] ∨ piece.length = (c.piece_length_for i).toNat)
    (hv : c.VerifiedAt sha1 j) : (c.write_to_disk i piece).VerifiedAt sha1 j := by
  obtain ⟨f, hf, hplaced, hend, hhash⟩ := hv
  by_cases hno : piece = [] ∨ i * c.piece_length < 0
  · exact ⟨f, write_to_disk_nothing hf hno, hplaced, hend, hhash⟩
  · rw [not_or, not_lt] at hno
    obtain ⟨hne, hplace⟩ := hno
    have hlen := hlen.resolve_left hne
    have hsize := List.length_pos_iff.mpr hne
    have hpl := piece_length_nonneg_of_placed hij hplace hplaced
    have hfile : c.file.getD (List.replicate c.length.toNat 0) = f := by rw [hf]; rfl
    have hkeep : slice (overwrite 0 f (i * c.piece_length).toNat piece)
          (j * c.piece_length).toNat (c.piece_length_for j).toNat
        = slice f (j * c.piece_length).toNat (c.piece_length_for j).toNat := by
      rcases Nat.lt_or_gt_of_ne hij with hlt | hgt
      · have hsep := piece_end_le hpl hlt hj
        exact slice_overwrite_after _ _ _ _ (by omega)
      · have hsep := piece_end_le hpl hgt hi
        exact slice_overwrite_before _ _ _ (by omega) (by omega)
    refine ⟨_, write_to_disk_placed hplace piece, hplaced, ?_, ?_⟩
    · rw [hfile, overwrite_length _ _ _ hne]
      exact le_trans hend (by omega)
    · show sha1 (slice _ (j * c.piece_length).toNat (c.piece_length_for j).toNat) = _
      rw [hfile, hkeep]
      exact hhash

/-! ### The Invariant -/

/-- Dropping the blocks of a piece keeps the sizes of the others. -/
theorem settle_sized {n : ℕ} (h : ∀ i < c.total_pieces,
      ∀ b < tile_count (c.piece_length_for i).toNat 16384, ∀ d,
        c.piece_blocks i (block_offset b) = some d →
          d.length = tile_size (c.piece_length_for i).toNat 16384 b) :
    ∀ j < c.total_pieces, ∀ b < tile_count (c.piece_length_for j).toNat 16384, ∀ d,
      (c.settle i n).piece_blocks j (block_offset b) = some d →
        d.length = tile_size (c.piece_length_for j).toNat 16384 b := by
  intro j hj b hb d hd
  exact h j hj b hb d (settle_cases hd).2

/-- A piece that is finished is written at its length, or nothing is. -/
theorem Trusted.finished_length (hint : FitsInt c.piece_length) (h : c.Trusted sha1)
    (hi : i < c.total_pieces) (hcomp : c.complete i = true) :
    c.assembled i = [] ∨ (c.assembled i).length = (c.piece_length_for i).toNat := by
  by_cases hcount : 0 < c.piece_length_for i ∧ c.piece_length_for i ≤ 2 ^ 31 - 16384
  · exact .inr (h.assembled_length hi hcount.1 hcount.2 hcomp)
  · exact .inl (assembled_eq_nil hint (by omega))

/-- Every outcome of `received_block` keeps the invariant. -/
theorem Trusted.received (hint : FitsInt c.piece_length) (h : c.Trusted sha1) {x : ℤ}
    {done : Bool} (hrec : Received c sha1 x off data c' done) : c'.Trusted sha1 := by
  cases hrec with
  | rejected => exact h
  | stored i _ _ _ hlen => exact h.store hint hlen
  | mismatch i _ _ _ hlen =>
    refine ⟨settle_sized (n := 0) (h.store hint hlen).sized, fun j hj hw hst => ?_⟩
    exact h.done j hj hw (done_of_update (by decide) hst)
  | finished i _ hi _ hlen hcomp hhash =>
    have hstored : (c.store i off data).Trusted sha1 := h.store hint hlen
    have hwritten := hstored.finished_length (c := c.store i off data) hint hi hcomp
    refine ⟨settle_sized (n := 1) hstored.sized, fun j hj hw hst hpos => ?_⟩
    -- the piece just written, or one whose region the write does not touch
    by_cases hij : i = j
    · subst hij
      have hcounted : c.piece_length_for i ≤ 2 ^ 31 - 16384 := by
        -- of a larger piece nothing is assembled, and the hash of that matched
        by_contra hlarge
        have hnil := assembled_eq_nil (c := c.store i off data) hint (.inr (not_le.mp hlarge))
        rw [hnil] at hhash
        exact hw.counted.resolve_left hlarge hhash
      exact verifiedAt_write_self (c := c.store i off data) hw.placed hpos
        (hstored.assembled_length (c := c.store i off data) hi hpos hcounted hcomp) hhash
    · have hst : c.piece_status j = 1 :=
        (Function.update_of_ne (Ne.symm hij) ..).symm.trans hst
      exact verifiedAt_write_other (c := c.store i off data) hij hi hj hpos hwritten
        (h.done j hj hw hst hpos)

/-- **Step lemma**: every call keeps the invariant. -/
theorem Trusted.stepped (hint : FitsInt c.piece_length) (h : c.Trusted sha1)
    (hst : Stepped sha1 c c') : c'.Trusted sha1 := by
  rcases hst.received_or_undisturbed with ⟨x, off, data, done, hrec⟩ | hquiet
  · exact h.received hint hrec
  · exact h.undisturbed hquiet

/-- The file of a seeder does not change. -/
theorem Stepped.seeder_file (hm : c.mode = .SEEDER) (hst : Stepped sha1 c c') :
    c'.file = c.file := by
  rcases hst.received_or_undisturbed with ⟨x, off, data, done, hrec⟩ | hquiet
  · cases hrec with
    | rejected => rfl
    | stored _ _ _ hl | mismatch _ _ _ hl | finished _ _ _ hl =>
      rw [hm] at hl
      cases hl
  · exact hquiet.file

end trusted

end Controller

end BitTorrentLite
