import BitTorrentLite.Controller.Disk
import BitTorrentLite.Controller.System

/-! # Delivery of the Original

    When every block that arrives is the block of the original file that was
    asked for, the stored blocks are blocks of the original, a complete piece
    matches its hash, and a piece that is done is the piece of the original on
    the disk. A piece whose last block arrives is settled at once, so every
    piece misses a block: this is what makes "nothing left to request" mean
    "all done".
-/

open Machine Region Tiling LTS

namespace BitTorrentLite

namespace Metadata

/-- The torrent was made of the file `F`. -/
structure Original (sha1 : Bytes → Bytes) (m : Metadata) (F : Bytes) : Prop where
  length : (F.length : ℤ) = m.length
  hashes : ∀ i < m.total_pieces,
    m.piece_hash.getD i [] = sha1 (slice F (m.piece_start i) (m.piece_size i))

/-- The pair whose hashes are its two bytes, hashed by the identity. -/
theorem pair_original : (pair .LEECHER [7] [8]).Original id [7, 8] := ⟨by decide, by decide⟩

/-- Piece `i` of the file `F`. -/
def piece_of (m : Metadata) (F : Bytes) (i : ℕ) : Bytes :=
  slice F (m.piece_start i) (m.piece_size i)

/-- Block `b` of piece `i` of the file `F`. -/
def block_of (m : Metadata) (F : Bytes) (i b : ℕ) : Bytes :=
  slice F (m.piece_start i + b * 16384) (tile_size (m.piece_size i) 16384 b)

variable {sha1 : Bytes → Bytes} {m : Metadata} {F : Bytes} {i b : ℕ}

theorem Original.length_eq (ho : m.Original sha1 F) : F.length = m.length.toNat := by
  have := ho.length
  omega

theorem Original.piece_length (hg : m.Consistent) (ho : m.Original sha1 F)
    (hi : i < m.total_pieces) : (m.piece_of F i).length = m.piece_size i := by
  have hend := hg.piece_end_le hi
  rw [← ho.length_eq] at hend
  exact slice_length_of_le hend

/-- A block is a region of its piece. -/
theorem block_of_eq (m : Metadata) (F : Bytes) (i : ℕ) (hb : b < m.block_count i) :
    m.block_of F i b = slice (m.piece_of F i) (b * 16384) (tile_size (m.piece_size i) 16384 b) := by
  have hend := tile_end_le (by norm_num) hb
  exact (slice_slice F _ _ _ _ hend).symm

theorem block_of_length (hg : m.Consistent) (ho : m.Original sha1 F) (hi : i < m.total_pieces)
    (hb : b < m.block_count i) :
    (m.block_of F i b).length = tile_size (m.piece_size i) 16384 b := by
  have hend := tile_end_le (by norm_num) hb
  have hpiece := ho.piece_length hg hi
  rw [block_of_eq m F i hb]
  exact slice_length_of_le (by omega)

/-- The blocks of a piece, in order, are the piece. -/
theorem flatMap_block_of (hg : m.Consistent) (ho : m.Original sha1 F) (hi : i < m.total_pieces) :
    (List.range (m.block_count i)).flatMap (m.block_of F i) = m.piece_of F i := by
  have hpiece := ho.piece_length hg hi
  have hcov := flatMap_tiles (m.piece_of F i) (show 0 < 16384 by norm_num)
  rw [hpiece] at hcov
  rw [← hcov]
  apply List.flatMap_congr
  intro b hb
  exact block_of_eq m F i (List.mem_range.mp hb)

/-- Blocks of one piece at the same offset are the same block. -/
theorem block_offset_inj (hg : m.Consistent) {b' : ℕ} (hb : b < m.block_count i)
    (hb' : b' < m.block_count i) (h : block_offset b = block_offset b') : b = b' := by
  rw [hg.block_offset_eq hb, hg.block_offset_eq hb'] at h
  omega

end Metadata

namespace Controller

open Metadata (block_offset)

variable {sha1 : Bytes → Bytes} {c c' : Controller} {F : Bytes} {i j b : ℕ} {off : ℤ}

/-- A block that may be requested is one of the blocks of its piece. -/
theorem Available.block_lt (hg : c.Consistent) (hfit : c.CountFits) (h : c.Available i off) :
    ∃ b < c.block_count i, off = block_offset b := by
  obtain ⟨b, hb, rfl⟩ := h.block
  rw [hg.count_blocks_eq hfit h.piece] at hb
  exact ⟨b, by omega, rfl⟩

/-! ### The Invariant -/

/-- Stored blocks are blocks of the original. -/
def Genuine (F : Bytes) (c : Controller) : Prop :=
  ∀ i < c.total_pieces, ∀ off d, c.piece_blocks i off = some d →
    ∃ b < c.block_count i, off = block_offset b ∧ d = c.block_of F i b

/-- What holds between any two calls when only blocks of the original arrive. -/
structure Delivering (F : Bytes) (c : Controller) : Prop where
  genuine : c.Genuine F
  /-- No piece has all its blocks stored. -/
  incomplete : ∀ i < c.total_pieces, ∃ b < c.block_count i,
    c.piece_blocks i (block_offset b) = none
  /-- A piece that is done is on the disk. -/
  done : ∀ i < c.total_pieces, c.piece_status i = 1 → c.OnDisk i (· = c.piece_of F i)

theorem delivering_make {m : Metadata} (hg : m.Consistent) (hl : m.mode = .LEECHER)
    (disk : Option Bytes) : (make m disk).Delivering F where
  genuine := by
    intro i _ off d hd
    cases hd
  incomplete := by
    intro i hi
    exact ⟨0, hg.block_count_pos hi, rfl⟩
  done := by
    intro i _ hst
    simp [make, hl] at hst

/-- A call that touches neither blocks nor file and marks no piece done. -/
theorem Delivering.undisturbed (h : c.Delivering F) (hq : c.Undisturbed c') :
    c'.Delivering F where
  genuine := by
    unfold Genuine
    rw [hq.toMetadata, hq.piece_blocks]
    exact h.genuine
  incomplete := by
    rw [hq.toMetadata, hq.piece_blocks]
    exact h.incomplete
  done := by
    intro i hi hone
    unfold OnDisk
    rw [hq.file, hq.toMetadata]
    exact h.done i (hq.toMetadata ▸ hi) (hq.done i hone)

theorem Delivering.claim (h : c.Delivering F) (i : ℕ) (off : ℤ) : (c.claim i off).Delivering F :=
  h.undisturbed (c.undisturbed_claim i off)

theorem Delivering.release (h : c.Delivering F) (i : ℕ) (off : ℤ) :
    (c.release i off).Delivering F :=
  h.undisturbed (c.undisturbed_release i off)

theorem Delivering.clear (h : c.Delivering F) (i : ℕ) : Delivering F
    { c with piece_status := Function.update c.piece_status i 0 } :=
  h.undisturbed (c.undisturbed_clear i)

/-- A block of the original is stored. -/
theorem Genuine.store (h : c.Genuine F) (hb : b < c.block_count i) :
    (c.store i (block_offset b) (c.block_of F i b)).Genuine F := by
  intro j hj off d hd
  rcases store_cases hd with ⟨rfl, hoff, hnew⟩ | hold
  · exact ⟨b, hb, hoff, hnew⟩
  · exact h j hj off d hold

/-- Dropping the blocks of a piece leaves the others as they are. -/
theorem Genuine.settle (h : c.Genuine F) (i status : ℕ) : (c.settle i status).Genuine F := by
  intro j hj off d hd
  exact h j hj off d (settle_cases hd).2

/-- A complete piece of blocks of the original is the piece of the original. -/
theorem assembled_genuine (hg : c.Consistent) (hfit : c.CountFits) (ho : c.Original sha1 F)
    (hgen : c.Genuine F) (hi : i < c.total_pieces) (hcomp : c.complete i = true) :
    c.assembled i = c.piece_of F i := by
  have hcount := hg.count_blocks_eq hfit hi
  unfold assembled
  rw [hcount, Int.toNat_natCast, ← Metadata.flatMap_block_of hg ho hi]
  apply List.flatMap_congr
  intro b hb
  have hlt : (b : ℤ) < c.count_blocks i := by
    rw [hcount]
    exact Int.ofNat_lt.mpr (List.mem_range.mp hb)
  obtain ⟨d, hd⟩ := stored_of_complete hcomp hlt
  -- the block stored at this offset is the one that belongs there
  obtain ⟨b', hb', hoff, rfl⟩ := hgen i hi _ d hd
  rw [hd, Option.getD_some, Metadata.block_offset_inj hg (List.mem_range.mp hb) hb' hoff]

/-- A piece that is not complete misses a block. -/
theorem missing_of_incomplete (hg : c.Consistent) (hfit : c.CountFits) (hi : i < c.total_pieces)
    (hinc : c.complete i = false) :
    ∃ b < c.block_count i, c.piece_blocks i (block_offset b) = none := by
  obtain ⟨b, hb, hnone⟩ := missing_of_not_complete hinc
  rw [hg.count_blocks_eq hfit hi] at hb
  exact ⟨b, Int.ofNat_lt.mp hb, hnone⟩

/-! ### A Block of the Original Arrives -/

/-- The controller once the last block of piece `i` has come in. -/
def finish (c : Controller) (i : ℕ) (off : ℤ) (data : Bytes) : Controller :=
  (((c.store i off data).write_to_disk i ((c.store i off data).assembled i)).settle i 1).announce i

theorem finish_piece_status (data : Bytes) :
    (c.finish i off data).piece_status = Function.update c.piece_status i 1 := rfl

theorem finish_piece_blocks_self (data : Bytes) : (c.finish i off data).piece_blocks i
    = fun _ => none := Function.update_self ..

theorem finish_piece_blocks_ne (data : Bytes) (hij : j ≠ i) :
    (c.finish i off data).piece_blocks j = c.piece_blocks j :=
  (Function.update_of_ne hij ..).trans (Function.update_of_ne hij ..)

/-- A block of the original is stored, and finishes its piece if it is the last. -/
theorem received_genuine (hg : c.Consistent) (hfit : c.CountFits) (ho : c.Original sha1 F)
    (hl : c.mode = .LEECHER) (h : c.Genuine F) (hi : i < c.total_pieces)
    (hb : b < c.block_count i) {done : Bool}
    (hrec : Received c sha1 i (block_offset b) (c.block_of F i b) c' done) :
    (c' = c.store i (block_offset b) (c.block_of F i b) ∧ c'.complete i = false) ∨
      (c' = c.finish i (block_offset b) (c.block_of F i b) ∧
        (c.store i (block_offset b) (c.block_of F i b)).complete i = true) := by
  cases hrec with
  | rejected hrej =>
    -- a block of the original has the length that is asked for
    have hlen := hrej.resolve_left (by rw [hl]; decide)
    rw [Metadata.block_of_length hg ho hi hb, hg.block_size_eq hi hb] at hlen
    exact absurd rfl hlen
  | stored j hj _ _ _ hinc =>
    obtain rfl : i = j := by exact_mod_cast hj
    exact .inl ⟨rfl, hinc⟩
  | mismatch j hj _ _ _ hcomp hhash =>
    obtain rfl : i = j := by exact_mod_cast hj
    have hgen := h.store hb
    have hg₁ : (c.store i (block_offset b) (c.block_of F i b)).Consistent := hg
    have ho₁ : (c.store i (block_offset b) (c.block_of F i b)).Original sha1 F := ho
    -- what is assembled is the piece of the original, whose hash this is
    rw [assembled_genuine hg₁ hfit ho₁ hgen hi hcomp, ho.hashes i hi] at hhash
    exact absurd rfl hhash
  | finished j hj _ _ _ hcomp _ =>
    obtain rfl : i = j := by exact_mod_cast hj
    exact .inr ⟨rfl, hcomp⟩

/-- **Step lemma**: the invariant survives every block of the original. -/
theorem Delivering.received (hg : c.Consistent) (hfit : c.CountFits) (ho : c.Original sha1 F)
    (hl : c.mode = .LEECHER) (h : c.Delivering F) (hi : i < c.total_pieces)
    (hb : b < c.block_count i) {done : Bool}
    (hrec : Received c sha1 i (block_offset b) (c.block_of F i b) c' done) : c'.Delivering F := by
  have hg₁ : (c.store i (block_offset b) (c.block_of F i b)).Consistent := hg
  have hgen := h.genuine.store hb
  rcases received_genuine hg hfit ho hl h.genuine hi hb hrec with ⟨rfl, hinc⟩ | ⟨rfl, hcomp⟩
  -- stored: the piece misses a block, the others miss what they did
  · refine ⟨hgen, fun j hj => ?_, h.done⟩
    by_cases hji : j = i
    · subst hji
      exact missing_of_incomplete hg₁ hfit hi hinc
    · obtain ⟨b', hb', hnone⟩ := h.incomplete j hj
      refine ⟨b', hb', ?_⟩
      rw [store_piece_blocks, Function.update_of_ne hji]
      exact hnone
  · have ho₁ : (c.store i (block_offset b) (c.block_of F i b)).Original sha1 F := ho
    have hpiece := assembled_genuine hg₁ hfit ho₁ hgen hi hcomp
    have hlen : ((c.store i (block_offset b) (c.block_of F i b)).assembled i).length
        = c.piece_size i := by
      rw [hpiece]
      exact ho.piece_length hg hi
    refine ⟨?_, fun j hj => ?_, fun j hj hone => ?_⟩
    · exact Genuine.settle (c := (c.store i _ _).write_to_disk i _) hgen i 1
    · -- the blocks of the piece are dropped, the other pieces are as they were
      by_cases hji : j = i
      · subst hji
        refine ⟨0, hg.block_count_pos hi, ?_⟩
        rw [finish_piece_blocks_self]
      · obtain ⟨b', hb', hnone⟩ := h.incomplete j hj
        refine ⟨b', hb', ?_⟩
        rw [finish_piece_blocks_ne _ hji]
        exact hnone
    -- the piece is on the disk now, and the other pieces still are
    · by_cases hij : i = j
      · subst hij
        exact onDisk_write_self hg₁ hi hlen (P := (· = c.piece_of F i)) hpiece
      · rw [finish_piece_status, Function.update_of_ne (Ne.symm hij)] at hone
        have hold : (c.store i (block_offset b) (c.block_of F i b)).OnDisk j
            (· = c.piece_of F j) := h.done j hj hone
        exact onDisk_write_other hg₁ hij hlen hold

/-! ### What the Invariant Gives -/

/-- Every piece that is not done has a block that is not stored. -/
theorem Delivering.missing (h : c.Delivering F) (hg : c.Consistent) (hfit : c.CountFits)
    (hi : i < c.total_pieces) (hst : c.piece_status i ≠ 1) (hin : c.inflight i = ∅) :
    ∃ off, c.Available i off := by
  obtain ⟨b, hb, hmiss⟩ := h.incomplete i hi
  exact ⟨block_offset b,
    { piece := hi
      missing := hst
      block := ⟨b, by rw [hg.count_blocks_eq hfit hi]; exact_mod_cast hb, rfl⟩
      not_stored := hmiss
      not_inflight := by rw [hin]; exact Finset.notMem_empty _ }⟩

/-- When every piece is done, the file starts with the original. -/
theorem Delivering.file_eq (hg : c.Consistent) (ho : c.Original sha1 F) (h : c.Delivering F)
    (hdone : ∀ i < c.total_pieces, c.piece_status i = 1) :
    ∃ f, c.file = some f ∧ slice f 0 F.length = F := by
  have hpos := hg.piece_length_nat_pos
  have hlast : c.total_pieces - 1 < c.total_pieces := by
    have := hg.total_pieces_pos
    omega
  obtain ⟨f, hf, hend, -⟩ := h.done _ hlast (hdone _ hlast)
  have hpieces := hg.pieces
  -- the last piece ends where the file does
  have hlen : F.length ≤ f.length := by
    have hsize : c.piece_size (c.total_pieces - 1)
        = c.length.toNat - (c.total_pieces - 1) * c.piece_length.toNat :=
      tile_size_last hpos (by omega)
    rw [ho.length_eq]
    unfold Metadata.piece_start at hend
    omega
  refine ⟨f, hf, slice_eq_of_tiles hpos hlen fun i hi => ?_⟩
  rw [ho.length_eq, ← hpieces] at hi
  obtain ⟨f', hf', -, hslice⟩ := h.done i hi (hdone i hi)
  obtain rfl := Option.some.inj (hf.symm.trans hf')
  rw [ho.length_eq]
  exact hslice

/-! ### What a Seeder Serves -/

/-- A seeder whose file is the original. -/
structure Seeding (F : Bytes) (c : Controller) : Prop where
  file : c.file = some F
  done : ∀ i < c.total_pieces, c.piece_status i = 1

theorem seeding_make {m : Metadata} (hs : m.mode = .SEEDER) (F : Bytes) :
    (make m (some F)).Seeding F where
  file := rfl
  done := by
    intro i _
    simp [make, hs]

/-- A seeder answers a request for a block of the torrent with that block. -/
theorem Seeding.get_block (hg : c.Consistent) (ho : c.Original sha1 F) (h : c.Seeding F)
    (hi : i < c.total_pieces) (hb : b < c.block_count i) :
    c.get_block i (block_offset b) = .ok (c.block_of F i b) := by
  have hstart := hg.file_offset_block hb
  have hlt := Metadata.Consistent.block_start_lt hb
  have hsize := hg.block_size_eq hi hb
  refine Served.get_block (f := F) ?_
  exact
    { piece := hi
      done := h.done i hi
      inside := by
        rw [hg.piece_length_for_eq hi, hg.block_offset_eq hb]
        exact_mod_cast hlt
      file := h.file
      size_nonneg := by rw [hsize]; omega
      offset_nonneg := by rw [hstart]; omega
      bytes := by rw [hstart, hsize, Int.toNat_natCast, Int.toNat_natCast]; rfl
      length := by rw [Metadata.block_of_length hg ho hi hb, hsize] }

end Controller

end BitTorrentLite
