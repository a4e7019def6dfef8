import BitTorrentLite.Base.Tiling
import BitTorrentLite.Controller.Spec

/-! # Consistent Geometry

    When the three numbers a torrent gives agree, the piece and block
    arithmetic of the class is the tiling of the file by pieces and of a piece
    by blocks. `count_blocks` adds before it divides, in 32 bits, so it is the
    number of blocks only while a piece leaves room for that addition
    (`CountFits`).
-/

open Machine Region Tiling

namespace BitTorrentLite

namespace Metadata

/-- The numbers of the torrent agree: as many hashes and pieces as it takes to
    cover `length` bytes. The other bounds are those of `int` and `int64_t`. -/
structure Consistent (m : Metadata) : Prop where
  piece_length_pos : 1 ≤ m.piece_length
  piece_length_int : m.piece_length < 2 ^ 31
  length_pos : 1 ≤ m.length
  length_int64 : m.length < 2 ^ 63
  pieces_int : m.total_pieces < 2 ^ 31
  pieces : m.total_pieces = tile_count m.length.toNat m.piece_length.toNat
  hashes : m.piece_hash.length = m.total_pieces

/-- The addition in `count_blocks` fits an `int`, for every piece. -/
def CountFits (m : Metadata) : Prop :=
  ∀ i < m.total_pieces, m.piece_length_for i + block_length < 2 ^ 31

/-- The number of bytes of piece `i`. -/
def piece_size (m : Metadata) (i : ℕ) : ℕ := tile_size m.length.toNat m.piece_length.toNat i

/-- Where piece `i` starts in the file. -/
def piece_start (m : Metadata) (i : ℕ) : ℕ := i * m.piece_length.toNat

/-- The number of blocks of piece `i`. -/
def block_count (m : Metadata) (i : ℕ) : ℕ := tile_count (m.piece_size i) 16384

variable {m : Metadata} {i j b : ℕ}

/-! ### Any Numbers -/

/-- `piece_length_for` returns an `int`. -/
theorem piece_length_for_fits (h : FitsInt m.piece_length) (x : ℤ) :
    FitsInt (m.piece_length_for x) := by
  unfold piece_length_for
  split
  · exact h
  · exact int32_fits _

/-- The length computed for an offset inside a piece. -/
theorem block_size_of_inside {x off : ℤ} (hint : m.piece_length_for x < 2 ^ 31) (hoff : 0 ≤ off)
    (hlt : off < m.piece_length_for x) :
    m.block_size x off = min 16384 (m.piece_length_for x - off) := by
  unfold block_size
  rw [int32_of_fits (by constructor <;> omega)]
  rfl

theorem block_offset_of_lt (h : b * 16384 < 2 ^ 31) : block_offset b = (b * 16384 : ℕ) := by
  unfold block_offset block_length
  rw [int32_of_fits (by constructor <;> omega)]
  push_cast
  ring

/-- The sum in `count_blocks` does not overflow in between. -/
theorem count_blocks_sum (m : Metadata) (x : ℤ) :
    m.count_blocks x = (int32 (m.piece_length_for x + 16384 - 1)).tdiv 16384 := by
  unfold count_blocks block_length
  simp only [int32_eq_bmod, Int.bmod_sub_bmod]

/-- `count_blocks` is the number of blocks of a piece of `n` bytes. -/
theorem count_blocks_of_pos {x : ℤ} {n : ℕ} (hn : m.piece_length_for x = n)
    (hle : m.piece_length_for x ≤ 2 ^ 31 - 16384) : m.count_blocks x = tile_count n 16384 := by
  have hadd : (n : ℤ) + 16384 - 1 = ((n + 16384 - 1 : ℕ) : ℤ) := by omega
  rw [count_blocks_sum, hn, int32_of_fits (by constructor <;> omega), hadd, tile_count]
  exact Int.ofNat_tdiv _ _ |>.symm

/-- Of a piece that is too large, or of one of no bytes, no block is counted. -/
theorem count_blocks_nonpos {x : ℤ} (hfits : FitsInt (m.piece_length_for x))
    (hno : m.piece_length_for x ≤ 0 ∨ 2 ^ 31 - 16384 < m.piece_length_for x) :
    m.count_blocks x ≤ 0 := by
  obtain ⟨hlow, hhigh⟩ := hfits
  rw [count_blocks_sum]
  -- less than one block, or the sum wraps around to a negative number
  have hsum : int32 (m.piece_length_for x + 16384 - 1) < 16384 := by
    rw [int32_eq_bmod, Int.bmod_def]
    split <;> omega
  by_cases hneg : int32 (m.piece_length_for x + 16384 - 1) ≤ 0
  · have hdiv := Int.tdiv_nonneg (Int.neg_nonneg_of_nonpos hneg)
      (show (0 : ℤ) ≤ 16384 by norm_num)
    rw [Int.neg_tdiv] at hdiv
    omega
  · rw [Int.tdiv_eq_ediv_of_nonneg (by omega)]
    omega

/-! ### Pieces -/

namespace Consistent

theorem piece_length_nat_pos (h : m.Consistent) : 0 < m.piece_length.toNat := by
  have := h.piece_length_pos
  omega

theorem total_pieces_pos (h : m.Consistent) : 0 < m.total_pieces := by
  rw [h.pieces]
  have := h.length_pos
  exact tile_count_pos h.piece_length_nat_pos (by omega)

theorem piece_size_pos (h : m.Consistent) (hi : i < m.total_pieces) : 0 < m.piece_size i := by
  rw [h.pieces] at hi
  exact tile_size_pos h.piece_length_nat_pos hi

theorem piece_size_le (h : m.Consistent) : (m.piece_size i : ℤ) ≤ m.piece_length := by
  have hle := tile_size_le m.length.toNat m.piece_length.toNat i
  have hpos := h.piece_length_pos
  unfold piece_size
  omega

theorem piece_end_le (h : m.Consistent) (hi : i < m.total_pieces) :
    m.piece_start i + m.piece_size i ≤ m.length.toNat := by
  rw [h.pieces] at hi
  exact tile_end_le h.piece_length_nat_pos hi

/-- What the pieces before piece `i` leave of the file. -/
theorem remaining_eq (h : m.Consistent) (hi : i < m.total_pieces) :
    m.length - m.piece_length * i = (m.length.toNat - m.piece_start i : ℕ) := by
  have hpos := h.piece_length_pos
  have hlen := h.length_pos
  have hmul : m.piece_length * i = (m.piece_start i : ℕ) := by
    unfold piece_start
    push_cast
    rw [Int.toNat_of_nonneg (by omega), mul_comm]
  have hle := h.piece_end_le hi
  rw [hmul]
  omega

/-- The last piece is all that is left. -/
theorem last_piece_eq (h : m.Consistent) (hi : i < m.total_pieces)
    (hlast : ¬ (i : ℤ) < m.total_pieces - 1) : m.length - m.piece_length * i = m.piece_size i := by
  have hpieces := h.pieces
  rw [h.remaining_eq hi, piece_size, tile_size_last h.piece_length_nat_pos (by omega), piece_start]

/-- `piece_length_for` is the size of the piece: the short last one included. -/
theorem piece_length_for_eq (h : m.Consistent) (hi : i < m.total_pieces) :
    m.piece_length_for i = m.piece_size i := by
  have hpl := h.piece_length_pos
  have hpieces := h.pieces
  unfold piece_length_for
  by_cases hlast : (i : ℤ) < m.total_pieces - 1
  · rw [if_pos hlast, piece_size, tile_size_full h.piece_length_nat_pos (by omega)]
    omega
  · have hle := h.piece_size_le (i := i)
    have hint := h.piece_length_int
    rw [if_neg hlast, h.last_piece_eq hi hlast, int32_of_fits]
    constructor <;> omega

theorem piece_size_int (h : m.Consistent) : (m.piece_size i : ℤ) < 2 ^ 31 :=
  lt_of_le_of_lt h.piece_size_le h.piece_length_int

/-! ### Blocks -/

/-- `count_blocks` is the number of blocks of the piece where its sum is an
    `int`; of a larger piece it is not positive. -/
theorem count_blocks_cases (h : m.Consistent) (hi : i < m.total_pieces) :
    (m.piece_length_for i ≤ 2 ^ 31 - 16384 ∧ m.count_blocks i = m.block_count i) ∨
      (2 ^ 31 - 16384 < m.piece_length_for i ∧ m.count_blocks i ≤ 0) := by
  have hplen := h.piece_length_for_eq hi
  have hint := h.piece_size_int (i := i)
  by_cases hfit : m.piece_length_for i ≤ 2 ^ 31 - 16384
  · exact .inl ⟨hfit, count_blocks_of_pos hplen hfit⟩
  · have hfits : FitsInt (m.piece_length_for i) := by
      rw [hplen]
      constructor <;> omega
    exact .inr ⟨by omega, count_blocks_nonpos hfits (.inr (by omega))⟩

/-- `count_blocks` is the number of blocks, where its addition fits. -/
theorem count_blocks_eq (h : m.Consistent) (hfit : m.CountFits) (hi : i < m.total_pieces) :
    m.count_blocks i = m.block_count i := by
  rcases h.count_blocks_cases hi with ⟨-, heq⟩ | ⟨hlarge, -⟩
  · exact heq
  · have hsum := hfit i hi
    unfold block_length at hsum
    omega

theorem count_blocks_le (h : m.Consistent) (hi : i < m.total_pieces) :
    m.count_blocks i ≤ m.block_count i := by
  rcases h.count_blocks_cases hi with ⟨-, heq⟩ | ⟨-, hle⟩
  · exact heq.le
  · omega

/-- Block `b` of a piece starts inside the piece. -/
theorem block_start_lt (hb : b < m.block_count i) : b * 16384 < m.piece_size i :=
  (lt_tile_count (by norm_num)).mp hb

theorem block_offset_eq (h : m.Consistent) (hb : b < m.block_count i) :
    block_offset b = (b * 16384 : ℕ) := by
  have hlt := block_start_lt hb
  have hint := h.piece_size_int (i := i)
  exact block_offset_of_lt (by omega)

/-- The length a block must have is its size in the tiling of the piece. -/
theorem block_size_eq (h : m.Consistent) (hi : i < m.total_pieces) (hb : b < m.block_count i) :
    m.block_size i (block_offset b) = tile_size (m.piece_size i) 16384 b := by
  have hlt := block_start_lt hb
  have hint := h.piece_size_int (i := i)
  unfold block_size
  rw [h.piece_length_for_eq hi, h.block_offset_eq hb, int32_of_fits (by constructor <;> omega)]
  unfold block_length tile_size
  omega

theorem block_count_pos (h : m.Consistent) (hi : i < m.total_pieces) : 0 < m.block_count i :=
  tile_count_pos (by norm_num) (h.piece_size_pos hi)

end Consistent

/-- The smallest torrent: a file of one byte. -/
def tiny (mode : Mode) (hash : Bytes) : Metadata where
  mode := mode
  total_pieces := 1
  piece_length := 1
  length := 1
  piece_hash := [hash]

theorem tiny_consistent (mode : Mode) (hash : Bytes) : (tiny mode hash).Consistent where
  piece_length_pos := le_rfl
  piece_length_int := by norm_num [tiny]
  length_pos := le_rfl
  length_int64 := by norm_num [tiny]
  pieces_int := by norm_num [tiny]
  pieces := show 1 = tile_count 1 1 by decide
  hashes := rfl

theorem tiny_countFits (mode : Mode) (hash : Bytes) : (tiny mode hash).CountFits := by
  intro i hi
  rw [(tiny_consistent mode hash).piece_length_for_eq hi]
  have hle : ((tiny mode hash).piece_size i : ℤ) ≤ 1 := (tiny_consistent mode hash).piece_size_le
  unfold block_length
  omega

/-- A file of two bytes in two pieces. -/
def pair (mode : Mode) (hash₀ hash₁ : Bytes) : Metadata where
  mode := mode
  total_pieces := 2
  piece_length := 1
  length := 2
  piece_hash := [hash₀, hash₁]

theorem pair_consistent (mode : Mode) (hash₀ hash₁ : Bytes) :
    (pair mode hash₀ hash₁).Consistent where
  piece_length_pos := le_rfl
  piece_length_int := by norm_num [pair]
  length_pos := by norm_num [pair]
  length_int64 := by norm_num [pair]
  pieces_int := by norm_num [pair]
  pieces := show 2 = tile_count 2 1 by decide
  hashes := rfl

theorem pair_countFits (mode : Mode) (hash₀ hash₁ : Bytes) :
    (pair mode hash₀ hash₁).CountFits := by
  intro i hi
  have hg := pair_consistent mode hash₀ hash₁
  rw [hg.piece_length_for_eq hi]
  have hle : ((pair mode hash₀ hash₁).piece_size i : ℤ) ≤ 1 := hg.piece_size_le
  unfold block_length
  omega

/-- A file in two pieces: one of two blocks, the second of a single byte, and
    one of a single byte. -/
def mixed (mode : Mode) (hash₀ hash₁ : Bytes) : Metadata where
  mode := mode
  total_pieces := 2
  piece_length := 16385
  length := 16386
  piece_hash := [hash₀, hash₁]

/-- One piece of `2^31 - 1` bytes, the largest an `int` holds. -/
def largest (mode : Mode) (hash : Bytes) : Metadata where
  mode := mode
  total_pieces := 1
  piece_length := 2147483647
  length := 2147483647
  piece_hash := [hash]

theorem largest_consistent (mode : Mode) (hash : Bytes) : (largest mode hash).Consistent where
  piece_length_pos := by norm_num [largest]
  piece_length_int := by norm_num [largest]
  length_pos := by norm_num [largest]
  length_int64 := by norm_num [largest]
  pieces_int := by norm_num [largest]
  pieces := show 1 = tile_count 2147483647 2147483647 by decide
  hashes := rfl

/-- A piece ends where the next one starts, or before. -/
theorem piece_end_le_start (m : Metadata) (hij : i < j) :
    m.piece_start i + m.piece_size i ≤ m.piece_start j :=
  tile_end_le_next _ _ hij

end Metadata

/-- Blocks as long as the tiles make up the whole. -/
theorem Controller.length_assembled {c : Controller} {i n : ℕ}
    (hcount : c.count_blocks i = tile_count n 16384) (hcomp : c.complete i = true)
    (hsized : ∀ b < tile_count n 16384, ∀ d,
      c.piece_blocks i (Metadata.block_offset b) = some d → d.length = tile_size n 16384 b) :
    (c.assembled i).length = n := by
  unfold Controller.assembled
  rw [hcount, Int.toNat_natCast]
  apply length_flatMap_tiles _ (by norm_num)
  intro b hb
  obtain ⟨d, hd⟩ := Controller.stored_of_complete hcomp (by rw [hcount]; exact_mod_cast hb)
  rw [hd, Option.getD_some]
  exact hsized b hb d hd

end BitTorrentLite
