import BitTorrentLite.Controller.Recovery
import BitTorrentLite.LTS.System
import BitTorrentLite.Transfer.Torrent

/-! # The Geometry of Accepted Torrents

    Nothing between the parser and the Controller looks at the numbers of a
    torrent: whatever is parsed is handed on, with the number of hashes and the
    piece length as an `int`. The pieces cover the file just when the numbers
    agree, and then a download can be completed, as far as the pieces leave
    room for the addition in `count_blocks`.
-/

open Machine Region Tiling Bencode Relation

namespace BitTorrentLite

/-! ## Usable Geometry -/

namespace Metadata

/-- The bytes of the file that piece `i` is taken for. -/
def piece_range (m : Metadata) (i : ℕ) : Set ℤ :=
  Set.Ico (i * m.piece_length) (i * m.piece_length + m.piece_length_for i)

/-- The piece length is the one of the torrent, and the pieces partition the file. -/
structure Usable (m : Metadata) (piece_length : ℤ) : Prop where
  piece_length_eq : m.piece_length = piece_length
  piece_length_pos : 0 < m.piece_length
  pieces : ∀ i < m.total_pieces, 1 ≤ m.piece_length_for i ∧ m.piece_length_for i ≤ m.piece_length
  inside : ∀ i < m.total_pieces, m.piece_range i ⊆ Set.Ico 0 m.length
  covered : ∀ x ∈ Set.Ico 0 m.length, ∃! i, i < m.total_pieces ∧ x ∈ m.piece_range i

variable {m : Metadata} {piece_length : ℤ} {i : ℕ}

/-- In a consistent geometry the range of a piece is its tile. -/
theorem Consistent.mem_piece_range (h : m.Consistent) (hi : i < m.total_pieces) {x : ℤ} :
    x ∈ m.piece_range i ↔ (m.piece_start i : ℤ) ≤ x ∧ x < m.piece_start i + m.piece_size i := by
  have hpos := h.piece_length_pos
  have hstart : (i : ℤ) * m.piece_length = (m.piece_start i : ℕ) := by
    unfold piece_start
    push_cast
    rw [Int.toNat_of_nonneg (by omega)]
  unfold piece_range
  rw [Set.mem_Ico, hstart, h.piece_length_for_eq hi]

theorem Consistent.usable (h : m.Consistent) : m.Usable m.piece_length where
  piece_length_eq := rfl
  piece_length_pos := h.piece_length_pos
  pieces := by
    intro i hi
    have hpos := h.piece_size_pos hi
    have hle := h.piece_size_le (i := i)
    rw [h.piece_length_for_eq hi]
    omega
  inside := by
    intro i hi x hx
    have hend := h.piece_end_le hi
    obtain ⟨hstart, hstop⟩ := (h.mem_piece_range hi).mp hx
    rw [Set.mem_Ico]
    omega
  covered := by
    intro x hx
    obtain ⟨n, rfl⟩ := Int.eq_ofNat_of_zero_le hx.1
    have hlt := hx.2
    have htile : ∃! i, i < m.total_pieces ∧ m.piece_start i ≤ n ∧
        n < m.piece_start i + m.piece_size i := by
      rw [h.pieces]
      exact existsUnique_tile h.piece_length_nat_pos (by omega)
    obtain ⟨i, ⟨hi, hstart, hstop⟩, honly⟩ := htile
    refine ⟨i, ⟨hi, (h.mem_piece_range hi).mpr ⟨by omega, by omega⟩⟩, ?_⟩
    rintro j ⟨hj, hjx⟩
    have := (h.mem_piece_range hj).mp hjx
    exact honly j ⟨hj, by omega, by omega⟩

/-- A partition of the file by pieces of one length is its tiling. -/
theorem Usable.pieces_eq (h : m.Usable piece_length) :
    m.total_pieces = tile_count m.length.toNat piece_length.toNat := by
  have hpos := h.piece_length_pos
  rw [← h.piece_length_eq]
  obtain ⟨p, hp⟩ := Int.eq_ofNat_of_zero_le hpos.le
  rw [hp, Int.toNat_natCast]
  by_cases hlen : m.length ≤ 0
  · -- there are no bytes, so there is no piece of at least one
    rw [Int.toNat_of_nonpos hlen, tile_count_zero]
    by_contra hn
    have hplen := (h.pieces 0 (by omega)).1
    have hmem : (0 : ℤ) ∈ m.piece_range 0 := by
      rw [piece_range, Set.mem_Ico]
      push_cast at hplen ⊢
      omega
    have := (h.inside 0 (by omega) hmem).2
    omega
  · obtain ⟨i, ⟨hi, hmem⟩, -⟩ := h.covered (m.length - 1) ⟨by omega, by omega⟩
    -- the last byte is in the last piece or before, so the pieces reach far enough
    have hupper : m.length ≤ m.total_pieces * p := by
      have hlast := hmem.2
      have hplen := (h.pieces i hi).2
      have hle : ((i + 1 : ℕ) : ℤ) * p ≤ m.total_pieces * p := by
        exact_mod_cast Nat.mul_le_mul_right p hi
      push_cast at hle
      rw [hp] at hlast hplen
      rw [Int.add_mul] at hle
      omega
    have hlower : (m.total_pieces - 1) * p < m.length.toNat := by
      have hk : m.total_pieces - 1 < m.total_pieces := by omega
      have hplen := (h.pieces _ hk).1
      have hstart : (((m.total_pieces - 1 : ℕ) : ℤ) * m.piece_length) ∈
          m.piece_range (m.total_pieces - 1) := ⟨le_rfl, by omega⟩
      have := (h.inside _ hk hstart).2
      rw [hp] at this
      have hcast : (((m.total_pieces - 1) * p : ℕ) : ℤ) < m.length := by
        rw [Nat.cast_mul]
        exact this
      omega
    have hsz : 0 < p := by omega
    have hfew : ¬ m.total_pieces < tile_count m.length.toNat p := by
      rw [lt_tile_count hsz]
      have : ((m.total_pieces * p : ℕ) : ℤ) = m.total_pieces * p := Nat.cast_mul ..
      omega
    have hmany := (lt_tile_count hsz).mpr hlower
    omega

/-- Numbers that agree are consistent, unless there is nothing to download. -/
theorem consistent_of_pieces (hpos : 1 ≤ m.piece_length) (hint : m.piece_length < 2 ^ 31)
    (hlen : m.length < 2 ^ 63) (hn : m.total_pieces < 2 ^ 31)
    (hhashes : m.piece_hash.length = m.total_pieces)
    (hpieces : m.total_pieces = tile_count m.length.toNat m.piece_length.toNat) :
    m.Consistent ∨ (m.total_pieces = 0 ∧ m.length ≤ 0) := by
  by_cases hempty : m.length ≤ 0
  · rw [Int.toNat_of_nonpos hempty, tile_count_zero] at hpieces
    exact .inr ⟨hpieces, hempty⟩
  · exact .inl ⟨hpos, hint, by omega, hlen, hn, hpieces, hhashes⟩

/-- **The numbers agree**: a geometry is usable for the piece length of the
    torrent just when that is a positive `int` and there are as many pieces as
    it takes to cover the file. -/
theorem usable_iff (hint : m.piece_length = int32 piece_length) (hlen : m.length < 2 ^ 63)
    (hn : m.total_pieces < 2 ^ 31) (hhashes : m.piece_hash.length = m.total_pieces) :
    m.Usable piece_length ↔ 1 ≤ piece_length ∧ piece_length < 2 ^ 31 ∧
      m.total_pieces = tile_count m.length.toNat piece_length.toNat := by
  constructor
  · intro h
    have heq := h.piece_length_eq
    have hpos := h.piece_length_pos
    have hfits := (int32_fits piece_length).2
    rw [← hint, heq] at hfits
    exact ⟨by omega, hfits, h.pieces_eq⟩
  · rintro ⟨hpos, hfits, hpieces⟩
    rw [int32_of_fits ⟨by omega, hfits⟩] at hint
    subst hint
    rcases consistent_of_pieces hpos hfits hlen hn hhashes hpieces with hg | ⟨hzero, hempty⟩
    · exact hg.usable
    · refine ⟨rfl, by omega, ?_, ?_, ?_⟩
      · intro i hi
        omega
      · intro i hi
        omega
      · intro x hx
        have := hx.1
        have := hx.2
        omega

end Metadata

/-! ## Completing a Download -/

namespace Controller

open Metadata (block_offset)

variable {sha1 : Bytes → Bytes} {F : Bytes} {c c' : Controller} {i b : ℕ}

/-- A block of the original comes in. -/
def Feeds (sha1 : Bytes → Bytes) (F : Bytes) (c c' : Controller) : Prop :=
  ∃ i < c.total_pieces, ∃ b < c.block_count i, ∃ done,
    c.received_block sha1 i (block_offset b) (c.block_of F i b) = .ok (c', done)

/-- The block that comes in was missing, and no block goes missing. -/
theorem open_blocks_fed {data : Bytes} (hopen : (⟨i, b⟩ : Σ _ : ℕ, ℕ) ∈ c.open_blocks)
    (hin : c.inflight = fun _ => ∅)
    (hc : c' = c.store i (block_offset b) data ∨ c' = c.finish i (block_offset b) data) :
    c'.open_blocks ⊂ c.open_blocks ∧ c'.inflight = fun _ => ∅ := by
  obtain ⟨hi, hb, hst, hns, hni⟩ := mem_open_blocks.mp hopen
  have hin' : c'.inflight = fun _ => ∅ := by
    have hupdate : Function.update c.inflight i ((c.inflight i).erase (block_offset b))
        = fun _ => ∅ := by
      rw [hin]
      exact Function.update_eq_self ..
    rcases hc with rfl | rfl
    · exact hupdate
    · exact hupdate
  refine ⟨Finset.ssubset_iff_of_subset ?_ |>.mpr ⟨⟨i, b⟩, hopen, ?_⟩, hin'⟩
  · rintro ⟨j, k⟩ hmem
    obtain ⟨hj, hk, hstj, hnsj, -⟩ := mem_open_blocks.mp hmem
    have hnij : block_offset k ∉ c.inflight j := by
      rw [hin]
      exact Finset.notMem_empty _
    by_cases hji : j = i
    · subst hji
      rcases hc with rfl | rfl
      · refine mem_open_blocks.mpr ⟨hj, hk, hst, ?_, hnij⟩
        -- it is another block of the piece
        rw [store_piece_blocks, Function.update_self] at hnsj
        by_cases hoff : block_offset k = block_offset b
        · rw [hoff]
          exact hns
        · rwa [Function.update_of_ne hoff] at hnsj
      · rw [finish_piece_status, Function.update_self] at hstj
        exact absurd rfl hstj
    · rcases hc with rfl | rfl
      · rw [store_piece_blocks, Function.update_of_ne hji] at hnsj
        exact mem_open_blocks.mpr ⟨hj, hk, hstj, hnsj, hnij⟩
      · rw [finish_piece_blocks_ne _ hji] at hnsj
        rw [finish_piece_status, Function.update_of_ne hji] at hstj
        exact mem_open_blocks.mpr ⟨hj, hk, hstj, hnsj, hnij⟩
  · intro hmem
    obtain ⟨-, -, hst', hns', -⟩ := mem_open_blocks.mp hmem
    rcases hc with rfl | rfl
    · rw [store_piece_blocks, Function.update_self, Function.update_self] at hns'
      cases hns'
    · rw [finish_piece_status, Function.update_self] at hst'
      exact hst' rfl

/-- **Progress**: while a piece is not done, a block of the original that comes
    in leaves fewer blocks missing. -/
theorem fed_progress (hg : c.Consistent) (hfit : c.CountFits) (ho : c.Original sha1 F)
    (hl : c.mode = .LEECHER) (h : c.Delivering F) (hin : c.inflight = fun _ => ∅)
    (hwait : ¬ c.wait_until_done = true) :
    ∃ c', Feeds sha1 F c c' ∧ (c'.toMetadata = c.toMetadata ∧ c'.Delivering F ∧
      c'.inflight = fun _ => ∅) ∧ c'.open_blocks.card < c.open_blocks.card := by
  obtain ⟨i, hi, hst⟩ : ∃ i < c.total_pieces, c.piece_status i ≠ 1 := by
    simpa [wait_until_done_iff] using hwait
  obtain ⟨b, hb, hmiss⟩ := h.incomplete i hi
  obtain ⟨⟨c', done⟩, hcall⟩ :
      ∃ r, c.received_block sha1 i (block_offset b) (c.block_of F i b) = .ok r :=
    received_block_natCast hi
  have hrec := received_block_ok hcall
  have hopen : (⟨i, b⟩ : Σ _ : ℕ, ℕ) ∈ c.open_blocks := by
    refine mem_open_blocks.mpr ⟨hi, ?_, hst, hmiss, ?_⟩
    · rw [hg.count_blocks_eq hfit hi]
      exact_mod_cast hb
    · rw [hin]
      exact Finset.notMem_empty _
  obtain ⟨hless, hin'⟩ := open_blocks_fed hopen hin
    ((received_genuine hg hfit ho hl h.genuine hi hb hrec).imp And.left And.left)
  exact ⟨c', ⟨i, hi, b, hb, done, hcall⟩,
    ⟨hrec.toMetadata, h.received hg hfit ho hl hi hb hrec, hin'⟩, Finset.card_lt_card hless⟩

variable {m : Metadata}

/-- **Completion**: from the start, blocks of the original that come in lead to
    the end of the download. -/
theorem completes (hg : m.Consistent) (hfit : m.CountFits) (ho : m.Original sha1 F)
    (hl : m.mode = .LEECHER) (disk : Option Bytes) :
    ∃ c, ReflTransGen (Feeds sha1 F) (make m disk) c ∧ c.wait_until_done = true ∧
      ∃ f, c.file = some f ∧ slice f 0 F.length = F := by
  have hprogress : ∀ c : Controller,
      (c.toMetadata = m ∧ c.Delivering F ∧ c.inflight = fun _ => ∅) →
        c.wait_until_done = true ∨ ∃ c', Feeds sha1 F c c' ∧
          (c'.toMetadata = m ∧ c'.Delivering F ∧ c'.inflight = fun _ => ∅) ∧
          c'.open_blocks.card < c.open_blocks.card := by
    rintro c ⟨rfl, h, hin⟩
    by_cases hwait : c.wait_until_done = true
    · exact .inl hwait
    · exact .inr (fed_progress hg hfit ho hl h hin hwait)
  obtain ⟨c, hrun, ⟨rfl, h, -⟩, hwait⟩ := LTS.exists_goal_of_measure
    (fun c : Controller => c.open_blocks.card) hprogress ⟨rfl, delivering_make hg hl disk, rfl⟩
  exact ⟨c, hrun, hwait, h.file_eq hg ho (wait_until_done_iff.mp hwait)⟩

/-- A new controller has a block of each piece to ask for. -/
theorem requestable (hl : m.mode = .LEECHER) (disk : Option Bytes) (hi : i < m.total_pieces)
    (hcount : 0 < m.count_blocks i) : ∃ c off len,
    (make m disk).next_request (fun j => decide (j = i)) = (c, some ⟨i, off, len⟩) := by
  have ha : (make m disk).Available i (block_offset 0) :=
    { piece := hi
      missing := by simp [make, hl]
      block := ⟨0, hcount, rfl⟩
      not_stored := rfl
      not_inflight := Finset.notMem_empty _ }
  have hfind := (make m disk).next_request_cases fun j => decide (j = i)
  rcases hfind with ⟨-, hnone⟩ | ⟨j, off, -, -, hj, hreq⟩
  · have := hnone hl i _ ha
    simp at this
  · obtain rfl : j = i := of_decide_eq_true hj
    exact ⟨_, _, _, hreq⟩

end Controller

/-! ## From the Torrent to the Controller -/

/-- The Controller of `run_leecher` and `run_seeder`: the number of hashes and
    the piece length are converted to `int`, and no vector is made of a negative
    number of elements. -/
def Torrent.controller (mode : Mode) (t : Torrent) (disk : Option Bytes) :
    Except Fault Controller :=
  let total_pieces := int32 t.pieces.length
  if total_pieces < 0 then .error .length_error
  else .ok (Controller.make { t.metadata mode with total_pieces := total_pieces.toNat } disk)

theorem Torrent.controller_eq {t : Torrent} (hn : t.pieces.length < 2 ^ 31) (mode : Mode)
    (disk : Option Bytes) :
    t.controller mode disk = .ok (Controller.make (t.metadata mode) disk) := by
  unfold Torrent.controller
  dsimp only
  rw [int32_of_fits ⟨by omega, by omega⟩, if_neg (by omega), Int.toNat_natCast]
  rfl

/-- The numbers of a torrent agree: the piece length is a positive `int`, and
    there are as many hashes as it takes pieces to cover the file. -/
structure NumbersAgree (info : List (Bytes × Value)) : Prop where
  piece_length_pos : 1 ≤ integer_at info "piece length"
  piece_length_int : integer_at info "piece length" < 2 ^ 31
  pieces : (string_at info "pieces").length / 20
    = tile_count (integer_at info "length").toNat (integer_at info "piece length").toNat

section torrent

variable {data : Text} {top info : List (Bytes × Value)}

theorem mem_of_lookup {es : List (Bytes × Value)} {k : Bytes} {v : Value}
    (h : es.lookup k = some v) : (k, v) ∈ es := by
  obtain ⟨l, r, rfl, -⟩ := List.lookup_eq_some_iff.mp h
  simp

/-- A string that is read has fewer than `2^31` bytes. -/
theorem IsTorrent.pieces_lt (h : IsTorrent top info) :
    (string_at info "pieces").length < 2 ^ 31 := by
  unfold string_at
  split
  · rename_i s hs
    exact (entries_below_mem h.info_below _ _ (mem_of_lookup hs)).2
  · exact Nat.two_pow_pos _

theorem IsTorrent.length_fits (h : IsTorrent top info) : FitsInt64 (integer_at info "length") := by
  unfold integer_at
  split
  · rename_i n hn
    obtain ⟨n', heq, hfits⟩ := h.length _ (mem_of_lookup hn)
    obtain rfl := Value.int.inj heq
    exact hfits
  · decide

/-- As many hashes as there are groups of 20 bytes. -/
theorem length_hashes (raw : Bytes) :
    ((groups 20 raw).map hexconverter).length = raw.length / 20 := by
  rw [List.length_map, groups, List.length_map, List.length_range]

/-- **The torrents that are accepted**: every torrent that is parsed gets its
    Controller, whatever its numbers; the pieces are a usable geometry just when
    the numbers agree, and then a piece that leaves room for the addition in
    `count_blocks` has the blocks it should and can be asked for, and a download
    of such pieces can be completed. -/
theorem accepted_geometry (h : IsTorrent top info)
    (hdata : data.bytes = (Value.dict top).encode) :
    ∃ t, (∀ fuel, data.size < fuel → parse_torrent data fuel = pure t) ∧
      info_raw data t = .ok (Value.dict info).encode ∧
      ∀ mode disk, ∃ c, t.controller mode disk = .ok c ∧
        (c.Usable (integer_at info "piece length") ↔ NumbersAgree info) ∧
        (NumbersAgree info →
          (∀ i < c.total_pieces, c.piece_length_for i + 16384 < 2 ^ 31 →
            FitsInt (c.piece_length_for i + 16384 - 1) ∧
            c.count_blocks i = tile_count (c.piece_length_for i).toNat 16384 ∧
            (mode = .LEECHER → ∃ c' off len,
              c.next_request (fun j => decide (j = i)) = (c', some ⟨i, off, len⟩))) ∧
          (mode = .LEECHER → (∀ i < c.total_pieces, c.piece_length_for i + 16384 < 2 ^ 31) →
            ∀ sha1 F, c.Original sha1 F → ∃ c', ReflTransGen (Controller.Feeds sha1 F) c c' ∧
              c'.wait_until_done = true ∧ slice (c'.file.getD []) 0 F.length = F)) := by
  obtain ⟨t, ht⟩ := h.parses hdata
  have hlength := ht.length
  have hpiece := ht.piece_length
  have hlt := h.pieces_lt
  have hcount : t.pieces.length = (string_at info "pieces").length / 20 := by
    rw [ht.pieces, length_hashes]
  have hn : t.pieces.length < 2 ^ 31 := by omega
  have hlen : t.length < 2 ^ 63 := hlength ▸ h.length_fits.2
  refine ⟨t, ht.parse, ht.raw, fun mode disk => ?_⟩
  let m := t.metadata mode
  have hagree_iff : NumbersAgree info ↔ 1 ≤ t.piece_length ∧ t.piece_length < 2 ^ 31 ∧
      m.total_pieces = tile_count m.length.toNat t.piece_length.toNat := by
    show _ ↔ _ ∧ _ ∧ t.pieces.length = tile_count t.length.toNat _
    rw [hcount, hlength, hpiece]
    exact ⟨fun ⟨h₁, h₂, h₃⟩ => ⟨h₁, h₂, h₃⟩, fun ⟨h₁, h₂, h₃⟩ => ⟨h₁, h₂, h₃⟩⟩
  have husable : m.Usable t.piece_length ↔ NumbersAgree info := by
    rw [hagree_iff]
    exact Metadata.usable_iff rfl hlen hn rfl
  refine ⟨_, t.controller_eq hn mode disk, hpiece ▸ husable, fun hagree => ?_⟩
  obtain ⟨hpos, hfits, htiles⟩ := hagree_iff.mp hagree
  have hint : m.piece_length = t.piece_length := int32_of_fits ⟨by omega, hfits⟩
  rcases Metadata.consistent_of_pieces (m := m) (by omega) (by omega) hlen hn rfl
    (by rw [hint]; exact htiles) with hg | ⟨hzero, hempty⟩
  · refine ⟨fun i hi hfit => ?_, fun hl hfit sha1 F ho => ?_⟩
    · have hfit : m.piece_length_for i + 16384 < 2 ^ 31 := hfit
      have hplen := hg.piece_length_for_eq hi
      have hsize := hg.piece_size_pos hi
      have hcounted := Metadata.count_blocks_of_pos hplen (by omega)
      refine ⟨⟨?_, ?_⟩, ?_, fun hl => Controller.requestable hl disk hi ?_⟩
      · show _ ≤ m.piece_length_for i + 16384 - 1
        omega
      · show m.piece_length_for i + 16384 - 1 < _
        omega
      · show m.count_blocks i = tile_count (m.piece_length_for i).toNat 16384
        rw [hcounted, hplen, Int.toNat_natCast]
      · rw [hcounted]
        exact_mod_cast hg.block_count_pos hi
    · obtain ⟨c', hrun, hwait, f, hf, hF⟩ := Controller.completes hg hfit ho hl disk
      refine ⟨c', hrun, hwait, ?_⟩
      rw [hf]
      exact hF
  · -- there are no pieces, and nothing is left to do
    refine ⟨fun i hi => ?_, fun hl hfit sha1 F ho => ?_⟩
    · exact absurd (hzero ▸ hi) (Nat.not_lt_zero i)
    · have hF : F.length = 0 := by
        have hlength : (F.length : ℤ) = m.length := ho.length
        omega
      refine ⟨_, ReflTransGen.refl, Controller.wait_until_done_iff.mpr fun i hi => ?_, ?_⟩
      · exact absurd (hzero ▸ hi) (Nat.not_lt_zero i)
      · rw [hF, slice_zero, List.length_eq_zero_iff.mp hF]

end torrent

/-! ### Five Bytes, by Two Piece Lengths -/

/-- A file of five bytes with one hash. -/
def five_info (piece_length : ℤ) : List (Bytes × Value) :=
  [(ascii "length", .int 5), (ascii "piece length", .int piece_length),
    (ascii "pieces", .str (List.replicate 20 0))]

def five_torrent (piece_length : ℤ) : List (Bytes × Value) :=
  [(ascii "info", .dict (five_info piece_length))]

theorem five_isTorrent {n : ℤ} (hn : FitsInt64 n) : IsTorrent (five_torrent n) (five_info n) := by
  have hinfo : ((five_info n).map Prod.fst).Nodup := by
    show [ascii "length", ascii "piece length", ascii "pieces"].Nodup
    decide
  have htop : ((five_torrent n).map Prod.fst).Nodup := List.nodup_singleton _
  refine ⟨htop, hinfo, List.mem_cons_self .., ?_, ?_, ?_, ?_, ?_, ?_, ?_⟩
  · intro v hv
    cases lookup_of_mem htop hv
  · intro v hv
    cases lookup_of_mem htop hv
  · intro v hv
    cases lookup_of_mem hinfo hv
  · intro v hv
    obtain rfl := Option.some.inj (lookup_of_mem hinfo hv)
    exact ⟨_, rfl⟩
  · intro v hv
    obtain rfl := Option.some.inj (lookup_of_mem hinfo hv)
    exact ⟨5, rfl, by decide⟩
  · intro v hv
    obtain rfl := Option.some.inj (lookup_of_mem hinfo hv)
    exact ⟨n, rfl, hn⟩
  · simp only [five_torrent, five_info, entries_below, Value.StringsBelow, and_true, true_and]
    decide

/-- One piece of five bytes. -/
theorem five_accepted : NumbersAgree (five_info 5) ∧ ∃ (data : Text) (t : Torrent) (c : Controller),
    (∀ fuel, data.size < fuel → parse_torrent data fuel = pure t) ∧
      t.controller .LEECHER none = .ok c ∧ c.Usable 5 := by
  have hagree : NumbersAgree (five_info 5) := ⟨by decide, by decide, by decide⟩
  have hdata : (⟨(Value.dict (five_torrent 5)).encode, by decide +kernel⟩ : Text).bytes
      = (Value.dict (five_torrent 5)).encode := rfl
  obtain ⟨t, hparse, -, hcontroller⟩ :=
    accepted_geometry (five_isTorrent (n := 5) (by decide)) hdata
  obtain ⟨c, hc, husable, -⟩ := hcontroller .LEECHER none
  exact ⟨hagree, _, t, c, hparse, hc, husable.mpr hagree⟩

/-- A torrent with piece length 0 is accepted: its one piece is longer than that. -/
theorem zero_piece_length_accepted : ∃ (data : Text) (t : Torrent),
    (∀ fuel, data.size < fuel → parse_torrent data fuel = pure t) ∧
      ∀ mode disk, ∃ c, t.controller mode disk = .ok c ∧ c.total_pieces = 1 ∧
        c.piece_length = 0 ∧ c.piece_length_for 0 = 5 ∧ ¬ c.Usable 0 := by
  have hdata : (⟨(Value.dict (five_torrent 0)).encode, by decide +kernel⟩ : Text).bytes
      = (Value.dict (five_torrent 0)).encode := rfl
  obtain ⟨t, ht⟩ := (five_isTorrent (n := 0) (by decide)).parses hdata
  have hcount : t.pieces.length = 1 := by
    rw [ht.pieces, length_hashes]
    rfl
  have hzero : int32 t.piece_length = 0 := by
    rw [ht.piece_length]
    exact int32_of_fits (by decide)
  refine ⟨_, t, ht.parse, fun mode disk => ⟨_, t.controller_eq (by omega) mode disk, hcount, hzero,
    ?_, fun h => ?_⟩⟩
  · show Metadata.piece_length_for (t.metadata mode) 0 = 5
    unfold Metadata.piece_length_for Torrent.metadata
    dsimp only
    rw [hcount, hzero, ht.length, if_neg (by decide)]
    exact int32_of_fits (by decide)
  · have hpos : 0 < int32 t.piece_length := h.piece_length_pos
    omega

end BitTorrentLite
