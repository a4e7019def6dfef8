import BitTorrentLite.Transfer.Session

/-! # Creating a Torrent and Reading It Back

    `parse_torrent` of what `create_torrent` writes: the strings, the numbers
    and the hashes of the file come back, the hash of a piece is the one a
    controller computes of the piece it puts together, and `info_raw` is the
    dictionary as it was written. The lengths of the tracker URL and of the
    file name are read by `stoi`, which throws when they do not fit an `int`.
-/

open Machine Region Tiling Bencode

namespace BitTorrentLite

open Metadata (block_offset)

/-- What is read back of the torrent of the file `F`. -/
structure ReadBack (SHA1 : Bytes → Digest) (filename tracker_url F : Bytes) (data : Text)
    (t : Torrent) : Prop where
  announce : t.announce = tracker_url
  name : t.name = filename
  length : t.length = F.length
  piece_length : t.piece_length = 32768
  count : t.pieces.length = (F.length + 32767) / 32768
  pieces : ∀ i < t.pieces.length, t.pieces[i]? =
    some (sha1 SHA1 (slice F (i * 32768) (min ((i + 1) * 32768) F.length - i * 32768)))
  hex : ∀ i < t.pieces.length, ∃ hash, t.pieces[i]? = some hash ∧
    LowerHex (SHA1 (slice F (i * 32768) (min ((i + 1) * 32768) F.length - i * 32768))).val hash
  /-- Any controller of the torrent that holds the blocks of piece `i` of the file. -/
  assembled : ∀ i < t.pieces.length, ∀ c : Controller, c.toMetadata = t.metadata c.mode →
    (∀ b < (c.count_blocks i).toNat, c.piece_blocks i (block_offset b) =
      some (slice F (i * 32768 + b * 16384) (c.block_size i (block_offset b)).toNat)) →
    ((c.assembled i).length : ℤ) = c.piece_length_for i ∧
      t.pieces[i]? = some (sha1 SHA1 (c.assembled i))
  info_raw : data.bytes = written_announce tracker_url ++ ascii "4:info"
      ++ written_info SHA1 filename F ++ ascii "e" ∧
    info_raw data t = .ok (written_info SHA1 filename F)

section creation

variable {SHA1 : Bytes → Digest} {filename tracker_url F : Bytes} {data : Text} {t : Torrent}

namespace Created

/-- The hash of a piece is the hash of its part of the file. -/
theorem piece_hash (h : Created SHA1 F t) {i : ℕ} (hi : i < t.pieces.length) :
    t.pieces[i]? =
      some (sha1 SHA1 (slice F (i * 32768) (min ((i + 1) * 32768) F.length - i * 32768))) := by
  have hsize : tile_size F.length standard_piece_length i
      = min ((i + 1) * 32768) F.length - i * 32768 := by
    unfold tile_size standard_piece_length
    omega
  rw [h.total_pieces] at hi
  rw [h.pieces, List.getElem?_map, getElem?_tiles hi, hsize]
  rfl

/-- The blocks of a piece of the file, put together, are the piece. -/
theorem assembled (h : Created SHA1 F t)
    (hF : 20 * tile_count F.length standard_piece_length < 2 ^ 31) {i : ℕ}
    (hi : i < t.pieces.length) {c : Controller} (hm : c.toMetadata = t.metadata c.mode)
    (hblocks : ∀ b < (c.count_blocks i).toNat, c.piece_blocks i (block_offset b) =
      some (slice F (i * 32768 + b * 16384) (c.block_size i (block_offset b)).toNat)) :
    ((c.assembled i).length : ℤ) = c.piece_length_for i ∧
      t.pieces[i]? = some (sha1 SHA1 (c.assembled i)) := by
  have hne : F ≠ [] := by
    rintro rfl
    rw [h.total_pieces, List.length_nil, tile_count_zero] at hi
    exact absurd hi (Nat.not_lt_zero i)
  have hg : c.Consistent := hm ▸ h.consistent hne hF c.mode
  have hfit : c.CountFits := hm ▸ h.countFits hne hF c.mode
  have ho : c.Original (sha1 SHA1) F := hm ▸ h.original c.mode
  have htotal : c.total_pieces = t.pieces.length := by
    rw [hm]
    rfl
  rw [← htotal] at hi
  have hstart : c.piece_start i = i * 32768 := by
    unfold Metadata.piece_start
    rw [hm]
    show i * (int32 t.piece_length).toNat = _
    rw [h.metadata_piece_length]
    rfl
  have hcount : (c.count_blocks i).toNat = c.block_count i := by
    rw [hg.count_blocks_eq hfit hi, Int.toNat_natCast]
  rw [hcount] at hblocks
  -- block by block, what is stored is the part of the file
  have hpiece : c.assembled i = c.piece_of F i := by
    unfold Controller.assembled
    rw [hcount, ← Metadata.flatMap_block_of hg ho hi]
    refine List.flatMap_congr fun b hb => ?_
    have hb := List.mem_range.mp hb
    rw [hblocks b hb, Option.getD_some, hg.block_size_eq hi hb, Int.toNat_natCast,
      Metadata.block_of, hstart]
  refine ⟨?_, ?_⟩
  · rw [hpiece, ho.piece_length hg hi, hg.piece_length_for_eq hi]
  · have hhash := ho.hashes i hi
    have hpieces : c.piece_hash = t.pieces := by
      rw [hm]
      rfl
    rw [hpiece, Metadata.piece_of, ← hhash, hpieces, List.getD_eq_getElem?_getD]
    rw [htotal] at hi
    rw [List.getElem?_eq_getElem hi, Option.getD_some]

end Created

/-- With strings of a length that fits an `int`, everything comes back. -/
theorem create_torrent_read_back
    (hdata : data.bytes = create_torrent SHA1 filename tracker_url F)
    (hF : 20 * tile_count F.length standard_piece_length < 2 ^ 31)
    (hurl : tracker_url.length < 2 ^ 31) (hname : filename.length < 2 ^ 31) :
    ∃ t, Parse.Yields (parse_torrent data) (.ok t) ∧
      ReadBack SHA1 filename tracker_url F data t := by
  have htorrent : IsTorrent (created_torrent SHA1 filename tracker_url F)
      (created_info SHA1 filename F) := created_isTorrent hF hurl hname
  obtain ⟨t, ht⟩ := htorrent.parses (hdata.trans (create_torrent_eq ..))
  have hyields : Parse.Yields (parse_torrent data) (.ok t) :=
    ⟨data.size + 1, congrArg ExceptT.run (ht.parse _ (Nat.lt_succ_self _))⟩
  have hcreated := created_of_parsed hdata hF hyields
  refine ⟨t, hyields, ht.announce, ht.name, hcreated.length, hcreated.piece_length, ?_,
    fun i hi => hcreated.piece_hash hi,
    fun i hi => ⟨_, hcreated.piece_hash hi, lowerHex_hexconverter _⟩,
    fun i hi c hm hblocks => hcreated.assembled hF hi hm hblocks, ?_, ?_⟩
  · rw [hcreated.total_pieces]
    rfl
  · rw [hdata, create_torrent_written]
  · rw [ht.raw, written_info_eq]

/-- A string that is too long makes the parser throw. -/
theorem create_torrent_too_long
    (hdata : data.bytes = create_torrent SHA1 filename tracker_url F)
    (hF : 20 * tile_count F.length standard_piece_length < 2 ^ 31)
    (hlong : 2 ^ 31 ≤ tracker_url.length ∨ 2 ^ 31 ≤ filename.length) :
    Parse.Yields (parse_torrent data) (.error .out_of_range) := by
  refine ⟨4, ?_⟩
  by_cases hurl : 2 ^ 31 ≤ tracker_url.length
  · rw [created_url_too_long hdata hurl]
    rfl
  · have hname := hlong.resolve_left hurl
    rw [created_name_too_long hdata (file_length_fits hF) (Nat.lt_of_not_le hurl) hname 0]
    rfl

end creation

/-- **Round trip of a torrent's creation**: of the torrent `create_torrent`
    writes, `parse_torrent` reads back the strings, the numbers and the hashes;
    a string of a length that does not fit an `int` makes it throw. -/
theorem create_torrent_round_trip (SHA1 : Bytes → Digest) {filename tracker_url F : Bytes}
    {data : Text} (hdata : data.bytes = create_torrent SHA1 filename tracker_url F)
    (hF : 20 * tile_count F.length standard_piece_length < 2 ^ 31) :
    (tracker_url.length < 2 ^ 31 → filename.length < 2 ^ 31 →
      ∃ t, Parse.Yields (parse_torrent data) (.ok t) ∧
        ReadBack SHA1 filename tracker_url F data t) ∧
    (2 ^ 31 ≤ tracker_url.length ∨ 2 ^ 31 ≤ filename.length →
      Parse.Yields (parse_torrent data) (.error .out_of_range)) :=
  ⟨create_torrent_read_back hdata hF, create_torrent_too_long hdata hF⟩

/-- The torrent of a file of one byte. -/
theorem tiny_round_trip : ∃ t, Parse.Yields (parse_torrent Session.tiny_data) (.ok t) ∧
    t.announce = ascii "u" ∧ t.name = ascii "f" ∧ t.length = 1 ∧
    t.pieces = [sha1 Session.null_digest [7]] := by
  have hdata : Session.tiny_data.bytes
      = create_torrent Session.null_digest (ascii "f") (ascii "u") [7] := rfl
  obtain ⟨t, ht, hback⟩ := (create_torrent_round_trip Session.null_digest hdata (by decide)).1
    (by decide) (by decide)
  have hone : t.pieces.length = 1 := hback.count
  refine ⟨t, ht, hback.announce, hback.name, hback.length, ?_⟩
  refine List.ext_getElem? fun i => ?_
  by_cases hi : i < t.pieces.length
  · obtain rfl : i = 0 := by omega
    exact hback.pieces 0 hi
  · rw [List.getElem?_eq_none (by omega), List.getElem?_eq_none (by simp; omega)]

/-- A tracker URL of `2^31` bytes. -/
def long_url : Bytes := List.replicate (2 ^ 31) 117

theorem long_url_length : long_url.length = 2 ^ 31 := List.length_replicate

/-- The torrent of a file of one byte that is tracked there. -/
def long_url_data : Text where
  bytes := create_torrent Session.null_digest (ascii "f") long_url [7]
  fits := by
    have hinfo : (written_info Session.null_digest (ascii "f") [7]).length < 200 := by
      decide +kernel
    have hdigits : (decimal (2 ^ 31)).length = 10 := by decide +kernel
    have hd : (ascii "d").length = 1 := by decide
    have hannounce : (ascii "8:announce").length = 10 := by decide
    have hcolon : (ascii ":").length = 1 := by decide
    have hkey : (ascii "4:info").length = 6 := by decide
    have he : (ascii "e").length = 1 := by decide
    rw [create_torrent_written, written_announce, long_url_length]
    simp only [List.length_append, hdigits, long_url_length, hd, hannounce, hcolon, hkey, he]
    norm_num
    omega

/-- The torrent of a tracker URL of `2^31` bytes is not read back. -/
theorem long_url_not_read_back :
    20 * tile_count ([7] : Bytes).length standard_piece_length < 2 ^ 31 ∧
    long_url_data.bytes = create_torrent Session.null_digest (ascii "f") long_url [7] ∧
    ¬ ∃ t, Parse.Yields (parse_torrent long_url_data) (.ok t) := by
  refine ⟨by decide, rfl, fun ⟨t, ht⟩ => ?_⟩
  have hdata : long_url_data.bytes
      = create_torrent Session.null_digest (ascii "f") long_url [7] := rfl
  have hthrow := create_torrent_too_long hdata (by decide) (.inl long_url_length.ge)
  cases ht.unique parse_torrent_monotone hthrow

end BitTorrentLite
