import BitTorrentLite.Controller.Delivery
import BitTorrentLite.Parser.Fuel
import BitTorrentLite.Parser.Grammar

/-! # From a File to Its Torrent

    What `create_torrent` writes is an encoded dictionary, so that
    `parse_torrent` reads back the length of the file and one hash for each
    piece, and the controller built from these numbers cuts the file as
    `create_torrent` did. A tracker URL or a file name whose length does not
    fit an `int` cannot be read back: then the parser throws.
-/

open Machine Region Tiling Bencode

namespace BitTorrentLite

variable {SHA1 : Bytes → Digest} {filename tracker_url F : Bytes} {data : Text}

/-! ## The Hashes of the Pieces -/

/-- The loop of `create_torrent` hashes the tiles of the file. -/
theorem pieces_hashes_eq (SHA1 : Bytes → Digest) {rounds : ℕ} (h : F.length ≤ rounds) :
    pieces_hashes SHA1 rounds F
      = ((tiles F standard_piece_length).map fun p => (SHA1 p).val).flatten := by
  induction rounds generalizing F with
  | zero =>
    obtain rfl := List.length_eq_zero_iff.mp (Nat.le_zero.mp h)
    rw [tiles_nil]
    rfl
  | succ rounds ih =>
    unfold pieces_hashes
    by_cases hF : F = []
    · rw [hF, tiles_nil]
      rfl
    · have hlen := List.length_pos_iff.mpr hF
      -- a round takes at least one byte off the file
      have hdrop : (F.drop standard_piece_length).length ≤ rounds := by
        rw [List.length_drop]
        unfold standard_piece_length
        omega
      rw [if_neg (by simpa using hF), ih hdrop, tiles_cons (by decide) hF, List.map_cons,
        List.flatten_cons]

theorem digests_length (SHA1 : Bytes → Digest) (ps : List Bytes) :
    ∀ d ∈ ps.map (fun p => (SHA1 p).val), d.length = 20 := by
  intro d hd
  obtain ⟨p, -, rfl⟩ := List.mem_map.mp hd
  exact (SHA1 p).property

/-- The hash string, cut into hashes of 20 bytes in hexadecimal. -/
theorem groups_pieces_hashes (SHA1 : Bytes → Digest) (F : Bytes) :
    (groups 20 (pieces_hashes SHA1 F.length F)).map hexconverter
      = (tiles F standard_piece_length).map (sha1 SHA1) := by
  rw [pieces_hashes_eq SHA1 le_rfl, groups_flatten (by norm_num) _ (digests_length SHA1 _),
    List.map_map]
  rfl

/-- It has 20 bytes for each piece. -/
theorem pieces_hashes_length (SHA1 : Bytes → Digest) (F : Bytes) :
    (pieces_hashes SHA1 F.length F).length = 20 * tile_count F.length standard_piece_length := by
  have hlen := digests_length SHA1 (tiles F standard_piece_length)
  have hsum : ∀ ds : List Bytes, (∀ d ∈ ds, d.length = 20) →
      ds.flatten.length = 20 * ds.length := by
    intro ds
    induction ds with
    | nil =>
      intro _
      rfl
    | cons d ds ih =>
      intro h
      rw [List.flatten_cons, List.length_append, h d (List.mem_cons_self ..),
        ih fun e he => h e (List.mem_cons_of_mem _ he), List.length_cons]
      ring
  rw [pieces_hashes_eq SHA1 le_rfl, hsum _ hlen, List.length_map, length_tiles]

/-! ## The Torrent as a Dictionary -/

/-- The info dictionary `create_torrent` writes. -/
def created_info (SHA1 : Bytes → Digest) (filename F : Bytes) : List (Bytes × Value) :=
  [(ascii "length", .int F.length), (ascii "name", .str filename),
    (ascii "piece length", .int standard_piece_length),
    (ascii "pieces", .str (pieces_hashes SHA1 F.length F))]

/-- The dictionary `create_torrent` writes. -/
def created_torrent (SHA1 : Bytes → Digest) (filename tracker_url F : Bytes) :
    List (Bytes × Value) :=
  [(ascii "announce", .str tracker_url), (ascii "info", .dict (created_info SHA1 filename F))]

/-- The info dictionary as `create_torrent` writes it, from its `d` to its `e`. -/
def written_info (SHA1 : Bytes → Digest) (filename file : Bytes) : Bytes :=
  let all_pieces_hashes := pieces_hashes SHA1 file.length file
  ascii "d" ++ ascii "6:length" ++ ascii "i" ++ decimal file.length ++ ascii "e"
    ++ ascii "4:name" ++ decimal filename.length ++ ascii ":" ++ filename
    ++ ascii "12:piece length" ++ ascii "i" ++ decimal standard_piece_length ++ ascii "e"
    ++ ascii "6:pieces" ++ decimal all_pieces_hashes.length ++ ascii ":" ++ all_pieces_hashes
    ++ ascii "e"

/-- What it writes before the key `info`. -/
def written_announce (tracker_url : Bytes) : Bytes :=
  ascii "d" ++ ascii "8:announce" ++ decimal tracker_url.length ++ ascii ":" ++ tracker_url

/-- The torrent, cut at the info dictionary. -/
theorem create_torrent_written (SHA1 : Bytes → Digest) (filename tracker_url F : Bytes) :
    create_torrent SHA1 filename tracker_url F
      = written_announce tracker_url ++ ascii "4:info" ++ written_info SHA1 filename F
        ++ ascii "e" := by
  unfold create_torrent written_announce written_info
  simp only [List.append_assoc]

theorem encode_str_written (s : Bytes) : encode_str s = decimal s.length ++ ascii ":" ++ s := by
  unfold encode_str
  rw [List.append_assoc]
  rfl

theorem encode_dict_written (es : List (Bytes × Value)) :
    (Value.dict es).encode = ascii "d" ++ encode_entries es ++ ascii "e" := by
  rw [Value.encode]
  rfl

/-- The info dictionary is written as it is encoded. -/
theorem written_info_eq (SHA1 : Bytes → Digest) (filename F : Bytes) :
    (Value.dict (created_info SHA1 filename F)).encode = written_info SHA1 filename F := by
  have hlength : encode_str (ascii "length") = ascii "6:length" := by decide
  have hname : encode_str (ascii "name") = ascii "4:name" := by decide
  have hpiece : encode_str (ascii "piece length") = ascii "12:piece length" := by decide
  have hpieces : encode_str (ascii "pieces") = ascii "6:pieces" := by decide
  have hint : ∀ n : ℕ, (Value.int n).encode = ascii "i" ++ decimal n ++ ascii "e" := by
    intro n
    rw [Value.encode, integer_natCast]
    rfl
  unfold written_info created_info
  rw [encode_dict_written]
  simp only [encode_entries, Value.encode.eq_2, hint, hlength, hname, hpiece, hpieces,
    encode_str_written filename, encode_str_written (pieces_hashes SHA1 F.length F),
    List.append_assoc, List.append_nil]

/-- `create_torrent` writes the encoding. -/
theorem create_torrent_eq (SHA1 : Bytes → Digest) (filename tracker_url F : Bytes) :
    create_torrent SHA1 filename tracker_url F
      = (Value.dict (created_torrent SHA1 filename tracker_url F)).encode := by
  have hannounce : encode_str (ascii "announce") = ascii "8:announce" := by decide
  have hinfo : encode_str (ascii "info") = ascii "4:info" := by decide
  rw [create_torrent_written, encode_dict_written, created_torrent]
  simp only [encode_entries, Value.encode.eq_2, written_info_eq, hannounce, hinfo,
    encode_str_written tracker_url, written_announce, List.append_assoc, List.append_nil]

/-- The file is shorter than `2^63` bytes. -/
theorem file_length_fits (hF : 20 * tile_count F.length standard_piece_length < 2 ^ 31) :
    FitsInt64 F.length := by
  have hlt : F.length ≤ tile_count F.length standard_piece_length * standard_piece_length := by
    have hpos : 0 < standard_piece_length := by decide
    have hnot : ¬ tile_count F.length standard_piece_length * standard_piece_length < F.length :=
      (lt_tile_count hpos).not.mp (lt_irrefl _)
    omega
  unfold standard_piece_length at hlt hF
  constructor <;> omega

/-- It is a torrent in the sense of the parser's grammar. -/
theorem created_isTorrent (hF : 20 * tile_count F.length standard_piece_length < 2 ^ 31)
    (hurl : tracker_url.length < 2 ^ 31) (hname : filename.length < 2 ^ 31) :
    IsTorrent (created_torrent SHA1 filename tracker_url F) (created_info SHA1 filename F) := by
  have hinfo : ((created_info SHA1 filename F).map Prod.fst).Nodup := by
    unfold created_info
    simp only [List.map_cons, List.map_nil]
    decide
  have htop : ((created_torrent SHA1 filename tracker_url F).map Prod.fst).Nodup := by
    unfold created_torrent
    simp only [List.map_cons, List.map_nil]
    decide
  have hsize := file_length_fits hF
  refine ⟨htop, hinfo, by simp [created_torrent], ?_, ?_, ?_, ?_, ?_, ?_, ?_⟩
  · intro v hv
    obtain rfl := Option.some.inj (lookup_of_mem htop hv)
    exact ⟨_, rfl⟩
  · intro v hv
    cases lookup_of_mem htop hv
  · intro v hv
    obtain rfl := Option.some.inj (lookup_of_mem hinfo hv)
    exact ⟨_, rfl⟩
  · intro v hv
    obtain rfl := Option.some.inj (lookup_of_mem hinfo hv)
    exact ⟨_, rfl⟩
  · intro v hv
    obtain rfl := Option.some.inj (lookup_of_mem hinfo hv)
    exact ⟨_, rfl, hsize⟩
  · intro v hv
    obtain rfl := Option.some.inj (lookup_of_mem hinfo hv)
    exact ⟨_, rfl, by decide⟩
  · have hpieces := pieces_hashes_length SHA1 F
    simp only [created_torrent, created_info, entries_below, Value.StringsBelow, and_true, true_and]
    refine ⟨by decide, hurl, by decide, by decide, by decide, hname, by decide, by decide, ?_⟩
    omega

/-! ## Reading It Back -/

theorem created_drop (hdata : data.bytes = create_torrent SHA1 filename tracker_url F) :
    data.bytes.drop 1 = encode_str (ascii "announce") ++ (encode_str tracker_url
      ++ encode_entries [(ascii "info", .dict (created_info SHA1 filename F))]
      ++ ['e'.toUInt8]) := by
  rw [hdata, create_torrent_eq]
  simp only [Value.encode, created_torrent, encode_entries, List.append_assoc, List.cons_append,
    List.drop_succ_cons, List.drop_zero]

/-- A tracker URL that is too long is not read back. -/
theorem created_url_too_long (hdata : data.bytes = create_torrent SHA1 filename tracker_url F)
    (hurl : 2 ^ 31 ≤ tracker_url.length) (fuel : ℕ) :
    parse_torrent data (fuel + 1) = throw .out_of_range := by
  have hdrop := created_drop hdata
  have hvalue := Text.drop_after hdrop
  rw [List.append_assoc] at hvalue
  unfold parse_torrent
  rw [dict_loop_entry (by decide) hdrop, torrent_field, if_pos rfl,
    read_string_too_long hurl hvalue]
  rfl

/-- The info dictionary of a file name that is too long. -/
theorem created_info_too_long {pos : ℕ} {rest : Bytes} (hsize : FitsInt64 F.length)
    (h : data.bytes.drop pos = (Value.dict (created_info SHA1 filename F)).encode ++ rest)
    (hname : 2 ^ 31 ≤ filename.length) (fuel : ℕ) (t : Torrent) :
    parse_info_dict data (fuel + 2) pos t = throw .out_of_range := by
  simp only [Value.encode, List.cons_append] at h
  have hpos := size_t_succ (Text.lt_size_of_drop h)
  have hlength := Text.drop_succ h
  simp only [created_info, encode_entries, List.append_assoc] at hlength
  have hnumber := Text.drop_after hlength
  have hkey := Text.drop_after hnumber
  have hvalue := Text.drop_after hkey
  have hread : read_string data _ = _ := read_string_too_long hname hvalue
  have hfirst : info_field data (fuel + 1) (ascii "length")
      (pos + 1 + (encode_str (ascii "length")).length) t
        = pure (pos + 1 + (encode_str (ascii "length")).length
          + (Value.int F.length).encode.length, { t with length := F.length }) := by
    rw [info_field, if_pos rfl, read_integer_encode hsize hnumber]
    rfl
  unfold parse_info_dict
  rw [hpos, dict_loop_entry (by decide) hlength, hfirst, pure_bind]
  dsimp only
  -- the second key is `name`
  rw [dict_loop_entry (by decide) hkey, info_field, if_neg (by decide), if_pos rfl, hread]
  rfl

/-- A file name that is too long is not read back either. -/
theorem created_name_too_long (hdata : data.bytes = create_torrent SHA1 filename tracker_url F)
    (hsize : FitsInt64 F.length) (hurl : tracker_url.length < 2 ^ 31)
    (hname : 2 ^ 31 ≤ filename.length) (fuel : ℕ) :
    parse_torrent data (fuel + 4) = throw .out_of_range := by
  have hdrop := created_drop hdata
  have hannounce := Text.drop_after hdrop
  rw [List.append_assoc] at hannounce
  have hkey := Text.drop_after hannounce
  simp only [encode_entries, List.append_assoc] at hkey
  have hinfo := Text.drop_after hkey
  have hread : read_string data _ = _ := read_string_encode hurl hannounce
  unfold parse_torrent
  rw [dict_loop_entry (by decide) hdrop, torrent_field, if_pos rfl, hread, lift_ok_bind, pure_bind]
  dsimp only
  rw [dict_loop_entry (by decide) hkey, torrent_field, if_neg (by decide), if_neg (by decide),
    if_pos rfl, created_info_too_long hsize hinfo hname]
  rfl

/-- Where a torrent is read back at all, its strings are not too long. -/
theorem created_strings (hdata : data.bytes = create_torrent SHA1 filename tracker_url F)
    (hF : 20 * tile_count F.length standard_piece_length < 2 ^ 31) {t : Torrent}
    (ht : Parse.Yields (parse_torrent data) (.ok t)) :
    tracker_url.length < 2 ^ 31 ∧ filename.length < 2 ^ 31 := by
  obtain ⟨n, hn⟩ := ht.eventually parse_torrent_monotone
  have hok := hn (n + 4) (Nat.le_add_right n 4)
  have hurl : tracker_url.length < 2 ^ 31 := by
    by_contra hlong
    rw [created_url_too_long hdata (Nat.le_of_not_lt hlong)] at hok
    cases hok
  refine ⟨hurl, ?_⟩
  by_contra hlong
  rw [created_name_too_long hdata (file_length_fits hF) hurl (Nat.le_of_not_lt hlong)] at hok
  cases hok

/-- What is read back of the file. -/
structure Created (SHA1 : Bytes → Digest) (F : Bytes) (t : Torrent) : Prop where
  length : t.length = F.length
  piece_length : t.piece_length = standard_piece_length
  pieces : t.pieces = (tiles F standard_piece_length).map (sha1 SHA1)

/-- **Reading back**: with strings of a length that fits an `int`, the parser
    returns the numbers of the file. -/
theorem created_parses (hdata : data.bytes = create_torrent SHA1 filename tracker_url F)
    (hF : 20 * tile_count F.length standard_piece_length < 2 ^ 31)
    (hurl : tracker_url.length < 2 ^ 31) (hname : filename.length < 2 ^ 31) :
    ∃ t, Parse.Yields (parse_torrent data) (.ok t) ∧ Created SHA1 F t := by
  have htorrent : IsTorrent (created_torrent SHA1 filename tracker_url F)
      (created_info SHA1 filename F) := created_isTorrent hF hurl hname
  have hin : data.bytes = (Value.dict (created_torrent SHA1 filename tracker_url F)).encode :=
    hdata.trans (create_torrent_eq ..)
  have hdrop : data.bytes.drop 1
      = encode_entries (created_torrent SHA1 filename tracker_url F) ++ ['e'.toUInt8] := by
    rw [hin]
    rfl
  have hpart := fromInfo_of_entries htorrent hdrop
  refine ⟨_, ⟨data.size + 1, congrArg ExceptT.run (parse_torrent_encode htorrent hin
    (Nat.lt_succ_self _))⟩, ?_, ?_, ?_⟩
  · exact hpart.length
  · exact hpart.piece_length
  · rw [← groups_pieces_hashes]
    exact hpart.pieces

/-- Whatever the parser returns has the numbers of the file. -/
theorem created_of_parsed (hdata : data.bytes = create_torrent SHA1 filename tracker_url F)
    (hF : 20 * tile_count F.length standard_piece_length < 2 ^ 31) {t : Torrent}
    (ht : Parse.Yields (parse_torrent data) (.ok t)) : Created SHA1 F t := by
  obtain ⟨hurl, hname⟩ := created_strings hdata hF ht
  obtain ⟨t', ht', hcreated⟩ := created_parses hdata hF hurl hname
  obtain rfl := Except.ok.inj (ht.unique parse_torrent_monotone ht')
  exact hcreated

/-! ## The Controller of a Torrent -/

/-- What `leecher.cpp` and `seeder.cpp` give the constructor. -/
def Torrent.metadata (mode : Mode) (t : Torrent) : Metadata where
  mode := mode
  total_pieces := t.pieces.length
  piece_length := int32 t.piece_length
  length := t.length
  piece_hash := t.pieces

variable {t : Torrent}

namespace Created

theorem total_pieces (h : Created SHA1 F t) :
    t.pieces.length = tile_count F.length standard_piece_length := by
  rw [h.pieces, List.length_map, length_tiles]

theorem metadata_piece_length (h : Created SHA1 F t) :
    int32 t.piece_length = standard_piece_length := by
  rw [h.piece_length]
  exact int32_of_fits (by decide)

/-- A file that is not empty has consistent numbers. -/
theorem consistent (h : Created SHA1 F t) (hne : F ≠ [])
    (hF : 20 * tile_count F.length standard_piece_length < 2 ^ 31) (mode : Mode) :
    (t.metadata mode).Consistent where
  piece_length_pos := by
    show 1 ≤ int32 t.piece_length
    rw [h.metadata_piece_length]
    decide
  piece_length_int := by
    show int32 t.piece_length < 2 ^ 31
    rw [h.metadata_piece_length]
    decide
  length_pos := by
    have := List.length_pos_iff.mpr hne
    show 1 ≤ t.length
    rw [h.length]
    omega
  length_int64 := by
    show t.length < 2 ^ 63
    rw [h.length]
    exact (file_length_fits hF).2
  pieces_int := by
    show t.pieces.length < 2 ^ 31
    rw [h.total_pieces]
    omega
  pieces := by
    show t.pieces.length = tile_count t.length.toNat (int32 t.piece_length).toNat
    rw [h.total_pieces, h.length, h.metadata_piece_length]
    rfl
  hashes := rfl

/-- Pieces of 32 KiB leave room for the addition in `count_blocks`. -/
theorem countFits (h : Created SHA1 F t) (hne : F ≠ [])
    (hF : 20 * tile_count F.length standard_piece_length < 2 ^ 31) (mode : Mode) :
    (t.metadata mode).CountFits := by
  intro i hi
  have hg := h.consistent hne hF mode
  have hle : (((t.metadata mode).piece_size i : ℕ) : ℤ) ≤ int32 t.piece_length := hg.piece_size_le
  rw [h.metadata_piece_length] at hle
  rw [hg.piece_length_for_eq hi]
  unfold standard_piece_length at hle
  unfold block_length
  omega

/-- The torrent was made of the file. -/
theorem original (h : Created SHA1 F t) (mode : Mode) :
    (t.metadata mode).Original (sha1 SHA1) F where
  length := h.length.symm
  hashes := by
    intro i hi
    have hlt : i < tile_count F.length standard_piece_length := h.total_pieces ▸ hi
    have hsize : (t.metadata mode).piece_size i = tile_size F.length standard_piece_length i := by
      show tile_size t.length.toNat (int32 t.piece_length).toNat i = _
      rw [h.length, h.metadata_piece_length]
      rfl
    have hstart : (t.metadata mode).piece_start i = i * standard_piece_length := by
      show i * (int32 t.piece_length).toNat = _
      rw [h.metadata_piece_length]
      rfl
    show t.pieces.getD i [] = _
    rw [hsize, hstart, h.pieces, List.getD_eq_getElem?_getD, List.getElem?_map, getElem?_tiles hlt]
    rfl

end Created

end BitTorrentLite
