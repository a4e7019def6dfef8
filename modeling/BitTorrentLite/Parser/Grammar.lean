import BitTorrentLite.Parser.Dictionary

/-! # The Parser on the Whole Grammar

    Whatever else a torrent carries, in whatever order, `parse_torrent` returns
    what its known keys say, and the part of the file the info-hash is computed
    of is the encoding of the info dictionary.
-/

open Machine Region Bencode

namespace BitTorrentLite

/-- The string a dictionary has for a key, if it has one. -/
def string_at (es : List (Bytes × Value)) (key : String) : Bytes :=
  match es.lookup (ascii key) with
  | some (.str s) => s
  | _ => []

/-- The integer a dictionary has for a key, if it has one. -/
def integer_at (es : List (Bytes × Value)) (key : String) : ℤ :=
  match es.lookup (ascii key) with
  | some (.int n) => n
  | _ => 0

/-- A torrent: the entries of the dictionary and of the info dictionary in it. -/
structure IsTorrent (top info : List (Bytes × Value)) : Prop where
  distinct : (top.map Prod.fst).Nodup
  info_distinct : (info.map Prod.fst).Nodup
  has_info : (ascii "info", Value.dict info) ∈ top
  announce : ∀ v, (ascii "announce", v) ∈ top → ∃ s, v = .str s
  created_by : ∀ v, (ascii "created by", v) ∈ top → ∃ s, v = .str s
  name : ∀ v, (ascii "name", v) ∈ info → ∃ s, v = .str s
  pieces : ∀ v, (ascii "pieces", v) ∈ info → ∃ s, v = .str s
  length : ∀ v, (ascii "length", v) ∈ info → ∃ n, v = .int n ∧ FitsInt64 n
  piece_length : ∀ v, (ascii "piece length", v) ∈ info → ∃ n, v = .int n ∧ FitsInt64 n
  below : entries_below (2 ^ 31) top

variable {data : Text} {top info : List (Bytes × Value)} {pos : ℕ} {rest : Bytes} {t : Torrent}

/-- A key has one value. -/
theorem lookup_of_mem {es : List (Bytes × Value)} (h : (es.map Prod.fst).Nodup)
    {k : Bytes} {v : Value} (hv : (k, v) ∈ es) : es.lookup k = some v := by
  obtain ⟨l, r, rfl⟩ := List.append_of_mem hv
  refine List.lookup_eq_some_iff.mpr ⟨l, r, rfl, fun e he => ?_⟩
  -- the entries before this one have other keys
  rw [List.map_append, List.map_cons, List.nodup_append] at h
  have hne : e.1 ≠ k := h.2.2 e.1 (List.mem_map_of_mem he) k (List.mem_cons_self ..)
  simpa using hne.symm

theorem IsTorrent.info_below (h : IsTorrent top info) : entries_below (2 ^ 31) info :=
  (entries_below_mem h.below _ _ h.has_info).2

theorem IsTorrent.info_entry (h : IsTorrent top info) :
    ∀ k v, (k, v) ∈ info → InfoEntry k v := by
  intro k v hkv
  refine ⟨?_, ?_, (entries_below_mem h.info_below k v hkv).2⟩
  · rintro (rfl | rfl)
    · exact h.length v hkv
    · exact h.piece_length v hkv
  · rintro (rfl | rfl)
    · exact h.name v hkv
    · exact h.pieces v hkv

theorem IsTorrent.torrent_entry (h : IsTorrent top info) :
    ∀ k v, (k, v) ∈ top → TorrentEntry k v := by
  intro k v hkv
  refine ⟨?_, ?_, (entries_below_mem h.below k v hkv).2⟩
  · rintro (rfl | rfl)
    · exact h.announce v hkv
    · exact h.created_by v hkv
  · rintro rfl
    have hv := lookup_of_mem h.distinct hkv
    rw [lookup_of_mem h.distinct h.has_info] at hv
    obtain rfl := Option.some.inj hv
    exact ⟨info, rfl, h.info_entry⟩

/-! ### What the Entries Set -/

section fields

variable {effect : ℕ → Bytes → Value → Torrent → Torrent} {es : List (Bytes × Value)}
  {key : String}

/-- A field that one key sets to its string. -/
theorem string_effect (g : Torrent → Bytes) (hnodup : (es.map Prod.fst).Nodup)
    (htyped : ∀ v, (ascii key, v) ∈ es → ∃ s, v = .str s)
    (hother : ∀ k v, k ≠ ascii key → ∀ pos t, g (effect pos k v t) = g t)
    (hset : ∀ pos s t, g (effect pos (ascii key) (.str s) t) = s) (hnil : g t = [])
    (h : data.bytes.drop pos = encode_entries es ++ rest) :
    g (entries_effect effect pos es t) = string_at es key := by
  refine entries_effect_lookup g (ascii key)
    (fun o a => a = match o with | some (.str s) => s | _ => []) es hnodup hother hnil ?_ h
  intro v hv pos t' _ _ _
  obtain ⟨s, rfl⟩ := htyped v hv
  exact hset pos s t'

/-- A field that one key sets to its integer. -/
theorem integer_effect (g : Torrent → ℤ) (hnodup : (es.map Prod.fst).Nodup)
    (htyped : ∀ v, (ascii key, v) ∈ es → ∃ n, v = .int n ∧ FitsInt64 n)
    (hother : ∀ k v, k ≠ ascii key → ∀ pos t, g (effect pos k v t) = g t)
    (hset : ∀ pos n t, g (effect pos (ascii key) (.int n) t) = n) (hzero : g t = 0)
    (h : data.bytes.drop pos = encode_entries es ++ rest) :
    g (entries_effect effect pos es t) = integer_at es key := by
  refine entries_effect_lookup g (ascii key)
    (fun o a => a = match o with | some (.int n) => n | _ => 0) es hnodup hother hzero ?_ h
  intro v hv pos t' _ _ _
  obtain ⟨n, rfl, -⟩ := htyped v hv
  exact hset pos n t'

end fields

/-! ### One Entry of the Info Dictionary -/

section entry

variable {k : Bytes} {v : Value}

/-- Only its key sets a field. -/
theorem info_effect_name (hk : k ≠ ascii "name") :
    (info_effect pos k v t).name = t.name := by
  cases v <;> simp only [info_effect, if_neg hk] <;> split_ifs <;> rfl

theorem info_effect_length (hk : k ≠ ascii "length") :
    (info_effect pos k v t).length = t.length := by
  cases v <;> simp only [info_effect, if_neg hk] <;> split_ifs <;> rfl

theorem info_effect_piece_length (hk : k ≠ ascii "piece length") :
    (info_effect pos k v t).piece_length = t.piece_length := by
  cases v <;> simp only [info_effect, if_neg hk] <;> split_ifs <;> rfl

theorem info_effect_pieces (hk : k ≠ ascii "pieces") :
    (info_effect pos k v t).pieces = t.pieces := by
  cases v <;> simp only [info_effect, if_neg hk] <;> split_ifs <;> rfl

/-- It leaves where the dictionary is alone. -/
theorem info_effect_place : (info_effect pos k v t).info_start = t.info_start ∧
    (info_effect pos k v t).info_end = t.info_end := by
  cases v with
  | int n => simp only [info_effect]; split_ifs <;> exact ⟨rfl, rfl⟩
  | str s => simp only [info_effect]; split_ifs <;> exact ⟨rfl, rfl⟩
  | _ => exact ⟨rfl, rfl⟩

/-- It touches none of the other fields. -/
theorem info_effect_keep : (info_effect pos k v t).announce = t.announce ∧
    (info_effect pos k v t).created_by = t.created_by := by
  cases v with
  | int n => simp only [info_effect]; split_ifs <;> exact ⟨rfl, rfl⟩
  | str s => simp only [info_effect]; split_ifs <;> exact ⟨rfl, rfl⟩
  | _ => exact ⟨rfl, rfl⟩

end entry

/-- The info dictionary sets the four fields it has keys for. -/
theorem info_fields (h : IsTorrent top info)
    (hdrop : data.bytes.drop pos = encode_entries info ++ rest)
    (hname : t.name = []) (hlength : t.length = 0) (hpiece : t.piece_length = 0)
    (hpieces : t.pieces = []) :
    (entries_effect info_effect pos info t).name = string_at info "name" ∧
      (entries_effect info_effect pos info t).length = integer_at info "length" ∧
      (entries_effect info_effect pos info t).piece_length = integer_at info "piece length" ∧
      (entries_effect info_effect pos info t).pieces
        = (groups 20 (string_at info "pieces")).map hexconverter := by
  refine ⟨?_, ?_, ?_, ?_⟩
  · refine string_effect Torrent.name h.info_distinct h.name ?_ ?_ hname hdrop
    · intro k v hk pos t
      exact info_effect_name hk
    · intro pos s t
      rfl
  · refine integer_effect Torrent.length h.info_distinct h.length ?_ ?_ hlength hdrop
    · intro k v hk pos t
      exact info_effect_length hk
    · intro pos n t
      rfl
  · refine integer_effect Torrent.piece_length h.info_distinct h.piece_length ?_ ?_ hpiece hdrop
    · intro k v hk pos t
      exact info_effect_piece_length hk
    · intro pos n t
      rfl
  · refine entries_effect_lookup Torrent.pieces (ascii "pieces")
      (fun o a => a = (groups 20 (match o with | some (.str s) => s | _ => [])).map hexconverter)
      info h.info_distinct ?_ hpieces ?_ hdrop
    · intro k v hk pos t
      exact info_effect_pieces hk
    · intro v hv pos t' _ _ hsame
      obtain ⟨s, rfl⟩ := h.pieces v hv
      show t'.pieces ++ (groups 20 s).map hexconverter = _
      rw [hsame, hpieces, List.nil_append]

/-- The part of a torrent that `info` sets. -/
structure InfoPart where
  name : Bytes
  length : ℤ
  piece_length : ℤ
  pieces : List Bytes
  info_start : ℤ
  info_end : ℤ

def Torrent.info_part (t : Torrent) : InfoPart :=
  ⟨t.name, t.length, t.piece_length, t.pieces, t.info_start, t.info_end⟩

/-- Only `info` sets it. -/
theorem torrent_effect_keep {k : Bytes} {v : Value} (hk : k ≠ ascii "info") :
    (torrent_effect pos k v t).info_part = t.info_part := by
  cases v with
  | str s => simp only [torrent_effect]; split_ifs <;> rfl
  | dict es => rw [torrent_effect, if_neg hk]
  | _ => rfl

/-- What `info` sets: the fields it has keys for, and where its value lies. -/
structure FromInfo (data : Text) (info : List (Bytes × Value)) (p : InfoPart) : Prop where
  name : p.name = string_at info "name"
  length : p.length = integer_at info "length"
  piece_length : p.piece_length = integer_at info "piece length"
  pieces : p.pieces = (groups 20 (string_at info "pieces")).map hexconverter
  place : ∃ (start : ℕ) (rest : Bytes), p.info_start = start ∧
    p.info_end = (start + (Value.dict info).encode.length - 1 : ℕ) ∧
    data.bytes.drop start = (Value.dict info).encode ++ rest

theorem fromInfo_of_entries (h : IsTorrent top info)
    (hdrop : data.bytes.drop pos = encode_entries top ++ rest) :
    FromInfo data info (entries_effect torrent_effect pos top {}).info_part := by
  have hset : ∀ v, (ascii "info", v) ∈ top → ∀ (pos : ℕ) (t : Torrent) (rest : Bytes),
      data.bytes.drop pos = v.encode ++ rest → t.info_part = Torrent.info_part {} →
      some v = some (Value.dict info) →
        FromInfo data info (torrent_effect pos (ascii "info") v t).info_part := by
    intro v _ pos t rest hin hinit heq
    obtain rfl := Option.some.inj heq
    obtain ⟨hname, hlength, hpiece, hpieces, -, -⟩ := InfoPart.mk.inj hinit
    have hentries := hin
    simp only [Value.encode, List.cons_append, List.append_assoc] at hentries
    obtain ⟨h₁, h₂, h₃, h₄⟩ := info_fields (t := { t with info_start := pos }) h
      (Text.drop_succ hentries) hname hlength hpiece hpieces
    -- the inner entries leave `info_start` as it was set before them
    have hstart :
        (entries_effect info_effect (pos + 1) info { t with info_start := pos }).info_start = pos :=
      entries_effect_keep Torrent.info_start info fun _ _ _ _ _ => info_effect_place.1
    exact ⟨h₁, h₂, h₃, h₄, pos, rest, hstart, rfl, hin⟩
  have hkeep : ∀ k v, k ≠ ascii "info" → ∀ pos t,
      (torrent_effect pos k v t).info_part = t.info_part := fun _ _ hk _ _ => torrent_effect_keep hk
  exact entries_effect_lookup Torrent.info_part (ascii "info")
    (fun o a => o = some (Value.dict info) → FromInfo data info a) top h.distinct hkeep
    (fun hnone => nomatch hnone) hset hdrop (lookup_of_mem h.distinct h.has_info)

/-- The strings of the torrent itself. -/
theorem torrent_fields (h : IsTorrent top info)
    (hdrop : data.bytes.drop pos = encode_entries top ++ rest) :
    (entries_effect torrent_effect pos top {}).announce = string_at top "announce" ∧
      (entries_effect torrent_effect pos top {}).created_by = string_at top "created by" := by
  have hinner (pos' : ℕ) (es : List (Bytes × Value)) (t : Torrent) :
      (entries_effect info_effect pos' es t).announce = t.announce ∧
        (entries_effect info_effect pos' es t).created_by = t.created_by :=
    ⟨entries_effect_keep Torrent.announce es fun _ _ _ _ _ => info_effect_keep.1,
      entries_effect_keep Torrent.created_by es fun _ _ _ _ _ => info_effect_keep.2⟩
  refine ⟨?_, ?_⟩
  · refine string_effect Torrent.announce h.distinct h.announce ?_ ?_ rfl hdrop
    · intro k v hk pos t
      cases v with
      | str s => simp only [torrent_effect, if_neg hk]; split_ifs <;> rfl
      | dict es =>
        simp only [torrent_effect]
        split_ifs
        · exact (hinner _ es _).1
        · rfl
      | _ => rfl
    · intro pos s t
      rfl
  · refine string_effect Torrent.created_by h.distinct h.created_by ?_ ?_ rfl hdrop
    · intro k v hk pos t
      cases v with
      | str s => simp only [torrent_effect, if_neg hk]; split_ifs <;> rfl
      | dict es =>
        simp only [torrent_effect]
        split_ifs
        · exact (hinner _ es _).2
        · rfl
      | _ => rfl
    · intro pos s t
      rfl

/-! ## The Result -/

/-- `parse_torrent` returns what the entries make of the empty torrent. -/
theorem parse_torrent_encode (h : IsTorrent top info)
    (hdata : data.bytes = (Value.dict top).encode) {fuel : ℕ} (hfuel : data.size < fuel) :
    parse_torrent data fuel = pure (entries_effect torrent_effect 1 top {}) := by
  have hin : data.bytes.drop 1 = encode_entries top ++ 'e'.toUInt8 :: [] := by
    rw [hdata]
    rfl
  have hsize : data.size = (encode_entries top).length + 2 := by
    unfold Text.size
    rw [hdata]
    simp only [Value.encode, List.length_append, List.length_cons, List.length_nil]
  have hloop : dict_loop data (torrent_field data) fuel 1 {}
      = pure (1 + (encode_entries top).length, entries_effect torrent_effect 1 top {}) :=
    dict_loop_encode top
      (fun k v hkv fuel pos t rest => torrent_field_encode (h.torrent_entry k v hkv))
      (fun k v hkv => (entries_below_mem h.below k v hkv).1) hin (by omega)
  unfold parse_torrent
  rw [hloop, pure_bind]

/-- The info dictionary, cut out of the data. -/
theorem FromInfo.info_raw {t : Torrent} (h : FromInfo data info t.info_part) :
    info_raw data t = .ok (Value.dict info).encode := by
  have hfits := data.fits
  obtain ⟨start, rest, hstart, hend, hin⟩ := h.place
  have hpos := encode_length_pos (.dict info)
  have hlt : start + (Value.dict info).encode.length ≤ data.size := by
    have hl := congrArg List.length hin
    rw [List.length_drop, List.length_append] at hl
    unfold Text.size
    omega
  unfold Text.size at hlt
  have hs : size_t t.info_start = start := by
    rw [show t.info_start = start from hstart]
    exact size_t_natCast (by omega)
  -- from the `d` to the `e`, both included
  have hn : size_t (t.info_end - t.info_start + 1) = (Value.dict info).encode.length := by
    rw [show t.info_start = start from hstart,
      show t.info_end = (start + (Value.dict info).encode.length - 1 : ℕ) from hend,
      size_t_of_lt (by omega) (by omega)]
    omega
  unfold BitTorrentLite.info_raw
  rw [hs, hn, if_neg (by unfold Text.size; omega), Text.substr_of_drop hin]
  rfl

/-- `t` is what the parser makes of a torrent, with the values of its keys. -/
structure ParsesTo (data : Text) (top info : List (Bytes × Value)) (t : Torrent) : Prop where
  parse : ∀ fuel, data.size < fuel → parse_torrent data fuel = pure t
  announce : t.announce = string_at top "announce"
  created_by : t.created_by = string_at top "created by"
  name : t.name = string_at info "name"
  length : t.length = integer_at info "length"
  piece_length : t.piece_length = integer_at info "piece length"
  pieces : t.pieces = (groups 20 (string_at info "pieces")).map hexconverter
  raw : info_raw data t = .ok (Value.dict info).encode

theorem IsTorrent.parses (h : IsTorrent top info) (hdata : data.bytes = (Value.dict top).encode) :
    ∃ t, ParsesTo data top info t := by
  have hin : data.bytes.drop 1 = encode_entries top ++ ['e'.toUInt8] := by
    rw [hdata]
    rfl
  obtain ⟨hannounce, hcreated⟩ := torrent_fields h hin
  have hpart := fromInfo_of_entries h hin
  exact ⟨_, fun fuel hfuel => parse_torrent_encode h hdata hfuel, hannounce, hcreated, hpart.name,
    hpart.length, hpart.piece_length, hpart.pieces, hpart.info_raw⟩

/-- **The parser on the whole grammar**: of a torrent with distinct keys in any
    order, `parse_torrent` returns the values of its known keys, with the
    hashes in lower-case hexadecimal, and the `info_raw` of `main` is the
    encoding of the info dictionary. -/
theorem parse_torrent_correct {data : Text} {top info : List (Bytes × Value)}
    (h : IsTorrent top info) (hdata : data.bytes = (Value.dict top).encode) :
    ∃ t : Torrent, (∀ fuel, data.size < fuel → parse_torrent data fuel = pure t) ∧
      t.announce = string_at top "announce" ∧ t.created_by = string_at top "created by" ∧
      t.name = string_at info "name" ∧ t.length = integer_at info "length" ∧
      t.piece_length = integer_at info "piece length" ∧
      HexGroups (string_at info "pieces") t.pieces ∧
      info_raw data t = .ok (Value.dict info).encode := by
  obtain ⟨t, ht⟩ := h.parses hdata
  exact ⟨t, ht.parse, ht.announce, ht.created_by, ht.name, ht.length, ht.piece_length,
    hexGroups_iff.mpr ht.pieces, ht.raw⟩

/-- A string of two hashes, and three bytes that make none. -/
def sample_hashes : Bytes := (List.range 43).map fun k => UInt8.ofNat (5 * k + 120)

/-- The info dictionary of a torrent with a key the parser does not know. -/
def sample_info : List (Bytes × Value) :=
  [(ascii "private", .list [.int (-1), .dict [(ascii "e", .str (ascii "ee"))]]),
    (ascii "pieces", .str sample_hashes), (ascii "length", .int 5),
    (ascii "name", .str (ascii "f")), (ascii "piece length", .int 3)]

/-- Its keys are not in order. -/
def sample_torrent : List (Bytes × Value) :=
  [(ascii "info", .dict sample_info), (ascii "created by", .str (ascii "me")),
    (ascii "announce", .str (ascii "http://t"))]

theorem sample_isTorrent : IsTorrent sample_torrent sample_info := by
  have hinfo : (sample_info.map Prod.fst).Nodup := by decide
  have htop : (sample_torrent.map Prod.fst).Nodup := by decide
  refine ⟨htop, hinfo, List.mem_cons_self .., ?_, ?_, ?_, ?_, ?_, ?_, ?_⟩
  · intro v hv
    obtain rfl := Option.some.inj (lookup_of_mem htop hv)
    exact ⟨_, rfl⟩
  · intro v hv
    obtain rfl := Option.some.inj (lookup_of_mem htop hv)
    exact ⟨_, rfl⟩
  · intro v hv
    obtain rfl := Option.some.inj (lookup_of_mem hinfo hv)
    exact ⟨_, rfl⟩
  · intro v hv
    obtain rfl := Option.some.inj (lookup_of_mem hinfo hv)
    exact ⟨_, rfl⟩
  · intro v hv
    obtain rfl := Option.some.inj (lookup_of_mem hinfo hv)
    exact ⟨5, rfl, by decide⟩
  · intro v hv
    obtain rfl := Option.some.inj (lookup_of_mem hinfo hv)
    exact ⟨3, rfl, by decide⟩
  · simp only [sample_torrent, sample_info, entries_below, Value.StringsBelow, items_below,
      and_true, true_and]
    decide

/-- Every field is read, the two hashes and the raw info dictionary too. -/
theorem sample_parsed : ∃ (data : Text) (t : Torrent),
    (∀ fuel, data.size < fuel → parse_torrent data fuel = pure t) ∧
      t.announce = ascii "http://t" ∧ t.created_by = ascii "me" ∧ t.name = ascii "f" ∧
      t.length = 5 ∧ t.piece_length = 3 ∧
      t.pieces = [ascii "787d82878c91969ba0a5aaafb4b9bec3c8cdd2d7",
        ascii "dce1e6ebf0f5faff04090e13181d22272c31363b"] ∧
      info_raw data t = .ok (Value.dict sample_info).encode := by
  have hdata : (⟨(Value.dict sample_torrent).encode, by decide +kernel⟩ : Text).bytes
      = (Value.dict sample_torrent).encode := rfl
  obtain ⟨t, hparse, hannounce, hcreated, hname, hlength, hpiece, hpieces, hraw⟩ :=
    parse_torrent_correct sample_isTorrent hdata
  refine ⟨_, t, hparse, hannounce, hcreated, hname, hlength, hpiece, ?_, hraw⟩
  rw [hexGroups_iff.mp hpieces]
  decide +kernel

end BitTorrentLite
