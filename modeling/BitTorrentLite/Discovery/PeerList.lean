import Mathlib.Data.Nat.Digits.Lemmas
import BitTorrentLite.Announce.Url
import BitTorrentLite.Parser.Response

/-! # The Peers of the Tracker

    A tracker lists its peers in six bytes each: the address and the port in
    network order. `parse_response_dict` prints them as `a.b.c.d:port`, and
    `run_leecher` cuts each entry at its `:` again.
-/

open Machine Region Bencode

namespace BitTorrentLite

/-! ## The Loop over the Peers -/

/-- What `run_leecher` does with an entry of the peer list: it is passed over,
    or `connect_to` is called with an address and a port. -/
def split_peer (peerip : Bytes) : Except Stop (Option (Bytes × ℤ)) :=
  let sep := int32 ((find_char peerip ':'.toUInt8 0).getD Text.npos)
  if size_t sep = Text.npos then return none
  else do
    let ip := slice peerip 0 (size_t sep)
    let peer_port ← stoi (peerip.drop (size_t (sep + 1)))
    return if ip.isEmpty = true ∨ peer_port ≤ 0 then none else some (ip, peer_port)

/-- The calls of `connect_to` for the whole list; an exception leaves the loop. -/
def contacts : List Bytes → Except Stop (List (Bytes × ℤ))
  | [] => return []
  | peerip :: rest => do
    let contact ← split_peer peerip
    let others ← contacts rest
    return contact.toList ++ others

/-! ## Peers -/

/-- A peer as a tracker knows it. -/
structure CompactPeer where
  a : UInt8
  b : UInt8
  c : UInt8
  d : UInt8
  port : ℕ
  port_pos : 1 ≤ port
  port_le : port ≤ 65535

namespace CompactPeer

/-- The six bytes of a peer. -/
def encode (p : CompactPeer) : Bytes :=
  [p.a, p.b, p.c, p.d, UInt8.ofNat (p.port / 256), UInt8.ofNat p.port]

/-- Its address in dotted form. -/
def dotted (p : CompactPeer) : Bytes :=
  decimal p.a.toNat ++ ascii "." ++ decimal p.b.toNat ++ ascii "." ++ decimal p.c.toNat
    ++ ascii "." ++ decimal p.d.toNat

variable {p : CompactPeer}

theorem peer_address_encode (p : CompactPeer) :
    peer_address p.encode = p.dotted ++ ':'.toUInt8 :: decimal p.port := by
  have hle := p.port_le
  have hport : (UInt8.ofNat (p.port / 256)).toNat * 256 + (UInt8.ofNat p.port).toNat = p.port := by
    simp only [UInt8.toNat_ofNat']
    omega
  have hcolon : ascii ":" = [':'.toUInt8] := rfl
  unfold peer_address dotted encode
  simp only [List.getD_cons_zero, List.getD_cons_succ, hport, hcolon, List.append_assoc,
    List.singleton_append]

/-- There is no colon in an address, and it is not empty. -/
theorem colon_not_mem_dotted : ':'.toUInt8 ∉ p.dotted := by
  have hdigits (n : ℕ) : ':'.toUInt8 ∉ decimal n := not_mem_decimal (by decide)
  have hdot : ':'.toUInt8 ∉ ascii "." := by decide
  simp only [dotted, List.mem_append, not_or]
  exact ⟨⟨⟨⟨⟨⟨hdigits _, hdot⟩, hdigits _⟩, hdot⟩, hdigits _⟩, hdot⟩, hdigits _⟩

theorem dotted_ne_nil : p.dotted ≠ [] := by
  simp [dotted, decimal_ne_nil]

/-- A decimal number of at most `k` digits. -/
theorem length_decimal_le {n k : ℕ} (hn : n < 10 ^ k) (hk : 0 < k) : (decimal n).length ≤ k := by
  unfold decimal
  split
  · exact hk
  · rw [List.length_map, List.length_reverse]
    exact (Nat.digits_length_le_iff (by norm_num) n).mpr hn

theorem dotted_length : p.dotted.length ≤ 15 := by
  have hbyte (b : UInt8) : (decimal b.toNat).length ≤ 3 :=
    length_decimal_le (lt_trans b.toNat_lt (by norm_num)) (by norm_num)
  have ha := hbyte p.a
  have hb := hbyte p.b
  have hc := hbyte p.c
  have hd := hbyte p.d
  have hdot : (ascii ".").length = 1 := rfl
  simp only [dotted, List.length_append, hdot]
  omega

/-- **Splitting**: an entry is cut into the address and the port it was made of. -/
theorem split_peer_address (p : CompactPeer) :
    split_peer (peer_address p.encode) = .ok (some (p.dotted, (p.port : ℤ))) := by
  have hlen := p.dotted_length
  have hport := p.port_pos
  have hle := p.port_le
  have hfind : find_char (p.dotted ++ ':'.toUInt8 :: decimal p.port) ':'.toUInt8 0
      = some p.dotted.length := by
    have := find_char_append (p := []) (r := decimal p.port) p.colon_not_mem_dotted
    simpa using this
  have hsep : int32 (p.dotted.length : ℤ) = p.dotted.length := int32_of_fits ⟨by omega, by omega⟩
  have hsize : size_t (p.dotted.length : ℤ) = p.dotted.length := size_t_natCast (by omega)
  have hnext : size_t ((p.dotted.length : ℤ) + 1) = p.dotted.length + 1 := by
    exact_mod_cast size_t_natCast (n := p.dotted.length + 1) (by omega)
  unfold split_peer
  rw [peer_address_encode, hfind, Option.getD_some, hsep]
  dsimp only
  rw [hsize, hnext]
  have hip : slice (p.dotted ++ ':'.toUInt8 :: decimal p.port) 0 p.dotted.length = p.dotted := by
    unfold slice
    rw [List.drop_zero, List.take_left]
  have hrest : (p.dotted ++ ':'.toUInt8 :: decimal p.port).drop (p.dotted.length + 1)
      = decimal p.port := by
    rw [← List.drop_drop, List.drop_left]
    rfl
  rw [if_neg (by unfold Text.npos; omega), hip, hrest, Url.stoi_decimal (by omega)]
  show Except.ok (if _ then _ else _) = _
  rw [if_neg]
  rw [not_or, List.isEmpty_iff]
  exact ⟨p.dotted_ne_nil, by omega⟩

theorem contacts_addresses (ps : List CompactPeer) :
    contacts (ps.map fun p => peer_address p.encode)
      = .ok (ps.map fun p => (p.dotted, (p.port : ℤ))) := by
  induction ps with
  | nil => rfl
  | cons p ps ih =>
    rw [List.map_cons, contacts, split_peer_address, ih]
    rfl

/-- Trailing bytes that make no peer are dropped. -/
theorem groups_peers (ps : List CompactPeer) {extra : Bytes} (hextra : extra.length ≤ 5) :
    groups 6 (ps.flatMap encode ++ extra) = ps.map encode := by
  have hsix : ∀ d ∈ ps.map encode, d.length = 6 := by
    intro d hd
    obtain ⟨p, -, rfl⟩ := List.mem_map.mp hd
    rfl
  have hlen : (ps.map encode).flatten.length = ps.length * 6 := by
    rw [← List.flatMap_def]
    simp [List.length_flatMap, encode]
  rw [List.flatMap_def, groups_append _ _ hlen (by omega), groups_flatten (by norm_num) _ hsix]

end CompactPeer

variable {data : Text} {es : List (Bytes × Value)} {ps : List CompactPeer} {extra rest : Bytes}

/-- **The peers**: of a response whose strings have lengths that are `int`s, the
    peers are printed one by one, and each is contacted at its address and port. -/
theorem peers_decoded (h : IsResponse es) (hbelow : entries_below (2 ^ 31) es)
    (hextra : extra.length ≤ 5)
    (hpeers : (ascii "peers", Value.str (ps.flatMap CompactPeer.encode ++ extra)) ∈ es)
    (hdata : data.bytes = (Value.dict es).encode ++ rest) :
    ∃ t, (∀ fuel, data.size < fuel → parse_response_dict data fuel 0 {}
        = pure ((Value.dict es).encode.length, t)) ∧
      t.peers = ps.map (fun p => p.dotted ++ ':'.toUInt8 :: decimal p.port) ∧
      contacts t.peers = .ok (ps.map fun p => (p.dotted, (p.port : ℤ))) := by
  have hdrop : data.bytes.drop 1 = encode_entries es ++ 'e'.toUInt8 :: rest := by
    rw [hdata]
    simp only [Value.encode, List.cons_append, List.append_assoc, List.nil_append,
      List.drop_succ_cons, List.drop_zero]
  have heq : (entries_effect response_effect 1 es {}).peers
      = ps.map fun p => peer_address p.encode := by
    rw [response_peers h hpeers hdrop, CompactPeer.groups_peers ps hextra, List.map_map]
    rfl
  refine ⟨_, fun fuel hfuel => parse_response_dict_encode h hbelow hdata hfuel, ?_, ?_⟩
  · rw [heq]
    exact List.map_congr_left fun p _ => p.peer_address_encode
  · rw [heq]
    exact CompactPeer.contacts_addresses ps

/-- A response with two peers, the second at the lowest port, two bytes too
    many, and a value that is skipped. -/
def small_response : List (Bytes × Value) :=
  [(ascii "interval", .int 1800),
    (ascii "peers", .str (List.flatMap CompactPeer.encode
      [⟨127, 0, 0, 1, 6881, by norm_num, by norm_num⟩,
        ⟨255, 10, 0, 200, 1, by norm_num, by norm_num⟩] ++ [1, 2])),
    (ascii "x", .list [.dict [(ascii "e", .int (-1))]])]

theorem small_response_decoded : ∃ (data : Text) (t : TrackerResponse),
    (∀ fuel, data.size < fuel → (parse_response_dict data fuel 0 {}).run.isSome = true) ∧
      t.peers = [ascii "127.0.0.1:6881", ascii "255.10.0.200:1"] ∧
      contacts t.peers = .ok [(ascii "127.0.0.1", 6881), (ascii "255.10.0.200", 1)] := by
  have hdistinct : (small_response.map Prod.fst).Nodup := by decide
  have hresponse : IsResponse small_response := by
    refine ⟨hdistinct, fun k hk v hv => ?_, fun v hv => ?_⟩
    · simp only [small_response, List.mem_cons, List.not_mem_nil, or_false, Prod.mk.injEq] at hv
      rcases hv with ⟨rfl, rfl⟩ | ⟨rfl, rfl⟩ | ⟨rfl, rfl⟩
      · exact ⟨1800, rfl, by decide⟩
      · exact absurd hk (by decide)
      · exact absurd hk (by decide)
    · obtain rfl := Option.some.inj (lookup_of_mem hdistinct hv)
      exact ⟨_, rfl⟩
  have hbelow : entries_below (2 ^ 31) small_response := by
    simp only [small_response, entries_below, Value.StringsBelow, items_below, and_true, true_and]
    decide
  have hdata : (⟨(Value.dict small_response).encode ++ [], by decide +kernel⟩ : Text).bytes
      = (Value.dict small_response).encode ++ [] := rfl
  have hextra : ([1, 2] : Bytes).length ≤ 5 := by decide
  obtain ⟨t, hparse, hpeers, hcontacts⟩ := peers_decoded hresponse hbelow hextra
    (List.mem_cons_of_mem _ (List.mem_cons_self ..)) hdata
  refine ⟨_, t, fun fuel hfuel => by rw [hparse fuel hfuel]; rfl, ?_, ?_⟩
  · rw [hpeers]
    decide +kernel
  · rw [hcontacts]
    decide +kernel

/-! ### Too Many Peers -/

/-- A response that consists of the peers string. -/
def only_peers (raw : Bytes) : List (Bytes × Value) := [(ascii "peers", .str raw)]

theorem only_peers_isResponse (raw : Bytes) : IsResponse (only_peers raw) := by
  refine ⟨List.nodup_singleton _, fun k hk v hv => ?_, fun v hv => ?_⟩
  · obtain ⟨rfl, -⟩ := Prod.mk.inj (List.mem_singleton.mp hv)
    exact absurd hk (by decide)
  · exact ⟨raw, (Prod.mk.inj (List.mem_singleton.mp hv)).2⟩

theorem only_peers_drop {raw : Bytes} (h : data.bytes = (Value.dict (only_peers raw)).encode) :
    data.bytes.drop 1 = encode_str (ascii "peers") ++ (encode_str raw ++ ['e'.toUInt8]) := by
  rw [h]
  simp only [only_peers, Value.encode, encode_entries, List.cons_append, List.append_assoc,
    List.append_nil, List.drop_succ_cons, List.drop_zero]

theorem only_peers_length (raw : Bytes) : (Value.dict (only_peers raw)).encode.length
    = (decimal raw.length).length + raw.length + 10 := by
  have hkey : (encode_str (ascii "peers")).length = 7 := by decide +kernel
  simp only [only_peers, Value.encode, encode_entries, List.length_append, List.length_cons,
    List.length_nil, hkey, encode_str_length]
  omega

/-- `stoi` throws at a peers string whose length is no `int`. -/
theorem only_peers_not_read {raw : Bytes} (hraw : 2 ^ 31 ≤ raw.length)
    (h : data.bytes = (Value.dict (only_peers raw)).encode) (fuel : ℕ)
    (r : ℕ × TrackerResponse) : (parse_response_dict data fuel 0 {}).run ≠ some (.ok r) := by
  have hdrop := only_peers_drop h
  have hpos : size_t (((0 : ℕ) : ℤ) + 1) = 1 := by decide
  cases fuel with
  | zero => exact nofun
  | succ fuel =>
    unfold parse_response_dict
    rw [hpos, dict_loop_entry (by decide) hdrop, response_field, if_neg (by decide),
      if_neg (by decide), if_neg (by decide), if_neg (by decide), if_pos rfl,
      read_string_too_long hraw (Text.drop_after hdrop)]
    exact nofun

/-- More peers than a string whose length is an `int` has room for. -/
def many_peers : List CompactPeer :=
  List.replicate 357913942 ⟨127, 0, 0, 1, 6881, by norm_num, by norm_num⟩

theorem many_peers_length : (many_peers.flatMap CompactPeer.encode).length = 2147483652 := by
  unfold many_peers
  rw [List.length_flatMap, List.map_replicate, List.sum_replicate]
  norm_num [CompactPeer.encode]

/-- The list of 357,913,942 peers is not read. -/
theorem many_peers_not_read :
    IsResponse (only_peers (many_peers.flatMap CompactPeer.encode)) ∧
      ∃ data : Text,
        data.bytes = (Value.dict (only_peers (many_peers.flatMap CompactPeer.encode))).encode ∧
          ∀ fuel r, (parse_response_dict data fuel 0 {}).run ≠ some (.ok r) := by
  have hdigits : (decimal 2147483652).length = 10 := by decide +kernel
  have hfits : (Value.dict (only_peers (many_peers.flatMap CompactPeer.encode))).encode.length
      < 2 ^ 63 := by
    rw [only_peers_length, many_peers_length, hdigits]
    norm_num
  have hraw : 2 ^ 31 ≤ (many_peers.flatMap CompactPeer.encode).length := by
    rw [many_peers_length]
    norm_num
  exact ⟨only_peers_isResponse _, ⟨_, hfits⟩, rfl, fun fuel r => only_peers_not_read hraw rfl fuel r⟩

end BitTorrentLite
