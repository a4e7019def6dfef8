import BitTorrentLite.Parser.Grammar

/-! # Tracker Responses

    `parse_response_dict` on an encoded dictionary: the four numbers and the
    peers are read wherever their keys stand, and the values of other keys are
    skipped, whatever they are.
-/

open Machine Region Bencode

namespace BitTorrentLite

variable {data : Text} {pos fuel : ℕ} {rest : Bytes}

/-- The keys of a response that have an integer. -/
def response_numbers : List Bytes :=
  [ascii "complete", ascii "incomplete", ascii "interval", ascii "min interval"]

/-- What an entry of the response does. -/
def response_effect (_pos : ℕ) (key : Bytes) (v : Value) (t : TrackerResponse) : TrackerResponse :=
  match v with
  | .int n =>
    if key = ascii "complete" then { t with complete := n }
    else if key = ascii "incomplete" then { t with incomplete := n }
    else if key = ascii "interval" then { t with interval := int32 n }
    else if key = ascii "min interval" then { t with mininterval := int32 n }
    else t
  | .str s =>
    if key = ascii "peers" then { t with peers := t.peers ++ (groups 6 s).map peer_address } else t
  | _ => t

/-- The known keys of the response have values of their types, and every string
    has a length that is an `int`. -/
structure ResponseEntry (key : Bytes) (v : Value) : Prop where
  numbers : key ∈ response_numbers → ∃ n, v = .int n ∧ FitsInt64 n
  peers : key = ascii "peers" → ∃ s, v = .str s
  below : v.StringsBelow (2 ^ 31)

/-- The body of the loop of `parse_response_dict` on an encoded value. -/
theorem response_field_encode {k : Bytes} {v : Value} {t : TrackerResponse}
    (hkv : ResponseEntry k v) (h : data.bytes.drop pos = v.encode ++ rest)
    (hfuel : v.encode.length ≤ fuel) :
    response_field data fuel k pos t = pure (pos + v.encode.length, response_effect pos k v t) := by
  have hnumber (hk : k ∈ response_numbers) :
      ∃ n, v = .int n ∧ read_integer data pos = .ok (n, pos + v.encode.length) := by
    obtain ⟨n, rfl, hn⟩ := hkv.numbers hk
    exact ⟨n, rfl, read_integer_encode hn h⟩
  unfold response_field
  by_cases hcomplete : k = ascii "complete"
  · obtain ⟨n, rfl, hread⟩ := hnumber (by simp [response_numbers, hcomplete])
    rw [if_pos hcomplete, hread, lift_ok_bind]
    simp only [response_effect, if_pos hcomplete]
  by_cases hincomplete : k = ascii "incomplete"
  · obtain ⟨n, rfl, hread⟩ := hnumber (by simp [response_numbers, hincomplete])
    rw [if_neg hcomplete, if_pos hincomplete, hread, lift_ok_bind]
    simp only [response_effect, if_neg hcomplete, if_pos hincomplete]
  by_cases hinterval : k = ascii "interval"
  · obtain ⟨n, rfl, hread⟩ := hnumber (by simp [response_numbers, hinterval])
    rw [if_neg hcomplete, if_neg hincomplete, if_pos hinterval, hread, lift_ok_bind]
    simp only [response_effect, if_neg hcomplete, if_neg hincomplete, if_pos hinterval]
  by_cases hmin : k = ascii "min interval"
  · obtain ⟨n, rfl, hread⟩ := hnumber (by simp [response_numbers, hmin])
    rw [if_neg hcomplete, if_neg hincomplete, if_neg hinterval, if_pos hmin, hread, lift_ok_bind]
    simp only [response_effect, if_neg hcomplete, if_neg hincomplete, if_neg hinterval, if_pos hmin]
  by_cases hpeers : k = ascii "peers"
  · obtain ⟨s, rfl⟩ := hkv.peers hpeers
    rw [if_neg hcomplete, if_neg hincomplete, if_neg hinterval, if_neg hmin, if_pos hpeers,
      read_string_encode hkv.below h, lift_ok_bind]
    simp only [response_effect, if_pos hpeers]
    rfl
  -- any other key
  rw [if_neg hcomplete, if_neg hincomplete, if_neg hinterval, if_neg hmin, if_neg hpeers,
    skip_value_encode v hkv.below h hfuel, pure_bind]
  cases v <;> simp only [response_effect, if_neg hcomplete, if_neg hincomplete, if_neg hinterval,
    if_neg hmin, if_neg hpeers]

/-- A response: the keys are different, and the known ones have values of their
    types. -/
structure IsResponse (es : List (Bytes × Value)) : Prop where
  distinct : (es.map Prod.fst).Nodup
  numbers : ∀ k ∈ response_numbers, ∀ v, (k, v) ∈ es → ∃ n, v = .int n ∧ FitsInt64 n
  peers : ∀ v, (ascii "peers", v) ∈ es → ∃ s, v = .str s

variable {es : List (Bytes × Value)}

theorem IsResponse.entry (h : IsResponse es) (hbelow : entries_below (2 ^ 31) es) :
    ∀ k v, (k, v) ∈ es → ResponseEntry k v := by
  intro k v hkv
  refine ⟨fun hk => h.numbers k hk v hkv, ?_, (entries_below_mem hbelow k v hkv).2⟩
  rintro rfl
  exact h.peers v hkv

/-- Only its key sets the peers. -/
theorem response_effect_peers {k : Bytes} {v : Value} {t : TrackerResponse}
    (hk : k ≠ ascii "peers") : (response_effect pos k v t).peers = t.peers := by
  cases v <;> simp only [response_effect, if_neg hk]
  split_ifs <;> rfl

/-- **The response**: on an encoded dictionary, with anything behind it,
    `parse_response_dict` returns what its entries make of the empty response. -/
theorem parse_response_dict_encode (h : IsResponse es) (hbelow : entries_below (2 ^ 31) es)
    (hdata : data.bytes = (Value.dict es).encode ++ rest) (hfuel : data.size < fuel) :
    parse_response_dict data fuel 0 {} = pure ((Value.dict es).encode.length,
      entries_effect response_effect 1 es {}) := by
  have hlen : (Value.dict es).encode.length = (encode_entries es).length + 2 := by
    simp only [Value.encode, List.length_append, List.length_cons, List.length_nil]
  have hdrop : data.bytes.drop 0 = 'd'.toUInt8 :: (encode_entries es ++ 'e'.toUInt8 :: rest) := by
    rw [List.drop_zero, hdata]
    simp only [Value.encode, List.cons_append, List.append_assoc, List.nil_append]
  have hin := Text.drop_succ hdrop
  have hend := Text.lt_size_of_drop (Text.drop_after hin)
  have hloop : dict_loop data (response_field data) fuel (0 + 1) {}
      = pure (0 + 1 + (encode_entries es).length, entries_effect response_effect (0 + 1) es {}) :=
    dict_loop_encode es (fun k v hkv fuel pos t rest => response_field_encode (h.entry hbelow k v hkv))
      (fun k v hkv => (entries_below_mem hbelow k v hkv).1) hin (by omega)
  unfold parse_response_dict
  rw [size_t_succ (Text.lt_size_of_drop hdrop), hloop, pure_bind]
  dsimp only
  rw [size_t_succ hend, hlen]
  congr 2
  omega

/-- The peers it returns are those of the peers string. -/
theorem response_peers (h : IsResponse es) {raw : Bytes}
    (hpeers : (ascii "peers", Value.str raw) ∈ es)
    (hdrop : data.bytes.drop pos = encode_entries es ++ rest) :
    (entries_effect response_effect pos es {}).peers = (groups 6 raw).map peer_address := by
  refine entries_effect_lookup TrackerResponse.peers (ascii "peers")
    (fun o a => o = some (.str raw) → a = (groups 6 raw).map peer_address) es h.distinct ?_ ?_ ?_
    hdrop (lookup_of_mem h.distinct hpeers)
  · intro k v hk pos t
    exact response_effect_peers hk
  · exact nofun
  · intro v _ pos t' _ _ hempty hv
    obtain rfl := Option.some.inj hv
    show t'.peers ++ (groups 6 raw).map peer_address = _
    rw [hempty]
    rfl

end BitTorrentLite
