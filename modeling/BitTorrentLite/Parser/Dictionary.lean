import BitTorrentLite.Parser.Spec

/-! # Dictionaries

    A dictionary loop does to its result what the entries of the dictionary do
    to it, one after the other. What an entry does may depend on where its
    value starts, as it does for `info`.
-/

open Machine Region Bencode

namespace BitTorrentLite

variable {data : Text} {pos fuel : ℕ} {rest : Bytes}

/-! ## The Loop -/

section loop

variable {σ : Type} {field : ℕ → Bytes → ℕ → σ → Parse (ℕ × σ)}
  {effect : ℕ → Bytes → Value → σ → σ} {t : σ}

/-- What the entries do, with the first key at `pos`; `effect` says what a
    value that starts at a position does. -/
def entries_effect (effect : ℕ → Bytes → Value → σ → σ) :
    ℕ → List (Bytes × Value) → σ → σ
  | _, [], t => t
  | pos, (k, v) :: es, t =>
    entries_effect effect (pos + (encode_str k).length + v.encode.length) es
      (effect (pos + (encode_str k).length) k v t)

/-- A round of the loop. -/
theorem dict_loop_entry {k : Bytes} (hk : k.length < 2 ^ 31)
    (h : data.bytes.drop pos = encode_str k ++ rest) :
    dict_loop data field (fuel + 1) pos t = (do
      let (pos, t) ← field fuel k (pos + (encode_str k).length) t
      dict_loop data field fuel pos t) := by
  obtain ⟨b, r, heq, hb⟩ := encode_head (.str k)
  have hhead := h
  rw [show encode_str k = b :: r from heq, List.cons_append] at hhead
  have hget : data.bytes[pos]? = some b := Text.get_of_drop hhead
  rw [dict_loop, if_pos ⟨Text.lt_size_of_drop hhead, by rw [hget]; simpa using hb⟩,
    read_string_encode hk h, lift_ok_bind]

/-- The end of the loop. -/
theorem dict_loop_end (h : data.bytes.drop pos = 'e'.toUInt8 :: rest) :
    dict_loop data field (fuel + 1) pos t = pure (pos, t) := by
  rw [dict_loop, if_neg fun hand => hand.2 (Text.get_of_drop h)]

/-- **The loop**: on an encoded dictionary whose values `field` handles, it
    does what the entries do. -/
theorem dict_loop_encode (es : List (Bytes × Value))
    (hfield : ∀ k v, (k, v) ∈ es → ∀ fuel pos t rest, data.bytes.drop pos = v.encode ++ rest →
      v.encode.length ≤ fuel →
        field fuel k pos t = pure (pos + v.encode.length, effect pos k v t))
    (hkeys : ∀ k v, (k, v) ∈ es → k.length < 2 ^ 31)
    (h : data.bytes.drop pos = encode_entries es ++ 'e'.toUInt8 :: rest)
    (hfuel : (encode_entries es).length + 1 ≤ fuel) :
    dict_loop data field fuel pos t
      = pure (pos + (encode_entries es).length, entries_effect effect pos es t) := by
  induction es generalizing pos fuel t with
  | nil =>
    obtain ⟨fuel, rfl⟩ : ∃ n, fuel = n + 1 := ⟨fuel - 1, by omega⟩
    exact dict_loop_end h
  | cons e es ih =>
    obtain ⟨k, v⟩ := e
    obtain ⟨fuel, rfl⟩ : ∃ n, fuel = n + 1 := ⟨fuel - 1, by omega⟩
    have hlen := encode_str_length k
    simp only [encode_entries, List.length_append, List.append_assoc] at h hfuel ⊢
    have hvalue := Text.drop_after h
    have hmem := List.mem_cons_self (a := (k, v)) (l := es)
    rw [dict_loop_entry (hkeys k v hmem) h, hfield k v hmem _ _ _ _ hvalue (by omega), pure_bind]
    dsimp only
    rw [ih (fun k v hkv => hfield k v (List.mem_cons_of_mem _ hkv))
      (fun k v hkv => hkeys k v (List.mem_cons_of_mem _ hkv)) (Text.drop_after hvalue) (by omega)]
    congr 2
    omega

/-! ## What One Key Decides -/

/-- Entries that leave a part of the result alone. -/
theorem entries_effect_keep {α : Type} (g : σ → α) (es : List (Bytes × Value))
    (h : ∀ k v, (k, v) ∈ es → ∀ pos t, g (effect pos k v t) = g t) :
    g (entries_effect effect pos es t) = g t := by
  induction es generalizing pos t with
  | nil => rfl
  | cons e es ih =>
    obtain ⟨k, v⟩ := e
    rw [entries_effect, ih fun k v hkv => h k v (List.mem_cons_of_mem _ hkv)]
    exact h k v (List.mem_cons_self ..) _ _

/-- **Lookup**: a part `g` of the result that only the key `K` changes is what
    the value of `K` makes it, wherever the key stands. -/
theorem entries_effect_lookup {α : Type} (g : σ → α) (K : Bytes) (R : Option Value → α → Prop)
    (es : List (Bytes × Value)) (hnodup : (es.map Prod.fst).Nodup)
    (hother : ∀ k v, k ≠ K → ∀ pos t, g (effect pos k v t) = g t)
    (hnone : R none (g t))
    (hsome : ∀ v, (K, v) ∈ es → ∀ pos t' rest, data.bytes.drop pos = v.encode ++ rest →
      g t' = g t → R (some v) (g (effect pos K v t')))
    (h : data.bytes.drop pos = encode_entries es ++ rest) :
    R (es.lookup K) (g (entries_effect effect pos es t)) := by
  induction es generalizing pos t with
  | nil => exact hnone
  | cons e es ih =>
    obtain ⟨k, v⟩ := e
    obtain ⟨hk, hnodup⟩ := List.nodup_cons.mp hnodup
    simp only [encode_entries, List.append_assoc] at h
    have hvalue := Text.drop_after h
    rw [entries_effect]
    by_cases hkK : k = K
    · subst hkK
      have hrest : ∀ k' v', (k', v') ∈ es → ∀ pos t, g (effect pos k' v' t) = g t := by
        intro k' v' hkv
        refine hother k' v' ?_
        rintro rfl
        exact hk (List.mem_map.mpr ⟨_, hkv, rfl⟩)
      rw [List.lookup_cons_self, entries_effect_keep g es hrest]
      exact hsome v (List.mem_cons_self ..) _ _ _ hvalue rfl
    · have hkeep := hother k v hkK (pos + (encode_str k).length) t
      rw [List.lookup_cons, beq_false_of_ne (Ne.symm hkK)]
      refine ih hnodup (hkeep.symm ▸ hnone) ?_ (Text.drop_after hvalue)
      intro v' hmem pos' t' rest' hdrop hsame
      exact hsome v' (List.mem_cons_of_mem _ hmem) pos' t' rest' hdrop (hsame.trans hkeep)

end loop

/-! ## The Fields of a Torrent -/

/-- What an entry of the info dictionary does. -/
def info_effect (_pos : ℕ) (key : Bytes) (v : Value) (t : Torrent) : Torrent :=
  match v with
  | .int n =>
    if key = ascii "length" then { t with length := n }
    else if key = ascii "piece length" then { t with piece_length := n }
    else t
  | .str s =>
    if key = ascii "name" then { t with name := s }
    else if key = ascii "pieces" then
      { t with pieces := t.pieces ++ (groups 20 s).map hexconverter }
    else t
  | _ => t

/-- What an entry of the torrent does. -/
def torrent_effect (pos : ℕ) (key : Bytes) (v : Value) (t : Torrent) : Torrent :=
  match v with
  | .str s =>
    if key = ascii "announce" then { t with announce := s }
    else if key = ascii "created by" then { t with created_by := s }
    else t
  | .dict es =>
    if key = ascii "info" then
      { entries_effect info_effect (pos + 1) es { t with info_start := pos } with
        info_end := (pos + v.encode.length - 1 : ℕ) }
    else t
  | _ => t

/-- The known keys of the info dictionary have values of their types. -/
structure InfoEntry (key : Bytes) (v : Value) : Prop where
  integers : key = ascii "length" ∨ key = ascii "piece length" →
    ∃ n, v = .int n ∧ FitsInt64 n
  strings : key = ascii "name" ∨ key = ascii "pieces" → ∃ s, v = .str s
  below : v.StringsBelow (2 ^ 31)

/-- The known keys of the torrent have values of their types. -/
structure TorrentEntry (key : Bytes) (v : Value) : Prop where
  strings : key = ascii "announce" ∨ key = ascii "created by" → ∃ s, v = .str s
  info : key = ascii "info" → ∃ es, v = .dict es ∧ ∀ k w, (k, w) ∈ es → InfoEntry k w
  below : v.StringsBelow (2 ^ 31)

theorem entries_below_mem {n : ℕ} {es : List (Bytes × Value)} (h : entries_below n es) :
    ∀ k v, (k, v) ∈ es → k.length < n ∧ v.StringsBelow n := by
  induction es with
  | nil =>
    intro k v hkv
    cases hkv
  | cons e es ih =>
    obtain ⟨k₀, v₀⟩ := e
    obtain ⟨hk, hv, hes⟩ := h
    intro k v hkv
    rcases List.mem_cons.mp hkv with heq | hkv
    · obtain ⟨rfl, rfl⟩ := Prod.mk.inj heq
      exact ⟨hk, hv⟩
    · exact ih hes k v hkv

/-- The body of the loop of `parse_info_dict` on an encoded value. -/
theorem info_field_encode {k : Bytes} {v : Value} {t : Torrent} (hkv : InfoEntry k v)
    (h : data.bytes.drop pos = v.encode ++ rest) (hfuel : v.encode.length ≤ fuel) :
    info_field data fuel k pos t = pure (pos + v.encode.length, info_effect pos k v t) := by
  unfold info_field
  by_cases hlength : k = ascii "length"
  · obtain ⟨n, rfl, hn⟩ := hkv.integers (.inl hlength)
    rw [if_pos hlength, read_integer_encode hn h, lift_ok_bind]
    simp only [info_effect, if_pos hlength]
  by_cases hname : k = ascii "name"
  · obtain ⟨s, rfl⟩ := hkv.strings (.inl hname)
    rw [if_neg hlength, if_pos hname, read_string_encode hkv.below h, lift_ok_bind]
    simp only [info_effect, if_pos hname]
    rfl
  by_cases hpiece : k = ascii "piece length"
  · obtain ⟨n, rfl, hn⟩ := hkv.integers (.inr hpiece)
    rw [if_neg hlength, if_neg hname, if_pos hpiece, read_integer_encode hn h, lift_ok_bind]
    simp only [info_effect, if_neg hlength, if_pos hpiece]
  by_cases hpieces : k = ascii "pieces"
  · obtain ⟨s, rfl⟩ := hkv.strings (.inr hpieces)
    rw [if_neg hlength, if_neg hname, if_neg hpiece, if_pos hpieces,
      read_string_encode hkv.below h, lift_ok_bind]
    simp only [info_effect, if_neg hname, if_pos hpieces]
    rfl
  -- any other key
  rw [if_neg hlength, if_neg hname, if_neg hpiece, if_neg hpieces,
    skip_value_encode v hkv.below h hfuel, pure_bind]
  cases v <;> simp only [info_effect, if_neg hlength, if_neg hname, if_neg hpiece, if_neg hpieces]

/-- `parse_info_dict` on an encoded dictionary. -/
theorem parse_info_dict_encode {es : List (Bytes × Value)} {t : Torrent}
    (hes : ∀ k v, (k, v) ∈ es → InfoEntry k v) (hbelow : entries_below (2 ^ 31) es)
    (h : data.bytes.drop pos = (Value.dict es).encode ++ rest)
    (hfuel : (Value.dict es).encode.length ≤ fuel) :
    parse_info_dict data fuel pos t = pure (pos + (Value.dict es).encode.length,
      entries_effect info_effect (pos + 1) es t) := by
  have hlen : (Value.dict es).encode.length = (encode_entries es).length + 2 := by
    simp only [Value.encode, List.length_append, List.length_cons, List.length_nil]
  simp only [Value.encode, List.cons_append, List.append_assoc, List.nil_append] at h
  have hin := Text.drop_succ h
  have hend := Text.lt_size_of_drop (Text.drop_after hin)
  have hloop : dict_loop data (info_field data) fuel (pos + 1) t
      = pure (pos + 1 + (encode_entries es).length, entries_effect info_effect (pos + 1) es t) :=
    dict_loop_encode es (fun k v hkv fuel pos t rest => info_field_encode (hes k v hkv))
      (fun k v hkv => (entries_below_mem hbelow k v hkv).1) hin (by omega)
  unfold parse_info_dict
  rw [size_t_succ (Text.lt_size_of_drop h), hloop, pure_bind]
  dsimp only
  rw [size_t_succ hend, hlen]
  congr 2
  omega

/-- The body of the loop of `parse_torrent` on an encoded value. -/
theorem torrent_field_encode {k : Bytes} {v : Value} {t : Torrent} (hkv : TorrentEntry k v)
    (h : data.bytes.drop pos = v.encode ++ rest) (hfuel : v.encode.length ≤ fuel) :
    torrent_field data fuel k pos t = pure (pos + v.encode.length, torrent_effect pos k v t) := by
  have hfits := data.fits
  unfold torrent_field
  by_cases hannounce : k = ascii "announce"
  · obtain ⟨s, rfl⟩ := hkv.strings (.inl hannounce)
    rw [if_pos hannounce, read_string_encode hkv.below h, lift_ok_bind]
    simp only [torrent_effect, if_pos hannounce]
    rfl
  by_cases hcreated : k = ascii "created by"
  · obtain ⟨s, rfl⟩ := hkv.strings (.inr hcreated)
    rw [if_neg hannounce, if_pos hcreated, read_string_encode hkv.below h, lift_ok_bind]
    simp only [torrent_effect, if_neg hannounce, if_pos hcreated]
    rfl
  by_cases hinfo : k = ascii "info"
  · obtain ⟨es, rfl, hes⟩ := hkv.info hinfo
    have hlen : (Value.dict es).encode.length = (encode_entries es).length + 2 := by
      simp only [Value.encode, List.length_append, List.length_cons, List.length_nil]
    have hsize : pos + (Value.dict es).encode.length ≤ data.bytes.length := by
      have hl := congrArg List.length h
      rw [List.length_drop, List.length_append] at hl
      omega
    have hstart : int64 (pos : ℤ) = pos := int64_of_fits ⟨by omega, by omega⟩
    have hstop : int64 (size_t (((pos + (Value.dict es).encode.length : ℕ) : ℤ) - 1))
        = ((pos + (Value.dict es).encode.length - 1 : ℕ) : ℤ) := by
      rw [size_t_of_lt (by omega) (by omega), int64_of_fits ⟨by omega, by omega⟩]
      omega
    rw [if_neg hannounce, if_neg hcreated, if_pos hinfo, hstart,
      parse_info_dict_encode hes hkv.below h hfuel, pure_bind]
    dsimp only
    rw [hstop]
    simp only [torrent_effect, if_pos hinfo]
  -- any other key
  rw [if_neg hannounce, if_neg hcreated, if_neg hinfo, skip_value_encode v hkv.below h hfuel,
    pure_bind]
  cases v <;> simp only [torrent_effect, if_neg hannounce, if_neg hcreated, if_neg hinfo]

end BitTorrentLite
