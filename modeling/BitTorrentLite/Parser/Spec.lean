import BitTorrentLite.Bencode.Spelling
import BitTorrentLite.Parser.Decoder

/-! # What the Parser Does with Bencoded Data

    Where the data goes on with the encoding of a value, each helper reads or
    skips exactly that value; a dictionary loop goes through its entries. The
    lemmas say so for any position and anything after the value, so that they
    apply inside lists and dictionaries of any depth.
-/

open Machine Region Bencode

namespace BitTorrentLite

variable {data : Text} {pos : ℕ} {rest : Bytes}

/-! ### Steps of a Parse -/

section binds

variable {α β : Type}

@[simp] theorem lift_ok_bind (a : α) (f : α → Parse β) :
    (liftM (Except.ok a : Except Stop α) : Parse α) >>= f = f a := rfl

theorem lift_ok (a : α) : (liftM (Except.ok a : Except Stop α) : Parse α) = pure a := rfl

end binds

/-! ### Strings and Integers -/

theorem encode_str_length (s : Bytes) :
    (encode_str s).length = (decimal s.length).length + 1 + s.length := by
  unfold encode_str
  rw [List.length_append, List.length_cons]
  omega

/-- The size of the data that is left, after the position. -/
theorem size_of_drop {l : Bytes} (hpos : pos ≤ data.size) (h : data.bytes.drop pos = l) :
    pos + l.length = data.size := by
  have hlen := congrArg List.length h
  rw [List.length_drop] at hlen
  unfold Text.size at hpos ⊢
  omega

theorem size_t_succ (h : pos < data.size) : size_t ((pos : ℤ) + 1) = pos + 1 := by
  have hfits := data.fits
  unfold Text.size at h
  exact_mod_cast size_t_natCast (n := pos + 1) (by omega)

/-- `read_string` reads a string that is spelled at its position, unless its
    length is no `int`. -/
theorem read_string_spelled {s bs : Bytes} (hs : SpellsStr s bs)
    (h : data.bytes.drop pos = bs ++ rest) :
    read_string data pos
      = if s.length < 2 ^ 31 then .ok (s, pos + bs.length) else .error .out_of_range := by
  have hfits := data.fits
  obtain ⟨hds⟩ := hs
  rename_i ds
  rw [List.append_assoc, List.cons_append] at h
  -- no digit is a colon, so the length is read up to it
  have hcolon := Text.find_of_drop h (hds.not_mem (by decide))
  have hlt := (Text.find_bounds hcolon).2
  have hin : data.bytes.drop (pos + ds.length + 1) = s ++ rest :=
    Text.drop_succ (Text.drop_after h)
  have hsize := size_of_drop (by omega) hin
  rw [List.length_append] at hsize
  have hnum : strtol ds = some (s.length : ℤ) := by
    rw [strtol_digits hds.nonempty hds.digits, hds.value]
  unfold read_string stoi
  rw [hcolon]
  dsimp only
  rw [Nat.add_sub_cancel_left, Text.substr_of_drop h, hnum]
  dsimp only
  by_cases hfit : s.length < 2 ^ 31
  · -- the end lies in the data, so the position does not wrap
    have hend : size_t ((pos + ds.length + 1 : ℕ) + (s.length : ℤ))
        = pos + (ds ++ ':'.toUInt8 :: s).length := by
      rw [List.length_append, List.length_cons, ← Nat.cast_add,
        size_t_natCast (by unfold Text.size at hsize; omega)]
      omega
    rw [if_pos ⟨by omega, by omega⟩, if_pos hfit]
    show Except.ok (data.substr _ (size_t (s.length : ℤ)), size_t _) = _
    rw [size_t_natCast (by omega), Text.substr_of_drop hin, hend]
  · rw [if_neg fun hint => absurd hint.2 (by omega), if_neg hfit]
    rfl

theorem read_string_encode {s : Bytes} (hs : s.length < 2 ^ 31)
    (h : data.bytes.drop pos = encode_str s ++ rest) :
    read_string data pos = .ok (s, pos + (encode_str s).length) := by
  rw [read_string_spelled (spellsStr_encode s) h, if_pos hs]

/-- A length that does not fit an `int` is refused. -/
theorem read_string_too_long {s : Bytes} (hs : 2 ^ 31 ≤ s.length)
    (h : data.bytes.drop pos = encode_str s ++ rest) :
    read_string data pos = .error .out_of_range := by
  rw [read_string_spelled (spellsStr_encode s) h, if_neg (by omega)]

/-- What `strtol` makes of the text of an integer. -/
theorem strtol_spelled {n : ℤ} {ds : Bytes} (hn : SpellsInt n ds) : strtol ds = some n := by
  cases hn with
  | plain h => rw [strtol_digits h.nonempty h.digits, h.value]
  | minus h => rw [strtol_minus h.nonempty h.digits, h.value]

/-- The place where an integer ends. -/
theorem find_end {n : ℤ} {ds : Bytes} (hn : SpellsInt n ds)
    (h : data.bytes.drop pos = 'i'.toUInt8 :: (ds ++ 'e'.toUInt8 :: rest)) :
    size_t (pos + 1) = pos + 1 ∧ data.substr (pos + 1) ds.length = ds ∧
      data.find 'e'.toUInt8 (pos + 1) = some (pos + 1 + ds.length) := by
  have hin := Text.drop_succ h
  exact ⟨size_t_succ (Text.lt_size_of_drop h), Text.substr_of_drop hin,
    Text.find_of_drop hin (hn.not_mem (by decide) (by decide))⟩

/-- `read_integer` reads an integer that is spelled at its position, unless it
    is no `long long`. -/
theorem read_integer_spelled {n : ℤ} {ds : Bytes} (hn : SpellsInt n ds)
    (h : data.bytes.drop pos = 'i'.toUInt8 :: (ds ++ 'e'.toUInt8 :: rest)) :
    read_integer data pos
      = if FitsInt64 n then .ok (n, pos + (ds.length + 2)) else .error .out_of_range := by
  obtain ⟨hpos, hin, hfind⟩ := find_end hn h
  unfold read_integer stoll
  rw [hpos]
  dsimp only
  rw [hfind]
  dsimp only
  rw [Nat.add_sub_cancel_left, hin, strtol_spelled hn]
  dsimp only
  split_ifs with hfit
  · show Except.ok (n, pos + 1 + ds.length + 1) = _
    congr 2
    omega
  · rfl

/-- An integer of any size is skipped. -/
theorem skip_integer_spelled {n : ℤ} {ds : Bytes} (hn : SpellsInt n ds)
    (h : data.bytes.drop pos = 'i'.toUInt8 :: (ds ++ 'e'.toUInt8 :: rest)) :
    skip_integer data pos = .ok (pos + (ds.length + 2)) := by
  obtain ⟨hpos, -, hfind⟩ := find_end hn h
  have hlt := (Text.find_bounds hfind).2
  have hfits := data.fits
  have hend : size_t (((pos + 1 + ds.length : ℕ) : ℤ) + 1) = pos + (ds.length + 2) := by
    rw [size_t_succ hlt]
    omega
  unfold Text.size at hlt
  unfold skip_integer
  rw [hpos]
  dsimp only
  rw [hfind, Option.getD_some, hend, if_neg (by unfold Text.npos; omega)]
  rfl

theorem encode_int_length (n : ℤ) : (Value.int n).encode.length = (integer n).length + 2 := by
  simp only [Value.encode, List.cons_append, List.length_cons, List.length_append, List.length_nil]

theorem encode_int_append (n : ℤ) : (Value.int n).encode ++ rest
    = 'i'.toUInt8 :: (integer n ++ 'e'.toUInt8 :: rest) := by
  simp only [Value.encode, List.cons_append, List.append_assoc, List.nil_append]

theorem read_integer_encode {n : ℤ} (hn : FitsInt64 n)
    (h : data.bytes.drop pos = (Value.int n).encode ++ rest) :
    read_integer data pos = .ok (n, pos + (Value.int n).encode.length) := by
  rw [encode_int_append] at h
  rw [read_integer_spelled (spellsInt_integer n) h, if_pos hn, encode_int_length]

theorem skip_integer_encode {n : ℤ} (h : data.bytes.drop pos = (Value.int n).encode ++ rest) :
    skip_integer data pos = .ok (pos + (Value.int n).encode.length) := by
  rw [encode_int_append] at h
  rw [skip_integer_spelled (spellsInt_integer n) h, encode_int_length]

/-! ### Groups of Bytes -/

/-- Strings of `n` bytes, put together, fall into the same groups again. -/
theorem groups_flatten {n : ℕ} (hn : 0 < n) (ds : List Bytes) (h : ∀ d ∈ ds, d.length = n) :
    groups n ds.flatten = ds := by
  induction ds with
  | nil =>
    unfold groups
    rw [List.flatten_nil, List.length_nil, Nat.zero_div]
    rfl
  | cons d ds ih =>
    have hd := h d (List.mem_cons_self ..)
    have ih := ih fun e he => h e (List.mem_cons_of_mem _ he)
    unfold groups at ih ⊢
    rw [List.flatten_cons, List.length_append, hd, Nat.add_div_left _ hn, List.range_succ_eq_map,
      List.map_cons, List.map_map]
    -- the first string, and the groups behind it one place on
    refine congrArg₂ List.cons ?_ ?_
    · unfold slice
      rw [Nat.zero_mul, List.drop_zero, ← hd, List.take_left]
    · conv_rhs => rw [← ih]
      refine List.map_congr_left fun k _ => ?_
      show slice (d ++ ds.flatten) ((k + 1) * n) n = slice ds.flatten (k * n) n
      unfold slice
      rw [Nat.add_mul, Nat.one_mul, Nat.add_comm, ← List.drop_drop, ← hd, List.drop_left]

/-- Bytes that make no group are dropped. -/
theorem groups_append {n k : ℕ} (raw extra : Bytes) (hraw : raw.length = k * n)
    (hextra : extra.length < n) : groups n (raw ++ extra) = groups n raw := by
  have hcount : (raw ++ extra).length / n = k ∧ raw.length / n = k := by
    rw [List.length_append, hraw]
    have hn : 0 < n := by omega
    exact ⟨Nat.div_eq_of_lt_le (by omega) (by rw [Nat.add_mul, Nat.one_mul]; omega),
      Nat.mul_div_cancel k hn⟩
  unfold groups
  rw [hcount.1, hcount.2]
  refine List.map_congr_left fun i hi => ?_
  -- each group lies in the first part
  have hend : (i + 1) * n ≤ k * n := Nat.mul_le_mul_right n (List.mem_range.mp hi)
  rw [Nat.add_mul, Nat.one_mul] at hend
  unfold slice
  rw [List.drop_append_of_le_length (by omega), List.take_append_of_le_length]
  rw [List.length_drop]
  omega

/-! ### Hexadecimal -/

/-- The digits to base 16, in lower case. -/
def hex_alphabet : Bytes := ascii "0123456789abcdef"

/-- `hex` is the lower-case hexadecimal of `raw`: for each byte the digit of
    its high half and the digit of its low half. -/
def LowerHex (raw hex : Bytes) : Prop :=
  hex.length = 2 * raw.length ∧ ∀ (k : ℕ) (byte : UInt8), raw[k]? = some byte →
    hex[2 * k]? = hex_alphabet[byte.toNat / 16]? ∧ hex[2 * k + 1]? = hex_alphabet[byte.toNat % 16]?

/-- `hexes` are the lower-case hexadecimals of the groups of 20 bytes that
    follow one another in `raw`. -/
def HexGroups (raw : Bytes) (hexes : List Bytes) : Prop :=
  hexes.length = raw.length / 20 ∧ ∀ (i : ℕ) (hex : Bytes), hexes[i]? = some hex →
    LowerHex ((raw.drop (20 * i)).take 20) hex

theorem hex_alphabet_digit {d : ℕ} (hd : d < 16) : hex_alphabet[d]? = some (hex_digit d) := by
  have hall : ∀ d < 16, hex_alphabet[d]? = some (hex_digit d) := by decide
  exact hall d hd

theorem lowerHex_nil : LowerHex [] [] := by
  refine ⟨rfl, fun k byte hk => ?_⟩
  cases hk

theorem LowerHex.cons {raw hex : Bytes} (h : LowerHex raw hex) (byte : UInt8) :
    LowerHex (byte :: raw) (hex_digit (byte.toNat / 16) :: hex_digit (byte.toNat % 16) :: hex) := by
  have hlt := byte.toNat_lt
  refine ⟨by rw [List.length_cons, List.length_cons, List.length_cons, h.1]; ring, ?_⟩
  intro k b hk
  cases k with
  | zero =>
    obtain rfl := Option.some.inj hk
    exact ⟨(hex_alphabet_digit (by omega)).symm, (hex_alphabet_digit (by omega)).symm⟩
  | succ k => exact h.2 k b hk

/-- `hexconverter` writes lower-case hexadecimal. -/
theorem lowerHex_hexconverter (raw : Bytes) : LowerHex raw (hexconverter raw) := by
  induction raw with
  | nil => exact lowerHex_nil
  | cons byte raw ih => exact ih.cons byte

/-- And there is one such spelling. -/
theorem LowerHex.unique {raw hex hex' : Bytes} (h : LowerHex raw hex) (h' : LowerHex raw hex') :
    hex = hex' := by
  refine List.ext_getElem? fun j => ?_
  by_cases hj : j / 2 < raw.length
  · obtain ⟨hhigh, hlow⟩ := h.2 (j / 2) _ (List.getElem?_eq_getElem hj)
    obtain ⟨hhigh', hlow'⟩ := h'.2 (j / 2) _ (List.getElem?_eq_getElem hj)
    rcases Nat.mod_two_eq_zero_or_one j with heven | hodd
    · rw [show j = 2 * (j / 2) by omega, hhigh, hhigh']
    · rw [show j = 2 * (j / 2) + 1 by omega, hlow, hlow']
  · have hlen := h.1
    have hlen' := h'.1
    rw [List.getElem?_eq_none (by omega), List.getElem?_eq_none (by omega)]

/-- What `parse_info_dict` makes of the string of hashes. -/
theorem hexGroups_groups (raw : Bytes) : HexGroups raw ((groups 20 raw).map hexconverter) := by
  have hlen : (groups 20 raw).length = raw.length / 20 := by
    rw [groups, List.length_map, List.length_range]
  refine ⟨by rw [List.length_map, hlen], fun i hex hi => ?_⟩
  obtain ⟨group, hgroup, rfl⟩ := Option.map_eq_some_iff.mp ((List.getElem?_map ..).symm.trans hi)
  obtain ⟨k, hk, rfl⟩ := Option.map_eq_some_iff.mp ((List.getElem?_map ..).symm.trans hgroup)
  obtain ⟨-, rfl⟩ := List.getElem?_eq_some_iff.mp hk
  rw [List.getElem_range, mul_comm i 20]
  exact lowerHex_hexconverter _

theorem HexGroups.unique {raw : Bytes} {hexes hexes' : List Bytes} (h : HexGroups raw hexes)
    (h' : HexGroups raw hexes') : hexes = hexes' := by
  refine List.ext_getElem (h.1.trans h'.1.symm) fun i hi hi' => ?_
  exact (h.2 i _ (List.getElem?_eq_getElem hi)).unique (h'.2 i _ (List.getElem?_eq_getElem hi'))

/-- **Hexadecimal groups**: what is made of the string of hashes are the
    hexadecimals of its groups, and nothing else is. -/
theorem hexGroups_iff {raw : Bytes} {hexes : List Bytes} :
    HexGroups raw hexes ↔ hexes = (groups 20 raw).map hexconverter := by
  refine ⟨fun h => h.unique (hexGroups_groups raw), ?_⟩
  rintro rfl
  exact hexGroups_groups raw

/-! ### Skipping a Value -/

/-- The case of `skip_value` for an integer. -/
theorem skip_value_integer {r : Bytes} (h : data.bytes.drop pos = 'i'.toUInt8 :: r) (fuel : ℕ) :
    skip_value data (fuel + 1) pos = liftM (skip_integer data pos) := by
  rw [skip_value, Text.at_of_drop h, lift_ok_bind, if_pos rfl]

/-- The case for a string. -/
theorem skip_value_string {b : UInt8} {r : Bytes} (h : data.bytes.drop pos = b :: r)
    (hb : is_digit b = true) (fuel : ℕ) :
    skip_value data (fuel + 1) pos = (do
      let (_, pos) ← read_string data pos
      return pos) := by
  have hne : b ≠ 'i'.toUInt8 := by
    rintro rfl
    revert hb
    decide
  rw [skip_value, Text.at_of_drop h, lift_ok_bind, if_neg hne, if_pos hb]

/-- The case for a list or a dictionary. -/
theorem skip_value_nested {b : UInt8} {r : Bytes} (h : data.bytes.drop pos = b :: r)
    (hb : b = 'l'.toUInt8 ∨ b = 'd'.toUInt8) (fuel : ℕ) :
    skip_value data (fuel + 1) pos = skip_items data fuel (pos + 1) := by
  have hne : b ≠ 'i'.toUInt8 ∧ ¬ is_digit b = true := by
    rcases hb with rfl | rfl <;> decide
  rw [skip_value, Text.at_of_drop h, lift_ok_bind, if_neg hne.1, if_neg hne.2, if_pos hb,
    size_t_succ (Text.lt_size_of_drop h)]

/-- The end of a list. -/
theorem skip_items_end {r : Bytes} (h : data.bytes.drop pos = 'e'.toUInt8 :: r) (fuel : ℕ) :
    skip_items data (fuel + 1) pos = pure (pos + 1) := by
  rw [skip_items, Text.at_of_drop h, lift_ok_bind, if_pos rfl,
    size_t_succ (Text.lt_size_of_drop h)]

/-- A round of the loop. -/
theorem skip_items_next {b : UInt8} {r : Bytes} (h : data.bytes.drop pos = b :: r)
    (hb : b ≠ 'e'.toUInt8) (fuel : ℕ) :
    skip_items data (fuel + 1) pos = (do
      let pos ← skip_value data fuel pos
      skip_items data fuel pos) := by
  rw [skip_items, Text.at_of_drop h, lift_ok_bind, if_neg hb]

/-- The first byte of a value. -/
theorem encode_head (v : Value) : ∃ b r, v.encode = b :: r ∧ b ≠ 'e'.toUInt8 := by
  cases v with
  | int n => exact ⟨_, _, rfl, by decide⟩
  | str s =>
    obtain ⟨b, r, heq, hb⟩ := encode_str_head s
    refine ⟨b, r, heq, ?_⟩
    rintro rfl
    revert hb
    decide
  | list vs => exact ⟨_, _, rfl, by decide⟩
  | dict es => exact ⟨_, _, rfl, by decide⟩

theorem encode_length_pos (v : Value) : 0 < v.encode.length := by
  obtain ⟨b, r, heq, -⟩ := encode_head v
  rw [heq]
  exact Nat.succ_pos _

/-- A string is skipped. -/
theorem skip_string_encode {s : Bytes} (hs : s.length < 2 ^ 31)
    (h : data.bytes.drop pos = encode_str s ++ rest) (fuel : ℕ) :
    skip_value data (fuel + 1) pos = pure (pos + (encode_str s).length) := by
  obtain ⟨b, r, heq, hb⟩ := encode_str_head s
  have h' := h
  rw [heq, List.cons_append] at h'
  rw [skip_value_string h' hb, read_string_encode hs h, lift_ok_bind]

mutual

/-- **Skipping a value**: whatever it is and whatever follows, `skip_value`
    goes to its end. -/
theorem skip_value_encode (v : Value) (hv : v.StringsBelow (2 ^ 31)) {fuel pos : ℕ}
    {rest : Bytes} (h : data.bytes.drop pos = v.encode ++ rest) (hfuel : v.encode.length ≤ fuel) :
    skip_value data fuel pos = pure (pos + v.encode.length) := by
  have hpos := encode_length_pos v
  obtain ⟨fuel, rfl⟩ : ∃ n, fuel = n + 1 := ⟨fuel - 1, by omega⟩
  -- by the kind of the value; a list and a dictionary go through the loop
  cases v with
  | int n => rw [skip_value_integer h, skip_integer_encode h, lift_ok]
  | str s => exact skip_string_encode hv h fuel
  | list vs =>
    simp only [Value.encode, List.length_append, List.length_cons, List.length_nil] at hfuel ⊢
    simp only [Value.encode, List.cons_append, List.append_assoc, List.nil_append] at h
    rw [skip_value_nested h (.inl rfl),
      skip_items_encode vs hv (Text.drop_succ h) (by omega)]
    congr 1
    omega
  | dict es =>
    simp only [Value.encode, List.length_append, List.length_cons, List.length_nil] at hfuel ⊢
    simp only [Value.encode, List.cons_append, List.append_assoc, List.nil_append] at h
    rw [skip_value_nested h (.inr rfl),
      skip_entries_encode es hv (Text.drop_succ h) (by omega)]
    congr 1
    omega

/-- The loop goes through the values of a list. -/
theorem skip_items_encode (vs : List Value) (hvs : items_below (2 ^ 31) vs) {fuel pos : ℕ}
    {rest : Bytes} (h : data.bytes.drop pos = encode_items vs ++ 'e'.toUInt8 :: rest)
    (hfuel : (encode_items vs).length + 1 ≤ fuel) :
    skip_items data fuel pos = pure (pos + (encode_items vs).length + 1) := by
  obtain ⟨fuel, rfl⟩ : ∃ n, fuel = n + 1 := ⟨fuel - 1, by omega⟩
  cases vs with
  | nil => exact skip_items_end h fuel
  | cons v vs =>
    have hpos := encode_length_pos v
    obtain ⟨b, r, heq, hb⟩ := encode_head v
    simp only [encode_items, List.length_append, List.append_assoc] at h hfuel ⊢
    have hhead := h
    rw [heq, List.cons_append] at hhead
    -- one round: the value, and the loop at what comes after it
    rw [skip_items_next hhead hb, skip_value_encode v hvs.1 h (by omega), pure_bind,
      skip_items_encode vs hvs.2 (Text.drop_after h) (by omega)]
    congr 1
    omega

/-- It goes through the keys and values of a dictionary in the same way. -/
theorem skip_entries_encode (es : List (Bytes × Value)) (hes : entries_below (2 ^ 31) es)
    {fuel pos : ℕ} {rest : Bytes}
    (h : data.bytes.drop pos = encode_entries es ++ 'e'.toUInt8 :: rest)
    (hfuel : (encode_entries es).length + 1 ≤ fuel) :
    skip_items data fuel pos = pure (pos + (encode_entries es).length + 1) := by
  obtain ⟨fuel, rfl⟩ : ∃ n, fuel = n + 1 := ⟨fuel - 1, by omega⟩
  match es, hes with
  | [], _ => exact skip_items_end h fuel
  | (k, v) :: es, ⟨hk, hv, hes⟩ =>
    have hpos := encode_length_pos v
    have hlen := encode_str_length k
    obtain ⟨b, r, heq, hb⟩ := encode_head (.str k)
    obtain ⟨b', r', heq', hb'⟩ := encode_head v
    simp only [encode_entries, List.length_append, List.append_assoc] at h hfuel ⊢
    have hvalue := Text.drop_after h
    have hkhead := h
    rw [show encode_str k = b :: r from heq, List.cons_append] at hkhead
    have hvhead := hvalue
    rw [heq', List.cons_append] at hvhead
    -- a round for the key, and one for the value
    obtain ⟨fuel, rfl⟩ : ∃ n, fuel = n + 1 := ⟨fuel - 1, by omega⟩
    rw [skip_items_next hkhead hb, skip_string_encode hk h, pure_bind,
      skip_items_next hvhead hb', skip_value_encode v hv hvalue (by omega), pure_bind,
      skip_entries_encode es hes (Text.drop_after hvalue) (by omega)]
    congr 1
    omega

end

end BitTorrentLite
