import BitTorrentLite.Parser.Soundness
import BitTorrentLite.Parser.Termination

/-! # What the Parser Accepts

    Where a parse returns, its trail is strict exactly where the data begins
    with a bencoded dictionary whose values are the fields returned.

    One direction is that strict trails read bencode. For the other one, a
    spelling is gone through from its end, by induction on the grammar: the
    trail over a part is strict where the trail behind it is.
-/

open Machine Region Bencode Relation

namespace BitTorrentLite

open Parse Walk Trail

variable {data : Text} {pos : ℕ} {rest : List Task} {ms : List Mark}

/-! ## Bencode Is Read Strictly -/

/-- Where a string is spelled, a step that reads one goes to its end. -/
theorem string_next {α : Type} {s bs r : Bytes} {f : Bytes × ℕ → α} {a : α} (hs : SpellsStr s bs)
    (hdrop : data.bytes.drop pos = bs ++ r) (h : (read_string data pos).map f = .ok a) :
    a = f (s, pos + bs.length) := by
  rw [read_string_spelled hs hdrop] at h
  split_ifs at h
  · exact (Except.ok.inj h).symm
  · cases h

theorem integer_next {α : Type} {n : ℤ} {ds r : Bytes} {f : ℤ × ℕ → α} {a : α}
    (hn : SpellsInt n ds) (hdrop : data.bytes.drop pos = 'i'.toUInt8 :: (ds ++ 'e'.toUInt8 :: r))
    (h : (read_integer data pos).map f = .ok a) : a = f (n, pos + (ds.length + 2)) := by
  rw [read_integer_spelled hn hdrop] at h
  split_ifs at h
  · exact (Except.ok.inj h).symm
  · cases h

/-- The only step there is. -/
theorem next_eq {t u v : Trail} (h : t.step data = some (.ok u)) (hv : t.step data = some (.ok v)) :
    u = v := Except.ok.inj (Option.some.inj (h.symm.trans hv))

theorem begins_of_kind {b : UInt8} {k : Kind} (h : kind_of b = some k) : Begins b := by
  unfold kind_of at h
  split_ifs at h with hi hdigit hl hd
  · exact .inl hi
  · exact .inr (.inl hdigit)
  · exact .inr (.inr (.inl hl))
  · exact .inr (.inr (.inr hd))

/-- A string that is spelled is skipped strictly, if what comes after it is. -/
theorem string_strict {s bs r : Bytes} (hs : SpellsStr s bs) (hdrop : data.bytes.drop pos = bs ++ r)
    (hw : AllStrict data ⟨⟨pos + bs.length, rest⟩, ms⟩) :
    AllStrict data ⟨⟨pos, .value :: rest⟩, ms⟩ := by
  obtain ⟨b, bs', rfl, hb⟩ := hs.head
  have hget := Text.get_of_drop hdrop
  have hne : b ≠ 'i'.toUInt8 := by
    rintro rfl
    revert hb
    decide
  refine .of_step ⟨_, hget, .inr (.inl ⟨hb, plainString_of_spelled hs hdrop⟩)⟩ fun t' hstep => ?_
  rw [value_step rest ms hget, if_neg hne, if_pos hb] at hstep
  rw [string_next hs hdrop (Option.some.inj hstep)]
  exact hw

/-- The loop of `skip_value` at its end. -/
theorem end_strict {m : Mark} {r : Bytes} (hdrop : data.bytes.drop pos = 'e'.toUInt8 :: r)
    (hm : m.Allows 'e'.toUInt8) (hw : AllStrict data ⟨⟨pos + 1, rest⟩, ms⟩) :
    AllStrict data ⟨⟨pos, .items :: rest⟩, m :: ms⟩ := by
  have hget := Text.get_of_drop hdrop
  refine .of_step ⟨_, hget, m, rfl, hm⟩ fun t' hstep => ?_
  obtain rfl := next_eq (items_step rest ms hget) hstep
  exact hw

/-- A round of it, before a value. -/
theorem round_strict {m : Mark} {v : Value} {bs r : Bytes} (hv : Spells v bs)
    (hdrop : data.bytes.drop pos = bs ++ r) (hm : m = .key → ∃ s, v = .str s)
    (hw : AllStrict data ⟨⟨pos, .value :: .items :: rest⟩, m.next :: ms⟩) :
    AllStrict data ⟨⟨pos, .items :: rest⟩, m :: ms⟩ := by
  obtain ⟨b, bs', rfl, hkind⟩ := hv.head
  have hget := Text.get_of_drop hdrop
  have hallows : m.Allows b := by
    cases m with
    | item => exact .inr (begins_of_kind hkind)
    | value => exact begins_of_kind hkind
    | key =>
      -- a string starts with a digit
      obtain ⟨s, rfl⟩ := hm rfl
      cases hv with
      | str hs =>
        obtain ⟨b', r', heq, hb⟩ := hs.head
        obtain ⟨rfl, -⟩ := List.cons.inj heq
        exact .inr hb
  refine .of_step ⟨b, hget, m, rfl, hallows⟩ fun t' hstep => ?_
  rw [items_step rest ms hget, if_neg hv.head_ne_end] at hstep
  obtain rfl := Except.ok.inj (Option.some.inj hstep)
  exact hw

mutual

/-- **Skipping**: a value that is spelled is skipped strictly, if what comes
    after it is. -/
theorem value_strict {v : Value} {bs r : Bytes} {pos : ℕ} {rest : List Task} {ms : List Mark}
    (hv : Spells v bs) (hdrop : data.bytes.drop pos = bs ++ r)
    (hw : AllStrict data ⟨⟨pos + bs.length, rest⟩, ms⟩) :
    AllStrict data ⟨⟨pos, .value :: rest⟩, ms⟩ := by
  cases hv with
  | int hn =>
    simp only [List.cons_append, List.append_assoc, List.nil_append] at hdrop
    have hget := Text.get_of_drop hdrop
    refine .of_step ⟨_, hget, .inl ⟨rfl, (plain_of_spelled_int hn hdrop).2⟩⟩ fun t' hstep => ?_
    rw [value_step rest ms hget, if_pos rfl, skip_integer_spelled hn hdrop] at hstep
    obtain rfl := Except.ok.inj (Option.some.inj hstep)
    simpa using hw
  | str hs => exact string_strict hs hdrop hw
  | list hvs =>
    simp only [List.cons_append, List.append_assoc, List.nil_append] at hdrop
    have hget := Text.get_of_drop hdrop
    refine .of_step ⟨_, hget, .inr (.inr (.inl rfl))⟩ fun t' hstep => ?_
    obtain rfl := next_eq (value_step rest ms hget) hstep
    refine items_strict hvs (Text.drop_succ hdrop) ?_
    simpa [Nat.add_assoc, Nat.add_comm, Nat.add_left_comm] using hw
  | dict hes =>
    simp only [List.cons_append, List.append_assoc, List.nil_append] at hdrop
    have hget := Text.get_of_drop hdrop
    refine .of_step ⟨_, hget, .inr (.inr (.inr rfl))⟩ fun t' hstep => ?_
    obtain rfl := next_eq (value_step rest ms hget) hstep
    refine entries_strict hes (Text.drop_succ hdrop) ?_
    simpa [Nat.add_assoc, Nat.add_comm, Nat.add_left_comm] using hw

/-- So are the values of a list up to its end. -/
theorem items_strict {vs : List Value} {bs r : Bytes} {pos : ℕ} {rest : List Task}
    {ms : List Mark} (hvs : SpellsItems vs bs) (hdrop : data.bytes.drop pos = bs ++ 'e'.toUInt8 :: r)
    (hw : AllStrict data ⟨⟨pos + bs.length + 1, rest⟩, ms⟩) :
    AllStrict data ⟨⟨pos, .items :: rest⟩, .item :: ms⟩ := by
  cases hvs with
  | nil => exact end_strict hdrop (.inl rfl) hw
  | cons hv hvs =>
    rw [List.append_assoc] at hdrop
    rw [List.length_append, ← Nat.add_assoc] at hw
    exact round_strict hv hdrop nofun
      (value_strict hv hdrop (items_strict hvs (Text.drop_after hdrop) hw))

/-- And the keys and values of a dictionary. -/
theorem entries_strict {es : List (Bytes × Value)} {bs r : Bytes} {pos : ℕ} {rest : List Task}
    {ms : List Mark} (hes : SpellsEntries es bs)
    (hdrop : data.bytes.drop pos = bs ++ 'e'.toUInt8 :: r)
    (hw : AllStrict data ⟨⟨pos + bs.length + 1, rest⟩, ms⟩) :
    AllStrict data ⟨⟨pos, .items :: rest⟩, .key :: ms⟩ := by
  cases hes with
  | nil => exact end_strict hdrop (.inl rfl) hw
  | cons hk hv hes =>
    rw [List.append_assoc, List.append_assoc] at hdrop
    rw [List.length_append, List.length_append, ← Nat.add_assoc, ← Nat.add_assoc] at hw
    have hvalue := Text.drop_after hdrop
    refine round_strict (.str hk) hdrop (fun _ => ⟨_, rfl⟩) (string_strict hk hdrop ?_)
    exact round_strict hv hvalue nofun
      (value_strict hv hvalue (entries_strict hes (Text.drop_after hvalue) hw))

end

/-! ### The Loops over Keys -/

section loop

variable {d : Dict} {es : List (Bytes × Value)} {bs r : Bytes}

/-- A value other than an info dictionary. -/
theorem field_strict {k : Bytes} {v : Value} (hv : Spells v bs) (hdrop : data.bytes.drop pos = bs ++ r)
    (htakes : (d.reading k).Takes v) (hinfo : d.reading k ≠ .info) (hpos : pos ≤ data.size)
    (hw : AllStrict data ⟨⟨pos + bs.length, rest⟩, ms⟩) :
    AllStrict data ⟨⟨pos, .field d k :: rest⟩, ms⟩ := by
  have hstep : step data ⟨⟨pos, .field d k :: rest⟩, ms⟩ = _ := field_step rest ms
  cases hkey : d.reading k with
  | info => exact absurd hkey hinfo
  | string =>
    rw [hkey] at htakes hstep
    obtain ⟨s, rfl⟩ := htakes
    cases hv with
    | str hs =>
      refine .of_step ⟨hpos, ?_⟩ fun t' ht => ?_
      · rw [hkey]
        exact plainString_of_spelled hs hdrop
      · rw [string_next hs hdrop (Option.some.inj (hstep.symm.trans ht))]
        exact hw
  | integer =>
    rw [hkey] at htakes hstep
    obtain ⟨n, rfl⟩ := htakes
    cases hv with
    | int hn =>
      simp only [List.cons_append, List.append_assoc, List.nil_append] at hdrop
      refine .of_step ⟨hpos, ?_⟩ fun t' ht => ?_
      · rw [hkey]
        exact (plain_of_spelled_int hn hdrop).1
      · rw [integer_next hn hdrop (Option.some.inj (hstep.symm.trans ht))]
        simpa using hw
  | skip =>
    rw [hkey] at hstep
    refine .of_step ⟨hpos, ?_⟩ fun t' ht => ?_
    · rw [hkey]
      trivial
    · obtain rfl := next_eq hstep ht
      exact value_strict hv hdrop hw

/-- **A loop over keys** goes through the entries of a dictionary strictly, if
    the handling of their values does. -/
theorem keys_strict (hes : SpellsEntries es bs)
    (hfield : ∀ k v, (k, v) ∈ es → ∀ pos b r rest ms, Spells v b →
      data.bytes.drop pos = b ++ r → pos ≤ data.size →
        AllStrict data ⟨⟨pos + b.length, rest⟩, ms⟩ →
          AllStrict data ⟨⟨pos, .field d k :: rest⟩, ms⟩)
    (hdrop : data.bytes.drop pos = bs ++ 'e'.toUInt8 :: r)
    (hw : AllStrict data ⟨⟨pos + bs.length, rest⟩, ms⟩) :
    AllStrict data ⟨⟨pos, .keys d :: rest⟩, ms⟩ := by
  induction es generalizing pos bs with
  | nil =>
    cases hes
    have hget := Text.get_of_drop hdrop
    refine .of_step ⟨_, hget, fun hne => absurd rfl hne⟩ fun t' hstep => ?_
    obtain rfl := next_eq (keys_step_end rest ms hget) hstep
    exact hw
  | cons e es ih =>
    cases hes with
    | cons hk hv hes =>
      rw [List.append_assoc, List.append_assoc] at hdrop
      rw [List.length_append, List.length_append, ← Nat.add_assoc, ← Nat.add_assoc] at hw
      have hvalue := Text.drop_after hdrop
      obtain ⟨b, r', rfl, -⟩ := hk.head
      have hget := Text.get_of_drop hdrop
      have hlt := (at_pos_of_getElem? hget).2
      have hne : data.bytes[pos]? ≠ some 'e'.toUInt8 := by
        rw [hget]
        exact fun heq => (Spells.str hk).head_ne_end (Option.some.inj heq)
      refine .of_step ⟨_, hget, fun _ => plainString_of_spelled hk hdrop⟩ fun t' hstep => ?_
      rw [keys_step rest ms ⟨hlt, hne⟩] at hstep
      rw [string_next hk hdrop (Option.some.inj hstep)]
      exact hfield _ _ (List.mem_cons_self ..) _ _ _ _ _ hv hvalue ((Text.Spans.of_drop hdrop).le_size hlt.le)
        (ih hes (fun k v hkv => hfield k v (List.mem_cons_of_mem _ hkv)) (Text.drop_after hvalue) hw)

end loop

/-- The info dictionary goes through strictly, from its `d` to its `e`. -/
theorem info_strict {es : List (Bytes × Value)} {bs r : Bytes} (hes : Spells (.dict es) bs)
    (hsuits : Dict.info.Suits es) (hdrop : data.bytes.drop pos = bs ++ r) (hpos : pos ≤ data.size)
    (hw : AllStrict data ⟨⟨pos + bs.length, rest⟩, ms⟩) :
    AllStrict data ⟨⟨pos, .field .torrent (ascii "info") :: rest⟩, ms⟩ := by
  cases hes with
  | dict hes =>
    rename_i inner
    simp only [List.cons_append, List.append_assoc, List.nil_append] at hdrop
    have hget := Text.get_of_drop hdrop
    have hlt := (at_pos_of_getElem? hget).2
    have hin := Text.drop_succ hdrop
    have hend := Text.lt_size_of_drop (Text.drop_after hin)
    refine .of_step ⟨hpos, hget⟩ fun t' hstep => ?_
    obtain rfl := next_eq (field_step rest ms) hstep
    rw [size_t_succ hlt]
    refine keys_strict hes (fun k v hkv pos b r rest ms hv hdrop hpos hw => ?_) hin ?_
    · exact field_strict hv hdrop (hsuits _ hkv) (fun hk => no_info_in_info ⟨k, hk⟩) hpos hw
    · -- the byte after the entries is passed over
      refine .of_step trivial fun t' hclose => ?_
      obtain rfl := next_eq (u := ⟨⟨size_t ((pos + 1 + inner.length : ℕ) + 1), rest⟩, ms⟩) rfl hclose
      rw [size_t_succ hend]
      simpa [Nat.add_assoc, Nat.add_comm, Nat.add_left_comm] using hw

/-- The entries of the info dictionary are among those of all of them. -/
theorem info_suits_of_mem {top es : List (Bytes × Value)} (h : Dict.info.Suits (info_entries top))
    (hmem : (ascii "info", .dict es) ∈ top) : Dict.info.Suits es := by
  intro e he
  refine h e (List.mem_flatten.mpr ⟨es, ?_, he⟩)
  exact List.mem_filterMap.mpr ⟨_, hmem, if_pos rfl⟩

/-- **Strictness is needed**: data that begins with a dictionary is read
    strictly, if the values of its known keys are of their types. -/
theorem strictlyRead_of_begins {top : List (Bytes × Value)} {bs r : Bytes}
    (hs : Spells (.dict top) bs) (hdata : data.bytes = bs ++ r) (hsuits : Dict.torrent.Suits top)
    (hinfo : Dict.info.Suits (info_entries top)) : StrictlyRead data := by
  have hdrop : data.bytes.drop 0 = bs ++ r := hdata
  cases hs with
  | dict hes =>
    simp only [List.cons_append, List.append_assoc, List.nil_append] at hdrop
    refine ⟨Text.get_of_drop hdrop, ?_⟩
    refine keys_strict hes (fun k v hkv pos b r rest ms hv hdrop hpos hw => ?_)
      (Text.drop_succ hdrop) (.of_step trivial nofun)
    have htakes := hsuits _ hkv
    by_cases hk : Dict.reading .torrent k = .info
    · obtain rfl : k = ascii "info" := by
        simp only [Dict.reading] at hk
        split_ifs at hk with _ hkey
        exact hkey
      rw [hk] at htakes
      obtain ⟨es, rfl⟩ := htakes
      exact info_strict hv (info_suits_of_mem hinfo hkv) hdrop hpos hw
    · exact field_strict hv hdrop htakes hk hpos hw

/-! ## Acceptance -/

/-- A spelled dictionary does not begin with another one. -/
theorem not_begins_of_proper {top : List (Bytes × Value)} {whole : Bytes} {t : Torrent}
    (hs : Spells (.dict top) whole) (hcut : data.bytes <+: whole) (hne : data.bytes ≠ whole) :
    ¬ BeginsWith data t := by
  rintro ⟨top', bs, r, hs', hdata, -⟩
  obtain ⟨r', hwhole⟩ := hcut
  have hnil := hs'.not_proper hs (r := r ++ r') (by rw [← List.append_assoc, ← hdata, hwhole])
  obtain ⟨-, rfl⟩ := List.append_eq_nil_iff.mp hnil
  exact hne ((List.append_nil _).symm.trans hwhole)

/-- Strict data is not rejected by looking beyond its end, or by never ending. -/
theorem halts_of_strictlyRead (h : StrictlyRead data) : Halts (parse_torrent data) :=
  parse_torrent_halts h.2.forward

/-- **Acceptance**: data that is accepted begins with a bencoded dictionary,
    whose values are the fields returned, exactly if it is read strictly; and a
    dictionary that is cut short is rejected, if what is left is read strictly. -/
theorem accepts_bencode (data : Text) :
    (∀ t, Yields (parse_torrent data) (.ok t) → (BeginsWith data t ↔ StrictlyRead data)) ∧
      ∀ top whole, Spells (.dict top) whole → data.bytes <+: whole → data.bytes ≠ whole →
        (StrictlyRead data → ∃ e, Yields (parse_torrent data) (.error e) ∧ e ≠ .out_of_bounds) ∧
          ∀ t, Yields (parse_torrent data) (.ok t) → ¬ StrictlyRead data := by
  have hsound : ∀ t, Yields (parse_torrent data) (.ok t) → StrictlyRead data → BeginsWith data t :=
    fun t => begins_of_strictlyRead
  refine ⟨fun t ht => ⟨?_, hsound t ht⟩, fun top whole hs hcut hne => ⟨fun hstrict => ?_, ?_⟩⟩
  · rintro ⟨top, bs, r, hs, hdata, hread⟩
    exact strictlyRead_of_begins hs hdata hread.suits hread.info_suits
  · obtain ⟨r, hr, hbounds⟩ := halts_of_strictlyRead hstrict
    cases r with
    | ok t => exact absurd (hsound t hr hstrict) (not_begins_of_proper hs hcut hne)
    | error e => exact ⟨e, hr, fun heq => hbounds (congrArg _ heq)⟩
  · exact fun t ht hstrict => not_begins_of_proper hs hcut hne (hsound t ht hstrict)

/-! ## Runs of the Guard -/

instance (data : Text) (pos : ℕ) : Decidable (PlainString data pos) :=
  inferInstanceAs (Decidable (∀ colon ∈ data.find ':'.toUInt8 pos,
    ∀ len ∈ (stoi (data.substr pos (colon - pos))).toOption, _ ∧ (_ : ℤ) ≤ _))

instance (data : Text) (pos : ℕ) : Decidable (PlainInteger data pos) :=
  inferInstanceAs (Decidable (∀ stop ∈ data.find 'e'.toUInt8 (pos + 1),
    ∀ _n ∈ (stoll (data.substr (pos + 1) (stop - (pos + 1)))).toOption, _ = _ ∧ _ = true))

instance (data : Text) (pos : ℕ) : Decidable (PlainSkip data pos) :=
  inferInstanceAs (Decidable (∃ stop ∈ data.find 'e'.toUInt8 (pos + 1), _ = true))

instance (data : Text) (pos : ℕ) : ∀ r : Reading, Decidable (r.Plain data pos)
  | .string => inferInstanceAs (Decidable (PlainString data pos))
  | .integer => inferInstanceAs (Decidable (PlainInteger data pos))
  | .info => inferInstanceAs (Decidable (_ = _))
  | .skip => inferInstanceAs (Decidable True)

instance : ∀ (m : Mark) (c : UInt8), Decidable (m.Allows c)
  | .item, c => inferInstanceAs (Decidable (_ ∨ Begins c))
  | .key, _ => inferInstanceAs (Decidable (_ ∨ _))
  | .value, c => inferInstanceAs (Decidable (Begins c))

namespace Trail

instance (data : Text) : ∀ t : Trail, Decidable (t.Strict data)
  | ⟨⟨_, []⟩, _⟩ => inferInstanceAs (Decidable True)
  | ⟨⟨pos, .keys _ :: _⟩, _⟩ =>
    inferInstanceAs (Decidable (∃ c ∈ data.bytes[pos]?, c ≠ 'e'.toUInt8 → PlainString data pos))
  | ⟨⟨pos, .field d key :: _⟩, _⟩ =>
    inferInstanceAs (Decidable (pos ≤ data.size ∧ (d.reading key).Plain data pos))
  | ⟨⟨_, .close :: _⟩, _⟩ => inferInstanceAs (Decidable True)
  | ⟨⟨pos, .value :: _⟩, _⟩ =>
    inferInstanceAs (Decidable (∃ c ∈ data.bytes[pos]?,
      (c = 'i'.toUInt8 ∧ PlainSkip data pos) ∨ (is_digit c = true ∧ PlainString data pos) ∨
        c = 'l'.toUInt8 ∨ c = 'd'.toUInt8))
  | ⟨⟨pos, .items :: _⟩, ms⟩ =>
    inferInstanceAs (Decidable (∃ c ∈ data.bytes[pos]?, ∃ m ∈ ms.head?, m.Allows c))

/-- The guard, computed along a trail that ends within `n` steps. -/
def strict (data : Text) : ℕ → Trail → Bool
  | 0, _ => false
  | n + 1, t => decide (t.Strict data) && match t.step data with
    | some (.ok t') => strict data n t'
    | _ => true

theorem allStrict_of_computed {n : ℕ} {t : Trail} (h : strict data n t = true) :
    t.AllStrict data := by
  induction n generalizing t with
  | zero => cases h
  | succ n ih =>
    rw [strict, Bool.and_eq_true, decide_eq_true_eq] at h
    refine .of_step h.1 fun t' hstep => ?_
    rw [hstep] at h
    exact ih h.2

end Trail

/-- A torrent with a dictionary that is skipped. -/
def skipped_dict : Text := ⟨ascii "d4:infod6:lengthi5ee1:xd1:ai-3eee", by decide⟩

/-- The same, cut short inside a number. -/
def cut_in_number : Text := ⟨ascii "d4:infod6:lengthi", by decide⟩

/-- The entries of `skipped_dict`. -/
def skipped_dict_entries : List (Bytes × Value) :=
  [(ascii "info", .dict [(ascii "length", .int 5)]),
    (ascii "x", .dict [(ascii "a", .int (-3))])]

theorem skipped_dict_accepted :
    (∃ t, Yields (parse_torrent skipped_dict) (.ok t) ∧ BeginsWith skipped_dict t) ∧
      ∃ e, Yields (parse_torrent cut_in_number) (.error e) ∧ e ≠ .out_of_bounds := by
  have hreturns : (parse_torrent skipped_dict 40).run
      = some (.ok { length := 5, info_start := 7, info_end := 19 }) := by decide +kernel
  have hstrict : StrictlyRead skipped_dict :=
    ⟨by decide, Trail.allStrict_of_computed (n := 40) (by decide +kernel)⟩
  have hstrict' : StrictlyRead cut_in_number :=
    ⟨by decide, Trail.allStrict_of_computed (n := 40) (by decide +kernel)⟩
  have hs := spells_encode (.dict skipped_dict_entries)
  exact ⟨⟨_, ⟨40, hreturns⟩, ((accepts_bencode skipped_dict).1 _ ⟨40, hreturns⟩).mpr hstrict⟩,
    ((accepts_bencode cut_in_number).2 _ _ hs (by decide +kernel) (by decide +kernel)).1 hstrict'⟩

/-- The file ends after the only field of the info dictionary. -/
def cut_after_length : Text := ⟨ascii "d4:infod6:lengthi5e", by decide⟩

/-- A file that is cut short there is taken for a torrent. -/
theorem truncated_torrent_accepted :
    (¬ ∀ data t, Yields (parse_torrent data) (.ok t) → BeginsWith data t) ∧
      ¬ ∀ (data : Text) top whole, Spells (.dict top) whole → data.bytes <+: whole →
        data.bytes ≠ whole → ∃ e, Yields (parse_torrent data) (.error e) := by
  have hreturns : Yields (parse_torrent cut_after_length)
      (.ok { length := 5, info_start := 7, info_end := 19 }) := ⟨40, by decide +kernel⟩
  have hs := spells_encode (.dict [(ascii "info", .dict [(ascii "length", .int 5)])])
  have hcut : cut_after_length.bytes
      <+: (Value.dict [(ascii "info", .dict [(ascii "length", .int 5)])]).encode := by
    decide +kernel
  have hne : cut_after_length.bytes
      ≠ (Value.dict [(ascii "info", .dict [(ascii "length", .int 5)])]).encode := by
    decide +kernel
  refine ⟨fun h => not_begins_of_proper hs hcut hne (h _ _ hreturns), fun h => ?_⟩
  obtain ⟨e, he⟩ := h _ _ _ hs hcut hne
  cases he.unique parse_torrent_monotone hreturns

end BitTorrentLite
