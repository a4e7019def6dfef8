import BitTorrentLite.Parser.Contents
import BitTorrentLite.Parser.Strict

/-! # Strict Trails Read Bencode

    Every function of the parser that returns from a strict trail has gone over
    the spelling of what it stands for: `skip_value` over a value, its loop over
    the rest of a list or a dictionary, a loop over keys over the entries it
    makes its result of. The inductions are on the fuel, as for the walk.
-/

open Machine Region Bencode Relation

namespace BitTorrentLite

open Parse Walk Trail

variable {data : Text} {pos p fuel : ℕ} {rest : List Task} {ms : List Mark}

/-! ## Skipping -/

/-- What the loop of `skip_value` has gone over, up to the `e`. -/
def Mark.Completes : Mark → Bytes → Prop
  | .item, bs => ∃ vs, SpellsItems vs bs
  | .key, bs => ∃ es, SpellsEntries es bs
  | .value, bs => ∃ v es a b, bs = a ++ b ∧ Spells v a ∧ SpellsEntries es b

/-- One more value before what is left of a list or a dictionary. -/
theorem Mark.Completes.cons {m : Mark} {v : Value} {a b : Bytes} (hv : Spells v a)
    (hkey : m = .key → ∃ s, v = .str s ∧ SpellsStr s a) (hb : m.next.Completes b) :
    m.Completes (a ++ b) := by
  cases m with
  | item =>
    obtain ⟨vs, hvs⟩ := hb
    exact ⟨_, .cons hv hvs⟩
  | key =>
    obtain ⟨s, rfl, hs⟩ := hkey rfl
    obtain ⟨w, es, b, c, rfl, hw, hes⟩ := hb
    rw [← List.append_assoc]
    exact ⟨_, .cons hs hw hes⟩
  | value =>
    obtain ⟨es, hes⟩ := hb
    exact ⟨v, es, a, b, rfl, hv, hes⟩

/-- A value `skip_value` returns from, when its loop goes over what is left of
    a list or a dictionary. -/
theorem skip_value_spelled (hitems : ∀ pos p m ms, (skip_items data fuel pos).run = some (.ok p) →
      AllStrict data ⟨⟨pos, .items :: rest⟩, m :: ms⟩ →
        ∃ bs, m.Completes bs ∧ data.Spans pos p (bs ++ ['e'.toUInt8]) ∧
          AllStrict data ⟨⟨p, rest⟩, ms⟩)
    (h : (skip_value data (fuel + 1) pos).run = some (.ok p))
    (hw : AllStrict data ⟨⟨pos, .value :: rest⟩, ms⟩) :
    ∃ v bs, Spells v bs ∧ data.Spans pos p bs ∧ AllStrict data ⟨⟨p, rest⟩, ms⟩ := by
  obtain ⟨c, hc, hplain⟩ := hw.now
  obtain ⟨hat, hlt⟩ := at_pos_of_getElem? hc
  have hstep := value_step rest ms hc
  have hfirst := Text.Spans.of_drop (l := [c]) (Text.drop_of_get hc)
  rw [skip_value, hat, lift_ok_bind, size_t_succ hlt] at h
  rcases hplain with ⟨rfl, hskip⟩ | ⟨hdigit, hstr⟩ | rfl | rfl
  · -- an integer
    have hread : skip_integer data pos = .ok p := Option.some.inj h
    obtain ⟨n, bs, hn, hspan⟩ := hskip.spelled hc hread
    rw [if_pos rfl, hread] at hstep
    exact ⟨_, bs, hn, hspan, hw.step hstep⟩
  · -- a string
    have hne : c ≠ 'i'.toUInt8 := by
      rintro rfl
      revert hdigit
      decide
    rw [if_neg hne, if_pos hdigit] at h hstep
    rcases lift_bind_run h with ⟨e, -, herr⟩ | ⟨⟨s, p'⟩, hread, h⟩
    · cases herr
    obtain rfl : p' = p := Except.ok.inj (Option.some.inj h)
    obtain ⟨bs, hs, hspan⟩ := hstr.spelled hread
    rw [hread] at hstep
    exact ⟨_, bs, .str hs, hspan, hw.step hstep⟩
  · -- a list
    obtain ⟨bs, ⟨vs, hvs⟩, hspan, hnext⟩ := hitems (pos + 1) p .item ms h (hw.step hstep)
    exact ⟨_, _, .list hvs, hfirst.trans hspan, hnext⟩
  · -- a dictionary
    obtain ⟨bs, ⟨es, hes⟩, hspan, hnext⟩ := hitems (pos + 1) p .key ms h (hw.step hstep)
    exact ⟨_, _, .dict hes, hfirst.trans hspan, hnext⟩

/-- **Skipping**: what `skip_value` has gone over is a value, and what its loop
    has gone over is the rest of a list or a dictionary. -/
theorem skip_spelled (fuel : ℕ) :
    (∀ pos p rest ms, (skip_value data fuel pos).run = some (.ok p) →
      AllStrict data ⟨⟨pos, .value :: rest⟩, ms⟩ →
        ∃ v bs, Spells v bs ∧ data.Spans pos p bs ∧ AllStrict data ⟨⟨p, rest⟩, ms⟩) ∧
      ∀ pos p rest m ms, (skip_items data fuel pos).run = some (.ok p) →
        AllStrict data ⟨⟨pos, .items :: rest⟩, m :: ms⟩ →
          ∃ bs, m.Completes bs ∧ data.Spans pos p (bs ++ ['e'.toUInt8]) ∧
            AllStrict data ⟨⟨p, rest⟩, ms⟩ := by
  induction fuel with
  | zero =>
    refine ⟨fun pos p rest ms h => ?_, fun pos p rest m ms h => ?_⟩
    · rw [skip_value] at h
      cases h
    · rw [skip_items] at h
      cases h
  | succ fuel ih =>
    obtain ⟨hvalue, hitems⟩ := ih
    refine ⟨fun pos p rest ms h hw => ?_, fun pos p rest m ms h hw => ?_⟩
    · exact skip_value_spelled (fun pos p => hitems pos p rest) h hw
    · obtain ⟨c, hc, m', hm', hallows⟩ := hw.now
      obtain rfl : m = m' := Option.some.inj hm'
      obtain ⟨hat, hlt⟩ := at_pos_of_getElem? hc
      have hstep := items_step rest ms (m := m) hc
      have hfirst := Text.Spans.of_drop (l := [c]) (Text.drop_of_get hc)
      rw [skip_items, hat, lift_ok_bind, size_t_succ hlt] at h
      split_ifs at h hstep with he
      · -- the end, which is not between a key and its value
        subst he
        obtain rfl : pos + 1 = p := Except.ok.inj (Option.some.inj h)
        refine ⟨[], ?_, hfirst, hw.step hstep⟩
        cases m with
        | item => exact ⟨[], .nil⟩
        | key => exact ⟨[], .nil⟩
        | value => exact absurd hallows (by unfold Mark.Allows Begins; decide)
      · -- one more value
        rcases bind_run h with ⟨e, -, herr⟩ | ⟨mid, hmid, h⟩
        · cases herr
        obtain ⟨v, a, hv, hspan, hnext⟩ := hvalue pos mid _ _ hmid (hw.step hstep)
        obtain ⟨b, hb, hspan', hlast⟩ := hitems mid p rest m.next ms h hnext
        refine ⟨a ++ b, hb.cons hv ?_, ?_, hlast⟩
        · rintro rfl
          -- a key is a string, as it starts with a digit
          have hdigit := hallows.resolve_left he
          obtain ⟨b', r, rfl, -⟩ := hv.head
          have hhead := Text.get_of_drop (List.cons_append .. ▸ hspan.drop)
          obtain rfl : c = b' := Option.some.inj (hc.symm.trans hhead)
          exact hv.str_of_digit hdigit
        · rw [List.append_assoc]
          exact hspan.trans hspan'

/-! ## The Loops over Keys -/

/-- `field` does with what it reads what `effect` says, but for an info dictionary. -/
structure ReadsAs (data : Text) (d : Dict) {σ : Type}
    (field : ℕ → Bytes → ℕ → σ → Parse (ℕ × σ)) (effect : ℕ → Bytes → Value → σ → σ) : Prop where
  string : ∀ key, d.reading key = .string → ∀ fuel pos t, field fuel key pos t =
    liftM (read_string data pos) >>= fun a => pure (a.2, effect pos key (.str a.1) t)
  integer : ∀ key, d.reading key = .integer → ∀ fuel pos t, field fuel key pos t =
    liftM (read_integer data pos) >>= fun a => pure (a.2, effect pos key (.int a.1) t)
  skip : ∀ key, d.reading key = .skip → ∀ fuel pos t,
    field fuel key pos t = skip_value data fuel pos >>= fun pos => pure (pos, t)
  skipped : ∀ key, d.reading key = .skip → ∀ pos v t, effect pos key v t = t

theorem info_field_readsAs : ReadsAs data .info (info_field data) info_effect where
  string := by
    intro key hkey fuel pos t
    simp only [Dict.reading] at hkey
    split_ifs at hkey with _ hname
    rcases hname with rfl | rfl <;> rfl
  integer := by
    intro key hkey fuel pos t
    simp only [Dict.reading] at hkey
    split_ifs at hkey with hname
    rcases hname with rfl | rfl <;> rfl
  skip := fun key hkey fuel pos t => info_field_reads.skip key hkey t fuel pos
  skipped := by
    intro key hkey pos v t
    simp only [Dict.reading] at hkey
    split_ifs at hkey with hint hstr
    obtain ⟨hlength, hpiece⟩ := not_or.mp hint
    obtain ⟨hname, hpieces⟩ := not_or.mp hstr
    cases v <;> simp only [info_effect, if_neg hlength, if_neg hname, if_neg hpiece, if_neg hpieces]

theorem torrent_field_readsAs : ReadsAs data .torrent (torrent_field data) torrent_effect where
  string := by
    intro key hkey fuel pos t
    simp only [Dict.reading] at hkey
    split_ifs at hkey with hname
    rcases hname with rfl | rfl <;> rfl
  integer := by
    intro key hkey
    simp only [Dict.reading] at hkey
    split_ifs at hkey
  skip := fun key hkey fuel pos t => torrent_field_reads.skip key hkey t fuel pos
  skipped := by
    intro key hkey pos v t
    simp only [Dict.reading] at hkey
    split_ifs at hkey with hstr hinfo
    obtain ⟨hannounce, hcreated⟩ := not_or.mp hstr
    cases v <;> simp only [torrent_effect, if_neg hannounce, if_neg hcreated, if_neg hinfo]

section loop

variable {σ : Type} {d : Dict} {field : ℕ → Bytes → ℕ → σ → Parse (ℕ × σ)}
  {effect : ℕ → Bytes → Value → σ → σ}

/-- A value other than an info dictionary. -/
theorem field_spelled {k : Bytes} {t t' : σ} (hr : ReadsAs data d field effect)
    (hinfo : d.reading k ≠ .info) (h : (field fuel k pos t).run = some (.ok (p, t')))
    (hw : AllStrict data ⟨⟨pos, .field d k :: rest⟩, ms⟩) :
    ∃ v bs, Spells v bs ∧ data.Spans pos p bs ∧ (d.reading k).Takes v ∧
      t' = effect pos k v t ∧ AllStrict data ⟨⟨p, rest⟩, ms⟩ := by
  obtain ⟨hpos, hplain⟩ := hw.now
  have hstep : step data ⟨⟨pos, .field d k :: rest⟩, ms⟩ = _ := field_step rest ms
  cases hkey : d.reading k with
  | info => exact absurd hkey hinfo
  | string =>
    rw [hkey] at hstep hplain
    rw [hr.string k hkey] at h
    rcases lift_bind_run h with ⟨e, -, herr⟩ | ⟨⟨s, p'⟩, hread, h⟩
    · cases herr
    obtain ⟨rfl, rfl⟩ := Prod.mk.inj (Except.ok.inj (Option.some.inj h))
    obtain ⟨bs, hs, hspan⟩ := hplain.spelled hread
    rw [hread] at hstep
    exact ⟨_, bs, .str hs, hspan, ⟨s, rfl⟩, rfl, hw.step hstep⟩
  | integer =>
    rw [hkey] at hstep hplain
    rw [hr.integer k hkey] at h
    rcases lift_bind_run h with ⟨e, -, herr⟩ | ⟨⟨n, p'⟩, hread, h⟩
    · cases herr
    obtain ⟨rfl, rfl⟩ := Prod.mk.inj (Except.ok.inj (Option.some.inj h))
    obtain ⟨bs, hn, hspan⟩ := hplain.spelled hpos hread
    rw [hread] at hstep
    exact ⟨_, bs, hn, hspan, ⟨n, rfl⟩, rfl, hw.step hstep⟩
  | skip =>
    rw [hkey] at hstep
    rw [hr.skip k hkey] at h
    rcases bind_run h with ⟨e, -, herr⟩ | ⟨p', hskip, h⟩
    · cases herr
    obtain ⟨rfl, rfl⟩ := Prod.mk.inj (Except.ok.inj (Option.some.inj h))
    obtain ⟨v, bs, hv, hspan, hnext⟩ := (skip_spelled fuel).1 pos _ rest ms hskip (hw.step hstep)
    exact ⟨v, bs, hv, hspan, trivial, (hr.skipped k hkey pos v t).symm, hnext⟩

/-- **A loop over keys** has gone over the entries of a dictionary, and stands
    at its `e`. `R` relates the entries and what they make of the result. -/
theorem dict_loop_spelled {R : List (Bytes × Value) → σ → σ → Prop} (hrefl : ∀ t, R [] t t)
    (htrans : ∀ es fs t t' t'', R es t t' → R fs t' t'' → R (es ++ fs) t t'')
    (hfield : ∀ fuel k pos p t t' rest ms, (field fuel k pos t).run = some (.ok (p, t')) →
      AllStrict data ⟨⟨pos, .field d k :: rest⟩, ms⟩ →
        ∃ v bs, Spells v bs ∧ data.Spans pos p bs ∧ R [(k, v)] t t' ∧
          AllStrict data ⟨⟨p, rest⟩, ms⟩) (fuel : ℕ) :
    ∀ pos p t t', (dict_loop data field fuel pos t).run = some (.ok (p, t')) →
      AllStrict data ⟨⟨pos, .keys d :: rest⟩, ms⟩ →
        ∃ es bs, SpellsEntries es bs ∧ data.Spans pos p bs ∧
          data.bytes[p]? = some 'e'.toUInt8 ∧ R es t t' ∧ AllStrict data ⟨⟨p, rest⟩, ms⟩ := by
  induction fuel with
  | zero =>
    intro pos p t t' h
    rw [dict_loop] at h
    cases h
  | succ fuel ih =>
    intro pos p t t' h hw
    obtain ⟨c, hc, hplain⟩ := hw.now
    have hlt := (at_pos_of_getElem? hc).2
    rw [dict_loop] at h
    by_cases he : data.bytes[pos]? = some 'e'.toUInt8
    · rw [if_neg fun hand => hand.2 he] at h
      obtain ⟨rfl, rfl⟩ := Prod.mk.inj (Except.ok.inj (Option.some.inj h))
      exact ⟨[], [], .nil, .refl pos, he, hrefl t, hw.step (keys_step_end rest ms he)⟩
    · rw [if_pos ⟨hlt, he⟩] at h
      have hstep := keys_step rest ms (d := d) ⟨hlt, he⟩
      -- the key, its value, and the rounds after them
      rcases lift_bind_run h with ⟨e, -, herr⟩ | ⟨⟨k, q⟩, hread, h⟩
      · cases herr
      have hstr : PlainString data pos := hplain (by rintro rfl; exact he hc)
      obtain ⟨a, hk, hspan⟩ := hstr.spelled hread
      rw [hread] at hstep
      rcases bind_run h with ⟨e, -, herr⟩ | ⟨⟨q', u⟩, hv, h⟩
      · cases herr
      obtain ⟨v, b, hv, hspan', hone, hnext⟩ := hfield fuel k q q' t u _ _ hv (hw.step hstep)
      obtain ⟨es, bs, hes, hspan'', hend, hrest, hlast⟩ := ih q' p u t' h hnext
      exact ⟨_, _, .cons hk hv hes, (hspan.trans hspan').trans hspan'', hend,
        htrans [(k, v)] es _ _ _ hone hrest, hlast⟩

end loop

/-! ## The Torrent -/

/-- The info dictionary, from its `d` to its `e`. -/
theorem parse_info_dict_spelled {t t' : Torrent} (hd : data.bytes[pos]? = some 'd'.toUInt8)
    (h : (parse_info_dict data fuel pos t).run = some (.ok (p, t')))
    (hw : AllStrict data ⟨⟨size_t (pos + 1), .keys .info :: .close :: rest⟩, ms⟩) :
    ∃ es bs stop, Spells (.dict es) bs ∧ data.Spans pos (stop + 1) bs ∧ stop < data.size ∧
      p = stop + 1 ∧ InfoRead es t t' ∧ AllStrict data ⟨⟨p, rest⟩, ms⟩ := by
  unfold parse_info_dict at h
  rw [size_t_succ (at_pos_of_getElem? hd).2] at h hw
  rcases bind_run h with ⟨e, -, herr⟩ | ⟨⟨stop, u⟩, hloop, h⟩
  · cases herr
  obtain ⟨es, bs, hes, hspan, hend, hread, hnext⟩ :=
    dict_loop_spelled (R := InfoRead) .refl (fun _ _ _ _ _ => .trans)
      (fun fuel k pos p t t' rest ms h hw => by
        have hne : Dict.reading .info k ≠ .info := fun hk => no_info_in_info ⟨k, hk⟩
        obtain ⟨v, bs, hv, hspan, htakes, rfl, hnext⟩ := field_spelled info_field_readsAs hne h hw
        refine ⟨v, bs, hv, hspan, ⟨?_, info_effect_sets pos k v t, info_effect_place⟩, hnext⟩
        intro e he
        rw [List.mem_singleton.mp he]
        exact htakes)
      fuel (pos + 1) stop t u hloop hw
  have hlt := (at_pos_of_getElem? hend).2
  obtain ⟨rfl, rfl⟩ := Prod.mk.inj (Except.ok.inj (Option.some.inj h))
  have hfirst := Text.Spans.of_drop (l := ['d'.toUInt8]) (Text.drop_of_get hd)
  have hlast := Text.Spans.of_drop (l := ['e'.toUInt8]) (Text.drop_of_get hend)
  refine ⟨es, _, stop, .dict hes, (hfirst.trans hspan).trans hlast, hlt, size_t_succ hlt, hread, ?_⟩
  exact hnext.step rfl

/-- The value of a key of the torrent. -/
theorem torrent_field_spelled {k : Bytes} {t t' : Torrent}
    (h : (torrent_field data fuel k pos t).run = some (.ok (p, t')))
    (hw : AllStrict data ⟨⟨pos, .field .torrent k :: rest⟩, ms⟩) :
    ∃ v bs, Spells v bs ∧ data.Spans pos p bs ∧ TorrentRead data [(k, v)] t t' ∧
      AllStrict data ⟨⟨p, rest⟩, ms⟩ := by
  have hfits := data.fits
  by_cases hk : Dict.reading .torrent k = .info
  · obtain ⟨-, hd⟩ := hw.now
    have hstep : step data ⟨⟨pos, .field .torrent k :: rest⟩, ms⟩ = _ := field_step rest ms
    rw [hk] at hd hstep
    obtain rfl : k = ascii "info" := by
      simp only [Dict.reading] at hk
      split_ifs at hk with _ hinfo
      exact hinfo
    rw [torrent_field, if_neg (by decide), if_neg (by decide), if_pos rfl] at h
    rcases bind_run h with ⟨e, -, herr⟩ | ⟨⟨q, u⟩, hinfo, h⟩
    · cases herr
    obtain ⟨es, bs, stop, hes, hspan, hstop, rfl, hread, hnext⟩ :=
      parse_info_dict_spelled hd hinfo (hw.step hstep)
    obtain ⟨rfl, rfl⟩ := Prod.mk.inj (Except.ok.inj (Option.some.inj h))
    have hpos : pos < data.size := (at_pos_of_getElem? hd).2
    -- both positions lie in the data
    unfold Text.size at hpos hstop
    rw [int64_of_fits ⟨by omega, by omega⟩] at hread
    have hend : int64 (size_t (((stop + 1 : ℕ) : ℤ) - 1)) = (stop : ℤ) := by
      rw [size_t_of_lt (by omega) (by omega), int64_of_fits ⟨by omega, by omega⟩]
      omega
    rw [hend]
    exact ⟨_, bs, hes, hspan, torrentRead_info hes hspan hread, hnext⟩
  · have hne : k ≠ ascii "info" := by
      rintro rfl
      exact hk rfl
    obtain ⟨v, bs, hv, hspan, htakes, rfl, hnext⟩ := field_spelled torrent_field_readsAs hk h hw
    exact ⟨v, bs, hv, hspan, torrentRead_single hne htakes, hnext⟩

/-- The data begins with a bencoded dictionary, and the fields of `t` are its values. -/
def BeginsWith (data : Text) (t : Torrent) : Prop :=
  ∃ top bs rest, Spells (.dict top) bs ∧ data.bytes = bs ++ rest ∧ TorrentRead data top {} t

/-- **A strict parse** returns the values of a dictionary the data begins with. -/
theorem begins_of_strictlyRead {t : Torrent} (h : Yields (parse_torrent data) (.ok t))
    (hstrict : StrictlyRead data) : BeginsWith data t := by
  obtain ⟨fuel, h⟩ := h
  obtain ⟨hd, hw⟩ := hstrict
  rcases bind_run h with ⟨e, -, herr⟩ | ⟨⟨stop, u⟩, hloop, h⟩
  · cases herr
  obtain rfl : u = t := Except.ok.inj (Option.some.inj h)
  obtain ⟨top, bs, hes, hspan, hend, hread, -⟩ :=
    dict_loop_spelled (R := TorrentRead data) .refl (fun _ _ _ _ _ => .trans)
      (fun fuel k pos p t t' rest ms => torrent_field_spelled) fuel 1 stop {} u hloop hw
  have hfirst : data.Spans 0 (0 + 1) ['d'.toUInt8] := .of_drop (l := ['d'.toUInt8])
    (Text.drop_of_get hd)
  have hlast := Text.Spans.of_drop (l := ['e'.toUInt8]) (Text.drop_of_get hend)
  exact ⟨top, _, _, .dict hes, ((hfirst.trans hspan).trans hlast).drop, hread⟩

end BitTorrentLite
