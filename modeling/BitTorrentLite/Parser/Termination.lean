import BitTorrentLite.Parser.Progress

/-! # Termination of the Parser

    On a walk whose states all meet the guard, `parse_torrent` and
    `parse_response_dict` return or throw. Two parts of the guard are needed
    as well: a list loop at a byte it does nothing with stays there for good,
    and a look beyond the end of the data is no return.
-/

open Machine Region Bencode Relation

namespace BitTorrentLite

open Parse Walk

variable {data : Text} {pos : ℕ} {w w' : Walk}

/-! ## The Guard Is Enough -/

theorem parse_info_dict_ends {u : Torrent} {rest : List Task} (hpos : pos ≤ limit data)
    (hw : AllForward data ⟨size_t (pos + 1), .keys .info :: .close :: rest⟩) :
    Ends Prod.fst pos (limit data + 2) fun n => parse_info_dict data n pos u := by
  have hlimit := limit_lt data
  have hstart : size_t ((pos : ℤ) + 1) = pos + 1 := by
    exact_mod_cast size_t_natCast (n := pos + 1) (by omega)
  rw [hstart] at hw
  have hfield : ∀ key pos t rest, pos ≤ limit data →
      AllForward data ⟨pos, .field .info key :: rest⟩ →
        Ends Prod.fst pos (limit data + 1) fun n => info_field data n key pos t :=
    fun key pos t rest => field_ends info_field_reads (Nat.le_succ _)
      fun h => absurd h no_info_in_info
  have hloop := dict_loop_ends info_field_monotone
    (field_leads info_field_reads fun h => absurd h no_info_in_info) hfield _ (pos + 1) u _ le_rfl
    (Nat.succ_le_succ hpos) hw
  unfold parse_info_dict
  rw [hstart]
  refine hloop.bind (g := fun _ a => pure (size_t (a.1 + 1), a.2))
    (dict_loop_monotone info_field_monotone _ u) (fun _ _ _ _ => Below.refl _) fun a _ h₁ h₂ => ?_
  have hclose : size_t ((a.1 : ℤ) + 1) = a.1 + 1 := by
    exact_mod_cast size_t_natCast (n := a.1 + 1) (by omega)
  refine .pure ?_ ?_
  · show pos ≤ size_t ((a.1 : ℤ) + 1)
    omega
  · show size_t ((a.1 : ℤ) + 1) ≤ limit data + 2
    omega

theorem parse_torrent_halts (hw : AllForward data torrent_start) : Halts (parse_torrent data) := by
  have hinfo : (∃ key, Dict.reading .torrent key = .info) → ∀ pos u rest, pos ≤ limit data →
      AllForward data ⟨size_t (pos + 1), .keys .info :: .close :: rest⟩ →
        Ends Prod.fst pos (limit data + 2) fun n => parse_info_dict data n pos u :=
    fun _ pos u rest => parse_info_dict_ends
  have hone : 1 ≤ limit data + 2 := by omega
  have hloop := dict_loop_ends torrent_field_monotone
    (field_leads torrent_field_reads fun _ => parse_info_dict_leads)
    (fun key pos t rest => field_ends torrent_field_reads (by omega) hinfo) _ 1 {} [] le_rfl hone hw
  have hend : Ends (fun _ => 0) 0 0 (parse_torrent data) :=
    hloop.bind (g := fun _ a => pure a.2) (dict_loop_monotone torrent_field_monotone 1 _)
      (fun _ _ _ _ => Below.refl _) fun a _ _ _ => .pure le_rfl le_rfl
  exact hend.halts

theorem parse_response_dict_halts {t : TrackerResponse}
    (hw : AllForward data (response_start pos)) :
    Halts fun n => parse_response_dict data n pos t := by
  have hfield : ∀ key pos' t rest, pos' ≤ limit data →
      AllForward data ⟨pos', .field .response key :: rest⟩ →
        Ends Prod.fst pos' (max (limit data) (size_t (pos + 1)))
          fun n => response_field data n key pos' t :=
    fun key pos t rest => field_ends response_field_reads (le_max_left _ _)
      fun h => absurd h no_info_in_response
  have hloop := dict_loop_ends response_field_monotone
    (field_leads response_field_reads fun h => absurd h no_info_in_response) hfield _ _ t _ le_rfl
    (le_max_right _ _) hw
  have hend : Ends (fun _ => 0) 0 0 fun n => parse_response_dict data n pos t :=
    hloop.bind (g := fun _ a => pure (size_t (a.1 + 1), a.2))
      (dict_loop_monotone response_field_monotone _ t) (fun _ _ _ _ => Below.refl _)
      fun a _ _ _ => .pure le_rfl le_rfl
  exact hend.halts

/-! ## Where It Is Needed -/

namespace Walk

/-- The walk looks beyond the end, or a list loop is at a byte it does nothing
    with. -/
def Stuck (data : Text) (w : Walk) : Prop :=
  w.step data = some (.error .out_of_bounds) ∨
    ∃ rest c, w.tasks = .items :: rest ∧ data.at_pos w.pos = .ok c ∧ c ≠ 'e'.toUInt8 ∧ ¬ Begins c

/-- The walk is at an end: it has returned, or it throws. -/
def Final (data : Text) (w : Walk) : Prop :=
  ∀ x, w.step data = some x → ∃ e, x = .error e ∧ e ≠ .out_of_bounds

theorem Leads.final {r : Except Stop ℕ} (h : Leads data w [] r) (hr : r ≠ .error .out_of_bounds) :
    ∃ f, Reaches data w f ∧ f.Final data := by
  cases r with
  | ok pos => exact ⟨_, h, fun x hx => nomatch hx⟩
  | error e =>
    obtain ⟨f, hf, hstep⟩ := h
    refine ⟨f, hf, fun x hx => ⟨e, ?_, fun heq => hr (heq ▸ rfl)⟩⟩
    exact Option.some.inj (hx.symm.trans hstep)

/-- A walk has one way to go: from every state on it, it comes to its end. -/
theorem Final.of_reaches {f : Walk} (hf : f.Final data) (h : Reaches data w f)
    (hw : Reaches data w w') : Reaches data w' f := by
  have hunique : Relator.RightUnique fun w w' : Walk => w.step data = some (.ok w') := by
    intro a b c hb hc
    exact Except.ok.inj (Option.some.inj (hb.symm.trans hc))
  -- the end is behind the state, or they are the same
  rcases ReflTransGen.total_of_right_unique hunique h hw with hfw | hwf
  · rcases ReflTransGen.cases_head hfw with rfl | ⟨v, hstep, -⟩
    · exact ReflTransGen.refl
    · obtain ⟨e, he, -⟩ := hf _ hstep
      cases he
  · exact hwf

/-- A list loop at such a byte, and the call of `skip_value` it makes. -/
theorem junk_steps (rest : List Task) {c : UInt8} (hc : data.at_pos pos = .ok c)
    (he : c ≠ 'e'.toUInt8) (hb : ¬ Begins c) :
    step data ⟨pos, .items :: rest⟩ = some (.ok ⟨pos, .value :: .items :: rest⟩) ∧
      step data ⟨pos, .value :: .items :: rest⟩ = some (.ok ⟨pos, .items :: rest⟩) := by
  have hitems := step_items rest hc
  have hvalue := step_value (.items :: rest) hc
  rw [if_neg he] at hitems
  rw [if_neg fun h => hb (.inl h), if_neg fun h => hb (.inr (.inl h)),
    if_neg fun h => hb (.inr (.inr h))] at hvalue
  exact ⟨hitems, hvalue⟩

/-- The loop comes back to the byte, and goes nowhere else. -/
theorem junk_stays {rest : List Task} {c : UInt8} (hc : data.at_pos pos = .ok c)
    (he : c ≠ 'e'.toUInt8) (hb : ¬ Begins c) (h : Reaches data ⟨pos, .items :: rest⟩ w) :
    w = ⟨pos, .items :: rest⟩ ∨ w = ⟨pos, .value :: .items :: rest⟩ := by
  obtain ⟨hitems, hvalue⟩ := junk_steps rest hc he hb
  induction h with
  | refl => exact .inl rfl
  | tail _ hstep ih =>
    rcases ih with rfl | rfl
    · exact .inr (Except.ok.inj (Option.some.inj (hstep.symm.trans hitems)))
    · exact .inl (Except.ok.inj (Option.some.inj (hstep.symm.trans hvalue)))

/-- A walk that comes to an end is stuck nowhere. -/
theorem Final.not_stuck {f : Walk} (hf : f.Final data) (h : Reaches data w f) : ¬ w.Stuck data := by
  rintro (hbeyond | ⟨rest, c, htasks, hc, he, hb⟩)
  -- a state that looks beyond the end is not final, and has no next one
  · rcases ReflTransGen.cases_head h with rfl | ⟨v, hstep, -⟩
    · obtain ⟨e, heq, hne⟩ := hf _ hbeyond
      exact hne (Except.error.inj heq).symm
    · rw [hbeyond] at hstep
      cases hstep
  · obtain ⟨pos, tasks⟩ := w
    obtain rfl : tasks = .items :: rest := htasks
    obtain ⟨hitems, hvalue⟩ := junk_steps rest hc he hb
    -- the end would be one of the two states the loop goes between
    rcases junk_stays hc he hb h with rfl | rfl
    · obtain ⟨e, heq, -⟩ := hf _ hitems
      cases heq
    · obtain ⟨e, heq, -⟩ := hf _ hvalue
      cases heq

end Walk

theorem map_ne_error {α β : Type} {r : Except Stop α} {e : Stop} {g : α → β} (h : r ≠ .error e) :
    r.map g ≠ .error e := by
  cases r with
  | ok a => exact nofun
  | error e' => exact fun heq => h (congrArg _ (Except.error.inj heq))

theorem parse_torrent_not_stuck (h : Halts (parse_torrent data))
    (hw : Reaches data torrent_start w) : ¬ w.Stuck data := by
  obtain ⟨r, ⟨n, hn⟩, hr⟩ := h
  obtain ⟨pos, hleads⟩ := parse_torrent_leads hn
  obtain ⟨f, hf, hfinal⟩ := hleads.final (map_ne_error hr)
  exact hfinal.not_stuck (hfinal.of_reaches hf hw)

theorem parse_response_dict_not_stuck {t : TrackerResponse}
    (h : Halts fun n => parse_response_dict data n pos t)
    (hw : Reaches data (response_start pos) w) : ¬ w.Stuck data := by
  obtain ⟨r, ⟨n, hn⟩, hr⟩ := h
  obtain ⟨f, hf, hfinal⟩ := (parse_response_dict_leads hn).final (map_ne_error hr)
  exact hfinal.not_stuck (hfinal.of_reaches hf hw)

/-- **Termination**: where every step of the walk meets the guard, the two
    parsers return or throw; and where they do, no step of the walk is stuck. -/
theorem parsers_halt (data : Text) :
    (AllForward data torrent_start → Halts (parse_torrent data)) ∧
      (Halts (parse_torrent data) → ∀ w, Reaches data torrent_start w → ¬ w.Stuck data) ∧
      ∀ pos t,
        (AllForward data (response_start pos) → Halts fun n => parse_response_dict data n pos t) ∧
        ((Halts fun n => parse_response_dict data n pos t) →
          ∀ w, Reaches data (response_start pos) w → ¬ w.Stuck data) :=
  ⟨parse_torrent_halts, fun h _ hw => parse_torrent_not_stuck h hw, fun _ _ =>
    ⟨parse_response_dict_halts, fun h _ hw => parse_response_dict_not_stuck h hw⟩⟩

/-! ## Runs of the Guard -/

instance (data : Text) (pos : ℕ) : Decidable (Advances data pos) :=
  inferInstanceAs (Decidable (∀ colon ∈ data.find ':'.toUInt8 pos,
    ∀ len ∈ (stoi (data.substr pos (colon - pos))).toOption, (pos : ℤ) < colon + 1 + len))

instance (c : UInt8) : Decidable (Begins c) := inferInstanceAs (Decidable (_ ∨ _ ∨ _ ∨ _))

namespace Walk

instance (data : Text) : ∀ w : Walk, Decidable (w.Forward data)
  | ⟨_, []⟩ => inferInstanceAs (Decidable True)
  | ⟨_, .keys _ :: _⟩ => inferInstanceAs (Decidable (_ ∧ _ → Advances data _))
  | ⟨_, .field _ _ :: _⟩ => inferInstanceAs (Decidable (_ = _ → _ ≤ _ ∧ Advances data _))
  | ⟨_, .close :: _⟩ => inferInstanceAs (Decidable True)
  | ⟨_, .value :: _⟩ => inferInstanceAs (Decidable (_ ≤ _ ∧ (_ = _ → _ ≠ none)))
  | ⟨pos, .items :: _⟩ =>
    inferInstanceAs (Decidable (∃ c ∈ data.bytes[pos]?, c = 'e'.toUInt8 ∨ Begins c))

/-- The guard, computed along a walk that ends within `n` steps. -/
def forward (data : Text) : ℕ → Walk → Bool
  | 0, _ => false
  | n + 1, w => decide (w.Forward data) && match w.step data with
    | some (.ok w') => forward data n w'
    | _ => true

theorem allForward_of_computed {n : ℕ} (h : forward data n w = true) : w.AllForward data := by
  induction n generalizing w with
  | zero => cases h
  | succ n ih =>
    rw [forward, Bool.and_eq_true, decide_eq_true_eq] at h
    intro v hv
    rcases ReflTransGen.cases_head hv with rfl | ⟨u, hstep, huv⟩
    · exact h.1
    · rw [hstep] at h
      exact ih h.2 v huv

end Walk

/-- A dictionary with a list that is skipped. -/
def skipped_list : Text := ⟨ascii "d1:ali1e2:xyeee", by decide⟩

theorem skipped_list_halts : Halts (parse_torrent skipped_list) ∧
    Halts fun n => parse_response_dict skipped_list n 0 {} :=
  ⟨(parsers_halt skipped_list).1 (allForward_of_computed (n := 20) (by decide +kernel)),
    ((parsers_halt skipped_list).2.2 0 {}).1
      (allForward_of_computed (n := 20) (by decide +kernel))⟩

/-! ## Parses That Never End -/

/-- A list loop at a byte it does nothing with, or at the end of the data. -/
theorem skip_items_hangs {c : UInt8} (hc : data.at_pos pos = .ok c) (he : c ≠ 'e'.toUInt8)
    (hb : ¬ Begins c) (fuel : ℕ) : skip_items data fuel pos = out_of_fuel := by
  induction fuel with
  | zero => rw [skip_items]
  | succ fuel ih =>
    rw [skip_items, hc, lift_ok_bind, if_neg he]
    cases fuel with
    | zero =>
      rw [skip_value]
      rfl
    | succ fuel =>
      rw [skip_value, hc, lift_ok_bind, if_neg fun h => hb (.inl h),
        if_neg fun h => hb (.inr (.inl h)), if_neg fun h => hb (.inr (.inr h)), pure_bind, ih]

/-- The data ends inside a list that is skipped. -/
def unterminated_list : Text := ⟨ascii "d1:al", by decide⟩

theorem skip_unterminated_list (fuel : ℕ) : skip_value unterminated_list fuel 4 = out_of_fuel := by
  cases fuel with
  | zero => rw [skip_value]
  | succ fuel =>
    have hat : unterminated_list.at_pos 4 = .ok 'l'.toUInt8 := by decide
    rw [skip_value, hat, lift_ok_bind, if_neg (by decide), if_neg (by decide), if_pos (by decide)]
    have hstart : size_t ((4 : ℕ) + 1) = 5 := by decide
    rw [hstart]
    exact skip_items_hangs (c := 0) (by decide) (by decide) (by decide) fuel

/-- A key of length -3 takes the position back to where it was. -/
def negative_length : Text := ⟨ascii "d-3:", by decide⟩

/-- On either of them a parser runs for ever. -/
theorem parsers_hang : (∀ fuel, parse_torrent unterminated_list fuel = out_of_fuel) ∧
    (∀ fuel, parse_response_dict unterminated_list fuel 0 {} = out_of_fuel) ∧
    ∀ fuel, parse_torrent negative_length fuel = out_of_fuel := by
  have hkey : read_string unterminated_list 1 = .ok (ascii "a", 4) := by decide +kernel
  have hback : read_string negative_length 1 = .ok ([], 1) := by decide +kernel
  have hstart : size_t ((0 : ℕ) + 1) = 1 := by decide
  refine ⟨fun fuel => ?_, fun fuel => ?_, fun fuel => ?_⟩
  · unfold parse_torrent
    cases fuel with
    | zero => rfl
    | succ fuel =>
      rw [dict_loop, if_pos (by decide), hkey, lift_ok_bind]
      dsimp only
      rw [torrent_field, if_neg (by decide), if_neg (by decide), if_neg (by decide),
        skip_unterminated_list]
      rfl
  · unfold parse_response_dict
    rw [hstart]
    cases fuel with
    | zero => rfl
    | succ fuel =>
      rw [dict_loop, if_pos (by decide), hkey, lift_ok_bind]
      dsimp only
      rw [response_field, if_neg (by decide), if_neg (by decide), if_neg (by decide),
        if_neg (by decide), if_neg (by decide), skip_unterminated_list]
      rfl
  · have hloop : dict_loop negative_length (torrent_field negative_length) fuel 1 {}
        = out_of_fuel := by
      induction fuel with
      | zero => rfl
      | succ fuel ih =>
        rw [dict_loop, if_pos (by decide), hback, lift_ok_bind]
        dsimp only
        rw [torrent_field, if_neg (by decide), if_neg (by decide), if_neg (by decide)]
        cases fuel with
        | zero =>
          rw [skip_value]
          rfl
        | succ fuel =>
          have hat : negative_length.at_pos 1 = .ok '-'.toUInt8 := by decide
          rw [skip_value, hat, lift_ok_bind, if_neg (by decide), if_neg (by decide),
            if_neg (by decide), pure_bind, pure_bind]
          exact ih
    unfold parse_torrent
    rw [hloop]
    rfl

end BitTorrentLite
