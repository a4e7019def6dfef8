import BitTorrentLite.Parser.Strict

/-! # Bounds

    `find` and `substr` stop at the end of the data, but `pos += len` does not:
    a string that is cut short takes the position past the end, where
    `skip_value` and the message of `read_string` look at `data[pos]`. Nothing
    else does so, as the loops over keys test the position first.
-/

open Machine Region Bencode Relation

namespace BitTorrentLite

/-! ## The Guard -/

/-- The string that starts at `pos` with its length ends in the data. -/
def Inside (data : Text) (pos : ℕ) : Prop :=
  ∀ colon ∈ data.find ':'.toUInt8 pos,
    ∀ len ∈ (stoi (data.substr pos (colon - pos))).toOption,
      0 ≤ (colon : ℤ) + 1 + len ∧ (colon : ℤ) + 1 + len ≤ data.size

namespace Walk

/-- The next step reads or skips a string. -/
def ReadsString (data : Text) (w : Walk) : Prop :=
  match w.tasks with
  | .keys _ :: _ => w.pos < data.size ∧ data.bytes[w.pos]? ≠ some 'e'.toUInt8
  | .field d key :: _ => d.reading key = .string
  | .value :: _ => ∃ c ∈ data.bytes[w.pos]?, is_digit c = true
  | _ => False

/-- Every string that is read from a position in the data ends in the data. -/
def AllInside (data : Text) (w : Walk) : Prop :=
  ∀ w', Reaches data w w' → w'.pos ≤ data.size → w'.ReadsString data → Inside data w'.pos

/-- A call at this point of the walk that returns, and the position after it. -/
inductive Returns (data : Text) : Walk → ℕ → Prop where
  | key (d : Dict) (s : Bytes) {pos p : ℕ} {rest : List Task} :
      pos < data.size ∧ data.bytes[pos]? ≠ some 'e'.toUInt8 →
      read_string data pos = .ok (s, p) → Returns data ⟨pos, .keys d :: rest⟩ p
  | string (d : Dict) (key s : Bytes) {pos p : ℕ} {rest : List Task} : d.reading key = .string →
      read_string data pos = .ok (s, p) → Returns data ⟨pos, .field d key :: rest⟩ p
  | integer (d : Dict) (key : Bytes) (n : ℤ) {pos p : ℕ} {rest : List Task} :
      d.reading key = .integer →
      read_integer data pos = .ok (n, p) → Returns data ⟨pos, .field d key :: rest⟩ p
  | skipped_string (c : UInt8) (s : Bytes) {pos p : ℕ} {rest : List Task} :
      data.bytes[pos]? = some c → is_digit c = true →
      read_string data pos = .ok (s, p) → Returns data ⟨pos, .value :: rest⟩ p
  | value (fuel : ℕ) {pos p : ℕ} {rest : List Task} :
      (skip_value data fuel pos).run = some (.ok p) → Returns data ⟨pos, .value :: rest⟩ p

/-- No step of the walk looks beyond the end of the data, and no call that
    returns takes the position out of the data. -/
structure Bounded (data : Text) (start : Walk) : Prop where
  reads : ∀ w, Reaches data start w → w.step data ≠ some (.error .out_of_bounds)
  returns : ∀ w p, Reaches data start w → w.pos ≤ data.size → w.Returns data p → p ≤ data.size

end Walk

/-! ## Single Calls -/

section calls

variable {data : Text} {pos : ℕ}

theorem read_string_of {colon : ℕ} {len : ℤ} (hfind : data.find ':'.toUInt8 pos = some colon)
    (hlen : stoi (data.substr pos (colon - pos)) = .ok len) :
    read_string data pos
      = .ok (data.substr (colon + 1) (size_t len), size_t ((colon + 1 : ℕ) + len)) := by
  unfold read_string
  rw [hfind]
  dsimp only
  rw [hlen]
  rfl

/-- Where a string that is read ends, as a `size_t`. -/
theorem inside_iff :
    Inside data pos ↔ ∀ a, read_string data pos = .ok a → a.2 ≤ data.size := by
  have hfits := data.fits
  constructor
  · intro h a ha
    obtain ⟨colon, len, hfind, hlen, rfl⟩ := read_string_ok ha
    obtain ⟨hlow, hhigh⟩ := h colon hfind len (mem_toOption hlen)
    show size_t _ ≤ data.size
    unfold Text.size at *
    rw [size_t_of_lt (by omega) (by omega)]
    omega
  · intro h colon hfind len hmem
    have hlen := ok_of_mem_toOption hmem
    have hcolon := (Text.find_bounds hfind).2
    have hend : size_t ((colon + 1 : ℕ) + len) ≤ data.size := h _ (read_string_of hfind hlen)
    obtain ⟨-, hmin, hmax⟩ := stoi_fits hlen
    unfold size_t Text.size at *
    omega

theorem read_string_error {e : Stop} (hpos : pos ≤ data.size)
    (h : read_string data pos = .error e) : e ≠ .out_of_bounds := by
  unfold read_string at h
  cases hfind : data.find ':'.toUInt8 pos with
  | none =>
    obtain ⟨c, hc⟩ := at_pos_ok hpos
    rw [hfind] at h
    dsimp only at h
    rw [hc] at h
    obtain rfl := Except.error.inj h
    exact nofun
  | some colon =>
    rw [hfind] at h
    dsimp only at h
    cases hlen : stoi (data.substr pos (colon - pos)) with
    | ok len =>
      rw [hlen] at h
      cases h
    | error e' =>
      rw [hlen] at h
      obtain rfl := Except.error.inj h
      exact stoi_error hlen

theorem read_integer_error {e : Stop} (h : read_integer data pos = .error e) :
    e ≠ .out_of_bounds := by
  unfold read_integer at h
  dsimp only at h
  split at h
  · obtain rfl := Except.error.inj h
    exact nofun
  · rename_i stop _
    cases hnum : stoll (data.substr (size_t (pos + 1)) (stop - size_t (pos + 1))) with
    | ok n =>
      rw [hnum] at h
      cases h
    | error e' =>
      rw [hnum] at h
      obtain rfl := Except.error.inj h
      exact stoll_error hnum

/-- An integer ends at its `e`. -/
theorem read_integer_le {a : ℤ × ℕ} (h : read_integer data pos = .ok a) : a.2 ≤ data.size := by
  obtain ⟨stop, n, hfind, -, rfl⟩ := read_integer_ok h
  exact (Text.find_bounds hfind).2

/-- So does one that is skipped, and without an `e` the position is 0. -/
theorem skip_integer_le {p : ℕ} (h : skip_integer data pos = .ok p) : p ≤ data.size := by
  have hfits := data.fits
  unfold skip_integer at h
  dsimp only at h
  split_ifs at h
  obtain rfl := Except.ok.inj h
  cases hfind : data.find 'e'.toUInt8 (size_t (pos + 1)) with
  | none => exact Nat.zero_le _
  | some stop =>
    have hstop := (Text.find_bounds hfind).2
    rw [Option.getD_some, size_t_succ hstop]
    exact hstop

theorem skip_integer_error {e : Stop} (h : skip_integer data pos = .error e) :
    e ≠ .out_of_bounds := by
  unfold skip_integer at h
  dsimp only at h
  split at h
  · obtain rfl := Except.error.inj h
    exact nofun
  · cases h

/-- The byte that is looked at is one of the data, unless it is the NUL. -/
theorem getElem?_of_at_pos {c : UInt8} (h : data.at_pos pos = .ok c) (hc : c ≠ 0) :
    data.bytes[pos]? = some c := by
  unfold Text.at_pos at h
  cases hb : data.bytes[pos]? with
  | some b =>
    rw [hb] at h
    exact congrArg some (Except.ok.inj h)
  | none =>
    rw [hb] at h
    dsimp only at h
    split_ifs at h
    exact absurd (Except.ok.inj h).symm hc

end calls

/-! ## The Invariant -/

/-- The tasks that look at no byte past the end of the data. -/
def Task.Quiet : Task → Prop
  | .keys _ => True
  | .close => True
  | _ => False

/-- Above the quiet tasks there is the value of a key, or what is left to do of
    one that is skipped. -/
inductive Stacked : List Task → Prop where
  | quiet {ts : List Task} : (∀ t ∈ ts, t.Quiet) → Stacked ts
  | field (d : Dict) (key : Bytes) {rest : List Task} : (∀ t ∈ rest, t.Quiet) →
      Stacked (.field d key :: rest)
  | value {rest : List Task} : Stacked rest → Stacked (.value :: rest)
  | items {rest : List Task} : Stacked rest → Stacked (.items :: rest)

namespace Walk

/-- The position is in the data, unless only quiet tasks are left. -/
structure Sound (data : Text) (w : Walk) : Prop where
  stacked : Stacked w.tasks
  place : w.pos ≤ data.size ∨ ∀ t ∈ w.tasks, t.Quiet

variable {data : Text} {w w' start : Walk}

theorem AllInside.now (h : w.AllInside data) (hpos : w.pos ≤ data.size)
    (hread : w.ReadsString data) : Inside data w.pos := h w ReflTransGen.refl hpos hread

theorem AllInside.reaches (h : w.AllInside data) (hw : Reaches data w w') : w'.AllInside data :=
  fun v hv => h v (ReflTransGen.trans hw hv)

theorem AllInside.step (h : w.AllInside data) (hstep : w.step data = some (.ok w')) :
    w'.AllInside data := h.reaches (ReflTransGen.single hstep)

/-- A string that is read where the walk is leads to a position in the data. -/
theorem AllInside.string_le {a : Bytes × ℕ} (h : w.AllInside data) (hpos : w.pos ≤ data.size)
    (hread : w.ReadsString data) (ha : read_string data w.pos = .ok a) : a.2 ≤ data.size :=
  inside_iff.mp (h.now hpos hread) a ha

section tasks

variable {pos p : ℕ} {rest : List Task} {e : Stop}

theorem quiet_of_keys {d : Dict} (h : Stacked (.keys d :: rest)) : ∀ t ∈ rest, t.Quiet := by
  cases h with
  | quiet h => exact fun t ht => h t (List.mem_cons_of_mem _ ht)

theorem quiet_of_close (h : Stacked (.close :: rest)) : ∀ t ∈ rest, t.Quiet := by
  cases h with
  | quiet h => exact fun t ht => h t (List.mem_cons_of_mem _ ht)

theorem quiet_of_field {d : Dict} {key : Bytes} (h : Stacked (.field d key :: rest)) :
    ∀ t ∈ rest, t.Quiet := by
  cases h with
  | quiet h => exact (h _ (List.mem_cons_self ..)).elim
  | field _ _ h => exact h

theorem stacked_of_value (h : Stacked (.value :: rest)) : Stacked rest := by
  cases h with
  | quiet h => exact (h _ (List.mem_cons_self ..)).elim
  | value h => exact h

theorem stacked_of_items (h : Stacked (.items :: rest)) : Stacked rest := by
  cases h with
  | quiet h => exact (h _ (List.mem_cons_self ..)).elim
  | items h => exact h

/-- Where something that is not quiet comes next, the position is in the data. -/
theorem Sound.pos_le {t : Task} (h : Sound data ⟨pos, t :: rest⟩) (ht : ¬ t.Quiet) :
    pos ≤ data.size := h.place.resolve_right fun hall => ht (hall t (List.mem_cons_self ..))

theorem Sound.of_quiet (h : ∀ t ∈ rest, t.Quiet) : Sound data ⟨pos, rest⟩ := ⟨.quiet h, .inr h⟩

/-- A call that returns a value, with what the walk makes of it. -/
theorem map_eq_ok {α : Type} {x : Except Stop α} {f : α → Walk}
    (h : some (x.map f) = some (.ok w')) : ∃ a, x = .ok a ∧ w' = f a := map_ok (Option.some.inj h)

theorem map_eq_error {α : Type} {x : Except Stop α} {f : α → Walk}
    (h : some (x.map f) = some (.error e)) : x = .error e := by
  cases x with
  | ok a => cases h
  | error e' => exact congrArg _ (Except.error.inj (Option.some.inj h))

/-! ### The Step Lemma -/

/-- The next step does not look beyond the end, and keeps the invariant. -/
def Safe (data : Text) (w : Walk) : Prop :=
  w.step data ≠ some (.error .out_of_bounds) ∧
    ∀ w', w.step data = some (.ok w') → Sound data w'

/-- A call that throws exceptions only, and returns a position in the data. -/
theorem safe_of_call {α : Type} {x : Except Stop α} {f : α → ℕ} {rest : List Task}
    (hstep : w.step data = some (x.map fun a => ⟨f a, rest⟩))
    (herr : ∀ e, x = .error e → e ≠ .out_of_bounds)
    (hok : ∀ a, x = .ok a → Sound data ⟨f a, rest⟩) : Safe data w := by
  refine ⟨fun h => ?_, fun w' h => ?_⟩
  · rw [hstep] at h
    exact herr _ (map_eq_error h) rfl
  · rw [hstep] at h
    obtain ⟨a, ha, rfl⟩ := map_eq_ok h
    exact hok a ha

theorem safe_of_ok (hstep : w.step data = some (.ok w')) (hw : Sound data w') : Safe data w := by
  refine ⟨fun h => ?_, fun v h => ?_⟩
  · rw [hstep] at h
    cases h
  · rw [hstep] at h
    exact Except.ok.inj (Option.some.inj h) ▸ hw

theorem safe_keys {d : Dict} (h : Sound data ⟨pos, .keys d :: rest⟩)
    (hin : AllInside data ⟨pos, .keys d :: rest⟩) : Safe data ⟨pos, .keys d :: rest⟩ := by
  have hquiet := quiet_of_keys h.stacked
  by_cases hpos : pos < data.size ∧ data.bytes[pos]? ≠ some 'e'.toUInt8
  · have hstep := step_keys rest (d := d) hpos
    -- the key is read, and its value comes next
    refine ⟨fun herr => ?_, fun w' hok => ?_⟩
    · rw [hstep] at herr
      exact read_string_error hpos.1.le (map_eq_error herr) rfl
    · rw [hstep] at hok
      obtain ⟨a, ha, rfl⟩ := map_eq_ok hok
      refine ⟨.field _ _ fun t ht => ?_, .inl (hin.string_le hpos.1.le hpos ha)⟩
      rcases List.mem_cons.mp ht with rfl | ht
      · trivial
      · exact hquiet t ht
  · exact safe_of_ok (step_keys_end rest hpos) (.of_quiet hquiet)

/-- The rest is quiet, wherever the value of a key ends. -/
theorem safe_field {d : Dict} {key : Bytes} (h : Sound data ⟨pos, .field d key :: rest⟩) :
    Safe data ⟨pos, .field d key :: rest⟩ := by
  have hquiet := quiet_of_field h.stacked
  have hpos := h.pos_le id
  have hstep : step data ⟨pos, .field d key :: rest⟩ = _ := step_field rest
  cases hkey : d.reading key with
  | string =>
    rw [hkey] at hstep
    exact safe_of_call hstep (fun e => read_string_error hpos) fun a ha => .of_quiet hquiet
  | integer =>
    rw [hkey] at hstep
    exact safe_of_call hstep (fun e => read_integer_error) fun a ha => .of_quiet hquiet
  | info =>
    rw [hkey] at hstep
    apply safe_of_ok hstep
    apply Sound.of_quiet
    simpa [Task.Quiet] using hquiet
  | skip =>
    rw [hkey] at hstep
    exact safe_of_ok hstep ⟨.value (.quiet hquiet), .inl hpos⟩

theorem safe_value (h : Sound data ⟨pos, .value :: rest⟩)
    (hin : AllInside data ⟨pos, .value :: rest⟩) : Safe data ⟨pos, .value :: rest⟩ := by
  have hpos := h.pos_le id
  have hrest := stacked_of_value h.stacked
  obtain ⟨c, hc⟩ := at_pos_ok hpos
  have hstep := step_value rest hc
  -- an integer, a string, a list or dictionary, any other byte
  split_ifs at hstep with hi hdigit hlist
  · exact safe_of_call hstep (fun e => skip_integer_error) fun p hp =>
      ⟨hrest, .inl (skip_integer_le hp)⟩
  · have hread : ReadsString data ⟨pos, .value :: rest⟩ :=
      ⟨c, getElem?_of_at_pos hc (by rintro rfl; revert hdigit; decide), hdigit⟩
    exact safe_of_call hstep (fun e => read_string_error hpos) fun a ha =>
      ⟨hrest, .inl (hin.string_le hpos hread ha)⟩
  · have hne : c ≠ 0 := by rcases hlist with rfl | rfl <;> decide
    have hlt := (at_pos_of_getElem? (getElem?_of_at_pos hc hne)).2
    rw [size_t_succ hlt] at hstep
    exact safe_of_ok hstep ⟨.items hrest, .inl hlt⟩
  · exact safe_of_ok hstep ⟨hrest, .inl hpos⟩

theorem safe_items (h : Sound data ⟨pos, .items :: rest⟩) : Safe data ⟨pos, .items :: rest⟩ := by
  have hpos := h.pos_le id
  have hrest := stacked_of_items h.stacked
  obtain ⟨c, hc⟩ := at_pos_ok hpos
  have hstep := step_items rest hc
  split_ifs at hstep with hend
  · have hlt := (at_pos_of_getElem? (getElem?_of_at_pos hc (by rw [hend]; decide))).2
    rw [size_t_succ hlt] at hstep
    exact safe_of_ok hstep ⟨hrest, .inl hlt⟩
  · exact safe_of_ok hstep ⟨.value (.items hrest), .inl hpos⟩

end tasks

/-- **Step lemma**: where every string ends in the data, a step from a sound
    walk looks at nothing beyond the end, and leads to a sound one. -/
theorem Sound.safe (h : Sound data w) (hin : w.AllInside data) : Safe data w := by
  obtain ⟨pos, tasks⟩ := w
  match tasks with
  | [] =>
    refine ⟨?_, ?_⟩
    · exact nofun
    · exact nofun
  | .keys d :: rest => exact safe_keys h hin
  | .field d key :: rest => exact safe_field h
  | .close :: rest => exact safe_of_ok rfl (.of_quiet (quiet_of_close h.stacked))
  | .value :: rest => exact safe_value h hin
  | .items :: rest => exact safe_items h

/-- **Run lemma**: every walk it leads to is sound. -/
theorem Sound.reaches (h : Sound data start) (hin : start.AllInside data)
    (hw : Reaches data start w) : Sound data w := by
  induction hw with
  | refl => exact h
  | tail hw hstep ih => exact (ih.safe (hin.reaches hw)).2 _ hstep

/-! ## Calls of `skip_value` -/

/-- **Skipping**: what `skip_value` and its loop return is a position in the
    data; the induction is on the fuel, for both at once. -/
theorem skip_le (fuel : ℕ) :
    (∀ pos p rest, AllInside data ⟨pos, .value :: rest⟩ → pos ≤ data.size →
        (skip_value data fuel pos).run = some (.ok p) → p ≤ data.size) ∧
      ∀ pos p rest, AllInside data ⟨pos, .items :: rest⟩ → pos ≤ data.size →
        (skip_items data fuel pos).run = some (.ok p) → p ≤ data.size := by
  induction fuel with
  | zero =>
    refine ⟨fun pos p rest hin hpos h => ?_, fun pos p rest hin hpos h => ?_⟩
    · rw [skip_value] at h
      cases h
    · rw [skip_items] at h
      cases h
  | succ fuel ih =>
    obtain ⟨hvalue, hitems⟩ := ih
    refine ⟨fun pos p rest hin hpos h => ?_, fun pos p rest hin hpos h => ?_⟩
    · rw [skip_value] at h
      rcases Parse.lift_bind_run h with ⟨e, -, he⟩ | ⟨c, hc, h⟩
      · cases he
      have hstep := step_value rest hc
      split_ifs at h hstep with hi hdigit hlist
      · exact skip_integer_le (Option.some.inj h)
      · have hread : ReadsString data ⟨pos, .value :: rest⟩ :=
          ⟨c, getElem?_of_at_pos hc (by rintro rfl; revert hdigit; decide), hdigit⟩
        obtain ⟨a, ha, rfl⟩ := map_ok (Parse.lift_map_run h).symm
        exact hin.string_le hpos hread ha
      · have hne : c ≠ 0 := by rcases hlist with rfl | rfl <;> decide
        have hlt := (at_pos_of_getElem? (getElem?_of_at_pos hc hne)).2
        rw [size_t_succ hlt] at h hstep
        exact hitems _ p rest (hin.step hstep) hlt h
      · obtain rfl := Except.ok.inj (Option.some.inj h)
        exact hpos
    · rw [skip_items] at h
      rcases Parse.lift_bind_run h with ⟨e, -, he⟩ | ⟨c, hc, h⟩
      · cases he
      have hstep := step_items rest hc
      split_ifs at h hstep with hend
      · have hlt := (at_pos_of_getElem? (getElem?_of_at_pos hc (by rw [hend]; decide))).2
        rw [size_t_succ hlt] at h
        obtain rfl := Except.ok.inj (Option.some.inj h)
        exact hlt
      · -- the value returns, and the loop goes on behind it
        rcases Parse.bind_run h with ⟨e, -, he⟩ | ⟨pos', hv, h⟩
        · cases he
        have hnext := hin.step hstep
        exact hitems pos' p rest (hnext.reaches ((skip_leads fuel).1 pos _ _ hv))
          (hvalue pos pos' _ hnext hpos hv) h

/-- A call that returns, where every string ends in the data. -/
theorem Returns.le {p : ℕ} (h : w.Returns data p) (hin : w.AllInside data)
    (hpos : w.pos ≤ data.size) : p ≤ data.size := by
  cases h with
  | key d s hkey hread => exact hin.string_le hpos hkey hread
  | string d key s hkey hread => exact hin.string_le hpos hkey hread
  | integer d key n hkey hread => exact read_integer_le hread
  | skipped_string c s hc hdigit hread => exact hin.string_le hpos ⟨c, hc, hdigit⟩ hread
  | value fuel hv => exact (skip_le fuel).1 _ p _ hin hpos hv

/-! ## Both Directions -/

theorem bounded_of_allInside (hstart : ∀ t ∈ start.tasks, t.Quiet) (h : start.AllInside data) :
    Bounded data start where
  reads := by
    intro w hw
    have hsound : Sound data start := .of_quiet hstart
    exact ((hsound.reaches h hw).safe (h.reaches hw)).1
  returns := by
    intro w p hw hpos hp
    exact hp.le (h.reaches hw) hpos

/-- A string that is read is a call that returns. -/
theorem returns_of_readsString {a : Bytes × ℕ} (h : w.ReadsString data)
    (ha : read_string data w.pos = .ok a) : w.Returns data a.2 := by
  obtain ⟨pos, tasks⟩ := w
  match tasks, h with
  | .keys d :: rest, hkey => exact .key d a.1 hkey ha
  | .field d key :: rest, hkey => exact .string d key a.1 hkey ha
  | .value :: rest, ⟨c, hc, hdigit⟩ => exact .skipped_string c a.1 hc hdigit ha

theorem Bounded.allInside (h : Bounded data start) : start.AllInside data := by
  intro w hw hpos hread
  apply inside_iff.mpr
  intro a ha
  exact h.returns w a.2 hw hpos (returns_of_readsString hread ha)

theorem bounded_iff (hstart : ∀ t ∈ start.tasks, t.Quiet) :
    Bounded data start ↔ start.AllInside data :=
  ⟨Bounded.allInside, bounded_of_allInside hstart⟩

end Walk

open Walk

/-- A bounded parse does not stop by looking beyond the end. -/
theorem parse_torrent_in_bounds {data : Text} (h : Bounded data torrent_start) (fuel : ℕ) :
    (parse_torrent data fuel).run ≠ some (.error .out_of_bounds) := by
  intro hrun
  obtain ⟨pos, w, hw, hstep⟩ := parse_torrent_leads hrun
  exact h.reads w hw hstep

theorem parse_response_dict_in_bounds {data : Text} {pos : ℕ}
    (h : Bounded data (response_start pos)) (fuel : ℕ) (t : TrackerResponse) :
    (parse_response_dict data fuel pos t).run ≠ some (.error .out_of_bounds) := by
  intro hrun
  obtain ⟨w, hw, hstep⟩ := parse_response_dict_leads hrun
  exact h.reads w hw hstep

/-- **Bounds**: the two parsers stay in the data exactly where every string
    they read from a position in the data ends in the data. -/
theorem parsers_bounded (data : Text) :
    (Bounded data torrent_start ↔ torrent_start.AllInside data) ∧
      (torrent_start.AllInside data →
        ∀ fuel, (parse_torrent data fuel).run ≠ some (.error .out_of_bounds)) ∧
      ∀ pos, (Bounded data (response_start pos) ↔ (response_start pos).AllInside data) ∧
        ((response_start pos).AllInside data →
          ∀ fuel t, (parse_response_dict data fuel pos t).run ≠ some (.error .out_of_bounds)) := by
  have htorrent : Bounded data torrent_start ↔ torrent_start.AllInside data := by
    apply bounded_iff
    simp [torrent_start, Task.Quiet]
  have hresponse (pos : ℕ) :
      Bounded data (response_start pos) ↔ (response_start pos).AllInside data := by
    apply bounded_iff
    simp [response_start, Task.Quiet]
  refine ⟨htorrent, ?_, fun pos => ⟨hresponse pos, ?_⟩⟩
  · intro h fuel
    exact parse_torrent_in_bounds (htorrent.mpr h) fuel
  · intro h fuel t
    exact parse_response_dict_in_bounds ((hresponse pos).mpr h) fuel t

/-- A key of which nothing is left. -/
def cut_key : Text := ⟨ascii "d9:", by decide⟩

/-- The key takes the position to 12, where its value is skipped; the data has
    three bytes. -/
theorem cut_key_out_of_bounds :
    read_string cut_key 1 = .ok ([], 12) ∧ cut_key.size = 3 ∧
      (parse_torrent cut_key 3).run = some (.error .out_of_bounds) ∧
      ¬ Bounded cut_key torrent_start := by
  have hread : read_string cut_key 1 = .ok ([], 12) := by decide +kernel
  have hkeys : 1 < cut_key.size ∧ cut_key.bytes[1]? ≠ some 'e'.toUInt8 := by decide +kernel
  refine ⟨hread, rfl, by decide +kernel, fun h => ?_⟩
  have hle := h.returns torrent_start 12 ReflTransGen.refl (by decide) (.key .torrent [] hkeys hread)
  exact absurd hle (by decide)

end BitTorrentLite
