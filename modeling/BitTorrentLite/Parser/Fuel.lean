import BitTorrentLite.Parser.Decoder

/-! # Fuel

    More fuel never changes the outcome of a parse that has not run out of it.
    So a parse has one outcome at most, and a parse that runs out of any amount
    of fuel is one that never ends.
-/

open Machine Region Bencode

namespace BitTorrentLite

namespace Parse

variable {α β : Type} {x y : Parse α} {f : ℕ → Parse α}

/-- `y` has the outcome of `x`, unless `x` has run out of fuel. -/
def Below (x y : Parse α) : Prop := x = out_of_fuel ∨ x = y

theorem Below.refl (x : Parse α) : Below x x := .inr rfl

theorem below_of_out_of_fuel (y : Parse α) : Below out_of_fuel y := .inl rfl

/-- Parses one after the other, each given more fuel. -/
theorem Below.bind {g h : α → Parse β} (hxy : Below x y) (hgh : ∀ a, Below (g a) (h a)) :
    Below (x >>= g) (y >>= h) := by
  rcases hxy with rfl | rfl
  · exact .inl rfl
  · match x with
    | none => exact .inl rfl
    | some (.error e) => exact .inr rfl
    | some (.ok a) => exact hgh a

theorem Below.run {r : Except Stop α} (h : Below x y) (hx : x.run = some r) : y.run = some r := by
  rcases h with rfl | rfl
  · cases hx
  · exact hx

/-- With some amount of fuel, the parse ends with the outcome `r`. -/
def Yields (f : ℕ → Parse α) (r : Except Stop α) : Prop := ∃ fuel, (f fuel).run = some r

/-- The fuel a function is given does not matter beyond its sufficing. -/
def FuelMonotone (f : ℕ → Parse α) : Prop := ∀ n m, n ≤ m → Below (f n) (f m)

/-- An outcome stays the outcome with more fuel. -/
theorem Yields.eventually {r : Except Stop α} (hf : FuelMonotone f) (h : Yields f r) :
    ∃ n, ∀ m, n ≤ m → (f m).run = some r := by
  obtain ⟨n, hn⟩ := h
  exact ⟨n, fun m hm => (hf n m hm).run hn⟩

/-- A parse has one outcome. -/
theorem Yields.unique {r r' : Except Stop α} (hf : FuelMonotone f) (h : Yields f r)
    (h' : Yields f r') : r = r' := by
  obtain ⟨n, hn⟩ := h.eventually hf
  obtain ⟨n', hn'⟩ := h'.eventually hf
  have hr := hn (max n n') (le_max_left _ _)
  rw [hn' (max n n') (le_max_right _ _)] at hr
  exact (Option.some.inj hr).symm

end Parse

open Parse

variable {σ : Type} {data : Text}

/-- Skipping, with more fuel: induction on the lesser amount, for the two
    functions at once. -/
theorem skip_below {n m : ℕ} (h : n ≤ m) :
    (∀ pos, Below (skip_value data n pos) (skip_value data m pos)) ∧
      ∀ pos, Below (skip_items data n pos) (skip_items data m pos) := by
  induction n generalizing m with
  | zero =>
    refine ⟨fun pos => ?_, fun pos => ?_⟩
    · exact below_of_out_of_fuel _
    · exact below_of_out_of_fuel _
  | succ n ih =>
    obtain ⟨m, rfl⟩ : ∃ k, m = k + 1 := ⟨m - 1, by omega⟩
    obtain ⟨hvalue, hitems⟩ := ih (Nat.le_of_succ_le_succ h)
    refine ⟨fun pos => ?_, fun pos => ?_⟩
    · rw [skip_value, skip_value]
      apply Below.bind (Below.refl _)
      intro c
      split_ifs
      · exact Below.refl _
      · exact Below.refl _
      · exact hitems _
      · exact Below.refl _
    · rw [skip_items, skip_items]
      apply Below.bind (Below.refl _)
      intro c
      split_ifs
      · exact Below.refl _
      · exact Below.bind (hvalue pos) fun pos => hitems pos

theorem skip_value_monotone (pos : ℕ) : FuelMonotone fun fuel => skip_value data fuel pos :=
  fun _ _ h => (skip_below h).1 pos

theorem skip_items_monotone (pos : ℕ) : FuelMonotone fun fuel => skip_items data fuel pos :=
  fun _ _ h => (skip_below h).2 pos

section loop

variable {field : ℕ → Bytes → ℕ → σ → Parse (ℕ × σ)}

/-- A dictionary loop whose values are handled by a function of this kind. -/
theorem dict_loop_monotone (hfield : ∀ key pos t, FuelMonotone fun fuel => field fuel key pos t)
    (pos : ℕ) (t : σ) : FuelMonotone fun fuel => dict_loop data field fuel pos t := by
  intro n
  induction n generalizing pos t with
  | zero =>
    intro m _
    exact below_of_out_of_fuel _
  | succ n ih =>
    intro m h
    obtain ⟨m, rfl⟩ : ∃ k, m = k + 1 := ⟨m - 1, by omega⟩
    have hle := Nat.le_of_succ_le_succ h
    show Below (dict_loop data field (n + 1) pos t) (dict_loop data field (m + 1) pos t)
    rw [dict_loop, dict_loop]
    split_ifs
    · apply Below.bind (Below.refl _)
      intro ⟨key, pos⟩
      apply Below.bind (hfield key pos t n m hle)
      intro ⟨pos, t⟩
      exact ih pos t m hle
    · exact Below.refl _

end loop

theorem info_field_monotone (key : Bytes) (pos : ℕ) (t : Torrent) :
    FuelMonotone fun fuel => info_field data fuel key pos t := by
  intro n m h
  show Below (info_field data n key pos t) (info_field data m key pos t)
  unfold info_field
  split_ifs
  -- the four known keys take no fuel
  iterate 4 exact Below.refl _
  exact Below.bind (skip_value_monotone pos n m h) fun _ => Below.refl _

theorem parse_info_dict_monotone (pos : ℕ) (t : Torrent) :
    FuelMonotone fun fuel => parse_info_dict data fuel pos t := by
  intro n m h
  exact Below.bind (dict_loop_monotone info_field_monotone _ t n m h) fun _ => Below.refl _

theorem torrent_field_monotone (key : Bytes) (pos : ℕ) (t : Torrent) :
    FuelMonotone fun fuel => torrent_field data fuel key pos t := by
  intro n m h
  show Below (torrent_field data n key pos t) (torrent_field data m key pos t)
  unfold torrent_field
  split_ifs
  · exact Below.refl _
  · exact Below.refl _
  · exact Below.bind (parse_info_dict_monotone pos _ n m h) fun _ => Below.refl _
  · exact Below.bind (skip_value_monotone pos n m h) fun _ => Below.refl _

theorem parse_torrent_monotone : FuelMonotone (parse_torrent data) := by
  intro n m h
  exact Below.bind (dict_loop_monotone torrent_field_monotone 1 {} n m h) fun _ => Below.refl _

theorem response_field_monotone (key : Bytes) (pos : ℕ) (t : TrackerResponse) :
    FuelMonotone fun fuel => response_field data fuel key pos t := by
  intro n m h
  show Below (response_field data n key pos t) (response_field data m key pos t)
  unfold response_field
  split_ifs
  iterate 5 exact Below.refl _
  exact Below.bind (skip_value_monotone pos n m h) fun _ => Below.refl _

end BitTorrentLite
