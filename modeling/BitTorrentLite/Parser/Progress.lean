import BitTorrentLite.Parser.Fuel
import BitTorrentLite.Parser.Spec
import BitTorrentLite.Parser.Walk

/-! # Progress

    What the parser needs of the data to come to an end: that nothing it reads
    takes the position back, that a list it skips goes on with values until its
    `e`, and that it does not look beyond the end. On a walk all of whose
    states are like that, every round of a loop ends further on than it began,
    and every function returns or throws.
-/

open Machine Region Bencode Relation

namespace BitTorrentLite

/-! ## The Guard -/

/-- The string that starts at `pos` with its length does not end at `pos` or
    before, as it may where the length is negative. -/
def Advances (data : Text) (pos : ℕ) : Prop :=
  ∀ colon ∈ data.find ':'.toUInt8 pos,
    ∀ len ∈ (stoi (data.substr pos (colon - pos))).toOption, (pos : ℤ) < colon + 1 + len

/-- The bytes `skip_value` does something with. -/
def Begins (c : UInt8) : Prop :=
  c = 'i'.toUInt8 ∨ is_digit c = true ∨ c = 'l'.toUInt8 ∨ c = 'd'.toUInt8

/-- What the parser relies on before a step, without checking it. -/
def Walk.Forward (data : Text) (w : Walk) : Prop :=
  match w.tasks with
  | .keys _ :: _ =>
    w.pos < data.size ∧ data.bytes[w.pos]? ≠ some 'e'.toUInt8 → Advances data w.pos
  | .field d key :: _ => d.reading key = .string → w.pos ≤ data.size ∧ Advances data w.pos
  | .value :: _ => w.pos ≤ data.size ∧
    (data.bytes[w.pos]? = some 'i'.toUInt8 → data.find 'e'.toUInt8 (w.pos + 1) ≠ none)
  | .items :: _ => ∃ c ∈ data.bytes[w.pos]?, c = 'e'.toUInt8 ∨ Begins c
  | _ => True

namespace Walk

/-- Every step of the walk meets the guard. -/
def AllForward (data : Text) (w : Walk) : Prop := ∀ w', Reaches data w w' → w'.Forward data

variable {data : Text} {w w' : Walk}

theorem AllForward.now (h : w.AllForward data) : w.Forward data := h w ReflTransGen.refl

theorem AllForward.reaches (h : w.AllForward data) (hw : Reaches data w w') :
    w'.AllForward data := fun v hv => h v (ReflTransGen.trans hw hv)

theorem AllForward.step (h : w.AllForward data) (hstep : w.step data = some (.ok w')) :
    w'.AllForward data := h.reaches (ReflTransGen.single hstep)

end Walk

/-! ## Parses That End -/

namespace Parse

variable {α β : Type} {f : ℕ → Parse α} {g : ℕ → α → Parse β} {lo hi : ℕ}

/-- The parse returns or throws, and looks at nothing beyond the end. -/
def Halts (f : ℕ → Parse α) : Prop := ∃ r, Yields f r ∧ r ≠ .error .out_of_bounds

/-- The parse throws, or returns with the position between `lo` and `hi`. -/
inductive Ends (place : α → ℕ) (lo hi : ℕ) (f : ℕ → Parse α) : Prop where
  | throws (e : Stop) : e ≠ .out_of_bounds → Yields f (.error e) → Ends place lo hi f
  | returns (a : α) : Yields f (.ok a) → lo ≤ place a → place a ≤ hi → Ends place lo hi f

theorem Ends.halts {place : α → ℕ} (h : Ends place lo hi f) : Halts f := by
  cases h with
  | throws e he hf => exact ⟨_, hf, fun heq => he (Except.error.inj heq)⟩
  | returns a hf => exact ⟨_, hf, fun heq => nomatch heq⟩

theorem Ends.mono {place : α → ℕ} {lo' hi' : ℕ} (h : Ends place lo hi f) (hlo : lo' ≤ lo)
    (hhi : hi ≤ hi') : Ends place lo' hi' f := by
  cases h with
  | throws e he hf => exact .throws e he hf
  | returns a hf h₁ h₂ => exact .returns a hf (hlo.trans h₁) (h₂.trans hhi)

/-- A function that uses one unit of fuel for its own round. -/
theorem Ends.of_succ {place : α → ℕ} (f' : ℕ → Parse α) (hf : ∀ n, f (n + 1) = f' n)
    (h : Ends place lo hi f') : Ends place lo hi f := by
  cases h with
  | throws e he hy =>
    obtain ⟨n, hn⟩ := hy
    exact .throws e he ⟨n + 1, by rw [hf, hn]⟩
  | returns a hy h₁ h₂ =>
    obtain ⟨n, hn⟩ := hy
    exact .returns a ⟨n + 1, by rw [hf, hn]⟩ h₁ h₂

theorem Ends.pure {place : α → ℕ} {a : α} (h₁ : lo ≤ place a) (h₂ : place a ≤ hi) :
    Ends place lo hi fun _ => (Pure.pure a : Parse α) := .returns a ⟨0, rfl⟩ h₁ h₂

/-- Two parses, one after the other. -/
theorem Ends.bind {place : α → ℕ} {place' : β → ℕ} {lo' hi' : ℕ} (h : Ends place lo hi f)
    (hf : FuelMonotone f) (hg : ∀ a, FuelMonotone fun n => g n a)
    (hnext : ∀ a, Yields f (.ok a) → lo ≤ place a → place a ≤ hi →
      Ends place' lo' hi' fun n => g n a) :
    Ends place' lo' hi' fun n => f n >>= g n := by
  have hbind : ∀ a r, Yields f (.ok a) → Yields (fun n => g n a) r →
      Yields (fun n => f n >>= g n) r := by
    intro a r ha hr
    obtain ⟨n, hn⟩ := ha.eventually hf
    obtain ⟨n', hn'⟩ := hr.eventually (hg a)
    refine ⟨max n n', ?_⟩
    have hfa := hn (max n n') (le_max_left _ _)
    have hga := hn' (max n n') (le_max_right _ _)
    show ((f (max n n')).run.bind _) = some r
    rw [hfa]
    exact hga
  cases h with
  | throws e he hy =>
    obtain ⟨n, hn⟩ := hy
    refine .throws e he ⟨n, ?_⟩
    show ((f n).run.bind _) = some _
    rw [hn]
    rfl
  | returns a hy h₁ h₂ =>
    cases hnext a hy h₁ h₂ with
    | throws e he hy' => exact .throws e he (hbind a _ hy hy')
    | returns b hy' h₃ h₄ => exact .returns b (hbind a _ hy hy') h₃ h₄

end Parse

open Parse

variable {data : Text} {pos : ℕ}

/-! ## Single Calls -/

/-- How far a string or an integer can reach. -/
def limit (data : Text) : ℕ := data.size + 2 ^ 31

theorem limit_lt (data : Text) : limit data + 2 < 2 ^ 64 := by
  have hfits := data.fits
  unfold limit Text.size
  omega

/-- Conversions throw exceptions only. -/
theorem stoi_error {s : Bytes} {e : Stop} (h : stoi s = .error e) : e ≠ .out_of_bounds := by
  unfold stoi at h
  split at h
  · obtain rfl := Except.error.inj h
    exact nofun
  · split_ifs at h
    obtain rfl := Except.error.inj h
    exact nofun

theorem stoll_error {s : Bytes} {e : Stop} (h : stoll s = .error e) : e ≠ .out_of_bounds := by
  unfold stoll at h
  split at h
  · obtain rfl := Except.error.inj h
    exact nofun
  · split_ifs at h
    obtain rfl := Except.error.inj h
    exact nofun

theorem stoi_fits {s : Bytes} {n : ℤ} (h : stoi s = .ok n) : strtol s = some n ∧ FitsInt n := by
  unfold stoi at h
  split at h
  · cases h
  · rename_i m hm
    split_ifs at h with hfit
    obtain rfl := Except.ok.inj h
    exact ⟨hm, hfit⟩

theorem at_pos_ok (h : pos ≤ data.size) : ∃ c, data.at_pos pos = .ok c := by
  unfold Text.at_pos
  cases hb : data.bytes[pos]? with
  | some b => exact ⟨b, rfl⟩
  | none =>
    have := List.getElem?_eq_none_iff.mp hb
    unfold Text.size at h ⊢
    exact ⟨0, if_pos (by omega)⟩

theorem at_pos_of_getElem? {c : UInt8} (h : data.bytes[pos]? = some c) :
    data.at_pos pos = .ok c ∧ pos < data.size := by
  refine ⟨?_, (List.getElem?_eq_some_iff.mp h).1⟩
  unfold Text.at_pos
  rw [h]

/-- A string that is read ends further on. -/
theorem read_string_ends (hin : pos ≤ data.size) (hadv : Advances data pos) :
    Ends Prod.snd (pos + 1) (limit data) fun _ => (liftM (read_string data pos) : Parse _) := by
  have hfits := data.fits
  unfold read_string
  cases hfind : data.find ':'.toUInt8 pos with
  | none =>
    obtain ⟨c, hc⟩ := at_pos_ok hin
    dsimp only
    rw [hc]
    refine .throws (.runtime_error _) ?_ ⟨0, rfl⟩
    exact nofun
  | some colon =>
    have hcolon := Text.find_bounds hfind
    dsimp only
    cases hlen : stoi (data.substr pos (colon - pos)) with
    | error e => exact .throws e (stoi_error hlen) ⟨0, rfl⟩
    | ok len =>
      -- where the string ends, which is after `pos` by the guard
      have hgo := hadv colon hfind len (by rw [hlen]; rfl)
      have hfit := (stoi_fits hlen).2.2
      have hend : size_t ((colon + 1 : ℕ) + len) = ((colon + 1 : ℕ) + len).toNat := by
        unfold Text.size at hcolon
        exact size_t_of_lt (by omega) (by omega)
      refine .returns _ ⟨0, rfl⟩ ?_ ?_
      · show pos + 1 ≤ size_t ((colon + 1 : ℕ) + len)
        rw [hend]
        omega
      · show size_t ((colon + 1 : ℕ) + len) ≤ limit data
        rw [hend]
        unfold limit
        omega

/-- A number that starts with a digit is not negative. -/
theorem strtol_nonneg {b : UInt8} {r : Bytes} {n : ℤ} (hb : is_digit b = true)
    (h : strtol (b :: r) = some n) : 0 ≤ n := by
  obtain ⟨hspace, hminus, hplus⟩ := digit_not_space hb
  unfold strtol at h
  rw [List.dropWhile_cons_of_neg (by rw [hspace]; decide)] at h
  dsimp only at h
  rw [if_neg hminus, if_neg hplus] at h
  split_ifs at h
  rw [← Option.some.inj h]
  exact Int.natCast_nonneg _

/-- A string `skip_value` goes over has no negative length. -/
theorem advances_of_digit {c : UInt8} (hc : data.bytes[pos]? = some c)
    (hdigit : is_digit c = true) : Advances data pos := by
  intro colon hcolon len hlen
  have hle := (Text.find_bounds hcolon).1
  have hstoi : stoi (data.substr pos (colon - pos)) = .ok len := by
    cases hs : stoi (data.substr pos (colon - pos)) with
    | error e => rw [hs] at hlen; cases hlen
    | ok n => rw [hs] at hlen; exact congrArg _ (Option.some.inj hlen)
  have hnum := (stoi_fits hstoi).1
  have hdrop := Text.drop_of_get hc
  -- a length is at least one byte, or `stoi` throws
  cases hk : colon - pos with
  | zero =>
    rw [hk] at hnum
    unfold Text.substr at hnum
    rw [slice_zero] at hnum
    cases hnum
  | succ k =>
    unfold Text.substr slice at hnum
    rw [hk, hdrop, List.take_succ_cons] at hnum
    have := strtol_nonneg hdigit hnum
    omega

/-- An integer ends at its `e`, which lies further on. -/
theorem read_integer_ends (hpos : pos ≤ limit data) :
    Ends Prod.snd (pos + 1) (limit data) fun _ => (liftM (read_integer data pos) : Parse _) := by
  have hlimit := limit_lt data
  have hstart : size_t ((pos : ℤ) + 1) = pos + 1 := by
    exact_mod_cast size_t_natCast (n := pos + 1) (by omega)
  unfold read_integer
  rw [hstart]
  dsimp only
  cases hfind : data.find 'e'.toUInt8 (pos + 1) with
  | none =>
    refine .throws (.runtime_error _) ?_ ⟨0, rfl⟩
    exact nofun
  | some stop =>
    have hstop := Text.find_bounds hfind
    dsimp only
    cases hnum : stoll (data.substr (pos + 1) (stop - (pos + 1))) with
    | error e => exact .throws e (stoll_error hnum) ⟨0, rfl⟩
    | ok n =>
      refine .returns _ ⟨0, rfl⟩ ?_ ?_
      · show pos + 1 ≤ stop + 1
        omega
      · show stop + 1 ≤ limit data
        unfold limit
        omega

/-- An integer that is skipped, where it has an `e`. -/
theorem skip_integer_ends (hpos : pos ≤ data.size)
    (hend : data.find 'e'.toUInt8 (pos + 1) ≠ none) :
    Ends (fun pos => pos) (pos + 1) (limit data)
      fun _ => (liftM (skip_integer data pos) : Parse ℕ) := by
  have hfits := data.fits
  have hstart : size_t ((pos : ℤ) + 1) = pos + 1 := by
    unfold Text.size at hpos
    exact_mod_cast size_t_natCast (n := pos + 1) (by omega)
  obtain ⟨stop, hfind⟩ := Option.ne_none_iff_exists'.mp hend
  have hstop := Text.find_bounds hfind
  have hnext : size_t ((stop : ℤ) + 1) = stop + 1 := by
    unfold Text.size at hstop
    exact_mod_cast size_t_natCast (n := stop + 1) (by omega)
  unfold skip_integer
  rw [hstart]
  dsimp only
  rw [hfind, Option.getD_some, hnext, if_neg (by unfold Text.npos Text.size at *; omega)]
  refine .returns _ ⟨0, rfl⟩ ?_ ?_
  · show pos + 1 ≤ stop + 1
    omega
  · show stop + 1 ≤ limit data
    unfold limit
    omega

/-! ## Skipping -/

section skip

open Walk

variable {rest : List Task} {lo : ℕ}

/-- A value that is skipped ends further on, if it is one; the loop it may run
    is assumed to do so. -/
theorem skip_value_ends (hw : AllForward data ⟨pos, .value :: rest⟩)
    (hitems : ∀ rest, AllForward data ⟨pos + 1, .items :: rest⟩ →
      Ends (fun pos => pos) (pos + 1) (limit data) fun n => skip_items data n (pos + 1))
    (hlo : lo ≤ pos + 1) (hjunk : (∀ c ∈ data.bytes[pos]?, ¬ Begins c) → lo ≤ pos) :
    Ends (fun pos => pos) lo (limit data) fun n => skip_value data n pos := by
  have hfits := data.fits
  obtain ⟨hin, hint⟩ : pos ≤ data.size ∧ (data.bytes[pos]? = some 'i'.toUInt8 →
    data.find 'e'.toUInt8 (pos + 1) ≠ none) := hw.now
  obtain ⟨c, hc⟩ := at_pos_ok hin
  have hstep := step_value rest hc
  -- the byte is one of the data, unless it is the 0 at the end
  have hbyte : data.bytes[pos]? = some c ∨ data.bytes[pos]? = none ∧ c = 0 := by
    unfold Text.at_pos at hc
    split at hc
    · rename_i b hb
      obtain rfl := Except.ok.inj hc
      exact .inl hb
    · rename_i hb
      split_ifs at hc
      exact .inr ⟨hb, (Except.ok.inj hc).symm⟩
  have hsome : Begins c → data.bytes[pos]? = some c := by
    intro hb
    rcases hbyte with h | ⟨-, rfl⟩
    · exact h
    · exact absurd hb (by unfold Begins; decide)
  -- the four cases of `skip_value`
  by_cases hi : c = 'i'.toUInt8
  · refine .of_succ (fun _ => liftM (skip_integer data pos)) ?_ ?_
    · intro n
      rw [skip_value, hc, lift_ok_bind, if_pos hi]
    · exact (skip_integer_ends hin (hint (hi ▸ hsome (.inl hi)))).mono hlo le_rfl
  by_cases hd : is_digit c = true
  · refine .of_succ (fun _ => liftM (read_string data pos) >>= fun a => pure a.2) ?_ ?_
    · intro n
      rw [skip_value, hc, lift_ok_bind, if_neg hi, if_pos hd]
    · have hread := read_string_ends hin (advances_of_digit (hsome (.inr (.inl hd))) hd)
      refine hread.bind (fun _ _ _ => Below.refl _) (fun _ _ _ _ => Below.refl _) ?_
      intro a _ h₁ h₂
      exact .pure (hlo.trans h₁) h₂
  by_cases hl : c = 'l'.toUInt8 ∨ c = 'd'.toUInt8
  · have hlt : pos < data.size := by
      obtain ⟨hlt, -⟩ := List.getElem?_eq_some_iff.mp (hsome (.inr (.inr hl)))
      exact hlt
    rw [if_neg hi, if_neg hd, if_pos hl, size_t_succ hlt] at hstep
    refine .of_succ (fun n => skip_items data n (pos + 1)) ?_ ?_
    · intro n
      rw [skip_value, hc, lift_ok_bind, if_neg hi, if_neg hd, if_pos hl, size_t_succ hlt]
    · exact (hitems rest (hw.step hstep)).mono hlo le_rfl
  · refine .of_succ (fun _ => pure pos) ?_ ?_
    · intro n
      rw [skip_value, hc, lift_ok_bind, if_neg hi, if_neg hd, if_neg hl]
    · refine .pure (hjunk fun b hb => ?_) (by unfold limit; omega)
      rcases hbyte with h | ⟨h, -⟩
      · obtain rfl : c = b := Option.some.inj (h.symm.trans hb)
        rintro (h | h | h)
        · exact hi h
        · exact hd h
        · exact hl h
      · rw [h] at hb
        cases hb

/-- The loop of `skip_value`: the induction is on how much data is left. -/
theorem skip_items_ends (k : ℕ) : ∀ pos rest, data.size - pos ≤ k →
    AllForward data ⟨pos, .items :: rest⟩ →
      Ends (fun pos => pos) pos (limit data) fun n => skip_items data n pos := by
  induction k with
  | zero =>
    intro pos rest hk hw
    obtain ⟨c, hc, -⟩ : ∃ c ∈ data.bytes[pos]?, c = 'e'.toUInt8 ∨ Begins c := hw.now
    have := (at_pos_of_getElem? hc).2
    omega
  | succ k ih =>
    intro pos rest hk hw
    obtain ⟨c, hc, hbegin⟩ : ∃ c ∈ data.bytes[pos]?, c = 'e'.toUInt8 ∨ Begins c := hw.now
    obtain ⟨hat, hlt⟩ := at_pos_of_getElem? hc
    have hstep := step_items rest hat
    by_cases he : c = 'e'.toUInt8
    · refine .of_succ (fun _ => pure (pos + 1)) ?_ ?_
      · intro n
        rw [skip_items, hat, lift_ok_bind, if_pos he, size_t_succ hlt]
      · exact .pure (Nat.le_succ pos) (by unfold limit; omega)
    · rw [if_neg he] at hstep
      have hv := hw.step hstep
      refine .of_succ (fun n => skip_value data n pos >>= skip_items data n) ?_ ?_
      · intro n
        rw [skip_items, hat, lift_ok_bind, if_neg he]
      -- a byte that begins a value: the round goes on past it
      · have hvalue : Ends (fun pos => pos) (pos + 1) (limit data)
            fun n => skip_value data n pos := by
          refine skip_value_ends hv (fun rest' h => ?_) le_rfl fun hjunk => ?_
          · exact ih (pos + 1) rest' (by omega) h
          · exact absurd (hbegin.resolve_left he) (hjunk c hc)
        refine hvalue.bind (skip_value_monotone pos) (fun pos => skip_items_monotone pos) ?_
        -- less data is left for the next round
        intro pos' hy h₁ h₂
        obtain ⟨n, hn⟩ := hy
        have hnext := hv.reaches ((skip_leads n).1 pos (.items :: rest) _ hn)
        exact (ih pos' rest (by omega) hnext).mono (by omega) le_rfl

/-- A value, wherever the walk is. -/
theorem skip_value_ends_here (hw : AllForward data ⟨pos, .value :: rest⟩) :
    Ends (fun pos => pos) pos (limit data) fun n => skip_value data n pos :=
  skip_value_ends hw (fun rest' h => skip_items_ends _ _ rest' le_rfl h) (Nat.le_succ pos)
    fun _ => le_rfl

end skip

/-! ## Dictionaries -/

section loop

open Walk

variable {σ : Type} {d : Dict} {field : ℕ → Bytes → ℕ → σ → Parse (ℕ × σ)} {hi : ℕ}

/-- The handling of a value does not go back, when that of `info` does not. -/
theorem field_ends (hr : Reads data d field) (hhi : limit data ≤ hi)
    (hinfo : (∃ key, d.reading key = .info) → ∀ pos u rest, pos ≤ limit data →
      AllForward data ⟨size_t (pos + 1), .keys .info :: .close :: rest⟩ →
        Ends Prod.fst pos hi fun n => parse_info_dict data n pos u)
    {key : Bytes} {t : σ} {rest : List Task} (hpos : pos ≤ limit data)
    (hw : AllForward data ⟨pos, .field d key :: rest⟩) :
    Ends Prod.fst pos hi fun n => field n key pos t := by
  have hstep : step data ⟨pos, .field d key :: rest⟩ = _ := step_field rest
  cases hkey : d.reading key with
  | string =>
    obtain ⟨hin, hadv⟩ : pos ≤ data.size ∧ Advances data pos := hw.now hkey
    obtain ⟨g, hg⟩ := hr.string key hkey t
    simp only [hg]
    refine (read_string_ends hin hadv).bind (fun _ _ _ => Below.refl _)
      (fun _ _ _ _ => Below.refl _) fun a _ h₁ h₂ => ?_
    exact .pure (show pos ≤ a.2 by omega) (h₂.trans hhi)
  | integer =>
    obtain ⟨g, hg⟩ := hr.integer key hkey t
    simp only [hg]
    refine (read_integer_ends hpos).bind (fun _ _ _ => Below.refl _)
      (fun _ _ _ _ => Below.refl _) fun a _ h₁ h₂ => ?_
    exact .pure (show pos ≤ a.2 by omega) (h₂.trans hhi)
  | info =>
    rw [hkey] at hstep
    obtain ⟨u, g, hg⟩ := hr.info key hkey pos t
    simp only [hg]
    refine (hinfo ⟨key, hkey⟩ pos u rest hpos (hw.step hstep)).bind (parse_info_dict_monotone pos u)
      (fun _ _ _ _ => Below.refl _) fun a _ h₁ h₂ => ?_
    exact .pure h₁ h₂
  | skip =>
    rw [hkey] at hstep
    simp only [hr.skip key hkey t]
    refine (skip_value_ends_here (hw.step hstep)).bind (skip_value_monotone pos)
      (fun _ _ _ _ => Below.refl _) fun pos' _ h₁ h₂ => ?_
    exact .pure h₁ (h₂.trans hhi)

/-- **A loop over keys**: every round ends further on than it began; the
    induction is on how much data is left. -/
theorem dict_loop_ends
    (hmono : ∀ key pos t, FuelMonotone fun n => field n key pos t)
    (hleads : ∀ fuel key pos t rest r, (field fuel key pos t).run = some r →
      Leads data ⟨pos, .field d key :: rest⟩ rest (r.map Prod.fst))
    (hfield : ∀ key pos t rest, pos ≤ limit data →
      AllForward data ⟨pos, .field d key :: rest⟩ →
        Ends Prod.fst pos hi fun n => field n key pos t) (k : ℕ) :
    ∀ pos t rest, data.size - pos ≤ k → pos ≤ hi →
      AllForward data ⟨pos, .keys d :: rest⟩ →
        Ends Prod.fst pos hi fun n => dict_loop data field n pos t := by
  induction k with
  | zero =>
    intro pos t rest hk hpos _
    have hend : ¬ (pos < data.size ∧ data.bytes[pos]? ≠ some 'e'.toUInt8) := by omega
    refine .of_succ (fun _ => pure (pos, t)) ?_ (.pure le_rfl hpos)
    intro n
    rw [dict_loop, if_neg hend]
  | succ k ih =>
    intro pos t rest hk hpos hw
    by_cases hkey : pos < data.size ∧ data.bytes[pos]? ≠ some 'e'.toUInt8
    · have hstep := step_keys rest (d := d) hkey
      refine .of_succ (fun n => liftM (read_string data pos) >>= fun a =>
        field n a.1 a.2 t >>= fun b => dict_loop data field n b.1 b.2) ?_ ?_
      · intro n
        rw [dict_loop, if_pos hkey]
      -- the key takes the position on, the value does not take it back
      have hadv : Advances data pos := hw.now hkey
      refine (read_string_ends hkey.1.le hadv).bind
        (g := fun n a => field n a.1 a.2 t >>= fun b => dict_loop data field n b.1 b.2)
        (fun _ _ _ => Below.refl _) ?_ ?_
      · intro a n m hnm
        exact (hmono a.1 a.2 t n m hnm).bind fun b => dict_loop_monotone hmono b.1 b.2 n m hnm
      intro a hy h₁ h₂
      obtain ⟨key, pos'⟩ := a
      obtain ⟨n, hn⟩ := hy
      rw [show read_string data pos = .ok (key, pos') from Option.some.inj hn] at hstep
      have hvalue := hw.step hstep
      refine (hfield key pos' t _ h₂ hvalue).bind (hmono key pos' t)
        (fun b => dict_loop_monotone hmono b.1 b.2) ?_
      intro b hy h₃ h₄
      obtain ⟨n, hn⟩ := hy
      have hnext := hvalue.reaches (hleads n key pos' t _ _ hn)
      have h₅ : pos + 1 ≤ pos' := h₁
      exact (ih b.1 b.2 rest (by omega) h₄ hnext).mono (by omega) le_rfl
    · refine .of_succ (fun _ => pure (pos, t)) ?_ (.pure le_rfl hpos)
      intro n
      rw [dict_loop, if_neg hkey]

end loop

end BitTorrentLite
