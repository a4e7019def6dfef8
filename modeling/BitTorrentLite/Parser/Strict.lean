import BitTorrentLite.Parser.Progress

/-! # Strict Walks

    The parser takes more than bencode. `stoi` and `stoll` skip white space
    and stop at what is no digit, `substr` stops at the end of the data, and so
    does a loop over keys; the bytes `i` and `d` before an integer or an info
    dictionary are passed over, whatever they are; `skip_value` does nothing at
    a byte that starts no value, and takes a dictionary for a list.

    A walk is strict where none of this is made use of. The stack of a walk does
    not tell a skipped dictionary from a skipped list, so the walk is followed
    together with marks, which say for each of them what comes next in it.
-/

open Machine Region Bencode Relation

namespace BitTorrentLite

/-! ## Strings and Integers -/

/-- The string at `pos`, where it is read, has a length of digits only, and
    all the bytes it announces. -/
def PlainString (data : Text) (pos : ℕ) : Prop :=
  ∀ colon ∈ data.find ':'.toUInt8 pos,
    ∀ len ∈ (stoi (data.substr pos (colon - pos))).toOption,
      is_numeral (data.substr pos (colon - pos)) = true ∧ colon + 1 + len ≤ data.size

/-- The integer at `pos`, where it is read, starts with `i`, and is one. -/
def PlainInteger (data : Text) (pos : ℕ) : Prop :=
  ∀ stop ∈ data.find 'e'.toUInt8 (pos + 1),
    ∀ _n ∈ (stoll (data.substr (pos + 1) (stop - (pos + 1)))).toOption,
      data.bytes[pos]? = some 'i'.toUInt8 ∧
        is_integer (data.substr (pos + 1) (stop - (pos + 1))) = true

/-- The integer that is skipped at `pos` has an end, and is one. -/
def PlainSkip (data : Text) (pos : ℕ) : Prop :=
  ∃ stop ∈ data.find 'e'.toUInt8 (pos + 1),
    is_integer (data.substr (pos + 1) (stop - (pos + 1))) = true

/-- What is read of the value of a key is bencode. -/
def Reading.Plain (data : Text) (pos : ℕ) : Reading → Prop
  | .string => PlainString data pos
  | .integer => PlainInteger data pos
  | .info => data.bytes[pos]? = some 'd'.toUInt8
  | .skip => True

section calls

variable {data : Text} {pos p : ℕ} {r : Bytes}

theorem mem_toOption {α : Type} {x : Except Stop α} {a : α} (h : x = .ok a) :
    a ∈ x.toOption := by
  rw [h]
  rfl

theorem ok_of_mem_toOption {α : Type} {x : Except Stop α} {a : α} (h : a ∈ x.toOption) :
    x = .ok a := by
  cases x with
  | error e => cases h
  | ok b => exact congrArg _ (Option.some.inj h)

theorem stoi_numeral {ds : Bytes} {len : ℤ} (hds : Numeral (number ds) ds)
    (h : stoi ds = .ok len) : len = number ds := by
  have hnum := (stoi_fits h).1
  rw [strtol_digits hds.nonempty hds.digits] at hnum
  exact (Option.some.inj hnum).symm

/-- What `read_string` has found when it returns. -/
theorem read_string_ok {a : Bytes × ℕ} (h : read_string data pos = .ok a) :
    ∃ colon len, data.find ':'.toUInt8 pos = some colon ∧
      stoi (data.substr pos (colon - pos)) = .ok len ∧
      a = (data.substr (colon + 1) (size_t len), size_t ((colon + 1 : ℕ) + len)) := by
  unfold read_string at h
  cases hfind : data.find ':'.toUInt8 pos with
  | none =>
    rw [hfind] at h
    dsimp only at h
    cases hat : data.at_pos pos <;> rw [hat] at h <;> cases h
  | some colon =>
    rw [hfind] at h
    dsimp only at h
    cases hlen : stoi (data.substr pos (colon - pos)) with
    | error e =>
      rw [hlen] at h
      cases h
    | ok len =>
      rw [hlen] at h
      exact ⟨colon, len, rfl, hlen, (Except.ok.inj h).symm⟩

theorem read_integer_ok {a : ℤ × ℕ} (h : read_integer data pos = .ok a) :
    ∃ stop n, data.find 'e'.toUInt8 (size_t (pos + 1)) = some stop ∧
      stoll (data.substr (size_t (pos + 1)) (stop - size_t (pos + 1))) = .ok n ∧
      a = (n, stop + 1) := by
  unfold read_integer at h
  dsimp only at h
  cases hfind : data.find 'e'.toUInt8 (size_t (pos + 1)) with
  | none =>
    rw [hfind] at h
    cases h
  | some stop =>
    rw [hfind] at h
    dsimp only at h
    cases hnum : stoll (data.substr (size_t (pos + 1)) (stop - size_t (pos + 1))) with
    | error e =>
      rw [hnum] at h
      cases h
    | ok n =>
      rw [hnum] at h
      exact ⟨stop, n, rfl, hnum, (Except.ok.inj h).symm⟩

theorem stoll_spelled {n m : ℤ} {ds : Bytes} (hn : SpellsInt n ds) (h : stoll ds = .ok m) :
    m = n := by
  unfold stoll at h
  rw [strtol_spelled hn] at h
  dsimp only at h
  split_ifs at h
  exact (Except.ok.inj h).symm

/-- A plain string that is read is spelled in the data. -/
theorem PlainString.spelled {s : Bytes} (h : PlainString data pos)
    (hread : read_string data pos = .ok (s, p)) :
    ∃ bs, SpellsStr s bs ∧ data.Spans pos p bs := by
  have hfits := data.fits
  obtain ⟨colon, len, hfind, hlen, heq⟩ := read_string_ok hread
  obtain ⟨hnumeral, hin⟩ := h colon hfind len (mem_toOption hlen)
  have hds := is_numeral_iff.mp hnumeral
  obtain rfl := stoi_numeral hds hlen
  obtain ⟨rfl, rfl⟩ := Prod.mk.inj heq
  have hlength := Text.spans_find hfind
  generalize data.substr pos (colon - pos) = ds at *
  generalize number ds = k at *
  -- the announced bytes are there, and the position does not wrap
  have hbytes : data.Spans (colon + 1) (colon + 1 + k) _ := Text.spans_substr (by omega)
  have hk : k = (data.substr (colon + 1) k).length := by
    have := hbytes.stop
    omega
  unfold Text.size at hin
  have hend : size_t ((colon + 1 : ℕ) + (k : ℤ)) = colon + 1 + k := by
    rw [← Nat.cast_add]
    exact size_t_natCast (by omega)
  rw [size_t_natCast (by omega), hend]
  have hall := hlength.trans hbytes
  rw [List.append_assoc] at hall
  exact ⟨_, .mk (hk ▸ hds), hall⟩

/-- A plain integer that is read is spelled in the data. -/
theorem PlainInteger.spelled {n : ℤ} (h : PlainInteger data pos) (hpos : pos ≤ data.size)
    (hread : read_integer data pos = .ok (n, p)) :
    ∃ bs, Spells (.int n) bs ∧ data.Spans pos p bs := by
  have hfits := data.fits
  have hstart : size_t ((pos : ℤ) + 1) = pos + 1 := by
    unfold Text.size at hpos
    exact_mod_cast size_t_natCast (n := pos + 1) (by omega)
  obtain ⟨stop, m, hfind, hnum, heq⟩ := read_integer_ok hread
  rw [hstart] at hfind hnum
  obtain ⟨hi, hinteger⟩ := h stop hfind m (mem_toOption hnum)
  obtain ⟨k, hk⟩ := spellsInt_of_is_integer hinteger
  obtain rfl := stoll_spelled hk hnum
  obtain ⟨rfl, rfl⟩ := Prod.mk.inj heq
  have hfirst := Text.Spans.of_drop (l := ['i'.toUInt8]) (Text.drop_of_get hi)
  exact ⟨_, .int hk, hfirst.trans (Text.spans_find hfind)⟩

/-- A plain integer that is skipped is spelled in the data. -/
theorem PlainSkip.spelled (h : PlainSkip data pos) (hi : data.bytes[pos]? = some 'i'.toUInt8)
    (hskip : skip_integer data pos = .ok p) :
    ∃ n bs, Spells (.int n) bs ∧ data.Spans pos p bs := by
  obtain ⟨stop, hfind, hinteger⟩ := h
  obtain ⟨n, hn⟩ := spellsInt_of_is_integer hinteger
  have hfirst := Text.Spans.of_drop (l := ['i'.toUInt8]) (Text.drop_of_get hi)
  have hall := hfirst.trans (Text.spans_find hfind)
  have hdrop : data.bytes.drop pos = 'i'.toUInt8 ::
      (data.substr (pos + 1) (stop - (pos + 1)) ++ 'e'.toUInt8 :: data.bytes.drop (stop + 1)) := by
    simpa using hall.drop
  have hread := skip_integer_spelled hn hdrop
  have hp : p = stop + 1 := by
    have hlen := hall.stop
    rw [List.length_append, List.length_append] at hlen
    have := Except.ok.inj (hskip.symm.trans hread)
    simp only [List.length_cons, List.length_nil, Nat.zero_add] at hlen
    omega
  exact ⟨n, _, .int hn, hp ▸ hall⟩

/-! ### What Is Spelled Is Plain -/

theorem plainString_of_spelled {s bs : Bytes} (hs : SpellsStr s bs)
    (h : data.bytes.drop pos = bs ++ r) : PlainString data pos := by
  intro colon hcolon len hlen
  have hread := read_string_spelled hs h
  obtain ⟨hds⟩ := hs
  rename_i ds
  have hin := h
  rw [List.append_assoc, List.cons_append] at hin
  obtain rfl := Option.some.inj ((Text.find_of_drop hin (hds.not_mem (by decide))).symm.trans hcolon)
  have hlt := (Text.find_bounds hcolon).2
  rw [Nat.add_sub_cancel_left, Text.substr_of_drop hin] at hlen ⊢
  refine ⟨hds.is_numeral, ?_⟩
  have heq := stoi_numeral ⟨hds.nonempty, hds.digits, rfl⟩ (ok_of_mem_toOption hlen)
  have hsize := size_of_drop (by omega) (Text.drop_succ (Text.drop_after hin))
  rw [hds.value] at heq
  rw [List.length_append] at hsize
  omega

theorem plain_of_spelled_int {n : ℤ} {ds : Bytes} (hn : SpellsInt n ds)
    (h : data.bytes.drop pos = 'i'.toUInt8 :: (ds ++ 'e'.toUInt8 :: r)) :
    PlainInteger data pos ∧ PlainSkip data pos := by
  obtain ⟨-, hds, hfind⟩ := find_end hn h
  have hinteger : is_integer (data.substr (pos + 1) (pos + 1 + ds.length - (pos + 1))) = true := by
    rw [Nat.add_sub_cancel_left, hds]
    exact hn.is_integer
  refine ⟨fun stop hstop _ _ => ⟨Text.get_of_drop h, ?_⟩, _, hfind, hinteger⟩
  obtain rfl := Option.some.inj (hfind.symm.trans hstop)
  exact hinteger

end calls

/-! ## Trails -/

/-- What comes next in a list or a dictionary that is skipped. -/
inductive Mark where
  | item
  | key
  | value
  deriving DecidableEq

namespace Mark

/-- After one more value. -/
def next : Mark → Mark
  | .item => .item
  | .key => .value
  | .value => .key

/-- The bytes it may go on with: a dictionary ends before a key only. -/
def Allows : Mark → UInt8 → Prop
  | .item, c => c = 'e'.toUInt8 ∨ Begins c
  | .key, c => c = 'e'.toUInt8 ∨ is_digit c = true
  | .value, c => Begins c

end Mark

/-- A walk, with a mark for each list or dictionary it skips, the innermost first. -/
structure Trail where
  walk : Walk
  marks : List Mark

namespace Trail

variable (data : Text)

/-- The marks after the next step. -/
def marks_after (t : Trail) : List Mark :=
  match t.walk.tasks, t.marks with
  | .value :: _, ms =>
    if data.bytes[t.walk.pos]? = some 'l'.toUInt8 then .item :: ms
    else if data.bytes[t.walk.pos]? = some 'd'.toUInt8 then .key :: ms
    else ms
  | .items :: _, m :: ms =>
    if data.bytes[t.walk.pos]? = some 'e'.toUInt8 then ms else m.next :: ms
  | _, ms => ms

def step (t : Trail) : Option (Except Stop Trail) :=
  (t.walk.step data).map fun x => x.map fun w => ⟨w, t.marks_after data⟩

/-- Some number of steps lead from one trail to another. -/
def Reaches (t t' : Trail) : Prop := ReflTransGen (fun t t' => t.step data = some (.ok t')) t t'

/-- The next step takes nothing but bencode. -/
def Strict (t : Trail) : Prop :=
  match t.walk.tasks with
  | .keys _ :: _ =>
    -- the loop does not end where the data does
    ∃ c ∈ data.bytes[t.walk.pos]?, c ≠ 'e'.toUInt8 → PlainString data t.walk.pos
  | .field d key :: _ => t.walk.pos ≤ data.size ∧ (d.reading key).Plain data t.walk.pos
  | .value :: _ => ∃ c ∈ data.bytes[t.walk.pos]?,
    (c = 'i'.toUInt8 ∧ PlainSkip data t.walk.pos) ∨
      (is_digit c = true ∧ PlainString data t.walk.pos) ∨ c = 'l'.toUInt8 ∨ c = 'd'.toUInt8
  | .items :: _ => ∃ c ∈ data.bytes[t.walk.pos]?, ∃ m ∈ t.marks.head?, m.Allows c
  | _ => True

/-- Every step of the trail is strict. -/
def AllStrict (t : Trail) : Prop := ∀ t', Reaches data t t' → t'.Strict data

/-- The trail of `parse_torrent` at its start. -/
def start : Trail := ⟨Walk.torrent_start, []⟩

end Trail

/-- The data starts with the `d` that `parse_torrent` passes over, and none of
    the steps after it is lenient. -/
def StrictlyRead (data : Text) : Prop :=
  data.bytes[0]? = some 'd'.toUInt8 ∧ Trail.start.AllStrict data

namespace Trail

variable {data : Text} {t t' : Trail} {w w' : Walk} {ms : List Mark}

theorem AllStrict.now (h : t.AllStrict data) : t.Strict data := h t ReflTransGen.refl

theorem step_of_walk (h : t.walk.step data = some (.ok w')) :
    t.step data = some (.ok ⟨w', t.marks_after data⟩) := by
  unfold step
  rw [h]
  rfl

/-- The trail after a step is as strict. -/
theorem AllStrict.step (h : t.AllStrict data) (hstep : t.step data = some (.ok t')) :
    t'.AllStrict data := fun _ hv => h _ (ReflTransGen.head hstep hv)

/-- A strict step before a strict trail. -/
theorem AllStrict.of_step (h : t.Strict data)
    (hstep : ∀ t', t.step data = some (.ok t') → t'.AllStrict data) : t.AllStrict data := by
  intro v hv
  rcases ReflTransGen.cases_head hv with rfl | ⟨u, hu, huv⟩
  · exact h
  · exact hstep u hu v huv

/-! ### What a Step Does -/

section step

variable {pos : ℕ} {c : UInt8} (rest : List Task) (ms : List Mark)

/-- A value that is skipped, by its first byte. -/
theorem value_step (hc : data.bytes[pos]? = some c) :
    step data ⟨⟨pos, .value :: rest⟩, ms⟩ = some (
      if c = 'i'.toUInt8 then (skip_integer data pos).map fun p => ⟨⟨p, rest⟩, ms⟩
      else if is_digit c then (read_string data pos).map fun a => ⟨⟨a.2, rest⟩, ms⟩
      else if c = 'l'.toUInt8 then .ok ⟨⟨pos + 1, .items :: rest⟩, .item :: ms⟩
      else if c = 'd'.toUInt8 then .ok ⟨⟨pos + 1, .items :: rest⟩, .key :: ms⟩
      else .ok ⟨⟨pos, rest⟩, ms⟩) := by
  obtain ⟨hat, hlt⟩ := at_pos_of_getElem? hc
  have hmarks : marks_after data ⟨⟨pos, .value :: rest⟩, ms⟩
      = if c = 'l'.toUInt8 then .item :: ms else if c = 'd'.toUInt8 then .key :: ms else ms := by
    simp only [marks_after, hc, Option.some.injEq]
  unfold Trail.step
  dsimp only
  rw [Walk.step_value rest hat, hmarks, size_t_succ hlt]
  by_cases hi : c = 'i'.toUInt8
  · subst hi
    cases skip_integer data pos <;> rfl
  by_cases hd : is_digit c = true
  · have hne : c ≠ 'l'.toUInt8 ∧ c ≠ 'd'.toUInt8 := by
      constructor <;> (rintro rfl; revert hd; decide)
    rw [if_neg hi, if_pos hd, if_neg hi, if_pos hd, if_neg hne.1, if_neg hne.2]
    cases read_string data pos <;> rfl
  by_cases hl : c = 'l'.toUInt8
  · subst hl
    rfl
  by_cases hdict : c = 'd'.toUInt8
  · subst hdict
    rfl
  · have hnot : ¬ (c = 'l'.toUInt8 ∨ c = 'd'.toUInt8) := not_or.mpr ⟨hl, hdict⟩
    simp only [if_neg hi, if_neg hd, if_neg hl, if_neg hdict, if_neg hnot]
    rfl

/-- A round of the loop of `skip_value`. -/
theorem items_step {m : Mark} (hc : data.bytes[pos]? = some c) :
    step data ⟨⟨pos, .items :: rest⟩, m :: ms⟩ = some (
      if c = 'e'.toUInt8 then .ok ⟨⟨pos + 1, rest⟩, ms⟩
      else .ok ⟨⟨pos, .value :: .items :: rest⟩, m.next :: ms⟩) := by
  obtain ⟨hat, hlt⟩ := at_pos_of_getElem? hc
  have hmarks : marks_after data ⟨⟨pos, .items :: rest⟩, m :: ms⟩
      = if c = 'e'.toUInt8 then ms else m.next :: ms := by
    simp only [marks_after, hc, Option.some.injEq]
  unfold Trail.step
  dsimp only
  rw [Walk.step_items rest hat, hmarks, size_t_succ hlt]
  split_ifs <;> rfl

/-- The next key of a dictionary, and its value. -/
theorem keys_step {d : Dict} (hpos : pos < data.size ∧ data.bytes[pos]? ≠ some 'e'.toUInt8) :
    step data ⟨⟨pos, .keys d :: rest⟩, ms⟩ = some ((read_string data pos).map fun a =>
      ⟨⟨a.2, .field d a.1 :: .keys d :: rest⟩, ms⟩) := by
  unfold Trail.step
  dsimp only
  rw [Walk.step_keys rest hpos]
  cases read_string data pos <;> rfl

theorem keys_step_end {d : Dict} (hpos : data.bytes[pos]? = some 'e'.toUInt8) :
    step data ⟨⟨pos, .keys d :: rest⟩, ms⟩ = some (.ok ⟨⟨pos, rest⟩, ms⟩) := by
  unfold Trail.step
  dsimp only
  rw [Walk.step_keys_end rest fun h => h.2 hpos]
  rfl

theorem field_step {d : Dict} {key : Bytes} :
    step data ⟨⟨pos, .field d key :: rest⟩, ms⟩ = some (
      match d.reading key with
      | .string => (read_string data pos).map fun a => ⟨⟨a.2, rest⟩, ms⟩
      | .integer => (read_integer data pos).map fun a => ⟨⟨a.2, rest⟩, ms⟩
      | .info => .ok ⟨⟨size_t (pos + 1), .keys .info :: .close :: rest⟩, ms⟩
      | .skip => .ok ⟨⟨pos, .value :: rest⟩, ms⟩) := by
  unfold Trail.step
  dsimp only
  rw [Walk.step_field]
  cases d.reading key with
  | string => cases read_string data pos <;> rfl
  | integer => cases read_integer data pos <;> rfl
  | info => rfl
  | skip => rfl

end step

/-! ### A Strict Walk Goes Forward -/

/-- A walk has its trail. -/
theorem reaches_of_walk (h : Walk.Reaches data w w') :
    ∀ ms, ∃ ms', Reaches data ⟨w, ms⟩ ⟨w', ms'⟩ := by
  induction h with
  | refl => exact fun ms => ⟨ms, ReflTransGen.refl⟩
  | tail _ hstep ih =>
    intro ms
    obtain ⟨ms', hms⟩ := ih ms
    exact ⟨_, hms.tail (step_of_walk hstep)⟩

theorem advances_of_plain {pos : ℕ} (h : PlainString data pos) : Advances data pos := by
  intro colon hcolon len hlen
  have hle := (Text.find_bounds hcolon).1
  have heq := stoi_numeral (is_numeral_iff.mp (h colon hcolon len hlen).1) (ok_of_mem_toOption hlen)
  omega

/-- What is strict goes forward. -/
theorem Strict.forward (h : Strict data ⟨w, ms⟩) : w.Forward data := by
  obtain ⟨pos, tasks⟩ := w
  match tasks, h with
  | [], _ => trivial
  | .close :: _, _ => trivial
  | .keys d :: _, ⟨c, hc, hplain⟩ =>
    intro hkey
    refine advances_of_plain (hplain ?_)
    rintro rfl
    exact hkey.2 hc
  | .field d key :: _, ⟨hpos, hread⟩ =>
    intro hkey
    rw [hkey] at hread
    exact ⟨hpos, advances_of_plain hread⟩
  | .value :: _, ⟨c, hc, hplain⟩ =>
    refine ⟨(at_pos_of_getElem? hc).2.le, fun hi => ?_⟩
    obtain rfl : c = 'i'.toUInt8 := Option.some.inj (hc.symm.trans hi)
    rcases hplain with ⟨-, stop, hstop, -⟩ | ⟨hdigit, -⟩ | hl | hd
    · rw [hstop]
      exact Option.some_ne_none stop
    · exact absurd hdigit (by decide)
    · exact absurd hl (by decide)
    · exact absurd hd (by decide)
  | .items :: _, ⟨c, hc, m, _, hallows⟩ =>
    refine ⟨c, hc, ?_⟩
    cases m with
    | item => exact hallows
    | key => exact hallows.imp_right fun hdigit => .inr (.inl hdigit)
    | value => exact .inr hallows

theorem AllStrict.forward (h : AllStrict data ⟨w, ms⟩) : w.AllForward data := by
  intro w' hw
  obtain ⟨ms', hms⟩ := reaches_of_walk hw ms
  exact (h _ hms).forward

end Trail

end BitTorrentLite
