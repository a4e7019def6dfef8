import Mathlib.Logic.Relation
import BitTorrentLite.Parser.Decoder

/-! # The Walk of the Parser

    Where the parser goes through the data does not depend on what it has read
    so far, only on the position and on the calls that are still open. A walk
    is a position with the stack of what is left to do there; one step of it
    is one round of a loop, one value, or one closing byte.

    Whatever a function of the parser returns or throws, its walk leads there.
-/

open Machine Region Bencode Relation

namespace BitTorrentLite

/-! ## Steps -/

/-- The dictionaries whose keys the parser knows. -/
inductive Dict where
  | torrent
  | info
  | response
  deriving DecidableEq

/-- How the value of a key is read. -/
inductive Reading where
  | string
  | integer
  | info
  | skip
  deriving DecidableEq

/-- What each of the three loops does with the value of a key. -/
def Dict.reading : Dict → Bytes → Reading
  | .torrent, key =>
    if key = ascii "announce" ∨ key = ascii "created by" then .string
    else if key = ascii "info" then .info
    else .skip
  | .info, key =>
    if key = ascii "length" ∨ key = ascii "piece length" then .integer
    else if key = ascii "name" ∨ key = ascii "pieces" then .string
    else .skip
  | .response, key =>
    if key = ascii "complete" ∨ key = ascii "incomplete" ∨ key = ascii "interval"
        ∨ key = ascii "min interval" then .integer
    else if key = ascii "peers" then .string
    else .skip

/-- Only the outermost dictionary of a torrent has an info dictionary. -/
theorem no_info_in_info : ¬ ∃ key, Dict.reading .info key = .info := by
  rintro ⟨key, hkey⟩
  simp only [Dict.reading] at hkey
  split_ifs at hkey

theorem no_info_in_response : ¬ ∃ key, Dict.reading .response key = .info := by
  rintro ⟨key, hkey⟩
  simp only [Dict.reading] at hkey
  split_ifs at hkey

/-- What is left to do at a position. -/
inductive Task where
  /-- The loop over the keys of a dictionary. -/
  | keys (d : Dict)
  /-- The value of a key. -/
  | field (d : Dict) (key : Bytes)
  /-- `pos++` after a loop. -/
  | close
  /-- `skip_value`. -/
  | value
  /-- The loop of `skip_value`. -/
  | items
  deriving DecidableEq

/-- A position, and the tasks left, the next one first. -/
structure Walk where
  pos : ℕ
  tasks : List Task
  deriving DecidableEq

namespace Walk

variable (data : Text)

/-- The next step, where there is one; it may throw. -/
def step (w : Walk) : Option (Except Stop Walk) :=
  match w.tasks with
  | [] => none
  | .keys d :: rest => some <|
    if w.pos < data.size ∧ data.bytes[w.pos]? ≠ some 'e'.toUInt8 then do
      let (key, pos) ← read_string data w.pos
      return ⟨pos, .field d key :: .keys d :: rest⟩
    else return ⟨w.pos, rest⟩
  | .field d key :: rest => some <|
    match d.reading key with
    | .string => do
      let (_, pos) ← read_string data w.pos
      return ⟨pos, rest⟩
    | .integer => do
      let (_, pos) ← read_integer data w.pos
      return ⟨pos, rest⟩
    | .info => return ⟨size_t (w.pos + 1), .keys .info :: .close :: rest⟩
    | .skip => return ⟨w.pos, .value :: rest⟩
  | .close :: rest => some (.ok ⟨size_t (w.pos + 1), rest⟩)
  | .value :: rest => some do
    let c ← data.at_pos w.pos
    if c = 'i'.toUInt8 then do
      let pos ← skip_integer data w.pos
      return ⟨pos, rest⟩
    else if is_digit c then do
      let (_, pos) ← read_string data w.pos
      return ⟨pos, rest⟩
    else if c = 'l'.toUInt8 ∨ c = 'd'.toUInt8 then return ⟨size_t (w.pos + 1), .items :: rest⟩
    else return ⟨w.pos, rest⟩
  | .items :: rest => some do
    let c ← data.at_pos w.pos
    if c = 'e'.toUInt8 then return ⟨size_t (w.pos + 1), rest⟩
    else return ⟨w.pos, .value :: .items :: rest⟩

/-- The walk of `parse_torrent` at its start. -/
def torrent_start : Walk := ⟨1, [.keys .torrent]⟩

/-- The walk of `parse_response_dict` at its start. -/
def response_start (pos : ℕ) : Walk := ⟨size_t (pos + 1), [.keys .response, .close]⟩

/-- Some number of steps lead from one walk to another. -/
def Reaches (w w' : Walk) : Prop := ReflTransGen (fun w w' => w.step data = some (.ok w')) w w'

/-- The walk ends as `r` says: with the tasks `rest` left, or by throwing. -/
def Leads (w : Walk) (rest : List Task) : Except Stop ℕ → Prop
  | .ok pos => Reaches data w ⟨pos, rest⟩
  | .error e => ∃ w', Reaches data w w' ∧ w'.step data = some (.error e)

end Walk

/-! ## Runs of the Parser -/

namespace Parse

variable {α β : Type} {x : Parse α} {g : α → Parse β} {r : Except Stop β}

/-- How two parses, one after the other, come to an end. -/
theorem bind_run (h : (x >>= g).run = some r) :
    (∃ e, x.run = some (.error e) ∧ r = .error e) ∨
      ∃ a, x.run = some (.ok a) ∧ (g a).run = some r := by
  match x with
  | none => cases h
  | some (.error e) => exact .inl ⟨e, rfl, (Option.some.inj h).symm⟩
  | some (.ok a) => exact .inr ⟨a, rfl, h⟩

/-- The same where the first part is a call that ends. -/
theorem lift_bind_run {x : Except Stop α} (h : (liftM x >>= g : Parse β).run = some r) :
    (∃ e, x = .error e ∧ r = .error e) ∨ ∃ a, x = .ok a ∧ (g a).run = some r := by
  cases x with
  | error e => exact .inl ⟨e, rfl, (Option.some.inj h).symm⟩
  | ok a => exact .inr ⟨a, rfl, h⟩

theorem lift_map_run {x : Except Stop α} {f : α → β}
    (h : (liftM x >>= fun a => pure (f a) : Parse β).run = some r) : r = x.map f := by
  cases x with
  | error e => exact (Option.some.inj h).symm
  | ok a => exact (Option.some.inj h).symm

end Parse

namespace Walk

open Parse

variable {data : Text} {w w' : Walk} {rest rest' : List Task} {pos : ℕ} {r : Except Stop ℕ}

theorem Leads.refl (pos : ℕ) (rest : List Task) : Leads data ⟨pos, rest⟩ rest (.ok pos) :=
  ReflTransGen.refl

/-- A step before. -/
theorem Leads.head (hstep : w.step data = some (.ok w')) (h : Leads data w' rest r) :
    Leads data w rest r := by
  cases r with
  | ok pos => exact ReflTransGen.head hstep h
  | error e =>
    obtain ⟨v, hv, hend⟩ := h
    exact ⟨v, ReflTransGen.head hstep hv, hend⟩

theorem Leads.throw {e : Stop} (hstep : w.step data = some (.error e)) :
    Leads data w rest (.error e) := ⟨w, ReflTransGen.refl, hstep⟩

/-- One step that ends the task. -/
theorem Leads.last {α : Type} {x : Except Stop α} {f : α → ℕ}
    (hstep : w.step data = some (x.map fun a => ⟨f a, rest⟩)) : Leads data w rest (x.map f) := by
  cases x with
  | error e => exact .throw hstep
  | ok a => exact .head hstep (.refl _ _)

/-- A task that throws does so whatever is left. -/
theorem Leads.error {e : Stop} (h : Leads data w rest (.error e)) :
    Leads data w rest' (.error e) := h

/-- A task that ends, and what comes after it. -/
theorem Leads.trans (h : Leads data w rest (.ok pos)) (h' : Leads data ⟨pos, rest⟩ rest' r) :
    Leads data w rest' r := by
  cases r with
  | ok pos' => exact ReflTransGen.trans h h'
  | error e =>
    obtain ⟨v, hv, hend⟩ := h'
    exact ⟨v, ReflTransGen.trans h hv, hend⟩

/-! ### What a Step Does -/

section step

variable {c : UInt8} (rest)

/-- A value, by its first byte. -/
theorem step_value (hc : data.at_pos pos = .ok c) :
    step data ⟨pos, .value :: rest⟩ = some (
      if c = 'i'.toUInt8 then (skip_integer data pos).map fun pos => ⟨pos, rest⟩
      else if is_digit c then (read_string data pos).map fun a => ⟨a.2, rest⟩
      else if c = 'l'.toUInt8 ∨ c = 'd'.toUInt8 then .ok ⟨size_t (pos + 1), .items :: rest⟩
      else .ok ⟨pos, rest⟩) := by
  simp only [step, hc]
  refine congrArg some ?_
  show (if _ then _ else _) = _
  split_ifs
  · cases skip_integer data pos <;> rfl
  · cases read_string data pos <;> rfl
  · rfl
  · rfl

/-- A round of the loop of `skip_value`. -/
theorem step_items (hc : data.at_pos pos = .ok c) :
    step data ⟨pos, .items :: rest⟩ = some (
      if c = 'e'.toUInt8 then .ok ⟨size_t (pos + 1), rest⟩
      else .ok ⟨pos, .value :: .items :: rest⟩) := by
  simp only [step, hc]
  refine congrArg some ?_
  show (if _ then _ else _) = _
  split_ifs
  · rfl
  · rfl

theorem step_beyond {e : Stop} (hc : data.at_pos pos = .error e) :
    step data ⟨pos, .value :: rest⟩ = some (.error e) ∧
      step data ⟨pos, .items :: rest⟩ = some (.error e) := by
  simp only [step, hc]
  exact ⟨rfl, rfl⟩

/-- The next key of a dictionary. -/
theorem step_keys {d : Dict} (hpos : pos < data.size ∧ data.bytes[pos]? ≠ some 'e'.toUInt8) :
    step data ⟨pos, .keys d :: rest⟩ = some ((read_string data pos).map fun a =>
      ⟨a.2, .field d a.1 :: .keys d :: rest⟩) := by
  simp only [step]
  rw [if_pos hpos]
  cases read_string data pos <;> rfl

theorem step_keys_end {d : Dict}
    (hpos : ¬ (pos < data.size ∧ data.bytes[pos]? ≠ some 'e'.toUInt8)) :
    step data ⟨pos, .keys d :: rest⟩ = some (.ok ⟨pos, rest⟩) := by
  simp only [step]
  rw [if_neg hpos]
  rfl

/-- The value of a key. -/
theorem step_field {d : Dict} {key : Bytes} :
    step data ⟨pos, .field d key :: rest⟩ = some (
      match d.reading key with
      | .string => (read_string data pos).map fun a => ⟨a.2, rest⟩
      | .integer => (read_integer data pos).map fun a => ⟨a.2, rest⟩
      | .info => .ok ⟨size_t (pos + 1), .keys .info :: .close :: rest⟩
      | .skip => .ok ⟨pos, .value :: rest⟩) := by
  simp only [step]
  refine congrArg some ?_
  cases d.reading key with
  | string => cases read_string data pos <;> rfl
  | integer => cases read_integer data pos <;> rfl
  | info => rfl
  | skip => rfl

end step

/-! ### The Walk of Each Function -/

/-- **Skipping**: `skip_value` and its loop go where their walk leads; the
    induction is on the fuel, for both at once. -/
theorem skip_leads (fuel : ℕ) :
    (∀ pos rest r, (skip_value data fuel pos).run = some r →
        Leads data ⟨pos, .value :: rest⟩ rest r) ∧
      ∀ pos rest r, (skip_items data fuel pos).run = some r →
        Leads data ⟨pos, .items :: rest⟩ rest r := by
  induction fuel with
  | zero =>
    refine ⟨fun pos rest r h => ?_, fun pos rest r h => ?_⟩
    · rw [skip_value] at h
      cases h
    · rw [skip_items] at h
      cases h
  | succ fuel ih =>
    obtain ⟨hvalue, hitems⟩ := ih
    refine ⟨fun pos rest r h => ?_, fun pos rest r h => ?_⟩
    · rw [skip_value] at h
      rcases lift_bind_run h with ⟨e, hc, rfl⟩ | ⟨c, hc, h⟩
      · exact .throw (step_beyond rest hc).1
      have hstep := step_value rest hc
      -- an integer, a string, a list or dictionary, any other byte
      split_ifs at h hstep
      · obtain rfl := Option.some.inj h
        have hmap : (skip_integer data pos).map id = skip_integer data pos :=
          congrFun Except.map_id _
        exact hmap ▸ Leads.last hstep
      · rw [lift_map_run h]
        exact .last hstep
      · exact .head hstep (hitems _ rest r h)
      · obtain rfl := Option.some.inj h
        exact .head hstep (.refl _ _)
    · rw [skip_items] at h
      rcases lift_bind_run h with ⟨e, hc, rfl⟩ | ⟨c, hc, h⟩
      · exact .throw (step_beyond rest hc).2
      have hstep := step_items rest hc
      split_ifs at h hstep
      · obtain rfl := Option.some.inj h
        exact .head hstep (.refl _ _)
      · refine .head hstep ?_
        -- the value throws, or the loop goes on behind it
        rcases bind_run h with ⟨e, hv, rfl⟩ | ⟨pos', hv, h⟩
        · exact (hvalue pos _ _ hv).error
        · exact (hvalue pos _ _ hv).trans (hitems pos' rest r h)

/-- `field` reads the values of a dictionary as `d.reading` says; the value of
    `info` is another dictionary. -/
structure Reads (data : Text) (d : Dict) {σ : Type}
    (field : ℕ → Bytes → ℕ → σ → Parse (ℕ × σ)) : Prop where
  string : ∀ key, d.reading key = .string → ∀ t, ∃ g : Bytes → σ, ∀ fuel pos,
    field fuel key pos t = liftM (read_string data pos) >>= fun a => pure (a.2, g a.1)
  integer : ∀ key, d.reading key = .integer → ∀ t, ∃ g : ℤ → σ, ∀ fuel pos,
    field fuel key pos t = liftM (read_integer data pos) >>= fun a => pure (a.2, g a.1)
  skip : ∀ key, d.reading key = .skip → ∀ t fuel pos,
    field fuel key pos t = skip_value data fuel pos >>= fun pos => pure (pos, t)
  info : ∀ key, d.reading key = .info → ∀ pos t, ∃ (u : Torrent) (g : ℕ × Torrent → σ), ∀ fuel,
    field fuel key pos t = parse_info_dict data fuel pos u >>= fun a => pure (a.1, g a)

theorem info_field_reads : Reads data .info (info_field data) where
  string := by
    intro key hkey t
    have hname : key = ascii "name" ∨ key = ascii "pieces" := by
      simp only [Dict.reading] at hkey
      split_ifs at hkey with _ hname
      exact hname
    rcases hname with rfl | rfl
    · exact ⟨fun name => { t with name := name }, fun fuel pos => rfl⟩
    · exact ⟨fun raw => { t with pieces := t.pieces ++ (groups 20 raw).map hexconverter },
        fun fuel pos => rfl⟩
  integer := by
    intro key hkey t
    have hname : key = ascii "length" ∨ key = ascii "piece length" := by
      simp only [Dict.reading] at hkey
      split_ifs at hkey with hname
      exact hname
    rcases hname with rfl | rfl
    · exact ⟨fun n => { t with length := n }, fun fuel pos => rfl⟩
    · exact ⟨fun n => { t with piece_length := n }, fun fuel pos => rfl⟩
  skip := by
    intro key hkey t fuel pos
    simp only [Dict.reading] at hkey
    split_ifs at hkey with hint hstr
    obtain ⟨hlength, hpiece⟩ := not_or.mp hint
    obtain ⟨hname, hpieces⟩ := not_or.mp hstr
    rw [info_field, if_neg hlength, if_neg hname, if_neg hpiece, if_neg hpieces]
  info := fun key hkey => absurd ⟨key, hkey⟩ no_info_in_info

theorem torrent_field_reads : Reads data .torrent (torrent_field data) where
  string := by
    intro key hkey t
    have hname : key = ascii "announce" ∨ key = ascii "created by" := by
      simp only [Dict.reading] at hkey
      split_ifs at hkey with hname
      exact hname
    rcases hname with rfl | rfl
    · exact ⟨fun announce => { t with announce := announce }, fun fuel pos => rfl⟩
    · exact ⟨fun created_by => { t with created_by := created_by }, fun fuel pos => rfl⟩
  integer := by
    intro key hkey
    simp only [Dict.reading] at hkey
    split_ifs at hkey
  skip := by
    intro key hkey t fuel pos
    simp only [Dict.reading] at hkey
    split_ifs at hkey with hstr hinfo
    obtain ⟨hannounce, hcreated⟩ := not_or.mp hstr
    rw [torrent_field, if_neg hannounce, if_neg hcreated, if_neg hinfo]
  info := by
    intro key hkey pos t
    simp only [Dict.reading] at hkey
    split_ifs at hkey with hstr hinfo
    obtain ⟨hannounce, hcreated⟩ := not_or.mp hstr
    refine ⟨{ t with info_start := int64 pos },
      fun a => { a.2 with info_end := int64 (size_t (a.1 - 1)) }, fun fuel => ?_⟩
    rw [torrent_field, if_neg hannounce, if_neg hcreated, if_pos hinfo]

theorem response_field_reads : Reads data .response (response_field data) where
  string := by
    intro key hkey t
    simp only [Dict.reading] at hkey
    split_ifs at hkey with _ hpeers
    subst hpeers
    exact ⟨fun raw => { t with peers := t.peers ++ (groups 6 raw).map peer_address },
      fun fuel pos => rfl⟩
  integer := by
    intro key hkey t
    have hname : key = ascii "complete" ∨ key = ascii "incomplete" ∨ key = ascii "interval"
        ∨ key = ascii "min interval" := by
      simp only [Dict.reading] at hkey
      split_ifs at hkey with hname
      exact hname
    rcases hname with rfl | rfl | rfl | rfl
    · exact ⟨fun n => { t with complete := n }, fun fuel pos => rfl⟩
    · exact ⟨fun n => { t with incomplete := n }, fun fuel pos => rfl⟩
    · exact ⟨fun n => { t with interval := int32 n }, fun fuel pos => rfl⟩
    · exact ⟨fun n => { t with mininterval := int32 n }, fun fuel pos => rfl⟩
  skip := by
    intro key hkey t fuel pos
    simp only [Dict.reading] at hkey
    split_ifs at hkey with hint hpeers
    simp only [not_or] at hint
    obtain ⟨hcomplete, hincomplete, hinterval, hmin⟩ := hint
    rw [response_field, if_neg hcomplete, if_neg hincomplete, if_neg hinterval, if_neg hmin,
      if_neg hpeers]
  info := fun key hkey => absurd ⟨key, hkey⟩ no_info_in_response

section loop

variable {σ : Type} {d : Dict} {field : ℕ → Bytes → ℕ → σ → Parse (ℕ × σ)}

/-- A loop over keys, when the handling of a value goes where its walk leads. -/
theorem dict_loop_leads (hfield : ∀ fuel key pos t rest r, (field fuel key pos t).run = some r →
      Leads data ⟨pos, .field d key :: rest⟩ rest (r.map Prod.fst)) (fuel : ℕ) :
    ∀ pos t rest r, (dict_loop data field fuel pos t).run = some r →
      Leads data ⟨pos, .keys d :: rest⟩ rest (r.map Prod.fst) := by
  induction fuel with
  | zero =>
    intro pos t rest r h
    rw [dict_loop] at h
    cases h
  | succ fuel ih =>
    intro pos t rest r h
    rw [dict_loop] at h
    split_ifs at h with hpos
    · have hstep := step_keys rest (d := d) hpos
      rcases lift_bind_run h with ⟨e, hread, rfl⟩ | ⟨⟨key, pos'⟩, hread, h⟩
      · rw [hread] at hstep
        exact .throw hstep
      · rw [hread] at hstep
        refine .head hstep ?_
        -- the value throws, or the next round starts behind it
        rcases bind_run h with ⟨e, hv, rfl⟩ | ⟨⟨pos'', t'⟩, hv, h⟩
        · exact (hfield fuel key pos' t _ _ hv).error
        · exact (hfield fuel key pos' t _ _ hv).trans (ih pos'' t' rest r h)
    · obtain rfl := Option.some.inj h
      exact .head (step_keys_end rest hpos) (.refl _ _)

/-- The handling of a value, when the info dictionary goes where its walk leads. -/
theorem field_leads (hr : Reads data d field)
    (hinfo : (∃ key, d.reading key = .info) → ∀ fuel pos u rest r,
      (parse_info_dict data fuel pos u).run = some r →
        Leads data ⟨size_t (pos + 1), .keys .info :: .close :: rest⟩ rest (r.map Prod.fst))
    (fuel : ℕ) (key : Bytes) (pos : ℕ) (t : σ) (rest : List Task) (r : Except Stop (ℕ × σ))
    (h : (field fuel key pos t).run = some r) :
    Leads data ⟨pos, .field d key :: rest⟩ rest (r.map Prod.fst) := by
  have hstep : step data ⟨pos, .field d key :: rest⟩ = _ := step_field rest
  have hmap {α β : Type} (x : Except Stop α) (f : α → ℕ × β) :
      (x.map f).map Prod.fst = x.map fun a => (f a).1 := by cases x <;> rfl
  cases hkey : d.reading key with
  | string =>
    rw [hkey] at hstep
    obtain ⟨g, hg⟩ := hr.string key hkey t
    rw [hg] at h
    rw [lift_map_run h, hmap]
    exact .last hstep
  | integer =>
    rw [hkey] at hstep
    obtain ⟨g, hg⟩ := hr.integer key hkey t
    rw [hg] at h
    rw [lift_map_run h, hmap]
    exact .last hstep
  | info =>
    rw [hkey] at hstep
    obtain ⟨u, g, hg⟩ := hr.info key hkey pos t
    rw [hg] at h
    refine .head hstep ?_
    rcases bind_run h with ⟨e, hv, rfl⟩ | ⟨a, hv, h⟩
    · exact hinfo ⟨key, hkey⟩ fuel pos u rest _ hv
    · obtain rfl := Option.some.inj h
      exact hinfo ⟨key, hkey⟩ fuel pos u rest _ hv
  | skip =>
    rw [hkey] at hstep
    rw [hr.skip key hkey t] at h
    refine .head hstep ?_
    rcases bind_run h with ⟨e, hv, rfl⟩ | ⟨pos', hv, h⟩
    · exact (skip_leads fuel).1 pos rest _ hv
    · obtain rfl := Option.some.inj h
      exact (skip_leads fuel).1 pos rest _ hv

/-- A loop and the byte that closes its dictionary. -/
theorem closed_leads (hfield : ∀ fuel key pos t rest r, (field fuel key pos t).run = some r →
      Leads data ⟨pos, .field d key :: rest⟩ rest (r.map Prod.fst)) {fuel pos : ℕ} {t : σ}
    {rest : List Task} {r : Except Stop (ℕ × σ)}
    (h : (dict_loop data field fuel pos t >>= fun a => pure (size_t (a.1 + 1), a.2)
      : Parse (ℕ × σ)).run = some r) :
    Leads data ⟨pos, .keys d :: .close :: rest⟩ rest (r.map Prod.fst) := by
  rcases bind_run h with ⟨e, hv, rfl⟩ | ⟨a, hv, h⟩
  · exact (dict_loop_leads hfield fuel pos t (.close :: rest) _ hv).error
  · obtain rfl := Option.some.inj h
    exact (dict_loop_leads hfield fuel pos t (.close :: rest) _ hv).trans
      (.head rfl (.refl _ _))

end loop

theorem parse_info_dict_leads (fuel pos : ℕ) (u : Torrent) (rest : List Task)
    (r : Except Stop (ℕ × Torrent)) (h : (parse_info_dict data fuel pos u).run = some r) :
    Leads data ⟨size_t (pos + 1), .keys .info :: .close :: rest⟩ rest (r.map Prod.fst) :=
  closed_leads (field_leads info_field_reads fun h => absurd h no_info_in_info) h

theorem parse_torrent_leads {fuel : ℕ} {r : Except Stop Torrent}
    (h : (parse_torrent data fuel).run = some r) :
    ∃ pos, Leads data torrent_start [] (r.map fun _ => pos) := by
  have hreads : Reads data .torrent (torrent_field data) := torrent_field_reads
  have hfield := field_leads hreads fun _ => parse_info_dict_leads
  rcases bind_run h with ⟨e, hv, rfl⟩ | ⟨a, hv, h⟩
  · exact ⟨0, dict_loop_leads hfield fuel 1 {} [] _ hv⟩
  · obtain rfl := Option.some.inj h
    exact ⟨a.1, dict_loop_leads hfield fuel 1 {} [] _ hv⟩

theorem parse_response_dict_leads {fuel pos : ℕ} {t : TrackerResponse}
    {r : Except Stop (ℕ × TrackerResponse)}
    (h : (parse_response_dict data fuel pos t).run = some r) :
    Leads data (response_start pos) [] (r.map Prod.fst) :=
  closed_leads (field_leads response_field_reads fun h => absurd h no_info_in_response) h

end Walk

end BitTorrentLite
