import BitTorrentLite.Announce.Query

/-! # The Announce URL

    `run_leecher` and `run_seeder` cut the announce URL with `find` and
    `substr`: the host up to the next `/`, the port behind the first `:` in it,
    and the rest as the path. For `scheme://host[:port]/path[?query]` this puts
    the URL together again, unless the host itself has a `:`, as an IPv6
    address has.
-/

open Machine Bencode

namespace BitTorrentLite

/-! ## Cutting a URL -/

/-- `extract_host`. -/
def extract_host (url : Bytes) : Bytes :=
  match find_string url (ascii "://") with
  | none => []
  | some start =>
    let start := start + 3
    match find_char url '/'.toUInt8 start with
    | none => url.drop start
    | some stop => Region.slice url start (stop - start)

/-- Where the tracker is: what `run_leecher` and `run_seeder` take from the
    announce URL. -/
structure Tracker where
  host : Bytes
  tracker_port : ℤ
  path : Bytes
  deriving DecidableEq

/-- The path of the announce URL, with everything behind it. -/
def announce_path (announce : Bytes) : Bytes :=
  match find_string announce (ascii "://") with
  | none => ascii "/"
  | some protocol_end =>
    match find_char announce '/'.toUInt8 (protocol_end + 3) with
    | none => ascii "/"
    | some slash => announce.drop slash

/-- The code that `run_leecher` and `run_seeder` start with. -/
def locate_tracker (announce : Bytes) : Except Stop Tracker :=
  let raw_host_str := extract_host announce
  match find_char raw_host_str ':'.toUInt8 0 with
  | none => .ok ⟨raw_host_str, 80, announce_path announce⟩
  | some colon_pos =>
    (stoi (raw_host_str.drop (colon_pos + 1))).map fun tracker_port =>
      ⟨raw_host_str.take colon_pos, tracker_port, announce_path announce⟩

/-! ## URLs -/

/-- A pair that may stand in a URL. -/
structure UrlPair (p : Bytes × Bytes) : Prop extends Separable p where
  key_space : ∀ b ∈ p.1, is_space b = false
  value_space : ∀ b ∈ p.2, is_space b = false

/-- A URL of an announce, in its parts. -/
structure Url where
  scheme : Bytes
  host : Bytes
  port : Option ℕ
  path : Bytes
  query : Option (List (Bytes × Bytes))

namespace Url

/-- Host and port as they stand in the URL. -/
def authority (u : Url) : Bytes :=
  u.host ++ match u.port with
    | none => []
    | some port => ':'.toUInt8 :: decimal port

/-- The path and the query, if there is one. -/
def target (u : Url) : Bytes :=
  u.path ++ match u.query with
    | none => []
    | some ps => '?'.toUInt8 :: render_query ps

/-- The URL as a string. -/
def text (u : Url) : Bytes := u.scheme ++ (ascii "://" ++ u.authority ++ u.target)

/-- What the parts may hold. A host with a `:` is an address in brackets. -/
structure WellFormed (u : Url) : Prop where
  scheme : ':'.toUInt8 ∉ u.scheme
  host : '/'.toUInt8 ∉ u.host
  address : ':'.toUInt8 ∈ u.host → ∃ inner, u.host = '['.toUInt8 :: inner ++ [']'.toUInt8]
  port : ∀ port, u.port = some port → port < 65536
  path : ∃ r, u.path = '/'.toUInt8 :: r
  path_plain : ∀ b ∈ u.path, b ≠ '?'.toUInt8 ∧ is_space b = false
  query : ∀ ps, u.query = some ps → ∀ p ∈ ps, UrlPair p

/-- What was cut off the URL puts it together again; a port of 80 may be left
    out. -/
def Recomposes (u : Url) (t : Tracker) : Prop :=
  ∃ port, u.text = u.scheme ++ (ascii "://" ++ (t.host ++ port) ++ t.path) ∧
    (port = ':'.toUInt8 :: integer t.tracker_port ∨ port = [] ∧ t.tracker_port = 80)

variable {u : Url}

/-! ### The Parts that Are Cut -/

theorem slash_not_mem_authority (h : u.WellFormed) : '/'.toUInt8 ∉ u.authority := by
  unfold authority
  rw [List.mem_append]
  rintro (hhost | hport)
  · exact h.host hhost
  · cases hp : u.port with
    | none =>
      rw [hp] at hport
      cases hport
    | some port =>
      rw [hp] at hport
      rcases List.mem_cons.mp hport with heq | hdigit
      · exact absurd heq (by decide)
      · exact absurd (is_digit_decimal hdigit) (by decide)

theorem find_protocol (h : u.WellFormed) :
    find_string u.text (ascii "://") = some u.scheme.length := by
  unfold text
  rw [List.append_assoc]
  exact find_string_append h.scheme

/-- The first `/` behind the `://` starts the path. -/
theorem find_slash (h : u.WellFormed) : find_char u.text '/'.toUInt8 (u.scheme.length + 3)
    = some (u.scheme.length + 3 + u.authority.length) := by
  obtain ⟨r, hr⟩ := h.path
  have htext : u.text = (u.scheme ++ ascii "://") ++ (u.authority ++ '/'.toUInt8 ::
      (r ++ match u.query with
        | none => []
        | some ps => '?'.toUInt8 :: render_query ps)) := by
    unfold text target
    rw [hr]
    simp only [List.append_assoc, List.cons_append]
  have hlen : (u.scheme ++ ascii "://").length = u.scheme.length + 3 := by
    rw [List.length_append]
    rfl
  rw [htext, ← hlen]
  exact find_char_append (slash_not_mem_authority h)

theorem drop_protocol (u : Url) : u.text.drop (u.scheme.length + 3) = u.authority ++ u.target := by
  unfold text
  rw [← List.drop_drop, List.drop_left, List.append_assoc]
  rfl

theorem extract_host_text (h : u.WellFormed) : extract_host u.text = u.authority := by
  unfold extract_host
  rw [find_protocol h]
  dsimp only
  rw [find_slash h]
  dsimp only
  unfold Region.slice
  rw [Nat.add_sub_cancel_left, drop_protocol, List.take_left]

theorem announce_path_text (h : u.WellFormed) : announce_path u.text = u.target := by
  unfold announce_path
  rw [find_protocol h]
  dsimp only
  rw [find_slash h]
  dsimp only
  rw [← List.drop_drop, drop_protocol, List.drop_left]

/-! ### Host and Port -/

theorem stoi_decimal {n : ℕ} (hn : n < 2 ^ 31) : stoi (decimal n) = .ok n := by
  unfold stoi
  rw [strtol_decimal]
  exact if_pos ⟨by omega, by omega⟩

/-- A host without a `:` is found, with its port or with port 80. -/
theorem locate_tracker_text (h : u.WellFormed) (hhost : ':'.toUInt8 ∉ u.host) :
    locate_tracker u.text = .ok ⟨u.host, (u.port.getD 80 : ℕ), u.target⟩ := by
  unfold locate_tracker
  rw [extract_host_text h, announce_path_text h]
  cases hp : u.port with
  | none =>
    have hauth : u.authority = u.host := by
      unfold authority
      rw [hp]
      exact List.append_nil _
    have hcolon : find_char u.host ':'.toUInt8 0 = none := find_char_none (p := []) hhost
    rw [hauth]
    dsimp only
    rw [hcolon]
    rfl
  | some port =>
    have hauth : u.authority = u.host ++ ':'.toUInt8 :: decimal port := by
      unfold authority
      rw [hp]
    have hcolon : find_char (u.host ++ ':'.toUInt8 :: decimal port) ':'.toUInt8 0
        = some (0 + u.host.length) := find_char_append (p := []) hhost
    have hport := h.port port hp
    rw [hauth]
    dsimp only
    rw [hcolon, Nat.zero_add]
    dsimp only
    rw [← List.drop_drop, List.drop_left, List.drop_one, List.tail_cons, List.take_left,
      stoi_decimal (by omega)]
    rfl

theorem recomposes (u : Url) : u.Recomposes ⟨u.host, (u.port.getD 80 : ℕ), u.target⟩ := by
  cases hp : u.port with
  | none =>
    refine ⟨[], ?_, .inr ⟨rfl, rfl⟩⟩
    unfold text authority
    rw [hp]
  | some port =>
    refine ⟨':'.toUInt8 :: integer port, ?_, .inl rfl⟩
    unfold text authority
    rw [hp, integer_natCast]

/-- The last byte of an address in brackets is behind its first `:`. -/
theorem bracket_behind (h : u.WellFormed) {l r : Bytes} (hhost : u.host = l ++ ':'.toUInt8 :: r) :
    ']'.toUInt8 ∈ r := by
  have hmem : ':'.toUInt8 ∈ u.host := by
    rw [hhost]
    exact List.mem_append_right _ (List.mem_cons_self ..)
  obtain ⟨inner, hinner⟩ := h.address hmem
  have hlast := congrArg List.getLast? (hhost.symm.trans hinner)
  rw [List.getLast?_concat, List.getLast?_append, List.getLast?_cons] at hlast
  cases hr : r.getLast? with
  | none =>
    rw [hr] at hlast
    exact absurd (Option.some.inj hlast) (by decide)
  | some b =>
    rw [hr] at hlast
    obtain rfl := Option.some.inj hlast
    exact List.mem_of_getLast? hr

/-- An address in brackets is cut at its first `:`, and what is cut off does
    not put the URL together again. -/
theorem not_recomposes (h : u.WellFormed) (hhost : ':'.toUInt8 ∈ u.host) {t : Tracker}
    (ht : locate_tracker u.text = .ok t) : ¬ u.Recomposes t := by
  obtain ⟨l, r, hlr, hl⟩ := List.eq_append_cons_of_mem hhost
  have hauth : ∃ rest, u.authority = l ++ ':'.toUInt8 :: rest ∧ ']'.toUInt8 ∈ rest := by
    unfold authority
    rw [hlr, List.append_assoc, List.cons_append]
    exact ⟨_, rfl, List.mem_append_left _ (bracket_behind h hlr)⟩
  obtain ⟨rest, hauth, hbracket⟩ := hauth
  have hcolon : find_char (l ++ ':'.toUInt8 :: rest) ':'.toUInt8 0 = some (0 + l.length) :=
    find_char_append (p := []) hl
  unfold locate_tracker at ht
  rw [extract_host_text h, announce_path_text h, hauth] at ht
  dsimp only at ht
  rw [hcolon, Nat.zero_add] at ht
  dsimp only at ht
  rw [List.take_left] at ht
  obtain ⟨n, -, rfl⟩ := map_ok ht
  rintro ⟨port, htext, hport⟩
  -- what is left of the two strings, once their equal parts are gone
  unfold text at htext
  rw [hauth] at htext
  have hport' : ':'.toUInt8 :: rest = port := List.append_cancel_left (List.append_cancel_left
    (List.append_cancel_right (List.append_cancel_left htext)))
  rcases hport with rfl | ⟨rfl, -⟩
  · obtain ⟨-, hrest⟩ := List.cons.inj hport'
    rw [hrest] at hbracket
    exact not_mem_integer (by decide) (by decide) hbracket
  · cases hport'

end Url

end BitTorrentLite
