import BitTorrentLite.Announce.Url
import BitTorrentLite.Parser.Decoder

/-! # The Announce Request

    `req_url` writes the request as text and the tracker takes it apart again:
    the second word of the first line, from its first `?` on. The info-hash is
    percent-encoded, byte by byte; the other values are letters and digits.

    A `?` is always put behind the path. When the announce URL has a query of
    its own, the first `?` is that one, and what should start a new parameter
    ends the last one of the URL.
-/

open Machine Bencode

namespace BitTorrentLite

/-! ## Percent Encoding -/

/-- `url_encode`: every byte, letters included, is written as two digits. -/
def url_encode (raw : Bytes) : Bytes :=
  raw.flatMap fun c => ['%'.toUInt8, hex_digit (c.toNat / 16), hex_digit (c.toNat % 16)]

/-- The value of a hexadecimal digit. -/
def hex_value (b : UInt8) : Option ℕ :=
  if '0'.toUInt8 ≤ b ∧ b ≤ '9'.toUInt8 then some (b.toNat - '0'.toNat)
  else if 'a'.toUInt8 ≤ b ∧ b ≤ 'f'.toUInt8 then some (b.toNat - 'a'.toNat + 10)
  else if 'A'.toUInt8 ≤ b ∧ b ≤ 'F'.toUInt8 then some (b.toNat - 'A'.toNat + 10)
  else none

/-- Percent-decoding, as a tracker is to do it: a `%` and two digits stand for
    a byte, and any other byte for itself. -/
def percent_decode : Bytes → Bytes
  | [] => []
  | [b] => [b]
  | [b, c] => [b, c]
  | b :: x :: y :: rest =>
    if b = '%'.toUInt8 then
      match hex_value x, hex_value y with
      | some h, some l => UInt8.ofNat (16 * h + l) :: percent_decode rest
      | _, _ => b :: percent_decode (x :: y :: rest)
    else b :: percent_decode (x :: y :: rest)

theorem hex_value_hex_digit {d : ℕ} (hd : d < 16) : hex_value (hex_digit d) = some d := by
  interval_cases d <;> decide

theorem percent_decode_url_encode (raw : Bytes) : percent_decode (url_encode raw) = raw := by
  induction raw with
  | nil => rfl
  | cons c raw ih =>
    have hc : c.toNat < 256 := c.toNat_lt
    have hhigh := hex_value_hex_digit (d := c.toNat / 16) (by omega)
    have hlow := hex_value_hex_digit (d := c.toNat % 16) (by omega)
    have hbyte : UInt8.ofNat (16 * (c.toNat / 16) + c.toNat % 16) = c := by
      rw [Nat.div_add_mod]
      exact UInt8.ofNat_toNat
    calc percent_decode (url_encode (c :: raw))
        = percent_decode ('%'.toUInt8 :: hex_digit (c.toNat / 16) :: hex_digit (c.toNat % 16)
            :: url_encode raw) := rfl
      _ = UInt8.ofNat (16 * (c.toNat / 16) + c.toNat % 16) :: percent_decode (url_encode raw) := by
          rw [percent_decode, if_pos rfl, hhigh, hlow]
      _ = c :: raw := by rw [hbyte, ih]

/-! ## The Request -/

/-- `generatePeerId`; `rand` gives the numbers `rand()` returns. -/
def generatePeerId (isLeech : Bool) (rand : ℕ → ℕ) : Bytes :=
  let tag := if isLeech then ascii "LEECH" else ascii "SEED"
  tag ++ (List.range (20 - tag.length)).map fun i => digit (rand i % 10)

/-- `req_url`; `info_raw` and `length` are the fields of the torrent it reads. -/
def req_url (SHA1 : Bytes → Digest) (path peer_id info_raw : Bytes) (length : ℤ) (host : Bytes)
    (tracker_port : ℤ) (leecher : Bool) (port : ℤ) : Bytes :=
  let query := path ++ ascii "?"
    ++ ascii "info_hash=" ++ url_encode (SHA1 info_raw)
    ++ ascii "&peer_id=" ++ peer_id
    ++ ascii "&port=" ++ integer port
    ++ ascii "&uploaded=0"
    ++ ascii "&downloaded=0"
    ++ ascii "&left=" ++ (if leecher then integer length else ascii "0")
    ++ ascii "&compact=1"
  let query := if leecher then query else query ++ ascii "&event=completed"
  ascii "GET " ++ query ++ ascii " HTTP/1.1\r\n"
    ++ ascii "Host: " ++ host
    ++ (if tracker_port = 80 then [] else ascii ":" ++ integer tracker_port) ++ ascii "\r\n"
    ++ ascii "Connection: close\r\n"
    ++ ascii "\r\n"

/-- `PORT`, of both roles. -/
def listening_port : ℤ := 6881

/-- The request a client of either role sends to the tracker of the torrent. -/
def announce_request (SHA1 : Bytes → Digest) (leecher : Bool) (t : Torrent) (info_raw : Bytes)
    (rand : ℕ → ℕ) : Except Stop Bytes :=
  let peer := generatePeerId leecher rand
  (locate_tracker t.announce).map fun tracker =>
    req_url SHA1 tracker.path peer info_raw t.length tracker.host tracker.tracker_port leecher
      listening_port

/-- The request of `run_leecher`. -/
def run_leecher_request (SHA1 : Bytes → Digest) := announce_request SHA1 true

/-- The request of `run_seeder`. -/
def run_seeder_request (SHA1 : Bytes → Digest) := announce_request SHA1 false

/-! ## The Tracker -/

/-- `ss >> word`: the word, and what is left of the stream. -/
def read_word (s : Bytes) : Bytes × Bytes :=
  let s := s.dropWhile is_space
  (s.takeWhile (!is_space ·), s.dropWhile (!is_space ·))

/-- The parameters `handle_client` reads from a request. -/
def handle_client (request : Bytes) : Bytes → Option Bytes :=
  let (_, rest) := read_word request
  let (full_path, _) := read_word rest
  let query := match find_char full_path '?'.toUInt8 0 with
    | none => []
    | some qpos => full_path.drop (qpos + 1)
  parse_query query

/-! ## What Is Sent -/

/-- The pair with the info-hash. -/
def hash_pair (SHA1 : Bytes → Digest) (info_raw : Bytes) : Bytes × Bytes :=
  (ascii "info_hash", url_encode (SHA1 info_raw))

/-- The other pairs of a request. -/
def sent_pairs (peer_id : Bytes) (length : ℤ) (leecher : Bool) : List (Bytes × Bytes) :=
  [(ascii "peer_id", peer_id), (ascii "port", integer listening_port),
    (ascii "uploaded", ascii "0"), (ascii "downloaded", ascii "0"),
    (ascii "left", if leecher then integer length else ascii "0"), (ascii "compact", ascii "1")]
    ++ if leecher then [] else [(ascii "event", ascii "completed")]

section sent

variable {SHA1 : Bytes → Digest} {path peer_id info_raw host : Bytes} {length tracker_port : ℤ}
  {leecher : Bool} {rand : ℕ → ℕ}

/-- The first line of the request, up to the white space behind the path. -/
theorem req_url_eq : ∃ rest, req_url SHA1 path peer_id info_raw length host tracker_port leecher
      listening_port
    = ascii "GET" ++ ' '.toUInt8 :: (path ++ '?'.toUInt8 ::
      render_query (hash_pair SHA1 info_raw :: sent_pairs peer_id length leecher)
        ++ ' '.toUInt8 :: rest) := by
  refine ⟨ascii "HTTP/1.1\r\n" ++ ascii "Host: " ++ host
    ++ (if tracker_port = 80 then [] else ascii ":" ++ integer tracker_port) ++ ascii "\r\n"
    ++ ascii "Connection: close\r\n" ++ ascii "\r\n", ?_⟩
  unfold req_url sent_pairs hash_pair
  cases leecher <;>
    simp only [render_query, render_pair, List.cons_append, List.nil_append, List.append_assoc,
      Bool.false_eq_true, if_false, if_true] <;> rfl

/-! ### The Values -/

/-- A byte that ends neither a value nor a word. -/
def Inert (b : UInt8) : Prop := b ≠ '&'.toUInt8 ∧ is_space b = false

instance (b : UInt8) : Decidable (Inert b) := inferInstanceAs (Decidable (_ ∧ _))

theorem inert_digit {b : UInt8} (h : is_digit b = true) : Inert b := by
  refine ⟨?_, (digit_not_space h).1⟩
  rintro rfl
  exact absurd h (by decide)

theorem inert_integer {n : ℤ} : ∀ b ∈ integer n, Inert b := by
  intro b hb
  unfold integer at hb
  split at hb
  · rcases List.mem_cons.mp hb with rfl | hb
    · decide
    · exact inert_digit (is_digit_decimal hb)
  · exact inert_digit (is_digit_decimal hb)

theorem inert_url_encode {raw : Bytes} : ∀ b ∈ url_encode raw, Inert b := by
  have hhex : ∀ d < 16, Inert (hex_digit d) := by decide
  intro b hb
  obtain ⟨c, -, hb⟩ := List.mem_flatMap.mp hb
  have hc : c.toNat < 256 := c.toNat_lt
  simp only [List.mem_cons, List.not_mem_nil, or_false] at hb
  rcases hb with rfl | rfl | rfl
  · decide
  · exact hhex _ (by omega)
  · exact hhex _ (by omega)

theorem inert_generatePeerId : ∀ b ∈ generatePeerId leecher rand, Inert b := by
  intro b hb
  unfold generatePeerId at hb
  rcases List.mem_append.mp hb with htag | hdigits
  · cases leecher with
    | true => exact forall_bytes (s := ascii "LEECH") (by decide) b htag
    | false => exact forall_bytes (s := ascii "SEED") (by decide) b htag
  · obtain ⟨i, -, rfl⟩ := List.mem_map.mp hdigits
    exact inert_digit (is_digit_digit (Nat.mod_lt _ (by norm_num)))

/-- A key that holds no separator, with a value of inert bytes. -/
theorem urlPair_of_inert {k v : Bytes} (heq : '='.toUInt8 ∉ k) (hk : ∀ b ∈ k, Inert b)
    (hv : ∀ b ∈ v, Inert b) : UrlPair (k, v) where
  key_eq := heq
  key_amp := fun h => (hk _ h).1 rfl
  value_amp := fun h => (hv _ h).1 rfl
  key_space := fun b hb => (hk b hb).2
  value_space := fun b hb => (hv b hb).2

theorem urlPair_hash_pair : UrlPair (hash_pair SHA1 info_raw) :=
  urlPair_of_inert (by decide) (forall_bytes (by decide)) inert_url_encode

theorem urlPair_sent_pairs (hpeer : ∀ b ∈ peer_id, Inert b) :
    ∀ p ∈ sent_pairs peer_id length leecher, UrlPair p := by
  have hleft : ∀ b ∈ (if leecher then integer length else ascii "0"), Inert b := by
    cases leecher with
    | true => exact inert_integer
    | false => exact forall_bytes (s := ascii "0") (by decide)
  intro p hp
  unfold sent_pairs at hp
  rcases List.mem_append.mp hp with hp | hp
  · simp only [List.mem_cons, List.not_mem_nil, or_false] at hp
    rcases hp with rfl | rfl | rfl | rfl | rfl | rfl
    · exact urlPair_of_inert (by decide) (forall_bytes (by decide)) hpeer
    · exact urlPair_of_inert (by decide) (forall_bytes (by decide)) inert_integer
    · exact urlPair_of_inert (by decide) (forall_bytes (by decide)) (forall_bytes (by decide))
    · exact urlPair_of_inert (by decide) (forall_bytes (by decide)) (forall_bytes (by decide))
    · exact urlPair_of_inert (by decide) (forall_bytes (by decide)) hleft
    · exact urlPair_of_inert (by decide) (forall_bytes (by decide)) (forall_bytes (by decide))
  · split at hp
    · cases hp
    · rw [List.mem_singleton.mp hp]
      exact urlPair_of_inert (by decide) (forall_bytes (by decide)) (forall_bytes (by decide))

/-- No key is sent twice. -/
theorem keys_nodup : ((hash_pair SHA1 info_raw :: sent_pairs peer_id length leecher).map
    Prod.fst).Nodup := by
  cases leecher with
  | true => exact (by decide : [ascii "info_hash", ascii "peer_id", ascii "port",
      ascii "uploaded", ascii "downloaded", ascii "left", ascii "compact"].Nodup)
  | false => exact (by decide : [ascii "info_hash", ascii "peer_id", ascii "port",
      ascii "uploaded", ascii "downloaded", ascii "left", ascii "compact",
      ascii "event"].Nodup)

/-! ### What the Tracker Reads -/

theorem read_word_append {w rest : Bytes} (hw : ∀ b ∈ w, is_space b = false) (hne : w ≠ []) :
    read_word (w ++ ' '.toUInt8 :: rest) = (w, ' '.toUInt8 :: rest) := by
  have hdrop : (w ++ ' '.toUInt8 :: rest).dropWhile is_space = w ++ ' '.toUInt8 :: rest := by
    cases w with
    | nil => exact absurd rfl hne
    | cons b w =>
      exact List.dropWhile_cons_of_neg (by rw [hw b (List.mem_cons_self ..)]; decide)
  have hword : ∀ b ∈ w, (!is_space b) = true := fun b hb => by rw [hw b hb]; rfl
  unfold read_word
  rw [hdrop]
  dsimp only
  rw [List.takeWhile_append_of_pos hword, List.dropWhile_append_of_pos hword,
    List.takeWhile_cons_of_neg (by decide), List.dropWhile_cons_of_neg (by decide),
    List.append_nil]

theorem no_space_render_query {ps : List (Bytes × Bytes)} (h : ∀ p ∈ ps, UrlPair p) :
    ∀ b ∈ render_query ps, is_space b = false := by
  induction ps with
  | nil =>
    intro b hb
    cases hb
  | cons p ps ih =>
    have hp := h p (List.mem_cons_self ..)
    have hpair : ∀ b ∈ render_pair p, is_space b = false := by
      intro b hb
      rcases List.mem_append.mp hb with hk | hv
      · exact hp.key_space b hk
      · rcases List.mem_cons.mp hv with rfl | hv
        · decide
        · exact hp.value_space b hv
    by_cases hnil : ps = []
    · subst hnil
      exact hpair
    · rw [render_query_cons p hnil]
      intro b hb
      rcases List.mem_append.mp hb with hb | hb
      · exact hpair b hb
      · rcases List.mem_cons.mp hb with rfl | hb
        · decide
        · exact ih (fun q hq => h q (List.mem_cons_of_mem _ hq)) b hb

/-- The tracker reads what is behind the first `?` of the second word. -/
theorem handle_client_request {path query rest : Bytes}
    (hpath : ∀ b ∈ path, b ≠ '?'.toUInt8 ∧ is_space b = false)
    (hquery : ∀ b ∈ query, is_space b = false) :
    handle_client (ascii "GET" ++ ' '.toUInt8 :: (path ++ '?'.toUInt8 :: query
      ++ ' '.toUInt8 :: rest)) = parse_query query := by
  have hfull : ∀ b ∈ path ++ '?'.toUInt8 :: query, is_space b = false := by
    intro b hb
    rcases List.mem_append.mp hb with hb | hb
    · exact (hpath b hb).2
    · rcases List.mem_cons.mp hb with rfl | hb
      · decide
      · exact hquery b hb
  have hmark : find_char (path ++ '?'.toUInt8 :: query) '?'.toUInt8 0 = some (0 + path.length) :=
    find_char_append (p := []) fun hmem => (hpath _ hmem).1 rfl
  have hskip : ∀ s, read_word (' '.toUInt8 :: s) = read_word s := fun s => by
    unfold read_word
    rw [List.dropWhile_cons_of_pos (by decide)]
  unfold handle_client
  rw [read_word_append (forall_bytes (by decide)) (by decide)]
  dsimp only
  rw [hskip, read_word_append hfull (by simp)]
  dsimp only
  rw [hmark, Nat.zero_add]
  dsimp only
  rw [← List.drop_drop, List.drop_left, List.drop_one, List.tail_cons]

end sent

end BitTorrentLite
