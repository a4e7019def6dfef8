import BitTorrentLite.Discovery.PeerList

/-! # Local Peer Discovery

    `lpd_listen_thread` waits for datagrams of other clients in the local
    network. It looks for the names of three fields with `find`, wherever they
    stand in the datagram, and calls `stoi` for the port. The thread is
    detached and nothing catches an exception, so that one ends the process.
-/

open Machine Region Bencode

namespace BitTorrentLite

/-! ## The Loop Body -/

/-- `s.substr(pos, n)`. -/
def substr (s : Bytes) (pos n : ℕ) : Except Stop Bytes :=
  if pos ≤ s.length then .ok (slice s pos n) else .error .out_of_range

/-- The address a datagram came from. -/
structure InAddr where
  a : UInt8
  b : UInt8
  c : UInt8
  d : UInt8
  deriving DecidableEq

/-- `inet_ntoa`. -/
def inet_ntoa (addr : InAddr) : Bytes :=
  decimal addr.a.toNat ++ ascii "." ++ decimal addr.b.toNat ++ ascii "." ++ decimal addr.c.toNat
    ++ ascii "." ++ decimal addr.d.toNat

/-- The bytes `recvfrom` puts into the buffer: the last place is kept free. -/
def received (datagram : Bytes) : Bytes := datagram.take 2047

/-- The string made of the buffer ends at the first NUL. -/
def lpd_payload (datagram : Bytes) : Bytes := (received datagram).takeWhile (· ≠ 0)

/-- The text of a field whose name of `len` characters stands at `pos`: what is
    behind it, up to the next CR. -/
def lpd_field (payload : Bytes) (pos len : ℕ) : Except Stop Bytes :=
  let stop := (find_char payload '\r'.toUInt8 pos).getD Text.npos
  substr payload (pos + len) (size_t ((stop : ℤ) - ((pos : ℤ) + len)))

/-- The cookie stays empty when the datagram has none. -/
def lpd_cookie (payload : Bytes) : Except Stop Bytes :=
  match find_string payload (ascii "cookie: ") with
  | none => .ok []
  | some cookie_pos => lpd_field payload cookie_pos 8

/-- What is extracted from a datagram. -/
structure Announcement where
  extracted_hash : Bytes
  peer_tcp_port : ℤ
  extracted_cookie : Bytes
  deriving DecidableEq

/-- The part of the loop body that takes a datagram apart. -/
def lpd_parse (payload : Bytes) : Except Stop (Option Announcement) :=
  match find_string payload (ascii "Infohash: "), find_string payload (ascii "Port: ") with
  | some infohash_pos, some port_pos => do
    let extracted_hash ← substr payload (infohash_pos + 10) 40
    let port_text ← lpd_field payload port_pos 6
    let peer_tcp_port ← stoi port_text
    let extracted_cookie ← lpd_cookie payload
    return some ⟨extracted_hash, peer_tcp_port, extracted_cookie⟩
  | _, _ => return none

/-- What one iteration of the loop leaves behind: the peers that are known, the
    arguments of the call of `connect_to`, and those of the `peer_worker` that
    was started. -/
structure Heard where
  known_peers : Finset Bytes
  attempt : Option (Bytes × ℤ)
  worker : Option (Bytes × ℤ)
  deriving DecidableEq

/-- The string a peer is remembered by. -/
def peer_identifier (peer_ip : Bytes) (peer_tcp_port : ℤ) : Bytes :=
  peer_ip ++ ascii ":" ++ integer peer_tcp_port

/-- The peer is remembered before `connect_to` is called and forgotten when that
    fails; `connected` says whether it succeeds. -/
def lpd_contact (connected : Bool) (peer_ip : Bytes) (peer_tcp_port : ℤ)
    (known_peers : Finset Bytes) : Heard :=
  let identifier := peer_identifier peer_ip peer_tcp_port
  if identifier ∈ known_peers then ⟨known_peers, none, none⟩
  else
    let known_peers := insert identifier known_peers
    if connected then ⟨known_peers, some (peer_ip, peer_tcp_port), some (peer_ip, peer_tcp_port)⟩
    else ⟨known_peers.erase identifier, some (peer_ip, peer_tcp_port), none⟩

/-- What is done about an announcement, if the datagram had one. -/
def lpd_respond (my_info_hash my_cookie : Bytes) (connected : Bool) (peer_ip : Bytes)
    (known_peers : Finset Bytes) : Option Announcement → Heard
  | none => ⟨known_peers, none, none⟩
  | some found =>
    if found.extracted_cookie = my_cookie then ⟨known_peers, none, none⟩
    else if found.extracted_hash = my_info_hash then
      lpd_contact connected peer_ip found.peer_tcp_port known_peers
    else ⟨known_peers, none, none⟩

/-- One iteration of the loop of `lpd_listen_thread`. -/
def lpd_listen (my_info_hash my_cookie : Bytes) (connected : Bool) (sender : InAddr)
    (datagram : Bytes) (known_peers : Finset Bytes) : Except Stop Heard :=
  if (received datagram).length ≤ 0 then .ok ⟨known_peers, none, none⟩
  else do
    let found ← lpd_parse (lpd_payload datagram)
    return lpd_respond my_info_hash my_cookie connected (inet_ntoa sender) known_peers found

/-! ## Fields -/

/-- What stands behind the first place of a name. -/
def Behind (payload name rest : Bytes) : Prop :=
  ∃ before, payload = before ++ (name ++ rest) ∧
    ∀ i < before.length, ¬ name <+: payload.drop i

/-- The text up to the next CR. -/
def line (rest : Bytes) : Bytes := rest.takeWhile (· ≠ '\r'.toUInt8)

/-- The three fields of a datagram; the cookie may be missing. -/
structure Announces (payload hash port cookie : Bytes) : Prop where
  hash : ∃ rest, Behind payload (ascii "Infohash: ") rest ∧ hash = rest.take 40
  port : ∃ rest, Behind payload (ascii "Port: ") rest ∧ port = line rest
  cookie : (∃ rest, Behind payload (ascii "cookie: ") rest ∧ cookie = line rest) ∨
    (¬ ascii "cookie: " <:+: payload) ∧ cookie = []

/-- A decimal number from 1 to 65535. -/
def IsPort (text : Bytes) : Prop :=
  text ≠ [] ∧ (∀ b ∈ text, is_digit b = true) ∧ 1 ≤ number text ∧ number text ≤ 65535

instance (text : Bytes) : Decidable (IsPort text) := inferInstanceAs (Decidable (_ ∧ _))

/-- The datagram has a field for the port, with a number a port can have. -/
def HasPort (payload : Bytes) : Prop :=
  ∃ rest, Behind payload (ascii "Port: ") rest ∧ IsPort (line rest)

section fields

variable {payload name rest hash port cookie datagram : Bytes} {pos : ℕ}

theorem behind_iff : Behind payload name rest ↔
    ∃ k, find_string payload name = some k ∧ payload.drop k = name ++ rest := by
  constructor
  · intro h
    obtain ⟨before, heq, hfirst⟩ := h
    have hdrop : payload.drop before.length = name ++ rest := by
      rw [heq, List.drop_left]
    refine ⟨before.length, find_string_iff.mpr ⟨?_, ?_, hfirst⟩, hdrop⟩
    · simp [heq]
    · rw [hdrop]
      exact List.prefix_append ..
  · intro h
    obtain ⟨k, hfind, hdrop⟩ := h
    obtain ⟨hle, -, hfirst⟩ := find_string_iff.mp hfind
    refine ⟨payload.take k, ?_, ?_⟩
    · rw [← hdrop, List.take_append_drop]
    · intro i hi
      apply hfirst
      rw [List.length_take] at hi
      omega

/-- A name that is found has something behind it. -/
theorem behind_of_find (h : find_string payload name = some pos) :
    ∃ rest, payload.drop pos = name ++ rest ∧ Behind payload name rest := by
  obtain ⟨-, ⟨rest, hrest⟩, -⟩ := find_string_iff.mp h
  exact ⟨rest, hrest.symm, behind_iff.mpr ⟨pos, h, hrest.symm⟩⟩

theorem Behind.unique {rest' : Bytes} (h : Behind payload name rest)
    (h' : Behind payload name rest') : rest = rest' := by
  obtain ⟨k, hk, hdrop⟩ := behind_iff.mp h
  obtain ⟨k', hk', hdrop'⟩ := behind_iff.mp h'
  obtain rfl := Option.some.inj (hk.symm.trans hk')
  exact List.append_cancel_left (hdrop.symm.trans hdrop')

/-- There is only one text that the port can be read from. -/
theorem Behind.hasPort_iff (h : Behind payload (ascii "Port: ") rest) :
    HasPort payload ↔ IsPort (line rest) := by
  constructor
  · intro hport
    obtain ⟨rest', hrest', hport⟩ := hport
    rwa [h.unique hrest']
  · intro hport
    exact ⟨rest, h, hport⟩

theorem Announces.hasPort_iff (h : Announces payload hash port cookie) :
    HasPort payload ↔ IsPort port := by
  obtain ⟨rest, hrest, rfl⟩ := h.port
  exact hrest.hasPort_iff

theorem line_cr {l r : Bytes} (hl : '\r'.toUInt8 ∉ l) : line (l ++ '\r'.toUInt8 :: r) = l := by
  have hall : ∀ b ∈ l, decide (b ≠ '\r'.toUInt8) = true := by
    intro b hb
    rw [decide_eq_true_eq]
    intro heq
    exact hl (heq ▸ hb)
  unfold line
  rw [List.takeWhile_append_of_pos hall, List.takeWhile_cons_of_neg (by simp), List.append_nil]

theorem line_no_cr (h : '\r'.toUInt8 ∉ rest) : line rest = rest := by
  apply List.takeWhile_eq_self_iff.mpr
  intro b hb
  rw [decide_eq_true_eq]
  intro heq
  exact h (heq ▸ hb)

/-- The text behind a name, where there is a CR further on and where not. -/
theorem lpd_field_eq (hpos : pos ≤ payload.length) (hlen : payload.length < 2 ^ 63)
    (hdrop : payload.drop pos = name ++ rest) (hname : '\r'.toUInt8 ∉ name) :
    lpd_field payload pos name.length = .ok (line rest) := by
  have hrest : payload.drop (pos + name.length) = rest := by
    rw [← List.drop_drop, hdrop, List.drop_left]
  have hsum : pos + name.length + rest.length = payload.length := by
    have := congrArg List.length hdrop
    rw [List.length_drop, List.length_append] at this
    omega
  have hin : pos + name.length ≤ payload.length := by omega
  unfold lpd_field substr find_char
  rw [if_pos hin, hdrop]
  congr 1
  unfold slice
  rw [hrest]
  by_cases hcr : '\r'.toUInt8 ∈ rest
  · obtain ⟨l, r, rfl, hl⟩ := List.eq_append_cons_of_mem hcr
    have hbefore : '\r'.toUInt8 ∉ name ++ l := by simp [hname, hl]
    have hcount : size_t (((pos + (name ++ l).length : ℕ) : ℤ) - ((pos : ℤ) + name.length))
        = l.length := by
      have hdiff : ((pos + (name ++ l).length : ℕ) : ℤ) - ((pos : ℤ) + name.length)
          = l.length := by
        push_cast [List.length_append]
        ring
      rw [hdiff]
      apply size_t_natCast
      simp only [List.length_append, List.length_cons] at hsum
      omega
    rw [← List.append_assoc, findIdx?_append_cons hbefore, Option.map_some, Option.getD_some,
      hcount, List.take_left, line_cr hl]
  · have hnone : '\r'.toUInt8 ∉ name ++ rest := by simp [hname, hcr]
    rw [findIdx?_none hnone, Option.map_none, Option.getD_none]
    have hcount : rest.length ≤ size_t ((Text.npos : ℤ) - ((pos : ℤ) + name.length)) := by
      rw [size_t_of_lt (by unfold Text.npos; omega) (by unfold Text.npos; omega)]
      unfold Text.npos
      omega
    rw [List.take_of_length_le hcount, line_no_cr hcr]

theorem lpd_payload_length (datagram : Bytes) : (lpd_payload datagram).length ≤ 2047 := by
  have hle := (List.takeWhile_prefix (l := received datagram) (· ≠ 0)).length_le
  have htake : (received datagram).length ≤ 2047 := by
    unfold received
    rw [List.length_take]
    omega
  exact hle.trans htake

/-! ### What Is Extracted -/

/-- **Parsing**: of a datagram with a hash and a port, only the port may be
    refused, by `stoi`. -/
theorem lpd_parse_announces (hlen : payload.length < 2 ^ 63)
    (h : Announces payload hash port cookie) :
    lpd_parse payload = (stoi port).map fun n => some ⟨hash, n, cookie⟩ := by
  obtain ⟨hrest, hhash, rfl⟩ := h.hash
  obtain ⟨prest, hport, rfl⟩ := h.port
  obtain ⟨i, hi, hidrop⟩ := behind_iff.mp hhash
  obtain ⟨p, hp, hpdrop⟩ := behind_iff.mp hport
  have hsub : substr payload (i + 10) 40 = .ok (hrest.take 40) := by
    have hlen := congrArg List.length hidrop
    have hname : (ascii "Infohash: ").length = 10 := rfl
    rw [List.length_drop, List.length_append, hname] at hlen
    unfold substr slice
    rw [if_pos (by omega), ← List.drop_drop, hidrop, ← hname, List.drop_left]
  have hfield : lpd_field payload p 6 = .ok (line prest) :=
    lpd_field_eq (find_string_iff.mp hp).1 hlen hpdrop (by decide)
  have hcookie : lpd_cookie payload = .ok cookie := by
    unfold lpd_cookie
    rcases h.cookie with ⟨rest, hrest, rfl⟩ | ⟨hmissing, rfl⟩
    · obtain ⟨k, hk, hdrop⟩ := behind_iff.mp hrest
      rw [hk]
      exact lpd_field_eq (find_string_iff.mp hk).1 hlen hdrop (by decide)
    · rw [find_string_none.mpr hmissing]
  unfold lpd_parse
  rw [hi, hp]
  dsimp only
  rw [hsub, hfield, hcookie]
  show (stoi (line prest)).bind _ = _
  cases stoi (line prest) with
  | error e => rfl
  | ok n => rfl

/-- Without one of the two names there is nothing to do. -/
theorem lpd_parse_missing
    (h : ¬ ascii "Infohash: " <:+: payload ∨ ¬ ascii "Port: " <:+: payload) :
    lpd_parse payload = .ok none := by
  unfold lpd_parse
  rcases h with h | h
  · rw [find_string_none.mpr h]
    rfl
  · rw [find_string_none.mpr h]
    cases find_string payload (ascii "Infohash: ") with
    | none => rfl
    | some i => rfl

/-- A datagram has the two names, and then all that is looked for, or not. -/
theorem announces_or_missing (payload : Bytes) :
    (∃ hash port cookie, Announces payload hash port cookie) ∨
      (¬ ascii "Infohash: " <:+: payload ∨ ¬ ascii "Port: " <:+: payload) := by
  have hfound {name : Bytes} (h : name <:+: payload) : ∃ rest, Behind payload name rest := by
    cases hfind : find_string payload name with
    | none => exact absurd h (find_string_none.mp hfind)
    | some k =>
      obtain ⟨rest, -, hrest⟩ := behind_of_find hfind
      exact ⟨rest, hrest⟩
  by_cases hhash : ascii "Infohash: " <:+: payload
  · by_cases hport : ascii "Port: " <:+: payload
    · obtain ⟨rest, hrest⟩ := hfound hhash
      obtain ⟨rest', hrest'⟩ := hfound hport
      left
      by_cases hcookie : ascii "cookie: " <:+: payload
      · obtain ⟨rest'', hrest''⟩ := hfound hcookie
        exact ⟨_, _, _, ⟨rest, hrest, rfl⟩, ⟨rest', hrest', rfl⟩, .inl ⟨rest'', hrest'', rfl⟩⟩
      · exact ⟨_, _, _, ⟨rest, hrest, rfl⟩, ⟨rest', hrest', rfl⟩, .inr ⟨hcookie, rfl⟩⟩
    · exact .inr (.inr hport)
  · exact .inr (.inl hhash)

theorem Announces.not_missing (h : Announces payload hash port cookie) :
    ¬ (¬ ascii "Infohash: " <:+: payload ∨ ¬ ascii "Port: " <:+: payload) := by
  have hin {name rest : Bytes} (h : Behind payload name rest) : name <:+: payload := by
    obtain ⟨before, heq, -⟩ := h
    exact ⟨before, rest, by rw [heq, List.append_assoc]⟩
  obtain ⟨rest, hrest, -⟩ := h.hash
  obtain ⟨rest', hrest', -⟩ := h.port
  simp only [not_or, not_not]
  exact ⟨hin hrest, hin hrest'⟩

end fields

/-! ## What a Datagram Does -/

section datagrams

variable {my_info_hash my_cookie datagram hash port cookie : Bytes} {connected : Bool}
  {sender : InAddr} {peer_ip : Bytes} {known_peers : Finset Bytes}

/-- An empty datagram has no fields either. -/
theorem lpd_listen_eq : lpd_listen my_info_hash my_cookie connected sender datagram known_peers
    = (lpd_parse (lpd_payload datagram)).map
        (lpd_respond my_info_hash my_cookie connected (inet_ntoa sender) known_peers) := by
  unfold lpd_listen
  split
  · rename_i hempty
    have hnil : received datagram = [] := List.length_eq_zero_iff.mp (Nat.le_zero.mp hempty)
    have hparse : lpd_parse [] = .ok none := by decide
    unfold lpd_payload
    rw [hnil, List.takeWhile_nil, hparse]
    rfl
  · cases lpd_parse (lpd_payload datagram) with
    | error e => rfl
    | ok found => rfl

/-- When `connect_to` is called for an announcement. -/
theorem lpd_respond_attempt {n : ℤ} : (lpd_respond my_info_hash my_cookie connected peer_ip
      known_peers (some ⟨hash, n, cookie⟩)).attempt = none ↔
    cookie = my_cookie ∨ hash ≠ my_info_hash ∨ peer_identifier peer_ip n ∈ known_peers := by
  unfold lpd_respond lpd_contact
  dsimp only
  by_cases hcookie : cookie = my_cookie
  · simp [hcookie]
  by_cases hhash : hash = my_info_hash
  · rw [if_neg hcookie, if_pos hhash]
    by_cases hknown : peer_identifier peer_ip n ∈ known_peers
    · simp [hknown]
    · cases connected with
      | true => simp [hknown, hcookie, hhash]
      | false => simp [hknown, hcookie, hhash]
  · simp [hcookie, hhash]

/-- **What a datagram can do**: the thread goes on, with no call of `connect_to`
    but for a valid port, exactly when the text of the port starts with an `int`,
    and is a valid port or the announcement is one that is passed over. -/
theorem lpd_listen_survives :
    (∃ out, lpd_listen my_info_hash my_cookie connected sender datagram known_peers = .ok out ∧
      (¬ HasPort (lpd_payload datagram) → out.attempt = none)) ↔
    ∀ hash port cookie, Announces (lpd_payload datagram) hash port cookie →
      ∃ n, StartsWith port n ∧ FitsInt n ∧
        (IsPort port ∨ cookie = my_cookie ∨ hash ≠ my_info_hash ∨
          peer_identifier (inet_ntoa sender) n ∈ known_peers) := by
  have hlen : (lpd_payload datagram).length < 2 ^ 63 :=
    (lpd_payload_length datagram).trans_lt (by norm_num)
  rw [lpd_listen_eq]
  rcases announces_or_missing (lpd_payload datagram) with ⟨hash, port, cookie, h⟩ | hmissing
  · rw [lpd_parse_announces hlen h]
    constructor
    · intro hout hash' port' cookie' h'
      obtain ⟨out, hout, hattempt⟩ := hout
      rw [← lpd_parse_announces hlen h, lpd_parse_announces hlen h'] at hout
      obtain ⟨found, hfound, rfl⟩ := map_ok hout
      obtain ⟨n, hn, rfl⟩ := map_ok hfound
      obtain ⟨hstarts, hfits⟩ := stoi_iff.mp hn
      refine ⟨n, hstarts, hfits, ?_⟩
      by_cases hport : IsPort port'
      · exact .inl hport
      · exact .inr (lpd_respond_attempt.mp (hattempt fun hhas => hport (h'.hasPort_iff.mp hhas)))
    · intro hall
      obtain ⟨n, hstarts, hfits, hn⟩ := hall hash port cookie h
      rw [stoi_iff.mpr ⟨hstarts, hfits⟩]
      refine ⟨_, rfl, ?_⟩
      intro hno
      apply lpd_respond_attempt.mpr
      exact hn.resolve_left fun hport => hno (h.hasPort_iff.mpr hport)
  · rw [lpd_parse_missing hmissing]
    constructor
    · intro _ hash port cookie h
      exact absurd hmissing h.not_missing
    · intro _
      exact ⟨_, rfl, fun _ => rfl⟩

/-- Whether a datagram has a valid port can be computed. -/
theorem hasPort_iff_of_find {payload : Bytes} {k : ℕ}
    (h : find_string payload (ascii "Port: ") = some k) :
    HasPort payload ↔ IsPort (line (payload.drop (k + 6))) := by
  obtain ⟨rest, hdrop, hrest⟩ := behind_of_find h
  have heq : payload.drop (k + 6) = rest := by
    rw [← List.drop_drop, hdrop]
    rfl
  rw [heq, hrest.hasPort_iff]

/-- The announcement of a torrent, with what another client put for the port. -/
def port_datagram (port : Bytes) : Bytes :=
  ascii "Port: " ++ port ++ ascii "\r\nInfohash: 0123456789abcdef0123456789abcdef01234567\r\n"

/-- A port without digits ends the process, as does one that is no `int`; port 0
    is connected to. -/
theorem bad_port_not_survived :
    lpd_listen (ascii "0123456789abcdef0123456789abcdef01234567") (ascii "LPD_1") true
      ⟨10, 0, 0, 7⟩ (port_datagram (ascii "x")) ∅ = .error .invalid_argument ∧
    lpd_listen (ascii "0123456789abcdef0123456789abcdef01234567") (ascii "LPD_1") true
      ⟨10, 0, 0, 7⟩ (port_datagram (ascii "99999999999")) ∅ = .error .out_of_range ∧
    ¬ HasPort (lpd_payload (port_datagram (ascii "0"))) ∧
    lpd_listen (ascii "0123456789abcdef0123456789abcdef01234567") (ascii "LPD_1") true
      ⟨10, 0, 0, 7⟩ (port_datagram (ascii "0")) ∅
      = .ok ⟨{ascii "10.0.0.7:0"}, some (ascii "10.0.0.7", 0), some (ascii "10.0.0.7", 0)⟩ := by
  have hport : find_string (lpd_payload (port_datagram (ascii "0"))) (ascii "Port: ") = some 0 := by
    decide +kernel
  refine ⟨by decide +kernel, by decide +kernel, ?_, by decide +kernel⟩
  rw [hasPort_iff_of_find hport]
  decide +kernel

end datagrams

end BitTorrentLite
