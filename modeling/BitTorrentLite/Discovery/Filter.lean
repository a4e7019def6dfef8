import BitTorrentLite.Announce.Request
import BitTorrentLite.Discovery.Lpd

/-! # The Discovery Filter

    Over the announcements that `lpd_broadcast_thread` sends, the loop of
    `lpd_listen_thread` is a filter: it meets the peers of its own torrent, each
    address and port until the first connection. The set of strings it
    remembers is read as the set of the peers it is connected to.
-/

open Machine Region Bencode

namespace BitTorrentLite

/-! ## The Announcements -/

/-- The message of `lpd_broadcast_thread`. -/
def lpd_message (info_hash_hex : Bytes) (tcp_port : ℤ) (my_cookie : Bytes) : Bytes :=
  ascii "BT-SEARCH * HTTP/1.1\r\n"
    ++ ascii "Host: 239.192.152.143:6771\r\n"
    ++ ascii "Port: " ++ integer tcp_port ++ ascii "\r\n"
    ++ ascii "Infohash: " ++ info_hash_hex ++ ascii "\r\n"
    ++ ascii "cookie: " ++ my_cookie ++ ascii "\r\n\r\n"

/-- An announcement of another client, and where it comes from. -/
structure LocalAnnounce where
  sender : InAddr
  info_hash_hex : Bytes
  tcp_port : ℕ
  cookie : Bytes
  hash_length : info_hash_hex.length = 40
  hash_hex : ∀ b ∈ info_hash_hex, (hex_value b).isSome = true
  port_pos : 1 ≤ tcp_port
  port_le : tcp_port ≤ 65535
  cookie_nul : 0 ∉ cookie
  cookie_cr : '\r'.toUInt8 ∉ cookie
  fits : (lpd_message info_hash_hex tcp_port cookie).length < 2048

/-- The loop of `lpd_listen_thread` over the datagrams that arrive, each with its
    sender and whether `connect_to` would succeed now; what every iteration
    does. -/
def lpd_listen_loop (my_info_hash my_cookie : Bytes) :
    Finset Bytes → List (InAddr × Bytes × Bool) → Except Stop (List Heard)
  | _, [] => return []
  | known_peers, (sender, datagram, connected) :: rest => do
    let heard ← lpd_listen my_info_hash my_cookie connected sender datagram known_peers
    let others ← lpd_listen_loop my_info_hash my_cookie heard.known_peers rest
    return heard :: others

/-! ## Addresses -/

theorem inet_ntoa_injective : Function.Injective inet_ntoa := by
  intro x y h
  have hdot (n : ℕ) : '.'.toUInt8 ∉ decimal n := not_mem_decimal (by decide)
  have hbyte {u v : UInt8} (h : decimal u.toNat = decimal v.toNat) : u = v :=
    UInt8.toNat_inj.mp (decimal_injective h)
  have hascii : ascii "." = ['.'.toUInt8] := rfl
  unfold inet_ntoa at h
  simp only [hascii, List.append_assoc, List.singleton_append] at h
  -- each dot ends a number
  obtain ⟨ha, h⟩ := append_cons_inj (hdot _) (hdot _) h
  obtain ⟨hb, h⟩ := append_cons_inj (hdot _) (hdot _) h
  obtain ⟨hc, hd⟩ := append_cons_inj (hdot _) (hdot _) h
  cases x
  cases y
  simp only [InAddr.mk.injEq]
  exact ⟨hbyte ha, hbyte hb, hbyte hc, hbyte hd⟩

theorem colon_not_mem_inet_ntoa (addr : InAddr) : ':'.toUInt8 ∉ inet_ntoa addr :=
  CompactPeer.colon_not_mem_dotted
    (p := ⟨addr.a, addr.b, addr.c, addr.d, 1, le_rfl, by norm_num⟩)

/-- The string a peer is remembered by. -/
def identifier (peer : InAddr × ℕ) : Bytes := peer_identifier (inet_ntoa peer.1) peer.2

/-- No two peers are remembered by one string. -/
theorem identifier_injective : Function.Injective identifier := by
  intro x y h
  have hcolon : ascii ":" = [':'.toUInt8] := rfl
  unfold identifier peer_identifier at h
  simp only [hcolon, List.append_assoc, List.singleton_append, integer_natCast] at h
  obtain ⟨haddr, hport⟩ := append_cons_inj (colon_not_mem_inet_ntoa _)
    (colon_not_mem_inet_ntoa _) h
  exact Prod.ext (inet_ntoa_injective haddr) (decimal_injective hport)

/-! ## Reading an Announcement -/

/-- A name is found at its place when one of its characters is not to be found
    in front of it. -/
theorem behind_of_byte {payload before name q p rest : Bytes} {c : UInt8}
    (hpayload : payload = before ++ (name ++ rest)) (hname : name = q ++ c :: p)
    (hbefore : c ∉ before) (hq : c ∉ q) : Behind payload name rest := by
  apply behind_iff.mpr
  refine ⟨before.length, ?_, ?_⟩
  · rw [hpayload, hname]
    exact find_string_behind hbefore hq
  · rw [hpayload, List.drop_left]

/-- What a byte that is a hexadecimal digit is not. -/
theorem not_mem_hex {bs : Bytes} {b : UInt8} (h : ∀ b ∈ bs, (hex_value b).isSome = true)
    (hb : (hex_value b).isSome = false) : b ∉ bs := by
  intro hmem
  rw [h b hmem] at hb
  cases hb

namespace LocalAnnounce

variable (a : LocalAnnounce)

/-- What is sent. -/
def datagram : Bytes := lpd_message a.info_hash_hex a.tcp_port a.cookie

/-- The address and the port it announces. -/
def peer : InAddr × ℕ := (a.sender, a.tcp_port)

/-- The arguments of `connect_to`. -/
def contact : Bytes × ℤ := (inet_ntoa a.sender, a.tcp_port)

/-- It is of the client's own torrent and not from the client itself. -/
def Wanted (my_info_hash my_cookie : Bytes) : Prop :=
  a.info_hash_hex = my_info_hash ∧ a.cookie ≠ my_cookie

/-- The message up to the port. -/
def opening : Bytes := ascii "BT-SEARCH * HTTP/1.1\r\nHost: 239.192.152.143:6771\r\n"

/-- The end of a line. -/
def crlf : Bytes := '\r'.toUInt8 :: ['\n'.toUInt8]

theorem datagram_eq : a.datagram = opening ++ (ascii "Port: " ++ (decimal a.tcp_port ++ (crlf ++
    (ascii "Infohash: " ++ (a.info_hash_hex ++ (crlf ++
      (ascii "cookie: " ++ (a.cookie ++ (crlf ++ crlf))))))))) := by
  have hopening : ascii "BT-SEARCH * HTTP/1.1\r\n" ++ ascii "Host: 239.192.152.143:6771\r\n"
      = opening := rfl
  have hline : ascii "\r\n" = crlf := rfl
  have hend : ascii "\r\n\r\n" = crlf ++ crlf := rfl
  unfold datagram lpd_message
  rw [integer_natCast, hopening, hline, hend]
  simp only [List.append_assoc]

theorem nul_not_mem_datagram : 0 ∉ a.datagram := by
  have hport : 0 ∉ decimal a.tcp_port := not_mem_decimal (by decide)
  have hhash : 0 ∉ a.info_hash_hex := not_mem_hex a.hash_hex (by decide)
  rw [a.datagram_eq]
  simp only [List.mem_append, not_or]
  exact ⟨by decide, by decide, hport, by decide, by decide, hhash, by decide, by decide,
    a.cookie_nul, by decide, by decide⟩

/-- Nothing is cut off. -/
theorem payload_datagram : lpd_payload a.datagram = a.datagram := by
  have hle : a.datagram.length ≤ 2047 := Nat.le_of_lt_succ a.fits
  unfold lpd_payload received
  rw [List.take_of_length_le hle]
  apply List.takeWhile_eq_self_iff.mpr
  intro b hb
  rw [decide_eq_true_eq]
  intro h
  exact a.nul_not_mem_datagram (h ▸ hb)

/-- In front of `Port: ` there is no `r`. -/
theorem behind_port : Behind a.datagram (ascii "Port: ") (decimal a.tcp_port ++ (crlf ++
    (ascii "Infohash: " ++ (a.info_hash_hex ++ (crlf ++
      (ascii "cookie: " ++ (a.cookie ++ (crlf ++ crlf)))))))) :=
  behind_of_byte (c := 'r'.toUInt8) (q := ascii "Po") a.datagram_eq rfl (by decide) (by decide)

/-- In front of `Infohash: ` there is no `I`. -/
theorem behind_infohash : Behind a.datagram (ascii "Infohash: ") (a.info_hash_hex ++ (crlf ++
    (ascii "cookie: " ++ (a.cookie ++ (crlf ++ crlf))))) := by
  have heq : a.datagram = (opening ++ (ascii "Port: " ++ (decimal a.tcp_port ++ crlf))) ++
      (ascii "Infohash: " ++ (a.info_hash_hex ++ (crlf ++
        (ascii "cookie: " ++ (a.cookie ++ (crlf ++ crlf)))))) := by
    rw [a.datagram_eq]
    simp only [List.append_assoc]
  have hport : 'I'.toUInt8 ∉ decimal a.tcp_port := not_mem_decimal (by decide)
  apply behind_of_byte (c := 'I'.toUInt8) (q := []) heq rfl ?_ List.not_mem_nil
  simp only [List.mem_append, not_or]
  exact ⟨by decide, by decide, hport, by decide⟩

/-- In front of `cookie: ` there is no `k`, not even in the hash, which may have
    a `c`. -/
theorem behind_cookie : Behind a.datagram (ascii "cookie: ") (a.cookie ++ (crlf ++ crlf)) := by
  have heq : a.datagram = (opening ++ (ascii "Port: " ++ (decimal a.tcp_port ++ (crlf ++
      (ascii "Infohash: " ++ (a.info_hash_hex ++ crlf)))))) ++
      (ascii "cookie: " ++ (a.cookie ++ (crlf ++ crlf))) := by
    rw [a.datagram_eq]
    simp only [List.append_assoc]
  have hport : 'k'.toUInt8 ∉ decimal a.tcp_port := not_mem_decimal (by decide)
  have hhash : 'k'.toUInt8 ∉ a.info_hash_hex := not_mem_hex a.hash_hex (by decide)
  apply behind_of_byte (c := 'k'.toUInt8) (q := ascii "coo") heq rfl ?_ (by decide)
  simp only [List.mem_append, not_or]
  exact ⟨by decide, by decide, hport, by decide, by decide, hhash, by decide⟩

/-- **Reading**: each field is found where it was put, whatever stands in the
    fields around it. -/
theorem announces_datagram :
    Announces a.datagram a.info_hash_hex (decimal a.tcp_port) a.cookie := by
  have hcr : '\r'.toUInt8 ∉ decimal a.tcp_port := not_mem_decimal (by decide)
  refine ⟨⟨_, a.behind_infohash, ?_⟩, ⟨_, a.behind_port, ?_⟩, .inl ⟨_, a.behind_cookie, ?_⟩⟩
  · exact (List.take_left' a.hash_length).symm
  · exact (line_cr hcr).symm
  · exact (line_cr a.cookie_cr).symm

/-- What an announcement does: it is read, and responded to. -/
theorem lpd_listen_datagram (my_info_hash my_cookie : Bytes) (connected : Bool)
    (known_peers : Finset Bytes) :
    lpd_listen my_info_hash my_cookie connected a.sender a.datagram known_peers
      = .ok (lpd_respond my_info_hash my_cookie connected (inet_ntoa a.sender) known_peers
          (some ⟨a.info_hash_hex, a.tcp_port, a.cookie⟩)) := by
  have hle := a.port_le
  have hlen : a.datagram.length < 2 ^ 63 := a.fits.trans (by norm_num)
  rw [lpd_listen_eq, a.payload_datagram, lpd_parse_announces hlen a.announces_datagram,
    Url.stoi_decimal (by omega)]
  rfl

/-- What arrives, when `connect_to` would succeed or fail. -/
def event (e : LocalAnnounce × Bool) : InAddr × Bytes × Bool := (e.1.sender, e.1.datagram, e.2)

end LocalAnnounce

/-! ## The Filter -/

section filter

variable {my_info_hash my_cookie : Bytes} {met : Finset (InAddr × ℕ)}
  {e : LocalAnnounce × Bool} {out : Heard} {events : List (LocalAnnounce × Bool)}
  {outs : List Heard} {peer : InAddr × ℕ}

/-- The peers met, when the announcement of `e` has been responded to. -/
def met_after (met : Finset (InAddr × ℕ)) (e : LocalAnnounce × Bool) (out : Heard) :
    Finset (InAddr × ℕ) :=
  if out.worker.isSome = true then insert e.1.peer met else met

/-- One iteration, for a client that is connected to the peers in `met`. -/
structure Meets (my_info_hash my_cookie : Bytes) (met : Finset (InAddr × ℕ))
    (e : LocalAnnounce × Bool) (out : Heard) : Prop where
  attempt : ∀ c, out.attempt = some c ↔
    c = e.1.contact ∧ e.1.Wanted my_info_hash my_cookie ∧ e.1.peer ∉ met
  worker : ∀ c, out.worker = some c ↔
    c = e.1.contact ∧ e.1.Wanted my_info_hash my_cookie ∧ e.1.peer ∉ met ∧ e.2 = true
  known_peers : out.known_peers = (met_after met e out).image identifier

/-- An announcement that is passed over. -/
theorem meets_ignored (h : ¬ (e.1.Wanted my_info_hash my_cookie ∧ e.1.peer ∉ met)) :
    Meets my_info_hash my_cookie met e ⟨met.image identifier, none, none⟩ := by
  refine ⟨?_, ?_, rfl⟩
  · intro c
    simp only [reduceCtorEq, false_iff]
    intro hc
    exact h hc.2
  · intro c
    simp only [reduceCtorEq, false_iff]
    intro hc
    exact h ⟨hc.2.1, hc.2.2.1⟩

/-- A peer of the torrent is connected to, unless it was met. -/
theorem lpd_contact_meets (hwanted : e.1.Wanted my_info_hash my_cookie) :
    Meets my_info_hash my_cookie met e
      (lpd_contact e.2 (inet_ntoa e.1.sender) e.1.tcp_port (met.image identifier)) := by
  have hident : peer_identifier (inet_ntoa e.1.sender) e.1.tcp_port = identifier e.1.peer := rfl
  have hknown : identifier e.1.peer ∈ met.image identifier ↔ e.1.peer ∈ met :=
    identifier_injective.mem_finset_image
  unfold lpd_contact
  dsimp only
  rw [hident]
  by_cases hmem : e.1.peer ∈ met
  · rw [if_pos (hknown.mpr hmem)]
    exact meets_ignored fun h => h.2 hmem
  · have hnew := hknown.not.mpr hmem
    rw [if_neg hnew]
    by_cases hconnected : e.2 = true
    · rw [if_pos hconnected]
      refine ⟨?_, ?_, ?_⟩
      · intro c
        simp [hwanted, hmem, eq_comm, LocalAnnounce.contact]
      · intro c
        simp [hwanted, hmem, hconnected, eq_comm, LocalAnnounce.contact]
      · unfold met_after
        rw [Option.isSome_some, if_pos rfl, Finset.image_insert]
    -- the peer is forgotten again
    · rw [if_neg hconnected]
      refine ⟨?_, ?_, Finset.erase_insert hnew⟩
      · intro c
        simp [hwanted, hmem, eq_comm, LocalAnnounce.contact]
      · intro c
        simp [hconnected]

/-- **Step lemma**: the strings stand for the peers that were met. -/
theorem lpd_listen_meets (my_info_hash my_cookie : Bytes) (met : Finset (InAddr × ℕ))
    (e : LocalAnnounce × Bool) :
    ∃ out, lpd_listen my_info_hash my_cookie e.2 e.1.sender e.1.datagram (met.image identifier)
        = .ok out ∧ Meets my_info_hash my_cookie met e out := by
  refine ⟨_, e.1.lpd_listen_datagram .., ?_⟩
  unfold lpd_respond
  dsimp only
  split
  · rename_i hcookie
    exact meets_ignored fun h => h.1.2 hcookie
  · rename_i hcookie
    split
    · rename_i hhash
      exact lpd_contact_meets ⟨hhash, hcookie⟩
    · rename_i hhash
      exact meets_ignored fun h => hhash h.1.1

/-- One of the first `k` announcements was of this peer and led to a connection. -/
def Taken (events : List (LocalAnnounce × Bool)) (outs : List Heard) (k : ℕ)
    (peer : InAddr × ℕ) : Prop :=
  ∃ j < k, ∃ e out, events[j]? = some e ∧ outs[j]? = some out ∧ e.1.peer = peer ∧
    out.worker.isSome = true

theorem not_taken_zero : ¬ Taken events outs 0 peer := by
  intro h
  obtain ⟨j, hj, -⟩ := h
  exact Nat.not_lt_zero j hj

theorem taken_succ {k : ℕ} : Taken (e :: events) (out :: outs) (k + 1) peer ↔
    (e.1.peer = peer ∧ out.worker.isSome = true) ∨ Taken events outs k peer := by
  constructor
  · intro h
    obtain ⟨j, hj, e', out', he, hout, hpeer, hworker⟩ := h
    cases j with
    | zero =>
      obtain rfl := Option.some.inj he
      obtain rfl := Option.some.inj hout
      exact .inl ⟨hpeer, hworker⟩
    | succ j => exact .inr ⟨j, Nat.lt_of_succ_lt_succ hj, e', out', he, hout, hpeer, hworker⟩
  · intro h
    rcases h with ⟨hpeer, hworker⟩ | ⟨j, hj, e', out', he, hout, hpeer, hworker⟩
    · exact ⟨0, Nat.succ_pos k, e, out, rfl, rfl, hpeer, hworker⟩
    · exact ⟨j + 1, Nat.succ_lt_succ hj, e', out', he, hout, hpeer, hworker⟩

/-- What every iteration of a run does, for a client that is connected to the
    peers in `met`. -/
structure Filtered (my_info_hash my_cookie : Bytes) (met : Finset (InAddr × ℕ))
    (events : List (LocalAnnounce × Bool)) (outs : List Heard) : Prop where
  length : outs.length = events.length
  attempt : ∀ k e out, events[k]? = some e → outs[k]? = some out → ∀ c, out.attempt = some c ↔
    c = e.1.contact ∧ e.1.Wanted my_info_hash my_cookie ∧
      e.1.peer ∉ met ∧ ¬ Taken events outs k e.1.peer
  worker : ∀ k e out, events[k]? = some e → outs[k]? = some out → ∀ c, out.worker = some c ↔
    c = e.1.contact ∧ e.1.Wanted my_info_hash my_cookie ∧
      (e.1.peer ∉ met ∧ ¬ Taken events outs k e.1.peer) ∧ e.2 = true

theorem not_mem_met_after : peer ∉ met_after met e out ↔
    peer ∉ met ∧ ¬ (e.1.peer = peer ∧ out.worker.isSome = true) := by
  unfold met_after
  split
  · rename_i hworker
    simp only [Finset.mem_insert, not_or, hworker, and_true]
    rw [and_comm, eq_comm]
  · rename_i hworker
    simp [hworker]

/-- What is behind the first announcement sees one peer more. -/
theorem not_taken_cons {k : ℕ} : peer ∉ met ∧ ¬ Taken (e :: events) (out :: outs) (k + 1) peer ↔
    peer ∉ met_after met e out ∧ ¬ Taken events outs k peer := by
  rw [not_mem_met_after, taken_succ, not_or, and_assoc]

theorem Filtered.cons (h : Meets my_info_hash my_cookie met e out)
    (hrest : Filtered my_info_hash my_cookie (met_after met e out) events outs) :
    Filtered my_info_hash my_cookie met (e :: events) (out :: outs) := by
  refine ⟨?_, ?_, ?_⟩
  · rw [List.length_cons, List.length_cons, hrest.length]
  · intro k e' out' he hout c
    cases k with
    | zero =>
      obtain rfl := Option.some.inj he
      obtain rfl := Option.some.inj hout
      simp [h.attempt, not_taken_zero]
    | succ k => rw [not_taken_cons, hrest.attempt k e' out' he hout]
  · intro k e' out' he hout c
    cases k with
    | zero =>
      obtain rfl := Option.some.inj he
      obtain rfl := Option.some.inj hout
      simp [h.worker, not_taken_zero]
    | succ k => rw [not_taken_cons, hrest.worker k e' out' he hout]

/-- **Run lemma**: the loop goes on for ever, as a filter. -/
theorem lpd_listen_loop_filtered (my_info_hash my_cookie : Bytes)
    (events : List (LocalAnnounce × Bool)) (met : Finset (InAddr × ℕ)) :
    ∃ outs, lpd_listen_loop my_info_hash my_cookie (met.image identifier)
        (events.map LocalAnnounce.event) = .ok outs ∧
      Filtered my_info_hash my_cookie met events outs := by
  induction events generalizing met with
  | nil =>
    refine ⟨[], rfl, rfl, ?_, ?_⟩
    · intro k e out he
      cases he
    · intro k e out he
      cases he
  | cons e events ih =>
    obtain ⟨out, hout, hmeets⟩ := lpd_listen_meets my_info_hash my_cookie met e
    obtain ⟨outs, houts, hfiltered⟩ := ih (met_after met e out)
    refine ⟨out :: outs, ?_, hfiltered.cons hmeets⟩
    rw [List.map_cons]
    unfold lpd_listen_loop LocalAnnounce.event
    rw [hout]
    show (lpd_listen_loop my_info_hash my_cookie out.known_peers
      (events.map LocalAnnounce.event)).bind _ = _
    rw [hmeets.known_peers, houts]
    rfl

theorem contact_injective {a b : LocalAnnounce} (h : a.contact = b.contact) : a.peer = b.peer := by
  obtain ⟨haddr, hport⟩ := Prod.mk.inj h
  exact Prod.ext (inet_ntoa_injective haddr) (Nat.cast_injective hport)

/-- No two workers are started for one address and port. -/
theorem Filtered.one_worker (h : Filtered my_info_hash my_cookie met events outs) {j k : ℕ}
    (hjk : j < k) {out' : Heard} (hout : outs[k]? = some out) (hout' : outs[j]? = some out')
    {c : Bytes × ℤ} (hc' : out'.worker = some c) : out.worker ≠ some c := by
  intro hc
  have hk : k < events.length := by
    rw [← h.length]
    exact (List.getElem?_eq_some_iff.mp hout).1
  have he := List.getElem?_eq_getElem hk
  have he' := List.getElem?_eq_getElem (hjk.trans hk)
  obtain ⟨hcontact, -, ⟨-, hfree⟩, -⟩ := (h.worker k _ out he hout c).mp hc
  obtain ⟨hcontact', -⟩ := (h.worker j _ out' he' hout' c).mp hc'
  apply hfree
  refine ⟨j, hjk, _, out', he', hout', contact_injective (hcontact'.symm.trans hcontact), ?_⟩
  rw [hc']
  rfl

/-- **The filter**: over any announcements from any senders, and any successes of
    `connect_to`, a worker is started for the announcements of the own torrent
    under another cookie whose peer has none yet, when it can be connected to;
    `connect_to` is called for these, whatever failed before. -/
theorem lpd_filter (my_info_hash my_cookie : Bytes) (events : List (LocalAnnounce × Bool)) :
    ∃ outs, lpd_listen_loop my_info_hash my_cookie ∅ (events.map LocalAnnounce.event) = .ok outs ∧
      outs.length = events.length ∧
      ∀ k e out, events[k]? = some e → outs[k]? = some out →
        (∀ c, out.worker = some c ↔ c = e.1.contact ∧
          e.1.info_hash_hex = my_info_hash ∧ e.1.cookie ≠ my_cookie ∧
            ¬ Taken events outs k e.1.peer ∧ e.2 = true) ∧
        (∀ c, out.attempt = some c ↔ c = e.1.contact ∧
          e.1.info_hash_hex = my_info_hash ∧ e.1.cookie ≠ my_cookie ∧
            ¬ Taken events outs k e.1.peer) ∧
        (e.1.cookie = my_cookie → out.attempt = none ∧ out.worker = none) ∧
        ∀ j < k, ∀ out', outs[j]? = some out' → ∀ c, out'.worker = some c →
          out.worker ≠ some c := by
  obtain ⟨outs, houts, h⟩ := lpd_listen_loop_filtered my_info_hash my_cookie events ∅
  rw [Finset.image_empty] at houts
  refine ⟨outs, houts, h.length, ?_⟩
  intro k e out he hout
  have hworker := h.worker k e out he hout
  have hattempt := h.attempt k e out he hout
  simp only [Finset.notMem_empty, not_false_eq_true, true_and, LocalAnnounce.Wanted, and_assoc]
    at hworker hattempt
  refine ⟨hworker, hattempt, ?_, ?_⟩
  · intro hcookie
    constructor
    · apply Option.eq_none_iff_forall_ne_some.mpr
      intro c hc
      exact ((hattempt c).mp hc).2.2.1 hcookie
    · apply Option.eq_none_iff_forall_ne_some.mpr
      intro c hc
      exact ((hworker c).mp hc).2.2.1 hcookie
  · intro j hj out' hout' c hc
    exact h.one_worker hj hout hout' hc

/-- An announcement by the client at `10.0.0.1` itself, or by one at `10.0.0.2`. -/
def sample_announce (own : Bool) : LocalAnnounce where
  sender := ⟨10, 0, 0, if own then 1 else 2⟩
  info_hash_hex := List.replicate 40 'a'.toUInt8
  tcp_port := 7000
  cookie := ascii (if own then "LPD_1" else "LPD_2")
  hash_length := List.length_replicate
  hash_hex := by
    intro b hb
    rw [List.eq_of_mem_replicate hb]
    decide
  port_pos := by norm_num
  port_le := by norm_num
  cookie_nul := by cases own <;> decide
  cookie_cr := by cases own <;> decide
  fits := by cases own <;> decide +kernel

/-- A failed connection, a second announcement and a third, and one's own. -/
def sample_events : List (LocalAnnounce × Bool) :=
  [(sample_announce false, false), (sample_announce false, true), (sample_announce false, true),
    (sample_announce true, true)]

/-- The other client is connected to at the second attempt and not again, the
    client itself never. -/
theorem sample_filtered : ∃ first retry repeated own, lpd_listen_loop
    (List.replicate 40 'a'.toUInt8) (ascii "LPD_1") ∅ (sample_events.map LocalAnnounce.event)
      = .ok [first, retry, repeated, own] ∧
    (first.attempt = some (sample_announce false).contact ∧ first.worker = none) ∧
    retry.worker = some (sample_announce false).contact ∧
    (repeated.attempt = none ∧ repeated.worker = none) ∧
    own.attempt = none ∧ own.worker = none := by
  obtain ⟨outs, houts, hlen, h⟩ :=
    lpd_filter (List.replicate 40 'a'.toUInt8) (ascii "LPD_1") sample_events
  match outs, hlen with
  | [first, retry, repeated, own], _ =>
    have hcookie : (sample_announce false).cookie ≠ ascii "LPD_1" := by decide
    obtain ⟨hworker₀, hattempt₀, -⟩ := h 0 _ first rfl rfl
    obtain ⟨hworker₁, -⟩ := h 1 _ retry rfl rfl
    obtain ⟨hworker₂, hattempt₂, -⟩ := h 2 _ repeated rfl rfl
    obtain ⟨-, -, hown, -⟩ := h 3 _ own rfl rfl
    have hfirst : first.worker = none := by
      apply Option.eq_none_iff_forall_ne_some.mpr
      intro c hc
      exact Bool.false_ne_true ((hworker₀ c).mp hc).2.2.2.2
    -- what failed does not count
    have hretry : retry.worker = some (sample_announce false).contact := by
      refine (hworker₁ _).mpr ⟨rfl, rfl, hcookie, ?_, rfl⟩
      unfold sample_events
      rw [taken_succ, hfirst]
      exact fun h => h.elim (fun h => Bool.false_ne_true h.2) not_taken_zero
    have htaken : Taken sample_events [first, retry, repeated, own] 2 (sample_announce false).peer :=
      ⟨1, Nat.one_lt_two, _, retry, rfl, rfl, rfl, by rw [hretry]; rfl⟩
    refine ⟨first, retry, repeated, own, houts, ⟨?_, hfirst⟩, hretry, ⟨?_, ?_⟩, hown rfl⟩
    · exact (hattempt₀ _).mpr ⟨rfl, rfl, hcookie, not_taken_zero⟩
    · apply Option.eq_none_iff_forall_ne_some.mpr
      intro c hc
      exact ((hattempt₂ c).mp hc).2.2.2 htaken
    · apply Option.eq_none_iff_forall_ne_some.mpr
      intro c hc
      exact ((hworker₂ c).mp hc).2.2.2.1 htaken

end filter

end BitTorrentLite
