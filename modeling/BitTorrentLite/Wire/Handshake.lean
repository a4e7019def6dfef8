import BitTorrentLite.Announce.Request
import BitTorrentLite.Wire.Socket

/-! # Handshakes

    Both sides of a connection send 68 bytes before the first message. The side
    that was connected to reads them first, looks at the name of the protocol
    and at the info hash, and answers; the side that connects sends first, and
    looks at the info hash only.
-/

open Region Bencode

namespace BitTorrentLite

/-! ## The Two Roles -/

/-- `handshake`, with the values its members start with. -/
structure handshake where
  byte19 : UInt8 := 19
  protocol : Bytes := ascii "BitTorrent protocol"
  zero : Bytes := List.replicate 8 0
  info_hash : Bytes := []
  peer_id : Bytes := []

/-- `info_hashadder`; the digest is the one of the torrent's info dictionary. -/
def info_hashadder (h : handshake) (info_hash : Digest) : handshake :=
  { h with info_hash := info_hash.val }

/-- `peer_idadder`. -/
def peer_idadder (h : handshake) (peerid : Bytes) : handshake := { h with peer_id := peerid }

/-- What `memcpy` lays out, from the start of each string. -/
def handshake_bytes (h : handshake) : Bytes :=
  [h.byte19] ++ h.protocol.take 19 ++ h.zero.take 8 ++ h.info_hash.take 20 ++ h.peer_id.take 20

/-- How a worker greets its peer: the bytes it gives to `send`, whether it goes
    on to `run_peer_loop`, and what is still to come on the connection then. -/
structure Greeting where
  sent : Option Bytes
  enters : Bool
  rest : Socket

/-- `peer_worker`, up to the call of `run_peer_loop`; `send` returns `sent`. The
    loop over `recv` is the one of `recv_exact`. -/
def peer_worker (h : handshake) (sent : ℤ) (fd : Socket) : Greeting :=
  let hs := handshake_bytes h
  if sent ≠ 68 then ⟨some hs, false, fd⟩
  else
    match fd.recv_exact 68 with
    | (none, fd) => ⟨some hs, false, fd⟩
    | (some hr, fd) =>
      if slice hr 28 20 ≠ h.info_hash.take 20 then ⟨some hs, false, fd⟩
      else ⟨some hs, true, fd⟩

/-- `inbound_peer_worker`, up to the call of `run_peer_loop`. -/
def inbound_peer_worker (h : handshake) (sent : ℤ) (fd : Socket) : Greeting :=
  match fd.recv_exact 68 with
  | (none, fd) => ⟨none, false, fd⟩
  | (some hr, fd) =>
    if slice hr 0 1 ≠ [19] then ⟨none, false, fd⟩
    else if slice hr 1 19 ≠ ascii "BitTorrent protocol" then ⟨none, false, fd⟩
    else if slice hr 28 20 ≠ h.info_hash.take 20 then ⟨none, false, fd⟩
    else
      let hs := handshake_bytes h
      if sent ≠ 68 then ⟨some hs, false, fd⟩
      else ⟨some hs, true, fd⟩

/-! ## Clients -/

/-- A client: the torrent it is run for, and the peer id it made up. -/
structure Client where
  info_hash : Digest
  peer_id : Bytes
  peer_id_length : peer_id.length = 20

namespace Client

/-- The handshake `run_leecher` and `run_seeder` make. -/
def hello (c : Client) : handshake := peer_idadder (info_hashadder {} c.info_hash) c.peer_id

/-- The client of a run. -/
def of_run (SHA1 : Bytes → Digest) (info_raw : Bytes) (leecher : Bool) (rand : ℕ → ℕ) : Client where
  info_hash := SHA1 info_raw
  peer_id := generatePeerId leecher rand
  peer_id_length := by
    unfold generatePeerId
    cases leecher with
    | true => simp [ascii]
    | false => simp [ascii]

end Client

/-- A stream that starts as a handshake for a torrent. -/
structure Greets (info_hash : Digest) (stream : Bytes) : Prop where
  length : 68 ≤ stream.length
  first : slice stream 0 1 = [19]
  protocol : slice stream 1 19 = ascii "BitTorrent protocol"
  info_hash : slice stream 28 20 = info_hash.val

section handshakes

variable {c c' : Client} {fd : Socket}

theorem handshake_bytes_hello (c : Client) : handshake_bytes c.hello =
    [19] ++ ascii "BitTorrent protocol" ++ List.replicate 8 0 ++ c.info_hash.val ++ c.peer_id := by
  have hprotocol : (ascii "BitTorrent protocol").take 19 = ascii "BitTorrent protocol" := rfl
  have hzero : (List.replicate 8 (0 : UInt8)).take 8 = List.replicate 8 0 := rfl
  have hhash : c.info_hash.val.take 20 = c.info_hash.val :=
    List.take_of_length_le c.info_hash.prop.le
  have hid : c.peer_id.take 20 = c.peer_id := List.take_of_length_le c.peer_id_length.le
  unfold handshake_bytes Client.hello peer_idadder info_hashadder
  dsimp only
  rw [hprotocol, hzero, hhash, hid]

theorem handshake_bytes_length (c : Client) : (handshake_bytes c.hello).length = 68 := by
  have hprotocol : (ascii "BitTorrent protocol").length = 19 := rfl
  rw [handshake_bytes_hello]
  simp only [List.length_append, List.length_singleton, List.length_replicate, hprotocol,
    c.info_hash.prop, c.peer_id_length]

/-- Part of the first bytes of a stream. -/
theorem slice_take {f : Bytes} {n off m : ℕ} (h : off + m ≤ n) :
    slice (f.take n) off m = slice f off m := by
  have hslice := slice_slice f 0 n off m h
  unfold slice at hslice ⊢
  rwa [List.drop_zero, Nat.zero_add] at hslice

/-! ### What Each Role Accepts -/

theorem hello_info_hash (c : Client) : c.hello.info_hash.take 20 = c.info_hash.val :=
  List.take_of_length_le c.info_hash.prop.le

/-- **Outbound**: 68 bytes are taken off the stream, and looked at for the info
    hash. -/
theorem peer_worker_eq (c : Client) (h : 68 ≤ fd.bytes.length) :
    ∃ rest, peer_worker c.hello 68 fd = ⟨some (handshake_bytes c.hello),
        decide (slice fd.bytes 28 20 = c.info_hash.val), rest⟩ ∧
      rest.bytes = fd.bytes.drop 68 := by
  obtain ⟨rest, hrecv, hrest⟩ := Socket.recv_exact_some h
  refine ⟨rest, ?_, hrest⟩
  unfold peer_worker
  rw [hello_info_hash]
  dsimp only
  rw [if_neg (by decide), hrecv]
  dsimp only
  rw [slice_take (by norm_num)]
  by_cases heq : slice fd.bytes 28 20 = c.info_hash.val
  · rw [if_neg (not_not.mpr heq), decide_eq_true heq]
  · rw [if_pos heq, decide_eq_false heq]

theorem peer_worker_enters : (peer_worker c.hello 68 fd).enters = true ↔
    68 ≤ fd.bytes.length ∧ slice fd.bytes 28 20 = c.info_hash.val := by
  by_cases hlen : 68 ≤ fd.bytes.length
  · obtain ⟨rest, heq, -⟩ := peer_worker_eq c hlen
    rw [heq]
    simp [hlen]
  · have hshort := Socket.recv_exact_none (Nat.lt_of_not_le hlen)
    unfold peer_worker
    dsimp only
    rw [if_neg (by decide), hshort]
    simp [hlen]

/-- **Inbound**: a handshake for the torrent is taken off the stream and
    answered. -/
theorem inbound_peer_worker_greeted (h : Greets c.info_hash fd.bytes) (sent : ℤ) :
    ∃ rest, inbound_peer_worker c.hello sent fd
        = ⟨some (handshake_bytes c.hello), decide (sent = 68), rest⟩ ∧
      rest.bytes = fd.bytes.drop 68 := by
  obtain ⟨rest, hrecv, hrest⟩ := Socket.recv_exact_some h.length
  refine ⟨rest, ?_, hrest⟩
  unfold inbound_peer_worker
  rw [hello_info_hash, hrecv]
  dsimp only
  rw [slice_take (by norm_num), slice_take (by norm_num), slice_take (by norm_num),
    if_neg (not_not.mpr h.first), if_neg (not_not.mpr h.protocol), if_neg (not_not.mpr h.info_hash)]
  by_cases hsent : sent = 68
  · rw [if_neg (not_not.mpr hsent), decide_eq_true hsent]
  · rw [if_pos hsent, decide_eq_false hsent]

/-- Anything else is not answered. -/
theorem inbound_peer_worker_refused (h : ¬ Greets c.info_hash fd.bytes) (sent : ℤ) :
    ∃ rest, inbound_peer_worker c.hello sent fd = ⟨none, false, rest⟩ ∧
      (68 ≤ fd.bytes.length → rest.bytes = fd.bytes.drop 68) := by
  unfold inbound_peer_worker
  by_cases hlen : 68 ≤ fd.bytes.length
  · obtain ⟨rest, hrecv, hrest⟩ := Socket.recv_exact_some hlen
    refine ⟨rest, ?_, fun _ => hrest⟩
    rw [hello_info_hash, hrecv]
    dsimp only
    rw [slice_take (by norm_num), slice_take (by norm_num), slice_take (by norm_num)]
    by_cases hfirst : slice fd.bytes 0 1 = [19]
    · rw [if_neg (not_not.mpr hfirst)]
      by_cases hprotocol : slice fd.bytes 1 19 = ascii "BitTorrent protocol"
      · have hinfo : slice fd.bytes 28 20 ≠ c.info_hash.val :=
          fun hinfo => h ⟨hlen, hfirst, hprotocol, hinfo⟩
        rw [if_neg (not_not.mpr hprotocol), if_pos hinfo]
      · rw [if_pos hprotocol]
    · rw [if_pos hfirst]
  · refine ⟨[], ?_, fun hle => absurd hle hlen⟩
    rw [Socket.recv_exact_none (Nat.lt_of_not_le hlen)]

theorem inbound_peer_worker_enters :
    (inbound_peer_worker c.hello 68 fd).enters = true ↔ Greets c.info_hash fd.bytes := by
  constructor
  · intro hin
    by_contra h
    obtain ⟨rest, heq, -⟩ := inbound_peer_worker_refused h 68
    rw [heq] at hin
    cases hin
  · intro h
    obtain ⟨rest, heq, -⟩ := inbound_peer_worker_greeted h 68
    rw [heq]
    rfl

theorem inbound_peer_worker_rest (h : 68 ≤ fd.bytes.length) :
    (inbound_peer_worker c.hello 68 fd).rest.bytes = fd.bytes.drop 68 := by
  by_cases hgreets : Greets c.info_hash fd.bytes
  · obtain ⟨rest, heq, hrest⟩ := inbound_peer_worker_greeted hgreets 68
    rw [heq]
    exact hrest
  · obtain ⟨rest, heq, hrest⟩ := inbound_peer_worker_refused hgreets 68
    rw [heq]
    exact hrest h

/-! ### What Each Role Sends -/

/-- The 68 bytes of a client greet for its own torrent, and for no other. -/
theorem greets_handshake_bytes {info_hash : Digest} {later : Bytes} :
    Greets info_hash (handshake_bytes c.hello ++ later) ↔ c.info_hash = info_hash := by
  have hlen := handshake_bytes_length c
  have hfirst : slice (handshake_bytes c.hello ++ later) 0 1 = [19] := by
    rw [handshake_bytes_hello]
    rfl
  have hprotocol : slice (handshake_bytes c.hello ++ later) 1 19 = ascii "BitTorrent protocol" := by
    rw [handshake_bytes_hello]
    rfl
  have hhash : slice (handshake_bytes c.hello ++ later) 28 20 = c.info_hash.val := by
    have hbefore : ([19] ++ ascii "BitTorrent protocol" ++ List.replicate 8 0).length = 28 := rfl
    unfold slice
    rw [handshake_bytes_hello, List.append_assoc, List.append_assoc, ← hbefore, List.drop_left,
      List.take_left' c.info_hash.prop]
  constructor
  · intro h
    exact Subtype.ext (hhash.symm.trans h.info_hash)
  · intro h
    refine ⟨?_, hfirst, hprotocol, ?_⟩
    · rw [List.length_append]
      omega
    · rw [hhash, h]

/-- What the one that connects sends, and what the other answers, if it does. -/
theorem peer_worker_sent (c : Client) (sent : ℤ) (fd : Socket) :
    (peer_worker c.hello sent fd).sent = some (handshake_bytes c.hello) := by
  unfold peer_worker
  dsimp only
  split
  · rfl
  · split
    · rfl
    · split <;> rfl

theorem inbound_peer_worker_sent (sent : ℤ) {hs : Bytes} :
    (inbound_peer_worker c.hello sent fd).sent = some hs ↔
      Greets c.info_hash fd.bytes ∧ hs = handshake_bytes c.hello := by
  by_cases hgreets : Greets c.info_hash fd.bytes
  · obtain ⟨rest, heq, -⟩ := inbound_peer_worker_greeted hgreets sent
    simp [heq, hgreets, eq_comm]
  · obtain ⟨rest, heq, -⟩ := inbound_peer_worker_refused hgreets sent
    simp [heq, hgreets]

/-- What two clients send to each other is accepted for the same torrent only:
    `c` connects, and `c'` was connected to. -/
structure SentAccepted (c c' : Client) : Prop where
  outbound_sends : ∀ sent fd,
    (peer_worker c.hello sent fd).sent = some (handshake_bytes c.hello)
  inbound_sends : ∀ sent fd hs, (inbound_peer_worker c'.hello sent fd).sent = some hs ↔
    Greets c'.info_hash fd.bytes ∧ hs = handshake_bytes c'.hello
  length : ∀ d : Client, (handshake_bytes d.hello).length = 68
  inbound_accepts : ∀ (fd : Socket) later, fd.bytes = handshake_bytes c.hello ++ later →
    ((inbound_peer_worker c'.hello 68 fd).enters = true ↔ c.info_hash = c'.info_hash)
  outbound_accepts : ∀ (fd : Socket) later, fd.bytes = handshake_bytes c'.hello ++ later →
    ((peer_worker c.hello 68 fd).enters = true ↔ c'.info_hash = c.info_hash)

theorem sentAccepted (c c' : Client) : SentAccepted c c' := by
  refine ⟨peer_worker_sent c, fun sent fd hs => inbound_peer_worker_sent sent,
    handshake_bytes_length, ?_, ?_⟩
  · intro fd later hfd
    rw [inbound_peer_worker_enters, hfd, greets_handshake_bytes]
  · intro fd later hfd
    have hiff : Greets c.info_hash (handshake_bytes c'.hello ++ later) ↔
        c'.info_hash = c.info_hash := greets_handshake_bytes
    rw [peer_worker_enters, ← hiff, ← hfd]
    constructor
    · intro h
      have hgreets : Greets c'.info_hash fd.bytes := by
        rw [hfd, greets_handshake_bytes]
      exact ⟨h.1, hgreets.first, hgreets.protocol, h.2⟩
    · intro h
      exact ⟨h.length, h.info_hash⟩

/-- The two roles go on with the same streams, those of a handshake for their
    torrent, and with what is behind its 68 bytes. -/
structure SameStreams (c c' : Client) (fd : Socket) : Prop where
  outbound : (peer_worker c.hello 68 fd).enters = true ↔ Greets c.info_hash fd.bytes
  inbound : (inbound_peer_worker c'.hello 68 fd).enters = true ↔ Greets c'.info_hash fd.bytes
  consumed : 68 ≤ fd.bytes.length → (peer_worker c.hello 68 fd).rest.bytes = fd.bytes.drop 68 ∧
    (inbound_peer_worker c'.hello 68 fd).rest.bytes = fd.bytes.drop 68

/-- **Handshakes**: the roles agree on every stream and every way it comes in
    parts, but for a stream with the right info hash behind a wrong beginning,
    which is accepted outbound only. -/
theorem handshakes_agree (c c' : Client) (fd : Socket) :
    (SameStreams c c' fd ∧ SentAccepted c c') ↔
      ¬ (68 ≤ fd.bytes.length ∧ slice fd.bytes 28 20 = c.info_hash.val ∧
        (slice fd.bytes 0 1 ≠ [19] ∨ slice fd.bytes 1 19 ≠ ascii "BitTorrent protocol")) := by
  constructor
  · intro h hwrong
    obtain ⟨hlen, hhash, hbeginning⟩ := hwrong
    have hgreets := h.1.outbound.mp (peer_worker_enters.mpr ⟨hlen, hhash⟩)
    rcases hbeginning with hfirst | hprotocol
    · exact hfirst hgreets.first
    · exact hprotocol hgreets.protocol
  · intro h
    refine ⟨⟨?_, inbound_peer_worker_enters, ?_⟩, sentAccepted c c'⟩
    · rw [peer_worker_enters]
      constructor
      · intro hin
        by_contra hgreets
        apply h
        refine ⟨hin.1, hin.2, ?_⟩
        by_contra hbeginning
        rw [not_or, not_not, not_not] at hbeginning
        exact hgreets ⟨hin.1, hbeginning.1, hbeginning.2, hin.2⟩
      · intro hgreets
        exact ⟨hgreets.length, hgreets.info_hash⟩
    · intro hlen
      obtain ⟨rest, heq, hrest⟩ := peer_worker_eq c hlen
      rw [heq]
      exact ⟨hrest, inbound_peer_worker_rest hlen⟩

/-- A client of the torrent whose digest is all zero. -/
def zero_client : Client := ⟨.zero, Digest.zero, Digest.zero.property⟩

/-- 68 bytes that do not name the protocol are a handshake for the side that
    connects, and none for the other. -/
theorem zeros_accepted_outbound :
    (peer_worker zero_client.hello 68 [⟨List.replicate 68 0, by decide⟩]).enters = true ∧
      (inbound_peer_worker zero_client.hello 68 [⟨List.replicate 68 0, by decide⟩]).enters = false := by
  constructor
  · exact peer_worker_enters.mpr ⟨by decide, by decide⟩
  · rw [← Bool.not_eq_true, inbound_peer_worker_enters]
    intro h
    exact absurd h.first (by decide)

end handshakes

end BitTorrentLite
