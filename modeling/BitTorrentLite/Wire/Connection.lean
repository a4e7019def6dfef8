import BitTorrentLite.Wire.Reader

/-! # One Direction of a Connection

    `send_all` hands its buffer to `send` in parts, the bytes in flight arrive
    in other parts, and `read_message` puts them together again. In between,
    the connection carries a queue of messages: those that were sent and have
    not been read, followed by the part of the next one that is on its way.
-/

open Machine

namespace BitTorrentLite

/-! ## Messages on the Wire -/

namespace PeerMessage

/-- The bytes that are sent for a message. -/
def wire (msg : PeerMessage) : Bytes :=
  if msg.id = .KeepAlive then build_keepalive else build_message msg

/-- The message is read as it is sent: its length fits 32 bits, its id is one
    of the protocol, and a keep-alive has no payload. -/
structure Framed (msg : PeerMessage) : Prop where
  length : msg.payload.length < 2 ^ 32 - 1
  id : MsgId.of_byte msg.id.byte = msg.id
  keep_alive : msg.id = .KeepAlive → msg.payload = []

/-- The frame of a message. -/
def frame (msg : PeerMessage) : Frame :=
  if msg.id = .KeepAlive then .keep_alive else .message msg.id.byte msg.payload

variable {msg : PeerMessage}

theorem Framed.frame_fits (h : msg.Framed) : msg.frame.Fits := by
  unfold frame
  split
  · trivial
  · exact h.length

theorem Framed.frame_encode (h : msg.Framed) : msg.frame.encode = msg.wire := by
  unfold frame wire
  split
  · rfl
  · show build_message ⟨MsgId.of_byte msg.id.byte, msg.payload⟩ = _
    rw [h.id]

theorem Framed.frame_received (h : msg.Framed) : msg.frame.received = msg := by
  unfold frame
  split
  · rename_i hkeep
    obtain ⟨id, payload⟩ := msg
    obtain rfl : id = .KeepAlive := hkeep
    obtain rfl : payload = [] := h.keep_alive rfl
    rfl
  · show (⟨MsgId.of_byte msg.id.byte, msg.payload⟩ : PeerMessage) = msg
    rw [h.id]

theorem wire_ne_nil (msg : PeerMessage) : msg.wire ≠ [] := by
  unfold wire
  split <;> exact List.cons_ne_nil _ _

end PeerMessage

/-- What `send_all` has been called with: nothing, or one message. -/
def Written (buf : Bytes) : Prop := buf = [] ∨ ∃ msg : PeerMessage, msg.Framed ∧ buf = msg.wire

/-- A socket on which these bytes will arrive. -/
def Socket.of_bytes (b : Bytes) : Socket := if h : b = [] then [] else [⟨b, h⟩]

theorem Socket.of_bytes_bytes (b : Bytes) : (Socket.of_bytes b).bytes = b := by
  unfold Socket.of_bytes
  split
  · rename_i h
    rw [h]
    rfl
  · exact List.append_nil b

/-! ## What a Connection Carries -/

/-- With `sent` bytes of the buffer `buf` sent, `stream` in flight and the
    other side at `r`, the connection carries the messages `q`. -/
structure Carries (buf : Bytes) (sent : ℕ) (stream : Bytes) (r : Reader) (q : List PeerMessage) :
    Prop where
  reading : r.Valid
  sending : sent < buf.length ∨ sent = 0
  framed : ∀ msg ∈ q, msg.Framed
  bytes : r.taken ++ stream = q.flatMap PeerMessage.wire ++ buf.take sent

namespace Carries

variable {buf buf' stream : Bytes} {sent k : ℕ} {r r' : Reader} {q : List PeerMessage}
  {msg : PeerMessage} {s : Socket}

/-- A connection on which nothing was sent. -/
theorem empty (buf : Bytes) : Carries buf 0 [] (.length []) [] where
  reading := show ([] : Bytes).length < 4 by decide
  sending := .inr rfl
  framed := by simp
  bytes := by simp [Reader.taken]

/-- The buffer only matters from the first byte sent of it on. -/
theorem rebuffer (h : Carries buf 0 stream r q) (buf' : Bytes) : Carries buf' 0 stream r q :=
  ⟨h.reading, .inr rfl, h.framed, h.bytes⟩

theorem sent_eq_zero (h : Carries [] sent stream r q) : sent = 0 := by
  rcases h.sending with hlt | h0
  · exact absurd hlt (Nat.not_lt_zero _)
  · exact h0

/-! ### Sending -/

theorem append_take (h : Carries buf sent stream r q) (k : ℕ) :
    r.taken ++ (stream ++ (buf.drop sent).take k)
      = q.flatMap PeerMessage.wire ++ buf.take (sent + k) := by
  rw [← List.append_assoc, h.bytes, List.append_assoc, List.take_add]

/-- `send` takes a part of the message. -/
theorem pushed (h : Carries buf sent stream r q) (hk : sent + k < buf.length) :
    Carries buf (sent + k) (stream ++ (buf.drop sent).take k) r q :=
  ⟨h.reading, .inl hk, h.framed, h.append_take k⟩

/-- `send` takes the rest of it: the message is on its way. -/
theorem sent_all (h : Carries buf sent stream r q) (hbuf : buf = msg.wire) (hmsg : msg.Framed)
    (hk : sent + k = buf.length) (buf' : Bytes) :
    Carries buf' 0 (stream ++ (buf.drop sent).take k) r (q ++ [msg]) where
  reading := h.reading
  sending := .inr rfl
  framed := by
    intro msg' hmem
    rcases List.mem_append.mp hmem with hold | hnew
    · exact h.framed msg' hold
    · rw [List.mem_singleton.mp hnew]
      exact hmsg
  bytes := by
    rw [h.append_take k, hk, List.take_length, List.flatMap_append, List.flatMap_singleton, hbuf,
      List.take_zero, List.append_nil]

/-! ### Reading -/

/-- Without a message on its way, `read_message` would not return one. -/
theorem read_nil (h : Carries buf sent stream r []) (hbuf : Written buf)
    (hs : s.bytes = r.taken ++ stream) : (read_message s).1 = none := by
  have hcut : s.bytes = buf.take sent := by
    rw [hs, h.bytes]
    rfl
  rcases hbuf with rfl | ⟨msg, hmsg, rfl⟩
  · exact read_message_short (by rw [hcut]; simp)
  · have hlt : sent < msg.wire.length := by
      rcases h.sending with hlt | h0
      · exact hlt
      · rw [h0]
        exact List.length_pos_iff.mpr msg.wire_ne_nil
    have hprefix : msg.wire.take sent <+: msg.frame.encode := by
      rw [hmsg.frame_encode]
      exact List.take_prefix _ _
    have hread := Frame.read_message_cut hmsg.frame_fits hprefix ?_ hcut
    · rw [hread]
    · intro heq
      have hlen := congrArg List.length heq
      rw [hmsg.frame_encode, List.length_take] at hlen
      omega

/-- With one, it would return the first. -/
theorem read_cons (h : Carries buf sent stream r (msg :: q)) (hs : s.bytes = r.taken ++ stream) :
    ∃ s', read_message s = (some msg, s') ∧
      s'.bytes = q.flatMap PeerMessage.wire ++ buf.take sent := by
  have hmsg := h.framed msg (List.mem_cons_self ..)
  rw [h.bytes, List.flatMap_cons, List.append_assoc, ← hmsg.frame_encode] at hs
  obtain ⟨s', hread, hrest⟩ := Frame.read_message_frame hmsg.frame_fits hs
  rw [hmsg.frame_received] at hread
  exact ⟨s', hread, hrest⟩

/-- `recv` takes a part of a message. -/
theorem pulled (h : Carries buf sent stream r q) (hpos : 1 ≤ k) (hle : k ≤ r.wanted)
    (hk : k ≤ stream.length) (htake : r.take (stream.take k) = (r', none)) :
    Carries buf sent (stream.drop k) r' q := by
  have hlen : (stream.take k).length = k := List.length_take_of_le hk
  obtain ⟨hvalid, htaken⟩ := h.reading.take_none (by omega)
    (List.length_pos_iff.mp (by omega)) htake
  refine ⟨hvalid, h.sending, h.framed, ?_⟩
  rw [htaken, List.append_assoc, List.take_append_drop, h.bytes]

/-- `recv` takes the rest of one: it is the first of those on their way. -/
theorem received (h : Carries buf sent stream r q) (hbuf : Written buf) (hpos : 1 ≤ k)
    (hle : k ≤ r.wanted) (hk : k ≤ stream.length)
    (htake : r.take (stream.take k) = (r', some msg)) :
    ∃ q', q = msg :: q' ∧ Carries buf sent (stream.drop k) r' q' := by
  have hlen : (stream.take k).length = k := List.length_take_of_le hk
  have hs := Socket.of_bytes_bytes (r.taken ++ stream)
  have hs' : (Socket.of_bytes (r.taken ++ stream)).bytes
      = r.taken ++ (stream.take k ++ stream.drop k) := by
    rw [hs, List.take_append_drop]
  obtain ⟨rfl, s', hread, hrest⟩ := h.reading.take_some (by omega)
    (List.length_pos_iff.mp (by omega)) htake hs'
  cases q with
  | nil =>
    have hnone := h.read_nil hbuf hs
    rw [hread] at hnone
    cases hnone
  | cons msg' q' =>
    obtain ⟨s'', hread', hrest'⟩ := h.read_cons hs
    rw [hread] at hread'
    obtain ⟨hmsg, rfl⟩ := Prod.mk.inj hread'
    obtain rfl := Option.some.inj hmsg
    refine ⟨q', rfl, show ([] : Bytes).length < 4 by decide, h.sending, ?_, ?_⟩
    · intro msg' hmem
      exact h.framed msg' (List.mem_cons_of_mem _ hmem)
    · rw [← hrest', hrest]
      rfl

/-- While a message is on its way, something is in flight. -/
theorem stream_ne_nil (h : Carries buf sent stream r q) (hq : q ≠ []) : stream ≠ [] := by
  rintro rfl
  obtain ⟨msg, q', rfl⟩ := List.exists_cons_of_ne_nil hq
  have hs := Socket.of_bytes_bytes (r.taken ++ [])
  obtain ⟨s', hread, -⟩ := h.read_cons hs
  rw [List.append_nil] at hs hread
  have hnone := h.reading.read_taken hs
  rw [hread] at hnone
  cases hnone

/-- And where nothing is on its way and nothing is being sent, nothing is. -/
theorem stream_eq_nil (h : Carries [] sent stream r []) : r.taken = [] ∧ stream = [] := by
  have hbytes := h.bytes
  rw [List.take_nil] at hbytes
  exact List.append_eq_nil_iff.mp hbytes

end Carries

end BitTorrentLite
