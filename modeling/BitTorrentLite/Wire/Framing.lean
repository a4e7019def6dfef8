import BitTorrentLite.Peer.Loop
import BitTorrentLite.Wire.Socket

/-! # Framing

    On the wire a message is four bytes of length, one byte of id and the
    payload; a length of zero is a keep-alive. `read_message` takes the frames
    off the stream again, in whatever parts `recv` hands it out, and the
    handlers find in the payloads the numbers that were written.
-/

open Machine

namespace BitTorrentLite

/-! ## Messages as Bytes -/

/-- `(MsgId)id`. -/
def MsgId.of_byte (id : UInt8) : MsgId :=
  if id = 0 then .Choke
  else if id = 1 then .Unchoke
  else if id = 2 then .Interested
  else if id = 3 then .NotInterested
  else if id = 4 then .Have
  else if id = 5 then .Bitfield
  else if id = 6 then .Request
  else if id = 7 then .Piece
  else if id = 8 then .Cancel
  else if id = 255 then .KeepAlive
  else .other id

/-- `(uint8_t)id`. -/
def MsgId.byte : MsgId → UInt8
  | .Choke => 0
  | .Unchoke => 1
  | .Interested => 2
  | .NotInterested => 3
  | .Have => 4
  | .Bitfield => 5
  | .Request => 6
  | .Piece => 7
  | .Cancel => 8
  | .KeepAlive => 255
  | .other id => id

@[simp] theorem MsgId.byte_of_byte (id : UInt8) : (MsgId.of_byte id).byte = id := by
  unfold MsgId.of_byte
  -- one case for each id that has a name, and the others
  repeat' split
  case isFalse.isFalse => rfl
  all_goals
    rename_i h
    exact h.symm

/-- `build_message`: the length counts the id and the payload, in 32 bits. -/
def build_message (msg : PeerMessage) : Bytes :=
  htonl (1 + msg.payload.length) ++ msg.id.byte :: msg.payload

/-- `build_keepalive`. -/
def build_keepalive : Bytes := [0, 0, 0, 0]

/-- `read_message`, and the socket after it. -/
def read_message (s : Socket) : Option PeerMessage × Socket :=
  match s.recv_exact 4 with
  | (none, s) => (none, s)
  | (some len_be, s) =>
    let len := be_value len_be 0
    if len = 0 then (some ⟨.KeepAlive, []⟩, s)
    else match s.recv_exact 1 with
      | (none, s) => (none, s)
      | (some id, s) =>
        let id := MsgId.of_byte (id.getD 0 0)
        if 1 < len then
          match s.recv_exact (len - 1) with
          | (none, s) => (none, s)
          | (some payload, s) => (some ⟨id, payload⟩, s)
        else (some ⟨id, []⟩, s)

/-- What `n` calls of `read_message` return, one after the other. -/
def read_messages : ℕ → Socket → List (Option PeerMessage)
  | 0, _ => []
  | n + 1, s => (read_message s).1 :: read_messages n (read_message s).2

/-! ## Frames -/

/-- What is written to the stream: a message with any byte as its id, or an
    empty frame. -/
inductive Frame where
  | message (id : UInt8) (payload : Bytes)
  | keep_alive

namespace Frame

/-- The bytes written. -/
def encode : Frame → Bytes
  | message id payload => build_message ⟨MsgId.of_byte id, payload⟩
  | keep_alive => build_keepalive

/-- What is read of it. -/
def received : Frame → PeerMessage
  | message id payload => ⟨MsgId.of_byte id, payload⟩
  | keep_alive => ⟨.KeepAlive, []⟩

/-- The length of the frame is a 32-bit number. -/
def Fits : Frame → Prop
  | message _ payload => payload.length < 2 ^ 32 - 1
  | keep_alive => True

/-- The number of bytes a frame announces. -/
def announced : Frame → ℕ
  | message _ payload => 1 + payload.length
  | keep_alive => 0

/-- The bytes after the length. -/
def body : Frame → Bytes
  | message id payload => id :: payload
  | keep_alive => []

/-- The bytes of a list of frames. -/
def stream (fs : List Frame) : Bytes := fs.flatMap encode

variable {f : Frame} {fs : List Frame} {s : Socket} {rest cut : Bytes}

theorem encode_eq (f : Frame) : f.encode = htonl f.announced ++ f.body := by
  cases f with
  | message id payload =>
    show htonl (1 + payload.length) ++ (MsgId.of_byte id).byte :: payload = _
    rw [MsgId.byte_of_byte]
    rfl
  | keep_alive => decide

@[simp] theorem body_length (f : Frame) : f.body.length = f.announced := by
  cases f with
  | message id payload => exact Nat.add_comm _ _
  | keep_alive => rfl

/-- The length is read as it was written. -/
theorem length_read (hf : f.Fits) (rest : Bytes) :
    be_value ((htonl f.announced ++ rest).take 4) 0 = f.announced := by
  have hlt : f.announced < 2 ^ 32 := by
    cases f with
    | message id payload =>
      have hpayload : payload.length < 2 ^ 32 - 1 := hf
      show 1 + payload.length < 2 ^ 32
      omega
    | keep_alive => exact Nat.two_pow_pos 32
  have hmod : ((f.announced : ℤ) % 2 ^ 32).toNat = f.announced := by omega
  rw [List.take_left' (htonl_length _)]
  unfold be_value htonl
  rw [hmod]
  exact bytes_value hlt

/-! ### Reading One Frame -/

/-- `read_message` once the length has been read. -/
theorem read_message_after_length (hs : s.bytes = htonl f.announced ++ rest) :
    ∃ s', s'.bytes = rest ∧ s.recv_exact 4 = (some ((htonl f.announced ++ rest).take 4), s') := by
  have hlen := congrArg List.length hs
  rw [List.length_append, htonl_length] at hlen
  obtain ⟨s', hread, hafter⟩ := Socket.recv_exact_some (n := 4) (s := s) (by omega)
  rw [hs] at hread hafter
  exact ⟨s', by rw [hafter, List.drop_left' (htonl_length _)], hread⟩

/-- **A frame on the stream** is read, and the stream goes on after it. -/
theorem read_message_frame (hf : f.Fits) (hs : s.bytes = f.encode ++ rest) :
    ∃ s', read_message s = (some f.received, s') ∧ s'.bytes = rest := by
  rw [encode_eq, List.append_assoc] at hs
  obtain ⟨s₁, hs₁, hfour⟩ := read_message_after_length hs
  unfold read_message
  rw [hfour]
  simp only [length_read hf]
  cases f with
  | keep_alive => exact ⟨s₁, rfl, hs₁⟩
  | message id payload =>
    have hid : s₁.bytes = id :: (payload ++ rest) := hs₁
    obtain ⟨s₂, hone, hs₂⟩ := Socket.recv_exact_some (n := 1) (s := s₁) (by rw [hid]; simp)
    rw [hid] at hone hs₂
    have hlen := congrArg List.length hs₂
    rw [List.drop_succ_cons, List.drop_zero, List.length_append] at hlen
    have hannounced : (message id payload).announced = 1 + payload.length := rfl
    rw [hannounced, if_neg (by omega), hone]
    simp only [List.take_succ_cons, List.take_zero, List.getD_cons_zero,
      Nat.add_sub_cancel_left]
    by_cases hpay : payload = []
    · subst hpay
      exact ⟨s₂, by rw [if_neg (by simp)]; rfl, by rw [hs₂]; rfl⟩
    · -- a payload follows
      have hpos := List.length_pos_iff.mpr hpay
      obtain ⟨s₃, hrest, hs₃⟩ := Socket.recv_exact_some (n := payload.length) (s := s₂) (by omega)
      rw [hs₂, List.drop_succ_cons, List.drop_zero] at hrest hs₃
      rw [List.take_left] at hrest
      rw [List.drop_left] at hs₃
      refine ⟨s₃, ?_, hs₃⟩
      rw [if_pos (by omega), hrest]
      rfl

/-- **A frame that the stream ends in** is not read, and nothing is left. -/
theorem read_message_cut (hf : f.Fits) (hcut : cut <+: f.encode) (hne : cut ≠ f.encode)
    (hs : s.bytes = cut) : read_message s = (none, []) := by
  have hshort : cut.length < f.encode.length :=
    lt_of_le_of_ne hcut.length_le fun h => hne (hcut.eq_of_length h)
  rw [encode_eq, List.length_append, htonl_length, body_length] at hshort
  unfold read_message
  by_cases h₄ : cut.length < 4
  · rw [Socket.recv_exact_none (by rw [hs]; exact h₄)]
  · -- the length is there
    obtain ⟨tail, htail⟩ : ∃ tail, cut = htonl f.announced ++ tail := by
      rw [encode_eq] at hcut
      obtain ⟨more, hmore⟩ := hcut
      refine ⟨cut.drop 4, ?_⟩
      have htake := congrArg (List.take 4) hmore
      rw [List.take_append_of_le_length (by omega), List.take_left' (htonl_length _)] at htake
      rw [← htake, List.take_append_drop]
    have htail_len := congrArg List.length htail
    rw [List.length_append, htonl_length] at htail_len
    obtain ⟨s₁, hs₁, hfour⟩ := read_message_after_length (hs.trans htail)
    rw [hfour]
    simp only [length_read hf]
    rw [if_neg (by omega)]
    by_cases htail_nil : tail.length < 1
    · rw [Socket.recv_exact_none (by rw [hs₁]; exact htail_nil)]
    · -- the id is there, the payload is not
      obtain ⟨s₂, hone, hs₂⟩ := Socket.recv_exact_some (n := 1) (s := s₁) (by rw [hs₁]; omega)
      have hlen := congrArg List.length hs₂
      rw [List.length_drop, hs₁] at hlen
      rw [hone]
      simp only
      rw [if_pos (by omega), Socket.recv_exact_none (by omega)]

/-- The byte after the length is the id that is read, and the message has the
    bytes it was read from. -/
theorem read_message_raw {id : UInt8} {payload : Bytes} (hlen : payload.length < 2 ^ 32 - 1)
    (hs : s.bytes = htonl (1 + payload.length) ++ id :: (payload ++ rest)) :
    ∃ msg s', read_message s = (some msg, s') ∧ msg.id.byte = id ∧ msg.payload = payload ∧
      build_message msg ++ rest = s.bytes ∧ s'.bytes = rest := by
  have hframe : s.bytes = (message id payload).encode ++ rest := by
    rw [hs, encode_eq, List.append_assoc]
    rfl
  obtain ⟨s', hread, hs'⟩ := read_message_frame (f := .message id payload) hlen hframe
  exact ⟨_, s', hread, MsgId.byte_of_byte id, rfl, hframe.symm, hs'⟩

/-! ### Reading a Stream -/

/-- Once nothing is left, every call returns nothing. -/
theorem read_messages_nil (k : ℕ) : read_messages k [] = List.replicate k none := by
  have hend : read_message [] = (none, []) := by
    unfold read_message
    rw [Socket.recv_exact_none (by decide)]
  induction k with
  | zero => rfl
  | succ k ih => rw [read_messages, hend, ih, List.replicate_succ]

/-- **The frames of a stream** are read one after the other; what comes after
    them, the beginning of one more frame or nothing, is not read. -/
theorem read_messages_stream (hfits : ∀ f ∈ fs, f.Fits) (hf : f.Fits) (hcut : cut <+: f.encode)
    (hne : cut ≠ f.encode) (hs : s.bytes = stream fs ++ cut) (k : ℕ) :
    read_messages (fs.length + k) s
      = fs.map (fun f => some f.received) ++ List.replicate k none := by
  induction fs generalizing s with
  | nil =>
    rw [List.length_nil, Nat.zero_add, List.map_nil, List.nil_append]
    have hnone := read_message_cut hf hcut hne hs
    cases k with
    | zero => rfl
    | succ k => rw [read_messages, hnone, read_messages_nil, List.replicate_succ]
  | cons f₀ fs ih =>
    have hs : s.bytes = f₀.encode ++ (stream fs ++ cut) := by
      rw [hs, ← List.append_assoc]
      rfl
    obtain ⟨s', hread, hs'⟩ := read_message_frame (hfits f₀ (List.mem_cons_self ..)) hs
    have hrest := ih (fun f hmem => hfits f (List.mem_cons_of_mem _ hmem)) hs'
    rw [List.length_cons, Nat.add_right_comm, read_messages, hread, hrest, List.map_cons,
      List.cons_append]

/-- A stream that ends after a frame. -/
theorem read_messages_whole (hfits : ∀ f ∈ fs, f.Fits) (hs : s.bytes = stream fs) (k : ℕ) :
    read_messages (fs.length + k) s
      = fs.map (fun f => some f.received) ++ List.replicate k none :=
  read_messages_stream (f := .keep_alive) hfits trivial List.nil_prefix (by decide)
    (by rw [hs, List.append_nil]) k

end Frame

/-! ## The Fields of a Message -/

section fields

variable {s : Socket} {piece off len : ℤ} {data : Bytes}

/-- A message alone on the stream is read as it was built. -/
theorem read_built {msg : PeerMessage} (hid : MsgId.of_byte msg.id.byte = msg.id)
    (hlen : msg.payload.length < 2 ^ 32 - 1) (hs : s.bytes = build_message msg) :
    (read_message s).1 = some msg := by
  have hframe : (Frame.message msg.id.byte msg.payload).encode = build_message msg := by
    show build_message ⟨MsgId.of_byte msg.id.byte, msg.payload⟩ = _
    rw [hid]
  obtain ⟨s', hread, -⟩ := Frame.read_message_frame (f := .message msg.id.byte msg.payload) hlen
    (show s.bytes = _ ++ [] by rw [hs, hframe, List.append_nil])
  rw [hread, Frame.received, hid]

/-- What the Have handler decodes: it sets the bit of the piece. -/
theorem have_decoded (hpiece : FitsInt piece) (m : Metadata) (st : PeerState) :
    (handle_message m st (build_have piece)).map (fun t => t.state.peer_bitfield) =
      if piece < m.total_pieces then
        (m.index piece).map fun i => Function.update st.peer_bitfield i true
      else .ok st.peer_bitfield := by
  have hread : ntohl (htonl piece) 0 = piece := by
    have := ntohl_first hpiece []
    rwa [List.append_nil] at this
  show (handle_have m st (htonl piece)).map _ = _
  unfold handle_have
  rw [if_neg (by rw [htonl_length]; decide), hread]
  dsimp only
  split
  · cases m.index piece <;> rfl
  · rfl

/-- What the Request handler decodes. -/
theorem request_decoded (hpiece : FitsInt piece) (hoff : FitsInt off) (hlen : FitsInt len)
    (m : Metadata) {st : PeerState} (hchoke : st.am_choking = false) :
    (handle_message m st (build_request piece off len)).map
        (fun t => t.state.incoming_requests) =
      .ok (st.incoming_requests ++ [⟨piece, off, len⟩]) := by
  have h₀ := ntohl_first hpiece (htonl off ++ htonl len)
  have h₁ := ntohl_second hoff piece (htonl len)
  have h₂ := ntohl_htonl hlen (htonl piece ++ htonl off) []
  rw [← List.append_assoc] at h₀
  rw [List.append_nil] at h₂
  have h₂ : ntohl (htonl piece ++ htonl off ++ htonl len) 8 = len := h₂
  show Except.map _ (Except.ok (handle_request st (htonl piece ++ htonl off ++ htonl len))) = _
  unfold handle_request
  rw [if_neg (by simp only [List.length_append, htonl_length]; decide), if_neg (by simp [hchoke]),
    h₀, h₁, h₂]
  rfl

/-- What the Piece handler decodes and hands to `received_block`. -/
theorem piece_decoded (hpiece : FitsInt piece) (hoff : FitsInt off) {m : Metadata}
    (hm : m.mode = .LEECHER) (st : PeerState) :
    handle_message m st (build_piece_msg piece off data) =
      .ok ⟨{ st with pending_requests :=
        st.pending_requests.filter fun req => !req.answered piece off },
        .received piece off data⟩ := by
  have h₀ := ntohl_first hpiece (htonl off ++ data)
  have h₁ := ntohl_second hoff piece data
  rw [← List.append_assoc] at h₀
  have hdata : (htonl piece ++ htonl off ++ data).drop 8 = data := List.drop_left' rfl
  show Except.ok (handle_piece m st (htonl piece ++ htonl off ++ data)) = _
  unfold handle_piece
  rw [if_neg (by rw [hm]; decide), if_neg (by simp only [List.length_append, htonl_length]; omega),
    h₀, h₁, hdata]

end fields

/-- **Framing round trip**: however `recv` splits the stream, `read_message`
    returns the frames that were written, one after the other, and then nothing,
    also where the stream is cut inside a frame; the byte after the length is
    the id; and the handlers find in the messages built from numbers and data
    the same numbers and data. -/
theorem framing_round_trip :
    (∀ (fs : List Frame) (s : Socket), (∀ f ∈ fs, f.Fits) → s.bytes = Frame.stream fs →
      ∀ k, read_messages (fs.length + k) s
        = fs.map (fun f => some f.received) ++ List.replicate k none) ∧
    (∀ (fs : List Frame) (f : Frame) (cut : Bytes) (s : Socket), (∀ f ∈ fs, f.Fits) → f.Fits →
      cut <+: f.encode → cut ≠ f.encode → s.bytes = Frame.stream fs ++ cut →
      ∀ k, read_messages (fs.length + k) s
        = fs.map (fun f => some f.received) ++ List.replicate k none) ∧
    (∀ (id : UInt8) (payload rest : Bytes) (s : Socket), payload.length < 2 ^ 32 - 1 →
      s.bytes = htonl (1 + payload.length) ++ id :: (payload ++ rest) →
      ∃ msg s', read_message s = (some msg, s') ∧ msg.id.byte = id ∧ msg.payload = payload ∧
        build_message msg ++ rest = s.bytes ∧ s'.bytes = rest) ∧
    (∀ (piece : ℤ) (s : Socket), FitsInt piece → s.bytes = build_message (build_have piece) →
      ∃ msg, (read_message s).1 = some msg ∧ ∀ (m : Metadata) (st : PeerState),
        (handle_message m st msg).map (fun t => t.state.peer_bitfield) =
          if piece < m.total_pieces then
            (m.index piece).map fun i => Function.update st.peer_bitfield i true
          else .ok st.peer_bitfield) ∧
    (∀ (piece off len : ℤ) (s : Socket), FitsInt piece → FitsInt off → FitsInt len →
      s.bytes = build_message (build_request piece off len) →
      ∃ msg, (read_message s).1 = some msg ∧ ∀ (m : Metadata) (st : PeerState),
        st.am_choking = false →
        (handle_message m st msg).map (fun t => t.state.incoming_requests) =
          .ok (st.incoming_requests ++ [⟨piece, off, len⟩])) ∧
    (∀ (piece off : ℤ) (data : Bytes) (s : Socket), FitsInt piece → FitsInt off →
      data.length < 2 ^ 32 - 9 → s.bytes = build_message (build_piece_msg piece off data) →
      ∃ msg, (read_message s).1 = some msg ∧ ∀ (m : Metadata) (st : PeerState),
        m.mode = .LEECHER → handle_message m st msg =
          .ok ⟨{ st with pending_requests :=
            st.pending_requests.filter fun req => !req.answered piece off },
            .received piece off data⟩) := by
  refine ⟨fun fs s hfits hs k => Frame.read_messages_whole hfits hs k,
    fun fs f cut s hfits hf hcut hne hs k => Frame.read_messages_stream hfits hf hcut hne hs k,
    fun id payload rest s hlen hs => Frame.read_message_raw hlen hs, ?_, ?_, ?_⟩
  · intro piece s hpiece hs
    refine ⟨_, read_built rfl ?_ hs, fun m st =>
      have_decoded hpiece m st⟩
    show (htonl piece).length < 2 ^ 32 - 1
    rw [htonl_length]
    decide
  · intro piece off len s hpiece hoff hlen hs
    refine ⟨_, read_built rfl ?_ hs, fun m st hchoke =>
      request_decoded hpiece hoff hlen m hchoke⟩
    show (htonl piece ++ htonl off ++ htonl len).length < 2 ^ 32 - 1
    simp only [List.length_append, htonl_length]
    decide
  · intro piece off data s hpiece hoff hlen hs
    refine ⟨_, read_built rfl ?_ hs, fun m st hm =>
      piece_decoded hpiece hoff hm st⟩
    show (htonl piece ++ htonl off ++ data).length < 2 ^ 32 - 1
    simp only [List.length_append, htonl_length]
    omega

/-- A keep-alive and a Have, the frame of the Have handed out in two parts, and
    the beginning of another one. -/
def sample_socket : Socket :=
  [⟨[0, 0, 0, 0, 0, 0], by decide⟩, ⟨[0, 5, 4, 0, 0, 0, 3, 0, 0], by decide⟩]

theorem sample_framing : read_messages 4 sample_socket =
    [some ⟨.KeepAlive, []⟩, some ⟨.Have, [0, 0, 0, 3]⟩, none, none] :=
  framing_round_trip.2.1 [.keep_alive, .message 4 [0, 0, 0, 3]] .keep_alive [0, 0] sample_socket
    (by simp [Frame.Fits]) trivial (by decide) (by decide) (by decide) 2

end BitTorrentLite
