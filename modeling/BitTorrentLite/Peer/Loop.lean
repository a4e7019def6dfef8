import BitTorrentLite.Controller.Model
import BitTorrentLite.Peer.Messages

/-! # The Peer Loop

    One thread runs `run_peer_loop` for one connection. Its state is the
    `PeerState` it owns and the point of the code it has come to (`PC`), just
    before the next operation that others can see: a controller method, a
    `send` on the socket or `read_message`. One step performs that operation
    and the local code after it, up to the next such point. Which operation
    succeeds and what arrives is the step's `Input`.
-/

open Machine

namespace BitTorrentLite

/-! ## State -/

/-- `struct PeerState`; `peer_bitfield` has `total_pieces` bits. -/
structure PeerState where
  am_choking : Bool := true
  am_interested : Bool := false
  peer_choking : Bool := true
  peer_interested : Bool := false
  peer_bitfield : ℕ → Bool := fun _ => false
  pending_requests : List BlockRequest := []
  incoming_requests : List IncomingRequest := []

/-- Where `serve_incoming_requests` was called: before `read_message`, or at
    the end of a message handler. -/
inductive ServeCall where
  | before_read
  | in_handler

/-- The points of `peer_worker` and `run_peer_loop` between two operations. -/
inductive PC where
  /-- The exchange of handshakes. -/
  | handshake
  /-- `manager.get_bitfield()`. -/
  | opening
  | send_bitfield (bf : Bytes)
  /-- `send_all` of Interested, then `am_interested = true`. -/
  | send_interested
  /-- The head of `while (true)`. -/
  | loop_top
  /-- `manager.drain_haves(peer_id)`. -/
  | flush_haves
  | send_have (piece : ℤ) (rest : List ℤ)
  /-- `manager.get_block` for `req`; the requests in `kept` were passed over. -/
  | serve (kept : List IncomingRequest) (req : IncomingRequest) (rest : List IncomingRequest)
      (call : ServeCall)
  | send_piece (kept : List IncomingRequest) (req : IncomingRequest)
      (rest : List IncomingRequest) (block : Bytes) (call : ServeCall)
  | read_message
  | send_keep_alive
  | send_unchoke
  | send_choke
  /-- The Choke handler releases `req`, then `rest`. -/
  | choke_release (req : BlockRequest) (rest : List BlockRequest)
  /-- `manager.next_request` in `request_next_blocks`. -/
  | request
  | send_request (req : BlockRequest)
  /-- The request could not be sent and is released. -/
  | request_release (req : BlockRequest)
  /-- `manager.next_request` in the Have handler, and the release after it. -/
  | have_probe
  | have_release (req : BlockRequest)
  /-- `manager.next_request` in the Bitfield handler, the release after it and
      the store to `piece_status`. -/
  | bitfield_probe
  | bitfield_release (req : BlockRequest)
  | bitfield_store (req : BlockRequest)
  | send_not_interested
  /-- `manager.received_block`. -/
  | received (piece_index block_offset : ℤ) (data : Bytes)
  /-- The cleanup releases `req`, then `rest`. -/
  | cleanup (req : BlockRequest) (rest : List BlockRequest)
  /-- `manager.unregister_peer` and `close`. -/
  | unregister
  | closed

/-- The points a thread rests at: in `read_message`, or at its end. -/
def PC.at_rest : PC → Bool
  | .read_message => true
  | .closed => true
  | _ => false

/-- A peer thread. -/
structure Thread where
  state : PeerState
  pc : PC

/-- What the outside decides in a step. -/
inductive Input where
  /-- A controller method runs. -/
  | call
  /-- A `send` returned. -/
  | sent (ok : Bool)
  /-- `read_message` returned. -/
  | recv (msg : Option PeerMessage)
  /-- The handshakes were exchanged, or not. -/
  | shaken (ok : Bool)

/-! ## Local Code -/

/-- `pipeline`, the most requests kept pending with one peer. -/
def pipeline : ℕ := 5

def ServeCall.pc : ServeCall → PC
  | .before_read => .read_message
  | .in_handler => .loop_top

/-- The head of the loop of `serve_incoming_requests`. -/
def serve_next (kept : List IncomingRequest) (call : ServeCall) : List IncomingRequest → PC
  | [] => call.pc
  | req :: rest => .serve kept req rest call

/-- A call of `serve_incoming_requests`. -/
def serve_incoming_requests (st : PeerState) (call : ServeCall) : PC :=
  if st.am_choking then call.pc else serve_next [] call st.incoming_requests

/-- The loop of `flush_haves`, and the call of `serve_incoming_requests` after it. -/
def flush_next (st : PeerState) : List ℤ → PC
  | [] => serve_incoming_requests st .before_read
  | piece :: rest => .send_have piece rest

/-- The head of the loop of `request_next_blocks`. -/
def request_loop (st : PeerState) : PC :=
  if st.pending_requests.length < pipeline then .request else .loop_top

/-- A call of `request_next_blocks` at the end of a handler. -/
def request_next_blocks (m : Metadata) (st : PeerState) : PC :=
  if m.mode = .SEEDER ∨ st.peer_choking = true ∨ st.am_interested = false then .loop_top
  else request_loop st

/-- The jump to `cleanup`. -/
def leave (st : PeerState) : PC :=
  match st.pending_requests with
  | [] => .unregister
  | req :: rest => .cleanup req rest

/-- The bits of a Bitfield message, where it has them: its length is compared
    as an `int`. -/
def decode_bitfield (old : ℕ → Bool) (payload : Bytes) : ℕ → Bool := fun i =>
  if ((i / 8 : ℕ) : ℤ) < int32 payload.length then
    (payload.getD (i / 8) 0 >>> UInt8.ofNat (7 - i % 8)) &&& 1 == 1
  else old i

/-- Whether a pending request is the one a Piece message answers. -/
def BlockRequest.answered (req : BlockRequest) (piece_index block_offset : ℤ) : Bool :=
  req.piece_index == piece_index && req.block_offset == block_offset

/-- Whether a Cancel message takes an incoming request back. -/
def IncomingRequest.cancelled (req : IncomingRequest) (piece_index block_offset : ℤ) : Bool :=
  req.piece_index == piece_index && req.block_offset == block_offset

/-- The Have handler: a piece number below `total_pieces` is used as an index. -/
def handle_have (m : Metadata) (st : PeerState) (payload : Bytes) : Except Fault Thread :=
  if payload.length < 4 then .ok ⟨st, .loop_top⟩
  else
    let piece := ntohl payload 0
    let next (st : PeerState) : Thread :=
      ⟨st, if m.mode = .LEECHER ∧ st.am_interested = false then .have_probe else .loop_top⟩
    if piece < m.total_pieces then
      (m.index piece).map fun i =>
        next { st with peer_bitfield := Function.update st.peer_bitfield i true }
    else .ok (next st)

/-- The Bitfield handler up to `next_request`. -/
def handle_bitfield (m : Metadata) (st : PeerState) (payload : Bytes) : Thread :=
  ⟨{ st with peer_bitfield := decode_bitfield st.peer_bitfield payload },
    if m.mode = .LEECHER then .bitfield_probe else .loop_top⟩

/-- The Request handler. -/
def handle_request (st : PeerState) (payload : Bytes) : Thread :=
  if payload.length < 12 then ⟨st, .loop_top⟩
  else if st.am_choking then ⟨st, .loop_top⟩
  else
    let req : IncomingRequest := ⟨ntohl payload 0, ntohl payload 4, ntohl payload 8⟩
    let st := { st with incoming_requests := st.incoming_requests ++ [req] }
    ⟨st, serve_incoming_requests st .in_handler⟩

/-- The Piece handler up to `received_block`. -/
def handle_piece (m : Metadata) (st : PeerState) (payload : Bytes) : Thread :=
  if m.mode = .SEEDER then ⟨st, .loop_top⟩
  else if payload.length < 8 then ⟨st, .loop_top⟩
  else
    let piece_index := ntohl payload 0
    let block_offset := ntohl payload 4
    ⟨{ st with pending_requests :=
        st.pending_requests.filter fun req => !req.answered piece_index block_offset },
      .received piece_index block_offset (payload.drop 8)⟩

/-- The Cancel handler. -/
def handle_cancel (st : PeerState) (payload : Bytes) : Thread :=
  if payload.length < 12 then ⟨st, .loop_top⟩
  else
    ⟨{ st with incoming_requests := st.incoming_requests.filter fun req =>
        !req.cancelled (ntohl payload 0) (ntohl payload 4) }, .loop_top⟩

/-- `switch (msg.id)`. -/
def handle_message (m : Metadata) (st : PeerState) (msg : PeerMessage) : Except Fault Thread :=
  match msg.id with
  | .KeepAlive => .ok ⟨st, .send_keep_alive⟩
  | .Choke =>
    let st := { st with peer_choking := true }
    .ok ⟨st, match st.pending_requests with
      | [] => .loop_top
      | req :: rest => .choke_release req rest⟩
  | .Unchoke =>
    let st := { st with peer_choking := false }
    .ok ⟨st, request_next_blocks m st⟩
  | .Interested => .ok ⟨{ st with peer_interested := true, am_choking := false }, .send_unchoke⟩
  | .NotInterested => .ok ⟨{ st with peer_interested := false, am_choking := true }, .send_choke⟩
  | .Have => handle_have m st msg.payload
  | .Bitfield => .ok (handle_bitfield m st msg.payload)
  | .Request => .ok (handle_request st msg.payload)
  | .Piece => .ok (handle_piece m st msg.payload)
  | .Cancel => .ok (handle_cancel st msg.payload)
  | .other _ => .ok ⟨st, .loop_top⟩

/-! ## Steps -/

/-- The message a thread is about to send. -/
def PC.output : PC → Option PeerMessage
  | .send_bitfield bf => some ⟨.Bitfield, bf⟩
  | .send_interested => some ⟨.Interested, []⟩
  | .send_have piece _ => some (build_have piece)
  | .send_piece _ req _ block _ => some (build_piece_msg req.piece_index req.block_offset block)
  | .send_keep_alive => some ⟨.KeepAlive, []⟩
  | .send_unchoke => some ⟨.Unchoke, []⟩
  | .send_choke => some ⟨.Choke, []⟩
  | .send_request req =>
    some (build_request req.piece_index req.block_offset req.block_length)
  | .send_not_interested => some ⟨.NotInterested, []⟩
  | _ => none

/-- A step that calls a controller method. -/
def Thread.call (sha1 : Bytes → Bytes) (c : Controller) (id : ℕ) (st : PeerState) :
    PC → Option (Except Fault (Controller × Thread))
  | .opening => some (.ok (c, ⟨st, .send_bitfield c.get_bitfield⟩))
  | .loop_top =>
    some (.ok (c, ⟨st, if c.mode = .LEECHER ∧ c.all_done = true then leave st else .flush_haves⟩))
  | .flush_haves =>
    let (c, haves) := c.drain_haves id
    some (.ok (c, ⟨st, flush_next st haves⟩))
  | .serve kept req rest call =>
    some ((c.get_block req.piece_index req.block_offset).map fun block =>
      -- nothing to send: `++it`, the request stays
      (c, ⟨st, if block.isEmpty then serve_next (kept ++ [req]) call rest
        else .send_piece kept req rest block call⟩))
  | .choke_release req rest =>
    some ((c.release_in_flight req.piece_index req.block_offset).map fun c =>
      (c, match rest with
        | [] => ⟨{ st with pending_requests := [] }, .loop_top⟩
        | req :: rest => ⟨st, .choke_release req rest⟩))
  | .request =>
    match c.next_request st.peer_bitfield with
    | (c, none) => some (.ok (c, ⟨st, .loop_top⟩))
    | (c, some req) => some (.ok (c, ⟨st, .send_request req⟩))
  | .request_release req =>
    some ((c.release_in_flight req.piece_index req.block_offset).map fun c =>
      (c, ⟨st, .loop_top⟩))
  | .have_probe =>
    match c.next_request st.peer_bitfield with
    | (c, none) => some (.ok (c, ⟨st, .loop_top⟩))
    | (c, some req) => some (.ok (c, ⟨st, .have_release req⟩))
  | .have_release req =>
    some ((c.release_in_flight req.piece_index req.block_offset).map fun c =>
      (c, ⟨st, .send_interested⟩))
  | .bitfield_probe =>
    match c.next_request st.peer_bitfield with
    | (c, none) => some (.ok (c, ⟨st, .send_not_interested⟩))
    | (c, some req) => some (.ok (c, ⟨st, .bitfield_release req⟩))
  | .bitfield_release req =>
    some ((c.release_in_flight req.piece_index req.block_offset).map fun c =>
      (c, ⟨st, .bitfield_store req⟩))
  | .bitfield_store req =>
    some ((c.clear_status req.piece_index).map fun c =>
      (c, ⟨st, if st.am_interested then .loop_top else .send_interested⟩))
  | .received piece_index block_offset data =>
    some ((c.received_block sha1 piece_index block_offset data).map fun (c, _) =>
      (c, ⟨st, request_next_blocks c.toMetadata st⟩))
  | .cleanup req rest =>
    some ((c.release_in_flight req.piece_index req.block_offset).map fun c =>
      (c, ⟨st, match rest with
        | [] => .unregister
        | req :: rest => .cleanup req rest⟩))
  | .unregister => some (.ok (c.unregister_peer id, ⟨st, .closed⟩))
  | _ => none

/-- The local code after a `send`. -/
def Thread.after_send (m : Metadata) (st : PeerState) (ok : Bool) : PC → Option Thread
  | .send_bitfield _ =>
    some ⟨st, if m.mode = .LEECHER then .send_interested else .loop_top⟩
  | .send_interested => some ⟨{ st with am_interested := true }, .loop_top⟩
  | .send_have _ rest =>
    -- a Have that is not sent ends `flush_haves`; the others are lost
    some ⟨st, if ok then flush_next st rest else serve_incoming_requests st .before_read⟩
  | .send_piece kept _ rest _ call =>
    -- `it = erase(it)`; a send that fails ends the loop and erases nothing
    some (if ok then ⟨{ st with incoming_requests := kept ++ rest }, serve_next kept call rest⟩
      else ⟨st, call.pc⟩)
  | .send_keep_alive => some ⟨st, .loop_top⟩
  | .send_unchoke => some ⟨st, serve_incoming_requests st .in_handler⟩
  | .send_choke => some ⟨st, .loop_top⟩
  | .send_request req =>
    -- only a request that was sent is pending
    let sent := { st with pending_requests := st.pending_requests ++ [req] }
    some (if ok then ⟨sent, request_loop sent⟩ else ⟨st, .request_release req⟩)
  | .send_not_interested => some ⟨{ st with am_interested := false }, .loop_top⟩
  | _ => none

/-- One step of the thread with peer id `id`: `none` when the input is not
    what the thread waits for, a fault when the program does not survive. -/
def Thread.advance (sha1 : Bytes → Bytes) (c : Controller) (id : ℕ) (t : Thread) :
    Input → Option (Except Fault (Controller × Thread))
  | .call => Thread.call sha1 c id t.state t.pc
  | .sent ok => (Thread.after_send c.toMetadata t.state ok t.pc).map fun t => .ok (c, t)
  | .recv msg =>
    match t.pc, msg with
    | .read_message, none => some (.ok (c, ⟨t.state, leave t.state⟩))
    | .read_message, some msg => some ((handle_message c.toMetadata t.state msg).map (c, ·))
    | _, _ => none
  | .shaken ok =>
    match t.pc with
    | .handshake => some (.ok (c, ⟨t.state, if ok then .opening else leave t.state⟩))
    | _ => none

end BitTorrentLite
