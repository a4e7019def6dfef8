import BitTorrentLite.Controller.System
import BitTorrentLite.Peer.Loop

/-! # What a Step of a Peer Thread Does

    `Move` lists every step a thread can take, one constructor for each way
    through the code between two operations, with what holds when it is taken.
    The arguments about runs go by cases on it and never unfold the loop.
-/

open Machine

namespace BitTorrentLite

open Controller

/-- The piece and the offset a request is for. -/
def BlockRequest.key (req : BlockRequest) : ℤ × ℤ := (req.piece_index, req.block_offset)

/-- The blocks a peer's requests are pending for. -/
def PeerState.pending_keys (st : PeerState) : List (ℤ × ℤ) :=
  st.pending_requests.map BlockRequest.key

/-- The messages a handler drops without touching the state. -/
def Ignored (m : Metadata) (st : PeerState) (msg : PeerMessage) : Prop :=
  match msg.id with
  | .Have => msg.payload.length < 4
  | .Request => msg.payload.length < 12 ∨ st.am_choking = true
  | .Piece => m.mode = .SEEDER ∨ msg.payload.length < 8
  | .Cancel => msg.payload.length < 12
  | .other _ => True
  | _ => False

/-- The state after a Choke message, before anything is released. -/
def PeerState.choked (st : PeerState) : PeerState := { st with peer_choking := true }

/-- The state after a Piece message, the request it answers dropped. -/
def PeerState.drop_request (st : PeerState) (piece_index block_offset : ℤ) : PeerState :=
  { st with pending_requests :=
      st.pending_requests.filter fun req => !req.answered piece_index block_offset }

/-- Pending requests other than those a Piece message answers stay. -/
theorem mem_drop_request {st : PeerState} {x y : ℤ} {k : ℤ × ℤ} (hk : k ∈ st.pending_keys)
    (hne : k ≠ (x, y)) : k ∈ (st.drop_request x y).pending_keys := by
  obtain ⟨req, hreq, rfl⟩ := List.mem_map.mp hk
  refine List.mem_map.mpr ⟨req, List.mem_filter.mpr ⟨hreq, ?_⟩, rfl⟩
  rw [Bool.not_eq_true', Bool.eq_false_iff]
  intro hans
  unfold BlockRequest.answered at hans
  rw [Bool.and_eq_true, beq_iff_eq, beq_iff_eq] at hans
  exact hne (Prod.ext hans.1 hans.2)

/-- Where the Choke handler goes on. -/
def choke_next (st : PeerState) : PC :=
  match st.pending_requests with
  | [] => .loop_top
  | req :: rest => .choke_release req rest

/-- Where the Have handler goes on. -/
def have_next (m : Metadata) (st : PeerState) : PC :=
  if m.mode = .LEECHER ∧ st.am_interested = false then .have_probe else .loop_top

/-! ## Where the Jumps Lead -/

section jumps

variable {motive : PC → Prop} {m : Metadata} {st : PeerState}

@[elab_as_elim]
theorem call_cases (call : ServeCall) (read : motive .read_message) (top : motive .loop_top) :
    motive call.pc := by
  cases call with
  | before_read => exact read
  | in_handler => exact top

@[elab_as_elim]
theorem serve_next_cases {kept rest : List IncomingRequest} {call : ServeCall}
    (read : motive .read_message) (top : motive .loop_top)
    (serve : ∀ req rest, motive (.serve kept req rest call)) :
    motive (serve_next kept call rest) := by
  cases rest with
  | nil =>
    show motive call.pc
    exact call_cases call read top
  | cons req rest => exact serve req rest

@[elab_as_elim]
theorem serve_cases {call : ServeCall} (read : motive .read_message) (top : motive .loop_top)
    (serve : ∀ req rest, motive (.serve [] req rest call)) :
    motive (serve_incoming_requests st call) := by
  unfold serve_incoming_requests
  split
  · exact call_cases call read top
  · exact serve_next_cases read top serve

@[elab_as_elim]
theorem flush_cases {haves : List ℤ} (read : motive .read_message) (top : motive .loop_top)
    (serve : ∀ req rest, motive (.serve [] req rest .before_read))
    (send : ∀ piece rest, motive (.send_have piece rest)) :
    motive (flush_next st haves) := by
  cases haves with
  | nil =>
    show motive (serve_incoming_requests st .before_read)
    exact serve_cases read top serve
  | cons piece rest => exact send piece rest

@[elab_as_elim]
theorem request_loop_cases (top : motive .loop_top) (request : motive .request) :
    motive (request_loop st) := by
  unfold request_loop
  split
  · exact request
  · exact top

@[elab_as_elim]
theorem request_next_blocks_cases (top : motive .loop_top) (request : motive .request) :
    motive (request_next_blocks m st) := by
  unfold request_next_blocks
  split
  · exact top
  · exact request_loop_cases top request

@[elab_as_elim]
theorem have_next_cases (top : motive .loop_top) (probe : motive .have_probe) :
    motive (have_next m st) := by
  unfold have_next
  split
  · exact probe
  · exact top

@[elab_as_elim]
theorem choke_next_cases (top : motive .loop_top)
    (release : ∀ req rest, motive (.choke_release req rest)) : motive (choke_next st) := by
  unfold choke_next
  cases st.pending_requests with
  | nil => exact top
  | cons req rest => exact release req rest

@[elab_as_elim]
theorem leave_cases (unregister : motive .unregister)
    (cleanup : ∀ req rest, motive (.cleanup req rest)) : motive (leave st) := by
  unfold leave
  cases st.pending_requests with
  | nil => exact unregister
  | cons req rest => exact cleanup req rest

end jumps

/-! ## Moves -/

/-- Every step of the thread `id` in the state `st`, with the controller `c`:
    from which point, on which input, to which controller, state and point. -/
inductive Move (sha1 : Bytes → Bytes) (c : Controller) (id : ℕ) (st : PeerState) :
    PC → Input → Controller → PeerState → PC → Prop where
  -- the opening
  | shaken (ok : Bool) :
      Move sha1 c id st .handshake (.shaken ok) c st (if ok then .opening else leave st)
  | opened : Move sha1 c id st .opening .call c st (.send_bitfield c.get_bitfield)
  | bitfield_sent (bf : Bytes) (ok : Bool) :
      Move sha1 c id st (.send_bitfield bf) (.sent ok) c st
        (if c.mode = .LEECHER then .send_interested else .loop_top)
  -- the head of the loop
  | finished : c.mode = .LEECHER → c.all_done = true →
      Move sha1 c id st .loop_top .call c st (leave st)
  | continued : ¬(c.mode = .LEECHER ∧ c.all_done = true) →
      Move sha1 c id st .loop_top .call c st .flush_haves
  | drained : Move sha1 c id st .flush_haves .call (c.drain_haves id).1 st
      (flush_next st (c.drain_haves id).2)
  | have_sent (piece : ℤ) (rest : List ℤ) :
      Move sha1 c id st (.send_have piece rest) (.sent true) c st (flush_next st rest)
  | have_unsent (piece : ℤ) (rest : List ℤ) :
      Move sha1 c id st (.send_have piece rest) (.sent false) c st
        (serve_incoming_requests st .before_read)
  -- serving
  | passed_over (kept : List IncomingRequest) (req : IncomingRequest)
      (rest : List IncomingRequest) (call : ServeCall) :
      c.get_block req.piece_index req.block_offset = .ok [] →
      Move sha1 c id st (.serve kept req rest call) .call c st
        (serve_next (kept ++ [req]) call rest)
  | fetched (kept : List IncomingRequest) (req : IncomingRequest) (rest : List IncomingRequest)
      (call : ServeCall) (block : Bytes) :
      c.get_block req.piece_index req.block_offset = .ok block → block ≠ [] →
      Move sha1 c id st (.serve kept req rest call) .call c st
        (.send_piece kept req rest block call)
  | piece_sent (kept : List IncomingRequest) (req : IncomingRequest)
      (rest : List IncomingRequest) (block : Bytes) (call : ServeCall) :
      Move sha1 c id st (.send_piece kept req rest block call) (.sent true) c
        { st with incoming_requests := kept ++ rest } (serve_next kept call rest)
  | piece_unsent (kept : List IncomingRequest) (req : IncomingRequest)
      (rest : List IncomingRequest) (block : Bytes) (call : ServeCall) :
      Move sha1 c id st (.send_piece kept req rest block call) (.sent false) c st call.pc
  -- messages
  | disconnected : Move sha1 c id st .read_message (.recv none) c st (leave st)
  | ignored (msg : PeerMessage) : Ignored c.toMetadata st msg →
      Move sha1 c id st .read_message (.recv (some msg)) c st .loop_top
  | got_keep_alive (p : Bytes) :
      Move sha1 c id st .read_message (.recv (some ⟨.KeepAlive, p⟩)) c st .send_keep_alive
  | got_choke (p : Bytes) :
      Move sha1 c id st .read_message (.recv (some ⟨.Choke, p⟩)) c st.choked (choke_next st)
  | got_unchoke (p : Bytes) :
      Move sha1 c id st .read_message (.recv (some ⟨.Unchoke, p⟩)) c
        { st with peer_choking := false }
        (request_next_blocks c.toMetadata { st with peer_choking := false })
  | got_interested (p : Bytes) :
      Move sha1 c id st .read_message (.recv (some ⟨.Interested, p⟩)) c
        { st with peer_interested := true, am_choking := false } .send_unchoke
  | got_not_interested (p : Bytes) :
      Move sha1 c id st .read_message (.recv (some ⟨.NotInterested, p⟩)) c
        { st with peer_interested := false, am_choking := true } .send_choke
  | got_have (p : Bytes) (i : ℕ) : 4 ≤ p.length → ntohl p 0 = i → i < c.total_pieces →
      Move sha1 c id st .read_message (.recv (some ⟨.Have, p⟩)) c
        { st with peer_bitfield := Function.update st.peer_bitfield i true }
        (have_next c.toMetadata st)
  | got_have_beyond (p : Bytes) : 4 ≤ p.length → (c.total_pieces : ℤ) ≤ ntohl p 0 →
      Move sha1 c id st .read_message (.recv (some ⟨.Have, p⟩)) c st (have_next c.toMetadata st)
  | got_bitfield (p : Bytes) :
      Move sha1 c id st .read_message (.recv (some ⟨.Bitfield, p⟩)) c
        { st with peer_bitfield := decode_bitfield st.peer_bitfield p }
        (if c.mode = .LEECHER then .bitfield_probe else .loop_top)
  | got_request (p : Bytes) (st' : PeerState) : 12 ≤ p.length → st.am_choking = false →
      st' = { st with
        incoming_requests := st.incoming_requests ++ [⟨ntohl p 0, ntohl p 4, ntohl p 8⟩] } →
      Move sha1 c id st .read_message (.recv (some ⟨.Request, p⟩)) c st'
        (serve_incoming_requests st' .in_handler)
  | got_piece (p : Bytes) : c.mode = .LEECHER → 8 ≤ p.length →
      Move sha1 c id st .read_message (.recv (some ⟨.Piece, p⟩)) c
        (st.drop_request (ntohl p 0) (ntohl p 4))
        (.received (ntohl p 0) (ntohl p 4) (p.drop 8))
  | got_cancel (p : Bytes) : 12 ≤ p.length →
      Move sha1 c id st .read_message (.recv (some ⟨.Cancel, p⟩)) c
        { st with incoming_requests :=
            st.incoming_requests.filter fun req => !req.cancelled (ntohl p 0) (ntohl p 4) }
        .loop_top
  | keep_alive_sent (ok : Bool) : Move sha1 c id st .send_keep_alive (.sent ok) c st .loop_top
  | unchoke_sent (ok : Bool) :
      Move sha1 c id st .send_unchoke (.sent ok) c st (serve_incoming_requests st .in_handler)
  | choke_sent (ok : Bool) : Move sha1 c id st .send_choke (.sent ok) c st .loop_top
  -- the Choke handler
  | choke_released (req req' : BlockRequest) (rest : List BlockRequest) (i : ℕ) :
      req.piece_index = i → i < c.total_pieces →
      Move sha1 c id st (.choke_release req (req' :: rest)) .call (c.release i req.block_offset) st
        (.choke_release req' rest)
  | choke_cleared (req : BlockRequest) (i : ℕ) : req.piece_index = i → i < c.total_pieces →
      Move sha1 c id st (.choke_release req []) .call (c.release i req.block_offset)
        { st with pending_requests := [] } .loop_top
  -- requesting
  | request_none : (c.mode = .LEECHER → ∀ i off, c.Available i off → st.peer_bitfield i = false) →
      Move sha1 c id st .request .call c st .loop_top
  | request_some (i : ℕ) (off : ℤ) : c.mode = .LEECHER → c.Available i off →
      st.peer_bitfield i = true →
      Move sha1 c id st .request .call (c.claim i off) st
        (.send_request ⟨i, off, c.block_size i off⟩)
  | request_sent (req : BlockRequest) (st' : PeerState) :
      st' = { st with pending_requests := st.pending_requests ++ [req] } →
      Move sha1 c id st (.send_request req) (.sent true) c st' (request_loop st')
  | request_unsent (req : BlockRequest) :
      Move sha1 c id st (.send_request req) (.sent false) c st (.request_release req)
  | request_released (req : BlockRequest) (i : ℕ) : req.piece_index = i → i < c.total_pieces →
      Move sha1 c id st (.request_release req) .call (c.release i req.block_offset) st .loop_top
  -- the Have handler
  | have_none : (c.mode = .LEECHER → ∀ i off, c.Available i off → st.peer_bitfield i = false) →
      Move sha1 c id st .have_probe .call c st .loop_top
  | have_some (i : ℕ) (off : ℤ) : c.mode = .LEECHER → c.Available i off →
      st.peer_bitfield i = true →
      Move sha1 c id st .have_probe .call (c.claim i off) st
        (.have_release ⟨i, off, c.block_size i off⟩)
  | have_released (req : BlockRequest) (i : ℕ) : req.piece_index = i → i < c.total_pieces →
      Move sha1 c id st (.have_release req) .call (c.release i req.block_offset) st
        .send_interested
  | interested_sent (ok : Bool) :
      Move sha1 c id st .send_interested (.sent ok) c { st with am_interested := true } .loop_top
  -- the Bitfield handler
  | bitfield_none : (c.mode = .LEECHER → ∀ i off, c.Available i off → st.peer_bitfield i = false) →
      Move sha1 c id st .bitfield_probe .call c st .send_not_interested
  | bitfield_some (i : ℕ) (off : ℤ) : c.mode = .LEECHER → c.Available i off →
      st.peer_bitfield i = true →
      Move sha1 c id st .bitfield_probe .call (c.claim i off) st
        (.bitfield_release ⟨i, off, c.block_size i off⟩)
  | bitfield_released (req : BlockRequest) (i : ℕ) : req.piece_index = i → i < c.total_pieces →
      Move sha1 c id st (.bitfield_release req) .call (c.release i req.block_offset) st
        (.bitfield_store req)
  | bitfield_stored (req : BlockRequest) (i : ℕ) : req.piece_index = i → i < c.total_pieces →
      Move sha1 c id st (.bitfield_store req) .call
        { c with piece_status := Function.update c.piece_status i 0 } st
        (if st.am_interested then .loop_top else .send_interested)
  | not_interested_sent (ok : Bool) :
      Move sha1 c id st .send_not_interested (.sent ok) c { st with am_interested := false }
        .loop_top
  -- the Piece handler
  | block_received (x off : ℤ) (data : Bytes) (c' : Controller) (done : Bool) :
      Received c sha1 x off data c' done →
      Move sha1 c id st (.received x off data) .call c' st (request_next_blocks c.toMetadata st)
  -- the end of the thread
  | cleanup_released (req req' : BlockRequest) (rest : List BlockRequest) (i : ℕ) :
      req.piece_index = i → i < c.total_pieces →
      Move sha1 c id st (.cleanup req (req' :: rest)) .call (c.release i req.block_offset) st
        (.cleanup req' rest)
  | cleanup_done (req : BlockRequest) (i : ℕ) : req.piece_index = i → i < c.total_pieces →
      Move sha1 c id st (.cleanup req []) .call (c.release i req.block_offset) st .unregister
  | unregistered : Move sha1 c id st .unregister .call (c.unregister_peer id) st .closed

variable {sha1 : Bytes → Bytes} {c c' : Controller} {id : ℕ} {st st' : PeerState} {pc pc' : PC}

/-! ## Every Step Is a Move -/

/-- A message that is handled. -/
theorem handle_message_move {msg : PeerMessage}
    (h : handle_message c.toMetadata st msg = .ok ⟨st', pc'⟩) :
    Move sha1 c id st .read_message (.recv (some msg)) c st' pc' := by
  rcases msg with ⟨mid, p⟩
  cases mid with
  | KeepAlive => cases h; exact .got_keep_alive p
  | Choke => cases h; exact .got_choke p
  | Unchoke => cases h; exact .got_unchoke p
  | Interested => cases h; exact .got_interested p
  | NotInterested => cases h; exact .got_not_interested p
  | Have =>
    change handle_have c.toMetadata st p = _ at h
    unfold handle_have at h
    split at h
    · cases h
      exact .ignored _ ‹_›
    · rename_i hlen
      dsimp only at h
      split at h
      · obtain ⟨i, hi, heq⟩ := map_ok h
        cases heq
        obtain ⟨hx, hlt⟩ := index_ok.mp hi
        exact .got_have p i (by omega) hx hlt
      · cases h
        exact .got_have_beyond p (by omega) (by omega)
  | Bitfield => cases h; exact .got_bitfield p
  | Request =>
    have h := Except.ok.inj h
    change handle_request st p = _ at h
    unfold handle_request at h
    split at h
    · cases h
      exact .ignored _ (Or.inl ‹_›)
    · split at h
      · cases h
        exact .ignored _ (Or.inr ‹_›)
      · cases h
        exact .got_request p _ (by omega) (by simpa using ‹¬st.am_choking = true›) rfl
  | Piece =>
    have h := Except.ok.inj h
    change handle_piece c.toMetadata st p = _ at h
    unfold handle_piece at h
    split at h
    · cases h
      exact .ignored _ (Or.inl ‹_›)
    · rename_i hmode
      split at h
      · cases h
        exact .ignored _ (Or.inr ‹_›)
      · cases h
        have hl : c.mode = .LEECHER := by
          cases hm : c.mode with
          | LEECHER => rfl
          | SEEDER => exact absurd hm hmode
        exact .got_piece p hl (by omega)
  | Cancel =>
    have h := Except.ok.inj h
    change handle_cancel st p = _ at h
    unfold handle_cancel at h
    split at h
    · cases h
      exact .ignored _ ‹_›
    · cases h
      exact .got_cancel p (by omega)
  | other b => cases h; exact .ignored _ trivial

/-- A send that returned. -/
theorem after_send_move {ok : Bool}
    (h : Thread.after_send c.toMetadata st ok pc = some ⟨st', pc'⟩) :
    Move sha1 c id st pc (.sent ok) c st' pc' := by
  cases pc with
  | send_bitfield bf => cases h; exact .bitfield_sent bf ok
  | send_interested => cases h; exact .interested_sent ok
  | send_have piece rest =>
    cases h
    cases ok with
    | true => exact .have_sent piece rest
    | false => exact .have_unsent piece rest
  | send_piece kept req rest block call =>
    cases ok with
    | true => cases h; exact .piece_sent kept req rest block call
    | false => cases h; exact .piece_unsent kept req rest block call
  | send_keep_alive => cases h; exact .keep_alive_sent ok
  | send_unchoke => cases h; exact .unchoke_sent ok
  | send_choke => cases h; exact .choke_sent ok
  | send_request req =>
    cases ok with
    | true => cases h; exact .request_sent req _ rfl
    | false => cases h; exact .request_unsent req
  | send_not_interested => cases h; exact .not_interested_sent ok
  | _ => cases h

/-- A controller method that returned. -/
theorem call_move (h : Thread.call sha1 c id st pc = some (.ok (c', ⟨st', pc'⟩))) :
    Move sha1 c id st pc .call c' st' pc' := by
  cases pc with
  | opening => cases h; exact .opened
  | loop_top =>
    have h : (c, (⟨st, if c.mode = .LEECHER ∧ c.all_done = true then leave st else .flush_haves⟩
        : Thread)) = (c', ⟨st', pc'⟩) := Except.ok.inj (Option.some.inj h)
    by_cases hdone : c.mode = .LEECHER ∧ c.all_done = true
    · rw [if_pos hdone] at h
      cases h
      exact .finished hdone.1 hdone.2
    · rw [if_neg hdone] at h
      cases h
      exact .continued hdone
  | flush_haves => cases h; exact .drained
  | serve kept req rest call =>
    obtain ⟨block, hblock, heq⟩ := map_ok (Option.some.inj h)
    by_cases hempty : block.isEmpty
    · obtain rfl := List.isEmpty_iff.mp hempty
      cases heq
      exact .passed_over kept req rest call hblock
    · rw [if_neg hempty] at heq
      cases heq
      exact .fetched kept req rest call block hblock (by simpa using hempty)
  | choke_release req rest =>
    obtain ⟨d, hd, heq⟩ := map_ok (Option.some.inj h)
    obtain ⟨i, hx, hi, rfl⟩ := release_in_flight_ok hd
    cases rest with
    | nil => cases heq; exact .choke_cleared req i hx hi
    | cons req' rest => cases heq; exact .choke_released req req' rest i hx hi
  | request =>
    unfold Thread.call at h
    rcases next_request_cases c st.peer_bitfield with
      ⟨hreq, hnone⟩ | ⟨i, off, hm, ha, hbf, hreq⟩ <;> rw [hreq] at h <;> cases h
    · exact .request_none hnone
    · exact .request_some i off hm ha hbf
  | request_release req =>
    obtain ⟨d, hd, heq⟩ := map_ok (Option.some.inj h)
    obtain ⟨i, hx, hi, rfl⟩ := release_in_flight_ok hd
    cases heq
    exact .request_released req i hx hi
  | have_probe =>
    unfold Thread.call at h
    rcases next_request_cases c st.peer_bitfield with
      ⟨hreq, hnone⟩ | ⟨i, off, hm, ha, hbf, hreq⟩ <;> rw [hreq] at h <;> cases h
    · exact .have_none hnone
    · exact .have_some i off hm ha hbf
  | have_release req =>
    obtain ⟨d, hd, heq⟩ := map_ok (Option.some.inj h)
    obtain ⟨i, hx, hi, rfl⟩ := release_in_flight_ok hd
    cases heq
    exact .have_released req i hx hi
  | bitfield_probe =>
    unfold Thread.call at h
    rcases next_request_cases c st.peer_bitfield with
      ⟨hreq, hnone⟩ | ⟨i, off, hm, ha, hbf, hreq⟩ <;> rw [hreq] at h <;> cases h
    · exact .bitfield_none hnone
    · exact .bitfield_some i off hm ha hbf
  | bitfield_release req =>
    obtain ⟨d, hd, heq⟩ := map_ok (Option.some.inj h)
    obtain ⟨i, hx, hi, rfl⟩ := release_in_flight_ok hd
    cases heq
    exact .bitfield_released req i hx hi
  | bitfield_store req =>
    obtain ⟨d, hd, heq⟩ := map_ok (Option.some.inj h)
    obtain ⟨i, hx, hi, rfl⟩ := clear_status_ok hd
    cases heq
    exact .bitfield_stored req i hx hi
  | received x off data =>
    obtain ⟨⟨d, done⟩, hd, heq⟩ := map_ok (Option.some.inj h)
    have hrec := received_block_ok hd
    cases heq
    rw [hrec.toMetadata]
    exact .block_received x off data _ done hrec
  | cleanup req rest =>
    obtain ⟨d, hd, heq⟩ := map_ok (Option.some.inj h)
    obtain ⟨i, hx, hi, rfl⟩ := release_in_flight_ok hd
    cases rest with
    | nil => cases heq; exact .cleanup_done req i hx hi
    | cons req' rest => cases heq; exact .cleanup_released req req' rest i hx hi
  | unregister => cases h; exact .unregistered
  | _ => cases h

/-- **Step inversion**: every step a thread takes is a move. -/
theorem advance_move {t t' : Thread} {inp : Input}
    (h : t.advance sha1 c id inp = some (.ok (c', t'))) :
    Move sha1 c id t.state t.pc inp c' t'.state t'.pc := by
  rcases t with ⟨st, pc⟩
  rcases t' with ⟨st', pc'⟩
  cases inp with
  | call => exact call_move h
  | sent ok =>
    obtain ⟨t, ht, heq⟩ := Option.map_eq_some_iff.mp h
    cases heq
    exact after_send_move ht
  | recv msg =>
    cases pc with
    | read_message =>
      cases msg with
      | none => cases h; exact .disconnected
      | some msg =>
        obtain ⟨t, ht, heq⟩ := map_ok (Option.some.inj h)
        cases heq
        exact handle_message_move ht
    | _ => cases h
  | shaken ok =>
    cases pc with
    | handshake => cases h; exact .shaken ok
    | _ => cases h

/-! ## Moves and the Controller -/

/-- A move does to the controller what one of its methods does. -/
theorem Move.stepped {inp : Input} (h : Move sha1 c id st pc inp c' st' pc') :
    Controller.Stepped sha1 c c' := by
  cases h
  case drained => exact .queues _ _
  case unregistered => exact .queues _ _
  case choke_released i _ hi => exact .release i _ hi
  case choke_cleared i _ hi => exact .release i _ hi
  case request_released i _ hi => exact .release i _ hi
  case have_released i _ hi => exact .release i _ hi
  case bitfield_released i _ hi => exact .release i _ hi
  case cleanup_released i _ hi => exact .release i _ hi
  case cleanup_done i _ hi => exact .release i _ hi
  case request_some i off hm ha _ => exact .claim i off hm ha
  case have_some i off hm ha _ => exact .claim i off hm ha
  case bitfield_some i off hm ha _ => exact .claim i off hm ha
  case bitfield_stored i _ hi => exact .clear i hi
  case block_received x off data done hrec => exact .received x off data _ done hrec
  all_goals exact .queues c.crnt_peer c.send_haves

theorem Move.toMetadata {inp : Input} (h : Move sha1 c id st pc inp c' st' pc') :
    c'.toMetadata = c.toMetadata := h.stepped.toMetadata

/-- Only `register_peer` hands out an id. -/
theorem Move.crnt_peer {inp : Input} (h : Move sha1 c id st pc inp c' st' pc') :
    c'.crnt_peer = c.crnt_peer := by
  cases h
  case block_received x off data done hrec => cases hrec <;> rfl
  all_goals rfl

/-- What a step that sends sends. -/
theorem Move.output_sent {ok : Bool} (h : Move sha1 c id st pc (.sent ok) c' st' pc') :
    ∃ msg, pc.output = some msg := by
  cases h <;> exact ⟨_, rfl⟩

/-! ## Where a Thread Is -/

/-- The thread has still to send its Bitfield. -/
def PC.Opening : PC → Prop
  | .opening => True
  | .send_bitfield _ => True
  | _ => False

/-- The thread has left the loop. -/
def PC.Left : PC → Prop
  | .cleanup _ _ => True
  | .unregister => True
  | .closed => True
  | _ => False

/-- The thread is past the opening and has not left. -/
def PC.InLoop : PC → Prop
  | .handshake => False
  | .opening => False
  | .send_bitfield _ => False
  | .cleanup _ _ => False
  | .unregister => False
  | .closed => False
  | _ => True

theorem PC.InLoop.not_opening {pc : PC} (h : pc.InLoop) : ¬ pc.Opening := by
  intro hopen
  cases pc with
  | opening => exact h
  | send_bitfield => exact h
  | _ => exact hopen

theorem PC.InLoop.not_left {pc : PC} (h : pc.InLoop) : ¬ pc.Left := by
  intro hleft
  cases pc with
  | cleanup => exact h
  | unregister => exact h
  | closed => exact h
  | _ => exact hleft

theorem PC.Left.not_opening {pc : PC} (h : pc.Left) : ¬ pc.Opening := by
  intro hopen
  cases pc with
  | opening => exact h
  | send_bitfield => exact h
  | _ => exact hopen

theorem left_leave (st : PeerState) : (leave st).Left := leave_cases trivial fun _ _ => trivial

/-- Where a step leads: into the loop, to the next point of the opening, or
    out of the loop, which it leaves at the end of the stream or when a leecher
    has everything. -/
theorem Move.target {inp : Input} (h : Move sha1 c id st pc inp c' st' pc') :
    pc'.InLoop ∨ pc = .handshake ∨ (pc = .opening ∧ inp = .call ∧ pc'.Opening) ∨
      (pc'.Left ∧ (pc.Left ∨ inp = .recv none ∨ (c.mode = .LEECHER ∧ c'.all_done = true))) := by
  cases h
  case shaken => exact .inr (.inl rfl)
  case opened => exact .inr (.inr (.inl ⟨rfl, rfl, trivial⟩))
  case finished hl hdone => exact .inr (.inr (.inr ⟨left_leave st, .inr (.inr ⟨hl, hdone⟩)⟩))
  case disconnected => exact .inr (.inr (.inr ⟨left_leave st, .inr (.inl rfl)⟩))
  case cleanup_released => exact .inr (.inr (.inr ⟨trivial, .inl trivial⟩))
  case cleanup_done => exact .inr (.inr (.inr ⟨trivial, .inl trivial⟩))
  case unregistered => exact .inr (.inr (.inr ⟨trivial, .inl trivial⟩))
  -- the other jumps stay in the loop
  all_goals refine .inl ?_
  case bitfield_sent => split <;> trivial
  case drained => exact flush_cases trivial trivial (fun _ _ => trivial) fun _ _ => trivial
  case have_sent => exact flush_cases trivial trivial (fun _ _ => trivial) fun _ _ => trivial
  case have_unsent => exact serve_cases trivial trivial fun _ _ => trivial
  case unchoke_sent => exact serve_cases trivial trivial fun _ _ => trivial
  case got_request => exact serve_cases trivial trivial fun _ _ => trivial
  case passed_over => exact serve_next_cases trivial trivial fun _ _ => trivial
  case piece_sent => exact serve_next_cases trivial trivial fun _ _ => trivial
  case piece_unsent => exact call_cases _ trivial trivial
  case got_unchoke => exact request_next_blocks_cases trivial trivial
  case block_received => exact request_next_blocks_cases trivial trivial
  case request_sent => exact request_loop_cases trivial trivial
  case got_have => exact have_next_cases trivial trivial
  case got_have_beyond => exact have_next_cases trivial trivial
  case got_choke => exact choke_next_cases trivial fun _ _ => trivial
  case got_bitfield => split <;> trivial
  case bitfield_stored => split <;> trivial
  all_goals trivial

end BitTorrentLite
