import BitTorrentLite.Swarm.Stability
import BitTorrentLite.TwoParty.Leecher
import BitTorrentLite.TwoParty.Pool
import BitTorrentLite.TwoParty.Seeder

/-! # What Is Left to Do

    Each side of an exchange is charged for what it has still to do. A block in
    the pool is charged with all that is to be done for it: the request, its way
    to the seeder, the block, its way back and the Haves that its piece may call
    for. A message is charged with what its reader does until it reads again, a
    point of the code with what is left to do there. Every step of either side
    uses up more than it adds.

    The charges of a seeder are for any leecher: `haves` is what the leecher's
    Haves for a block come to, `bitfield` what it does with the Bitfield. With
    one peer, a block calls for one Have.
-/

open Machine LTS

namespace BitTorrentLite

open Controller Metadata

/-! ## Charges -/

/-- What a message to the seeder is charged. -/
def request_charge (haves : ℕ) (msg : PeerMessage) : ℕ :=
  match msg.id with
  | .Request => haves + 10
  | .Interested => 8
  | .NotInterested => 8
  | _ => 3

theorem three_le_request_charge (haves : ℕ) (msg : PeerMessage) :
    3 ≤ request_charge haves msg := by
  unfold request_charge
  split
  · omega
  · decide
  · decide
  · exact le_rfl

/-- What a message to the leecher is charged. -/
def answer_charge (haves bitfield : ℕ) (msg : PeerMessage) : ℕ :=
  match msg.id with
  | .Bitfield => bitfield
  | .Piece => haves + 5
  | _ => 4

theorem four_le_answer_charge {bitfield : ℕ} (haves : ℕ) (h : 4 ≤ bitfield) (msg : PeerMessage) :
    4 ≤ answer_charge haves bitfield msg := by
  unfold answer_charge
  split
  · exact h
  · omega
  · exact le_rfl

/-- What is left to do at a point of the leecher. -/
def PC.leech_charge (st : PeerState) : PC → ℕ
  | .opening => 17 + st.pending_requests.length
  | .send_bitfield _ => 16 + st.pending_requests.length
  | .send_interested => 12 + st.pending_requests.length
  | .loop_top => 3 + st.pending_requests.length
  | .flush_haves => 2 + st.pending_requests.length
  | .send_have _ rest => 5 + 4 * rest.length + st.pending_requests.length
  | .read_message => 1 + st.pending_requests.length
  -- the block that the Bitfield handler takes out of the pool comes back
  | .bitfield_probe => 23 + st.pending_requests.length
  | .bitfield_release _ => 22 + st.pending_requests.length
  | .bitfield_store _ => 4 + st.pending_requests.length
  | .request => 4 + st.pending_requests.length
  | .send_request _ => 20 + st.pending_requests.length
  | .received _ _ _ => 9 + st.pending_requests.length
  | .cleanup _ rest => 2 + rest.length
  | .unregister => 1
  | _ => 0

/-- What is left to do at a point of the seeder. -/
def PC.seed_charge (haves bitfield : ℕ) : PC → ℕ
  | .opening => bitfield + 6
  | .send_bitfield _ => bitfield + 5
  | .send_unchoke => 9
  | .send_choke => 9
  | .serve _ _ rest _ => haves + 11 + (haves + 7) * rest.length
  | .send_piece _ _ rest _ _ => haves + 10 + (haves + 7) * rest.length
  | .loop_top => 4
  | .flush_haves => 3
  | .read_message => 2
  | .unregister => 1
  | _ => 0

/-- The charge of what a step reads. -/
def Input.read_charge (charge : PeerMessage → ℕ) : Input → ℕ
  | .recv (some msg) => charge msg
  | _ => 0

/-- The charge of what a step sends. -/
def Input.sent_charge (charge : PeerMessage → ℕ) (pc : PC) : Input → ℕ
  | .sent _ => (pc.output.map charge).getD 0
  | _ => 0

/-- The Haves that wait for the peer. -/
def Controller.queued (c : Controller) (id : ℕ) : ℕ := ((c.send_haves id).getD []).length

/-- What a side puts at the end of a channel. -/
theorem charges_append (charge : PeerMessage → ℕ) (msgs : List PeerMessage)
    (out : Option PeerMessage) :
    ((msgs ++ out.toList).map charge).sum = (msgs.map charge).sum + (out.map charge).getD 0 := by
  rw [List.map_append, List.sum_append]
  cases out with
  | none => rfl
  | some msg =>
    rw [Option.toList_some, List.map_singleton, List.sum_singleton]
    rfl

section moves

variable {sha1 : Bytes → Bytes} {F : Bytes} {c c' : Controller} {peer_id : ℕ}
  {st st' : PeerState} {pc pc' : PC} {inp : Input}

/-! ### At the Jumps -/

theorem leave_charge (st : PeerState) :
    (leave st).leech_charge st ≤ 1 + st.pending_requests.length := by
  unfold leave
  cases h : st.pending_requests with
  | nil => exact le_rfl
  | cons req rest =>
    rw [List.length_cons]
    show 2 + rest.length ≤ 1 + (rest.length + 1)
    omega

theorem request_next_blocks_charge (m : Metadata) (st : PeerState) :
    (request_next_blocks m st).leech_charge st ≤ 4 + st.pending_requests.length := by
  have htop : PC.loop_top.leech_charge st ≤ 4 + st.pending_requests.length := by
    show 3 + st.pending_requests.length ≤ _
    omega
  exact request_next_blocks_cases htop le_rfl

theorem request_loop_charge (st : PeerState) :
    (request_loop st).leech_charge st ≤ 4 + st.pending_requests.length := by
  have htop : PC.loop_top.leech_charge st ≤ 4 + st.pending_requests.length := by
    show 3 + st.pending_requests.length ≤ _
    omega
  exact request_loop_cases htop le_rfl

/-- Four units for each Have that is left. -/
theorem flush_charge (hchoking : st.am_choking = true) (haves : List ℤ) :
    (flush_next st haves).leech_charge st
      = 1 + 4 * haves.length + st.pending_requests.length := by
  cases haves with
  | nil =>
    show (serve_incoming_requests st .before_read).leech_charge st = _
    unfold serve_incoming_requests
    rw [if_pos hchoking]
    rfl
  | cons piece rest =>
    rw [List.length_cons]
    show 5 + 4 * rest.length + st.pending_requests.length = _
    omega

theorem serve_next_charge (haves bitfield : ℕ) (kept rest : List IncomingRequest)
    (call : ServeCall) :
    (serve_next kept call rest).seed_charge haves bitfield ≤ 4 + (haves + 7) * rest.length := by
  cases rest with
  | nil =>
    show call.pc.seed_charge haves bitfield ≤ 4
    exact call_cases call (Nat.le_of_ble_eq_true rfl) le_rfl
  | cons req rest =>
    rw [List.length_cons, Nat.mul_succ]
    show haves + 11 + (haves + 7) * rest.length ≤ _
    omega

/-- With nothing to serve. -/
theorem serve_none_charge (call : ServeCall) (hnone : st.incoming_requests = []) :
    serve_incoming_requests st call = call.pc := by
  unfold serve_incoming_requests
  rw [hnone]
  split
  · rfl
  · rfl

/-! ### What a Step Costs -/

theorem queued_received {i b : ℕ} (peer_id : ℕ) (hg : c.Consistent) (hfit : c.CountFits)
    (ho : c.Original sha1 F) (hl : c.mode = .LEECHER) (h : c.Genuine F) (hi : i < c.total_pieces)
    (hb : b < c.block_count i) {done : Bool}
    (hrec : Received c sha1 i (block_offset b) (c.block_of F i b) c' done) :
    c'.queued peer_id ≤ c.queued peer_id + 1 := by
  rcases received_genuine hg hfit ho hl h hi hb hrec with ⟨rfl, -⟩ | ⟨rfl, -⟩
  · exact Nat.le_succ _
  · show (((c.send_haves peer_id).map (· ++ [(i : ℤ)])).getD []).length ≤ _
    unfold queued
    cases c.send_haves peer_id with
    | none => exact Nat.zero_le _
    | some q =>
      rw [Option.map_some, Option.getD_some, Option.getD_some, List.length_append,
        List.length_singleton]

/-- **Step lemma** for the leecher: a step costs more than it leaves to do. -/
theorem Leeching.charged (hl : c.mode = .LEECHER) (hg : c.Consistent) (hfit : c.CountFits)
    (ho : c.Original sha1 F) (hrange : c.StatusRange) (h : Leeching F peer_id c st pc)
    (hmove : Move sha1 c peer_id st pc inp c' st' pc') (hsent : inp ≠ .sent false)
    (hopen : inp ≠ .recv none)
    (harr : ∀ msg, inp = .recv (some msg) → Arrives c.toMetadata F st msg) :
    17 * c'.pool.card + 4 * c'.queued peer_id + pc'.leech_charge st'
        + inp.sent_charge (request_charge 4) pc
      < 17 * c.pool.card + 4 * c.queued peer_id + pc.leech_charge st
        + inp.read_charge (answer_charge 4 23) := by
  have hpoint := h.point
  have hbusy := h.delivering
  simp only [Input.read_charge, Input.sent_charge]
  cases hmove
  case opened =>
    simp only [PC.leech_charge]
    omega
  case bitfield_sent bf ok =>
    rw [if_pos hl]
    simp only [PC.leech_charge, PC.output, Option.map_some, Option.getD_some, request_charge]
    omega
  case interested_sent ok =>
    simp only [PC.leech_charge, PC.output, Option.map_some, Option.getD_some, request_charge]
    omega
  case finished =>
    have hleave := leave_charge st
    simp only [PC.leech_charge] at hleave ⊢
    omega
  case continued =>
    simp only [PC.leech_charge]
    omega
  -- the Haves go from the queue to the thread
  case drained =>
    have hflush := flush_charge h.choking (c.drain_haves peer_id).2
    have hempty : (c.drain_haves peer_id).1.queued peer_id = 0 := by
      show ((Function.update c.send_haves peer_id (some []) peer_id).getD []).length = 0
      rw [Function.update_self]
      rfl
    have hpool : (c.drain_haves peer_id).1.pool.card = c.pool.card := rfl
    have hlen : (c.drain_haves peer_id).2.length = c.queued peer_id := rfl
    rw [hempty, hpool, hflush, hlen]
    simp only [PC.leech_charge]
    omega
  case have_sent piece rest =>
    have hflush := flush_charge h.choking rest
    rw [hflush]
    simp only [PC.leech_charge, PC.output, build_have, Option.map_some, Option.getD_some,
      request_charge]
    omega
  case have_unsent => exact absurd rfl hsent
  case disconnected => exact absurd rfl hopen
  case ignored msg _ =>
    have hfour := four_le_answer_charge 4 (by decide : 4 ≤ 23) msg
    simp only [PC.leech_charge]
    omega
  case got_unchoke =>
    have hnext := request_next_blocks_charge c.toMetadata { st with peer_choking := false }
    simp only [PC.leech_charge, answer_charge] at hnext ⊢
    omega
  case got_bitfield =>
    rw [if_pos hl]
    simp only [PC.leech_charge, answer_charge]
    omega
  case got_piece p _ _ =>
    have hfewer := List.length_filter_le
      (fun req => !BlockRequest.answered req (ntohl p 0) (ntohl p 4)) st.pending_requests
    simp only [PC.leech_charge, answer_charge, PeerState.drop_request]
    omega
  case request_none =>
    simp only [PC.leech_charge]
    omega
  case request_some i off _ ha _ =>
    have hpool := pool_card_claim hg hfit ha
    have hqueue : (c.claim i off).queued peer_id = c.queued peer_id := rfl
    simp only [PC.leech_charge]
    omega
  case request_sent req hst =>
    subst hst
    have hloop := request_loop_charge { st with pending_requests := st.pending_requests ++ [req] }
    simp only [PC.leech_charge, PC.output, build_request, Option.map_some, Option.getD_some,
      request_charge, List.length_append, List.length_singleton] at hloop ⊢
    omega
  case request_unsent => exact absurd rfl hsent
  -- the Bitfield has every piece, so a block is found
  case bitfield_none hnone =>
    obtain ⟨i, off, ha, hbit⟩ := h.on_offer hg hfit
    rw [hnone hl i off ha] at hbit
    cases hbit
  case bitfield_some i off _ ha _ =>
    have hpool := pool_card_claim hg hfit ha
    have hqueue : (c.claim i off).queued peer_id = c.queued peer_id := rfl
    simp only [PC.leech_charge]
    omega
  case bitfield_released req i _ _ =>
    have hpool := pool_card_release hg hfit i req.block_offset
    have hqueue : (c.release i req.block_offset).queued peer_id = c.queued peer_id := rfl
    simp only [PC.leech_charge]
    omega
  case bitfield_stored req i _ hi =>
    have hpool := pool_card_clear hg hfit (h.none_done hpoint.2 i hi)
    have hqueue : Controller.queued { c with
      piece_status := Function.update c.piece_status i 0 } peer_id = c.queued peer_id := rfl
    rw [if_pos hpoint.1]
    simp only [PC.leech_charge]
    omega
  case block_received hrec =>
    obtain ⟨-, -, i, hi, b, hb, rfl, rfl, rfl⟩ := hpoint
    have hpool := pool_card_received hg hfit ho hl hbusy.genuine hi hb hrec
    have hqueue := queued_received peer_id hg hfit ho hl hbusy.genuine hi hb hrec
    have hnext := request_next_blocks_charge c.toMetadata st
    simp only [PC.leech_charge] at hnext ⊢
    omega
  -- the pieces are done, so what is released is not wanted
  case cleanup_released req req' rest i _ hi =>
    have hdone := ((all_done_iff_verified hrange).mp (h.finished trivial)).2 i hi
    have hpool := pool_card_release_done hg hfit req.block_offset hdone
    have hqueue : (c.release i req.block_offset).queued peer_id = c.queued peer_id := rfl
    simp only [PC.leech_charge, List.length_cons]
    omega
  case cleanup_done req i _ hi =>
    have hdone := ((all_done_iff_verified hrange).mp (h.finished trivial)).2 i hi
    have hpool := pool_card_release_done hg hfit req.block_offset hdone
    have hqueue : (c.release i req.block_offset).queued peer_id = c.queued peer_id := rfl
    simp only [PC.leech_charge, List.length_nil]
    omega
  case unregistered =>
    have hempty : (c.unregister_peer peer_id).queued peer_id = 0 := by
      show ((Function.update c.send_haves peer_id none peer_id).getD []).length = 0
      rw [Function.update_self]
      rfl
    have hpool : (c.unregister_peer peer_id).pool.card = c.pool.card := rfl
    rw [hempty, hpool]
    simp only [PC.leech_charge]
    omega
  all_goals first
    | exact hpoint.elim
    | exact (harr _ rfl).sent.elim

/-- **Step lemma** for the seeder. -/
theorem Serving.charged (haves bitfield : ℕ) (hs : c.mode = .SEEDER) (hg : c.Consistent)
    (ho : c.Original sha1 F) (h : Serving F peer_id c st pc)
    (hmove : Move sha1 c peer_id st pc inp c' st' pc') (hsent : inp ≠ .sent false)
    (hmsg : ∀ msg, inp = .recv (some msg) → FromLeecher c.toMetadata msg) :
    pc'.seed_charge haves bitfield + inp.sent_charge (answer_charge haves bitfield) pc
      < pc.seed_charge haves bitfield + inp.read_charge (request_charge haves) := by
  have hpoint := h.point
  have hnot : c.mode ≠ .LEECHER := by
    rw [hs]
    decide
  have htop : (have_next c.toMetadata st).seed_charge haves bitfield = 4 := by
    unfold have_next
    rw [if_neg fun hand => hnot hand.1]
    rfl
  simp only [Input.read_charge, Input.sent_charge]
  cases hmove
  case opened =>
    simp only [PC.seed_charge]
    omega
  case bitfield_sent =>
    rw [if_neg hnot]
    simp only [PC.seed_charge, PC.output, Option.map_some, Option.getD_some, answer_charge]
    omega
  case finished hl _ => exact absurd hl hnot
  case continued =>
    simp only [PC.seed_charge]
    omega
  case drained =>
    rw [show (c.drain_haves peer_id).2 = [] from h.no_haves]
    show (serve_incoming_requests st .before_read).seed_charge haves bitfield + 0 < 3 + 0
    rw [serve_none_charge .before_read hpoint]
    exact Nat.lt_succ_self 2
  -- a seeder has every block it is asked for
  case passed_over kept req rest call hempty =>
    have hreq : req ∈ st.incoming_requests := hpoint.2 ▸ List.mem_cons_self ..
    exact absurd rfl (h.block hg ho hreq hempty).1
  case fetched kept req rest call block _ _ =>
    simp only [PC.seed_charge]
    omega
  case piece_sent kept req rest block call =>
    have hnext := serve_next_charge haves bitfield kept rest call
    simp only [PC.seed_charge, PC.output, build_piece_msg, Option.map_some, Option.getD_some,
      answer_charge] at hnext ⊢
    omega
  case piece_unsent => exact absurd rfl hsent
  case have_unsent => exact absurd rfl hsent
  case disconnected =>
    unfold leave
    rw [h.no_pending]
    simp only [PC.seed_charge]
    omega
  case ignored msg _ =>
    have hthree := three_le_request_charge haves msg
    simp only [PC.seed_charge]
    omega
  case got_interested =>
    simp only [PC.seed_charge, request_charge]
    omega
  case got_have =>
    rw [htop]
    simp only [PC.seed_charge, request_charge]
    omega
  case got_have_beyond =>
    rw [htop]
    simp only [PC.seed_charge, request_charge]
    omega
  case got_bitfield =>
    rw [if_neg hnot]
    simp only [PC.seed_charge, request_charge]
    omega
  -- the queue was empty, so the request is served at once
  case got_request p _ hopen hst =>
    have hnone : st.incoming_requests = [] := hpoint
    subst hst
    have hnext := serve_next_charge haves bitfield [] [⟨ntohl p 0, ntohl p 4, ntohl p 8⟩] .in_handler
    unfold serve_incoming_requests
    rw [if_neg (by rw [hopen]; decide), hnone]
    simp only [PC.seed_charge, request_charge, List.nil_append, List.length_singleton] at hnext ⊢
    omega
  case unchoke_sent =>
    rw [serve_none_charge .in_handler hpoint]
    simp only [ServeCall.pc, PC.seed_charge, PC.output, Option.map_some, Option.getD_some,
      answer_charge]
    omega
  case unregistered =>
    simp only [PC.seed_charge]
    omega
  all_goals first
    | exact hpoint.elim
    | exact (hmsg _ rfl).elim

end moves

end BitTorrentLite
