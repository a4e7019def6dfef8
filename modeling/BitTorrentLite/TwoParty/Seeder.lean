import BitTorrentLite.Peer.Bitfield
import BitTorrentLite.TwoParty.Exchange

/-! # A Seeder and Its Only Peer

    What holds at a seeder of the whole file while the other side sends what a
    leecher sends: it answers every request at once, with the block of the
    original, so it waits for messages with nothing left to serve.
-/

open Machine Region LTS

namespace BitTorrentLite

open Controller

/-- The points such a seeder comes to, with what it knows there. -/
def PC.Seeds (m : Metadata) (F : Bytes) (st : PeerState) : PC → Prop
  | .opening => st.incoming_requests = []
  | .send_bitfield bf => st.incoming_requests = [] ∧ ∀ old, m.Full (decode_bitfield old bf)
  | .loop_top => st.incoming_requests = []
  | .flush_haves => st.incoming_requests = []
  | .read_message => st.incoming_requests = []
  | .send_unchoke => st.incoming_requests = []
  | .serve kept req rest _ => kept = [] ∧ st.incoming_requests = req :: rest
  | .send_piece kept req rest block _ => kept = [] ∧ st.incoming_requests = req :: rest ∧
      ∃ i < m.total_pieces, ∃ b < m.block_count i,
        req.piece_index = i ∧ req.block_offset = Metadata.block_offset b ∧ block = m.block_of F i b
  | .unregister => True
  | .closed => True
  | _ => False

/-- What holds at the seeder between any two steps. -/
structure Serving (F : Bytes) (peer_id : ℕ) (c : Controller) (st : PeerState) (pc : PC) :
    Prop where
  point : pc.Seeds c.toMetadata F st
  no_pending : st.pending_requests = []
  asked : ∀ req ∈ st.incoming_requests, c.IsBlock req.piece_index req.block_offset
  seeding : c.Seeding F
  /-- A seeder has nothing to announce. -/
  no_haves : (c.send_haves peer_id).getD [] = []
  guarded : st.Guarded c.toMetadata ∧ pc.Guarded c.toMetadata

section moves

variable {sha1 : Bytes → Bytes} {F : Bytes} {c c' : Controller} {peer_id : ℕ}
  {st st' : PeerState} {pc pc' : PC} {inp : Input}

/-! ### Jumps -/

theorem seeds_serve_next {m : Metadata} {rest : List IncomingRequest} (call : ServeCall)
    (h : st.incoming_requests = rest) : (serve_next [] call rest).Seeds m F st := by
  cases rest with
  | nil =>
    show call.pc.Seeds m F st
    exact call_cases call h h
  | cons req rest => exact ⟨rfl, h⟩

theorem seeds_serve_none {m : Metadata} (call : ServeCall) (h : st.incoming_requests = []) :
    (serve_incoming_requests st call).Seeds m F st := by
  unfold serve_incoming_requests
  split
  · exact call_cases call h h
  · rw [h]
    exact seeds_serve_next call h

/-! ### What a Step Preserves -/

/-- The Bitfield of a seeder has every piece. -/
theorem seeding_bitfield (hg : c.Consistent) (h : c.Seeding F) (old : ℕ → Bool) :
    c.Full (decode_bitfield old c.get_bitfield) := by
  intro i hi
  rw [decode_get_bitfield _ hg.pieces_int _ hi]
  exact decide_eq_true (h.done i hi)

/-- A block that is asked for is served. -/
theorem Serving.block (hg : c.Consistent) (ho : c.Original sha1 F)
    (h : Serving F peer_id c st pc) {req : IncomingRequest} (hreq : req ∈ st.incoming_requests)
    {block : Bytes} (hblock : c.get_block req.piece_index req.block_offset = .ok block) :
    block ≠ [] ∧ ∃ i < c.total_pieces, ∃ b < c.block_count i,
      req.piece_index = i ∧ req.block_offset = Metadata.block_offset b ∧
        block = c.block_of F i b := by
  obtain ⟨i, hi, b, hb, hx, hoff⟩ := h.asked req hreq
  rw [hx, hoff, h.seeding.get_block hg ho hi hb] at hblock
  obtain rfl := Except.ok.inj hblock
  refine ⟨?_, i, hi, b, hb, hx, hoff, rfl⟩
  have hlen := Metadata.block_of_length hg ho hi hb
  have hpos : 0 < Tiling.tile_size (c.piece_size i) 16384 b := Tiling.tile_size_pos (by norm_num) hb
  exact List.ne_nil_of_length_pos (hlen ▸ hpos)

/-- Where the seeder goes. -/
theorem Serving.point_moved (hs : c.mode = .SEEDER) (hg : c.Consistent) (ho : c.Original sha1 F)
    (h : Serving F peer_id c st pc) (hmove : Move sha1 c peer_id st pc inp c' st' pc')
    (hsent : inp ≠ .sent false)
    (hmsg : ∀ msg, inp = .recv (some msg) → FromLeecher c.toMetadata msg) :
    pc'.Seeds c.toMetadata F st' := by
  have hpoint := h.point
  have hnot : c.mode ≠ .LEECHER := by
    rw [hs]
    decide
  have hleave : (leave st).Seeds c.toMetadata F st := by
    unfold leave
    rw [h.no_pending]
    trivial
  cases hmove
  case opened => exact ⟨hpoint, seeding_bitfield hg h.seeding⟩
  case bitfield_sent =>
    rw [if_neg hnot]
    exact hpoint.1
  case finished hl _ => exact absurd hl hnot
  case continued => exact hpoint
  case drained =>
    rw [show (c.drain_haves peer_id).2 = [] from h.no_haves]
    exact seeds_serve_none _ hpoint
  -- a seeder has every block it is asked for
  case passed_over kept req rest call hempty =>
    have hreq : req ∈ st.incoming_requests := hpoint.2 ▸ List.mem_cons_self ..
    exact absurd rfl (h.block hg ho hreq hempty).1
  case fetched kept req rest call block hblock _ =>
    have hreq : req ∈ st.incoming_requests := hpoint.2 ▸ List.mem_cons_self ..
    exact ⟨hpoint.1, hpoint.2, (h.block hg ho hreq hblock).2⟩
  case piece_sent kept req rest block call =>
    obtain ⟨rfl, -, -⟩ := hpoint
    exact seeds_serve_next call rfl
  case disconnected => exact hleave
  case ignored => exact hpoint
  case got_interested => exact hpoint
  -- a seeder never looks for a block to request
  case got_have =>
    unfold have_next
    rw [if_neg fun hand => hnot hand.1]
    exact hpoint
  case got_have_beyond =>
    unfold have_next
    rw [if_neg fun hand => hnot hand.1]
    exact hpoint
  case got_bitfield =>
    rw [if_neg hnot]
    exact hpoint
  -- the queue was empty, so the request is served at once
  case got_request p _ hopen hst' =>
    have hnone : st.incoming_requests = [] := hpoint
    subst hst'
    unfold serve_incoming_requests
    rw [if_neg (by rw [hopen]; decide), hnone]
    exact ⟨rfl, rfl⟩
  case unchoke_sent => exact seeds_serve_none _ hpoint
  case unregistered => trivial
  case piece_unsent => exact absurd rfl hsent
  case have_unsent => exact absurd rfl hsent
  all_goals first
    | exact hpoint.elim
    | exact (hmsg _ rfl).elim

/-- What it is asked for, and what it asks for. -/
theorem Serving.state_moved (h : Serving F peer_id c st pc)
    (hmove : Move sha1 c peer_id st pc inp c' st' pc')
    (hmsg : ∀ msg, inp = .recv (some msg) → FromLeecher c.toMetadata msg) :
    st'.pending_requests = [] ∧
      ∀ req ∈ st'.incoming_requests, c.IsBlock req.piece_index req.block_offset := by
  have hpoint := h.point
  have hnone := h.no_pending
  have hasked := h.asked
  cases hmove
  case piece_sent kept req rest block call =>
    obtain ⟨rfl, hreqs, -⟩ := hpoint
    refine ⟨hnone, fun r hr => hasked r ?_⟩
    rw [hreqs]
    exact List.mem_cons_of_mem _ hr
  case got_request p _ _ hst' =>
    subst hst'
    refine ⟨hnone, fun r hr => ?_⟩
    rcases List.mem_append.mp hr with hold | hnew
    · exact hasked r hold
    · rw [List.mem_singleton.mp hnew]
      exact (hmsg _ rfl).2
  case got_piece => exact (hmsg _ rfl).elim
  case got_cancel => exact (hmsg _ rfl).elim
  case choke_cleared => exact hpoint.elim
  case request_sent => exact hpoint.elim
  all_goals exact ⟨hnone, hasked⟩

/-- Its file and its statuses stay, and it announces nothing. -/
theorem Serving.controller_moved (h : Serving F peer_id c st pc)
    (hmove : Move sha1 c peer_id st pc inp c' st' pc') :
    c'.Seeding F ∧ (c'.send_haves peer_id).getD [] = [] := by
  have hpoint := h.point
  have hseed := h.seeding
  have hnone := h.no_haves
  cases hmove
  case drained => exact ⟨⟨hseed.file, hseed.done⟩, by simp [drain_haves]⟩
  case unregistered => exact ⟨⟨hseed.file, hseed.done⟩, by simp [unregister_peer]⟩
  case block_received => exact hpoint.elim
  case request_some => exact hpoint.elim
  case have_some => exact hpoint.elim
  case bitfield_some => exact hpoint.elim
  case bitfield_stored => exact hpoint.elim
  all_goals exact ⟨⟨hseed.file, hseed.done⟩, hnone⟩

/-- **Step lemma** for the seeder. -/
theorem Serving.moved (hs : c.mode = .SEEDER) (hg : c.Consistent) (ho : c.Original sha1 F)
    (h : Serving F peer_id c st pc) (hmove : Move sha1 c peer_id st pc inp c' st' pc')
    (hsent : inp ≠ .sent false)
    (hmsg : ∀ msg, inp = .recv (some msg) → FromLeecher c.toMetadata msg) :
    Serving F peer_id c' st' pc' := by
  have hmeta := hmove.toMetadata
  obtain ⟨hpending, hasked⟩ := h.state_moved hmove hmsg
  obtain ⟨hseed, hhaves⟩ := h.controller_moved hmove
  have hok : ∀ msg, inp = .recv (some msg) → MessageOk c.toMetadata st msg :=
    fun msg heq => (hmsg msg heq).messageOk hg
  have hst := hmove.state_guarded hok h.guarded.1 h.guarded.2
  refine ⟨?_, hpending, ?_, hseed, hhaves, ?_⟩
  · rw [hmeta]
    exact h.point_moved hs hg ho hmove hsent hmsg
  · rw [hmeta]
    exact hasked
  · rw [hmeta]
    exact ⟨hst, hmove.pc_guarded hg hok h.guarded.1 hst h.guarded.2⟩

/-! ### What the Other Side Sees -/

/-- What the seeder sends: the Bitfield first, and pieces only when it has
    been asked. -/
theorem Serving.output (hg : c.Consistent) (h : Serving F peer_id c st pc)
    (hmove : Move sha1 c peer_id st pc (.sent true) c' st' pc') :
    ∃ msg, pc.output = some msg ∧ FromSeeder c.toMetadata F msg ∧
      (msg.id = .Bitfield ↔ pc.Opening) ∧ (msg.id = .Piece → st.incoming_requests ≠ []) ∧
      (pc = .send_unchoke → msg.id = .Unchoke) := by
  have hpoint := h.point
  cases hmove
  case bitfield_sent =>
    exact ⟨_, rfl, hpoint.2, ⟨fun _ => trivial, fun _ => rfl⟩, fun hid => (nomatch hid),
      PC.noConfusion⟩
  case unchoke_sent =>
    exact ⟨_, rfl, trivial, ⟨fun hid => (nomatch hid), False.elim⟩, fun hid => (nomatch hid),
      fun _ => rfl⟩
  case piece_sent kept req rest block call =>
    obtain ⟨-, hreqs, i, hi, b, hb, hx, hoff, rfl⟩ := hpoint
    refine ⟨_, rfl, ?_, ⟨fun hid => (nomatch hid), False.elim⟩, fun _ => ?_, PC.noConfusion⟩
    · rw [hx, hoff]
      exact fromSeeder_piece hg hi hb
    · rw [hreqs]
      exact List.cons_ne_nil _ _
  all_goals exact hpoint.elim

/-- The opening ends with the Bitfield. -/
theorem Serving.opening_moved (h : Serving F peer_id c st pc)
    (hmove : Move sha1 c peer_id st pc inp c' st' pc') (hopen : pc'.Opening) :
    pc.Opening ∧ inp = .call := by
  rcases hmove.target with hin | rfl | ⟨rfl, rfl, -⟩ | ⟨hleft, -⟩
  · exact absurd hopen hin.not_opening
  · exact h.point.elim
  · exact ⟨trivial, rfl⟩
  · exact absurd hopen hleft.not_opening

/-- Only a send ends it. -/
theorem Move.still_opening (h : Move sha1 c peer_id st pc inp c' st' pc') (hopen : pc.Opening)
    (hsent : ∀ ok, inp ≠ .sent ok) : pc'.Opening := by
  cases h
  case opened => trivial
  case bitfield_sent => exact absurd rfl (hsent _)
  all_goals exact hopen.elim

/-- The seeder leaves at the end of the stream only. -/
theorem Serving.left_moved (hs : c.mode = .SEEDER) (h : Serving F peer_id c st pc)
    (hmove : Move sha1 c peer_id st pc inp c' st' pc') (hleft : pc'.Left) :
    pc.Left ∨ inp = .recv none := by
  rcases hmove.target with hin | rfl | ⟨-, -, hop⟩ | ⟨-, hwas | hnone | ⟨hl, -⟩⟩
  · exact absurd hleft hin.not_left
  · exact h.point.elim
  · exact absurd hop hleft.not_opening
  · exact .inl hwas
  · exact .inr hnone
  · rw [hs] at hl
    cases hl

/-- Without a Request nothing is asked. -/
theorem Move.nothing_asked (h : Move sha1 c peer_id st pc inp c' st' pc')
    (hserves : pc.Serves st) (hnone : st.incoming_requests = [])
    (hmsg : ∀ msg, inp = .recv (some msg) → msg.id ≠ .Request) : st'.incoming_requests = [] := by
  cases h
  case piece_sent kept req rest block call =>
    have hreqs : st.incoming_requests = kept ++ req :: rest := hserves
    rw [hnone] at hreqs
    simp at hreqs
  case got_request => exact absurd rfl (hmsg _ rfl)
  case got_cancel =>
    show st.incoming_requests.filter _ = []
    rw [hnone]
    rfl
  case request_sent hst' => exact hst' ▸ hnone
  all_goals exact hnone

/-- The seeder stops choking when it is about to send Unchoke. -/
theorem Serving.unchoking (h : Serving F peer_id c st pc)
    (hmove : Move sha1 c peer_id st pc inp c' st' pc')
    (hmsg : ∀ msg, inp = .recv (some msg) → FromLeecher c.toMetadata msg)
    (hopen : st'.am_choking = false) :
    pc' = .send_unchoke ∨
      (st.am_choking = false ∧ (pc = .send_unchoke → ∃ ok, inp = .sent ok)) := by
  cases hmove
  case got_interested => exact .inl rfl
  case unchoke_sent ok => exact .inr ⟨hopen, fun _ => ⟨ok, rfl⟩⟩
  case got_not_interested => cases hopen
  case request_sent => exact h.point.elim
  case got_request hst' => exact .inr ⟨by rw [hst'] at hopen; exact hopen, PC.noConfusion⟩
  all_goals exact .inr ⟨hopen, PC.noConfusion⟩

/-- The seeder at the start. -/
theorem serving_start {m : Metadata} (hs : m.mode = .SEEDER) (F : Bytes) :
    Serving F 0 (make m (some F)).register_peer.1 {} .opening where
  point := rfl
  no_pending := rfl
  asked := by
    intro r hr
    cases hr
  seeding := ⟨(seeding_make hs F).file, (seeding_make hs F).done⟩
  no_haves := by simp [register_peer, make]
  guarded := by
    refine ⟨⟨?_, ?_⟩, trivial⟩
    · intro r hr
      cases hr
    · intro r hr
      cases hr

end moves

end BitTorrentLite
