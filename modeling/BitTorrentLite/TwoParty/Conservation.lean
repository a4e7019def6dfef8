import BitTorrentLite.TwoParty.System

/-! # Requests Are Conserved

    A request that is pending at one side is somewhere on its way there and
    back: in the channel, in the other side's `incoming_requests`, or answered
    by a Piece in the channel back. What carries the argument is that the
    other side never drops it for choking: it reads every Request after an
    Interested, with no NotInterested between them, because a side requests
    only while it is interested.
-/

open Machine LTS

namespace BitTorrentLite

/-! ## Messages -/

/-- `am_choking` after a message is read. -/
def hears (choking : Bool) (msg : PeerMessage) : Bool :=
  match msg.id with
  | .Interested => false
  | .NotInterested => true
  | _ => choking

/-- `am_choking` once all of `msgs` are read. -/
def hears_all (choking : Bool) (msgs : List PeerMessage) : Bool := msgs.foldl hears choking

/-- Of the messages to be read, no Request is read while choking. -/
def Welcome : Bool → List PeerMessage → Prop
  | _, [] => True
  | choking, msg :: rest => (msg.id = .Request → choking = false) ∧ Welcome (hears choking msg) rest

theorem welcome_concat {msg : PeerMessage} {msgs : List PeerMessage} : ∀ {choking : Bool},
    Welcome choking msgs → (msg.id = .Request → hears_all choking msgs = false) →
      Welcome choking (msgs ++ [msg]) := by
  induction msgs with
  | nil =>
    intro choking _ hmsg
    exact ⟨hmsg, trivial⟩
  | cons first rest ih =>
    intro choking hw hmsg
    exact ⟨hw.1, ih hw.2 hmsg⟩

theorem hears_all_concat (choking : Bool) (msgs : List PeerMessage) (msg : PeerMessage) :
    hears_all choking (msgs ++ [msg]) = hears (hears_all choking msgs) msg := by
  unfold hears_all
  rw [List.foldl_append, List.foldl_cons, List.foldl_nil]

/-- A Request for the block `k`. -/
def Requests (msg : PeerMessage) (k : ℤ × ℤ) : Prop :=
  msg.id = .Request ∧ 12 ≤ msg.payload.length ∧ (ntohl msg.payload 0, ntohl msg.payload 4) = k

/-- A Piece with the block `k`. -/
def Delivers (msg : PeerMessage) (k : ℤ × ℤ) : Prop :=
  msg.id = .Piece ∧ 8 ≤ msg.payload.length ∧ (ntohl msg.payload 0, ntohl msg.payload 4) = k

theorem requests_build {x y : ℤ} (hx : FitsInt x) (hy : FitsInt y) (z : ℤ) :
    Requests (build_request x y z) (x, y) := by
  refine ⟨rfl, by simp [build_request], ?_⟩
  unfold build_request
  rw [ntohl_second hy x (htonl z), List.append_assoc, ntohl_first hx]

theorem delivers_build {x y : ℤ} (hx : FitsInt x) (hy : FitsInt y) (data : Bytes) :
    Delivers (build_piece_msg x y data) (x, y) := by
  refine ⟨rfl, by simp only [build_piece_msg, List.length_append, htonl_length]; omega, ?_⟩
  unfold build_piece_msg
  rw [ntohl_second hy x data, List.append_assoc, ntohl_first hx]

/-- The piece and the offset an incoming request is for. -/
def IncomingRequest.key (req : IncomingRequest) : ℤ × ℤ := (req.piece_index, req.block_offset)

/-- The blocks the other side waits for here. -/
def PeerState.incoming_keys (st : PeerState) : List (ℤ × ℤ) :=
  st.incoming_requests.map IncomingRequest.key

/-! ## What a Thread Knows -/

/-- A thread requests while it is interested, and what it requests is named by
    two `int`s. -/
def PC.Asks (st : PeerState) : PC → Prop
  | .request => st.am_interested = true
  | .send_request req =>
    st.am_interested = true ∧ FitsInt req.piece_index ∧ FitsInt req.block_offset
  | _ => True

/-- The loop of `serve_incoming_requests` goes through `incoming_requests`. -/
def PC.Serves (st : PeerState) : PC → Prop
  | .serve kept req rest _ => st.incoming_requests = kept ++ req :: rest
  | .send_piece kept req rest _ _ => st.incoming_requests = kept ++ req :: rest
  | _ => True

/-- Incoming requests are named by `int`s. -/
def PeerState.IncomingFits (st : PeerState) : Prop :=
  ∀ req ∈ st.incoming_requests, FitsInt req.piece_index ∧ FitsInt req.block_offset

section moves

variable {sha1 : Bytes → Bytes} {c c' : Controller} {peer_id : ℕ} {st st' : PeerState}
  {pc pc' : PC} {inp : Input}

theorem asks_request_loop (h : st.am_interested = true) : (request_loop st).Asks st :=
  request_loop_cases trivial h

theorem asks_request_next_blocks (m : Metadata) : (request_next_blocks m st).Asks st := by
  unfold request_next_blocks
  split
  · trivial
  · rename_i hno
    -- the loop over requests is entered by an interested side only
    simp only [not_or, Bool.not_eq_false] at hno
    exact asks_request_loop hno.2.2

theorem Move.asks (h : Move sha1 c peer_id st pc inp c' st' pc')
    (hfits : c.total_pieces < 2 ^ 31) (ha : pc.Asks st) : pc'.Asks st' := by
  cases h
  case got_unchoke => exact asks_request_next_blocks _
  case block_received => exact asks_request_next_blocks _
  case request_some i off _ hav _ =>
    obtain ⟨b, -, rfl⟩ := hav.block
    have hi := hav.piece
    have hi' : FitsInt (i : ℤ) := ⟨by omega, by omega⟩
    exact ⟨ha, hi', int32_fits _⟩
  case request_sent req hst' =>
    subst hst'
    exact asks_request_loop ha.1
  -- the other jumps lead to points that ask for nothing
  case shaken => split <;> first | trivial | exact leave_cases trivial fun _ _ => trivial
  case finished => exact leave_cases trivial fun _ _ => trivial
  case disconnected => exact leave_cases trivial fun _ _ => trivial
  case drained => exact flush_cases trivial trivial (fun _ _ => trivial) fun _ _ => trivial
  case have_sent => exact flush_cases trivial trivial (fun _ _ => trivial) fun _ _ => trivial
  case have_unsent => exact serve_cases trivial trivial fun _ _ => trivial
  case unchoke_sent => exact serve_cases trivial trivial fun _ _ => trivial
  case got_request => exact serve_cases trivial trivial fun _ _ => trivial
  case passed_over => exact serve_next_cases trivial trivial fun _ _ => trivial
  case piece_sent => exact serve_next_cases trivial trivial fun _ _ => trivial
  case piece_unsent => exact call_cases _ trivial trivial
  case got_have => exact have_next_cases trivial trivial
  case got_have_beyond => exact have_next_cases trivial trivial
  case got_choke => exact choke_next_cases trivial fun _ _ => trivial
  case bitfield_sent => split <;> trivial
  case got_bitfield => split <;> trivial
  case bitfield_stored => split <;> trivial
  all_goals trivial

theorem serves_serve_next {kept rest : List IncomingRequest} (call : ServeCall)
    (h : st.incoming_requests = kept ++ rest) : (serve_next kept call rest).Serves st := by
  cases rest with
  | nil =>
    show call.pc.Serves st
    exact call_cases call trivial trivial
  | cons req rest => exact h

theorem serves_incoming (call : ServeCall) : (serve_incoming_requests st call).Serves st := by
  unfold serve_incoming_requests
  split
  · exact call_cases call trivial trivial
  · exact serves_serve_next call (List.nil_append _).symm

theorem serves_flush (haves : List ℤ) : (flush_next st haves).Serves st := by
  cases haves with
  | nil => exact serves_incoming .before_read
  | cons piece rest => trivial

theorem Move.serves (h : Move sha1 c peer_id st pc inp c' st' pc') (hs : pc.Serves st) :
    pc'.Serves st' := by
  cases h
  case drained => exact serves_flush _
  case have_sent => exact serves_flush _
  case have_unsent => exact serves_incoming _
  case unchoke_sent => exact serves_incoming _
  case got_request => exact serves_incoming _
  case passed_over kept req rest call _ =>
    refine serves_serve_next call ?_
    rw [List.append_assoc]
    exact hs
  case fetched => exact hs
  case piece_sent => exact serves_serve_next _ rfl
  -- the other jumps lead past the serving
  case shaken => split <;> first | trivial | exact leave_cases trivial fun _ _ => trivial
  case finished => exact leave_cases trivial fun _ _ => trivial
  case disconnected => exact leave_cases trivial fun _ _ => trivial
  case piece_unsent => exact call_cases _ trivial trivial
  case got_unchoke => exact request_next_blocks_cases trivial trivial
  case block_received => exact request_next_blocks_cases trivial trivial
  case request_sent => exact request_loop_cases trivial trivial
  case got_have => exact have_next_cases trivial trivial
  case got_have_beyond => exact have_next_cases trivial trivial
  case got_choke => exact choke_next_cases trivial fun _ _ => trivial
  case bitfield_sent => split <;> trivial
  case got_bitfield => split <;> trivial
  case bitfield_stored => split <;> trivial
  all_goals trivial

theorem Move.incoming_fits (h : Move sha1 c peer_id st pc inp c' st' pc') (hs : pc.Serves st)
    (hf : st.IncomingFits) : st'.IncomingFits := by
  cases h
  case got_request p _ _ hst' =>
    subst hst'
    intro req hreq
    rcases List.mem_append.mp hreq with hold | hnew
    · exact hf req hold
    · rw [List.mem_singleton.mp hnew]
      exact ⟨int32_fits _, int32_fits _⟩
  case got_cancel => exact fun req hreq => hf req (List.mem_filter.mp hreq).1
  case piece_sent kept req rest block call =>
    intro r hr
    refine hf r ?_
    rw [show st.incoming_requests = kept ++ req :: rest from hs]
    rcases List.mem_append.mp hr with hkept | hrest
    · exact List.mem_append_left _ hkept
    · exact List.mem_append_right _ (List.mem_cons_of_mem _ hrest)
  case request_sent hst' => exact hst' ▸ hf
  all_goals exact hf

/-! ## What a Step Changes -/

/-- A step that reads nothing and sends nothing. -/
theorem Move.call_keeps (h : Move sha1 c peer_id st pc inp c' st' pc')
    (hinp : inp = .call ∨ inp = .recv none) :
    st'.am_choking = st.am_choking ∧ st'.am_interested = st.am_interested ∧
      st'.incoming_requests = st.incoming_requests ∧
      ∀ k ∈ st'.pending_keys, k ∈ st.pending_keys := by
  cases h
  case choke_cleared => exact ⟨rfl, rfl, rfl, fun k hk => (List.not_mem_nil hk).elim⟩
  all_goals first
    | exact ⟨rfl, rfl, rfl, fun _ hk => hk⟩
    | simp at hinp

/-- A send, as to what we ask for: only Interested and NotInterested change our
    interest, and only a Request adds to what is pending. -/
theorem Move.send_asks (h : Move sha1 c peer_id st pc (.sent true) c' st' pc') (ha : pc.Asks st) :
    ∃ msg, pc.output = some msg ∧ msg.id ≠ .Cancel ∧
      (msg.id = .Request → st.am_interested = true) ∧
      (st'.am_interested = true →
        msg.id = .Interested ∨ (st.am_interested = true ∧ msg.id ≠ .NotInterested)) ∧
      (∀ k ∈ st'.pending_keys, k ∈ st.pending_keys ∨ Requests msg k) := by
  cases h
  case interested_sent =>
    exact ⟨_, rfl, by simp, by simp, fun _ => .inl rfl, fun _ hk => .inl hk⟩
  case not_interested_sent =>
    refine ⟨_, rfl, by simp, by simp, fun hint => ?_, fun _ hk => .inl hk⟩
    cases hint
  case request_sent req hst' =>
    subst hst'
    refine ⟨_, rfl, by simp [build_request], fun _ => ha.1,
      fun hint => .inr ⟨hint, by simp [build_request]⟩, fun k hk => ?_⟩
    obtain ⟨r, hr, rfl⟩ := List.mem_map.mp hk
    rcases List.mem_append.mp hr with hold | hnew
    · exact .inl (List.mem_map_of_mem hold)
    · rw [List.mem_singleton.mp hnew]
      exact .inr (requests_build ha.2.1 ha.2.2 _)
  all_goals exact ⟨_, rfl, by simp [build_have, build_piece_msg],
    by simp [build_have, build_piece_msg],
    fun hint => .inr ⟨hint, by simp [build_have, build_piece_msg]⟩, fun _ hk => .inl hk⟩

/-- A send, as to what is asked of us: only a Piece takes from it, and it
    carries the block. -/
theorem Move.send_serves (h : Move sha1 c peer_id st pc (.sent true) c' st' pc')
    (hs : pc.Serves st) (hf : st.IncomingFits) :
    ∃ msg, pc.output = some msg ∧ st'.am_choking = st.am_choking ∧
      (∀ k ∈ st.incoming_keys, k ∈ st'.incoming_keys ∨ Delivers msg k) := by
  cases h
  case piece_sent kept req rest block call =>
    have hreqs : st.incoming_requests = kept ++ req :: rest := hs
    refine ⟨_, rfl, rfl, fun k hk => ?_⟩
    obtain ⟨r, hr, rfl⟩ := List.mem_map.mp hk
    have hfit := hf r hr
    rw [hreqs] at hr
    -- the request that is answered, or one that stays
    rcases List.mem_append.mp hr with hkept | hrest
    · exact .inl (List.mem_map_of_mem (List.mem_append_left _ hkept))
    · rcases List.mem_cons.mp hrest with rfl | hrest
      · exact .inr (delivers_build hfit.1 hfit.2 block)
      · exact .inl (List.mem_map_of_mem (List.mem_append_right _ hrest))
  case request_sent hst' => exact ⟨_, rfl, hst' ▸ rfl, fun _ hk => .inl (hst' ▸ hk)⟩
  all_goals exact ⟨_, rfl, rfl, fun _ hk => .inl hk⟩

/-- A message that is dropped is neither of the two that change whether we
    choke, nor a Request we would serve, nor a block for a leecher. -/
theorem Ignored.facts {m : Metadata} {msg : PeerMessage} (h : Ignored m st msg) :
    hears st.am_choking msg = st.am_choking ∧
      (∀ k, Requests msg k → st.am_choking = true) ∧
      (m.mode = .LEECHER → ∀ k, ¬ Delivers msg k) := by
  rcases msg with ⟨mid, p⟩
  cases mid with
  | Request =>
    refine ⟨rfl, fun k hk => ?_, fun _ k hk => (nomatch hk.1)⟩
    exact h.resolve_left (Nat.not_lt.mpr hk.2.1)
  | Piece =>
    refine ⟨rfl, fun k hk => (nomatch hk.1), fun hl k hk => ?_⟩
    rcases h with hs | hlen
    · rw [hl] at hs
      cases hs
    · exact absurd hk.2.1 (Nat.not_le.mpr hlen)
  | Have | Cancel | other =>
    exact ⟨rfl, fun k hk => (nomatch hk.1), fun _ k hk => (nomatch hk.1)⟩
  | KeepAlive | Choke | Unchoke | Interested | NotInterested | Bitfield => exact h.elim

/-- A read: only Interested and NotInterested change whether we choke, a
    Request that is not choked is taken, only a Cancel takes one back, and a
    Piece ends the wait for its block. -/
theorem Move.recv_keeps {msg : PeerMessage}
    (h : Move sha1 c peer_id st pc (.recv (some msg)) c' st' pc') :
    st'.am_choking = hears st.am_choking msg ∧ st'.am_interested = st.am_interested ∧
      (msg.id ≠ .Cancel → ∀ k ∈ st.incoming_keys, k ∈ st'.incoming_keys) ∧
      (st.am_choking = false → ∀ k, Requests msg k → k ∈ st'.incoming_keys) ∧
      (∀ k ∈ st'.pending_keys, k ∈ st.pending_keys ∧ (c.mode = .LEECHER → ¬ Delivers msg k)) := by
  cases h
  case ignored hign =>
    obtain ⟨hhears, hreq, hdel⟩ := hign.facts
    refine ⟨hhears.symm, rfl, fun _ _ hk => hk, fun hchoking k hk => ?_,
      fun k hk => ⟨hk, fun hl => hdel hl k⟩⟩
    rw [hreq k hk] at hchoking
    cases hchoking
  case got_request p _ _ hst' =>
    subst hst'
    refine ⟨rfl, rfl, fun _ k hk => ?_, fun _ k hk => ?_,
      fun k hk => ⟨hk, fun _ hdel => (nomatch hdel.1)⟩⟩
    · obtain ⟨r, hr, rfl⟩ := List.mem_map.mp hk
      exact List.mem_map_of_mem (List.mem_append_left _ hr)
    · obtain ⟨-, -, rfl⟩ := hk
      exact List.mem_map.mpr ⟨_, List.mem_append_right _ (List.mem_singleton_self _), rfl⟩
  case got_piece p _ hlen =>
    refine ⟨rfl, rfl, fun _ _ hk => hk, fun _ k hk => (nomatch hk.1), fun k hk => ?_⟩
    obtain ⟨r, hr, rfl⟩ := List.mem_map.mp hk
    obtain ⟨hr, hans⟩ := List.mem_filter.mp hr
    refine ⟨List.mem_map_of_mem hr, fun _ hdel => ?_⟩
    -- the requests the Piece answers are gone
    obtain ⟨h₁, h₂⟩ := Prod.mk.inj hdel.2.2
    simp [BlockRequest.answered, h₁, h₂] at hans
  case got_cancel =>
    exact ⟨rfl, rfl, fun hne => absurd rfl hne, fun _ k hk => (nomatch hk.1),
      fun k hk => ⟨hk, fun _ hdel => (nomatch hdel.1)⟩⟩
  all_goals exact ⟨rfl, rfl, fun _ _ hk => hk, fun _ k hk => (nomatch hk.1),
    fun k hk => ⟨hk, fun _ hdel => (nomatch hdel.1)⟩⟩

end moves

/-! ## The Invariant -/

namespace Duo

/-- A block that A waits for is asked for on the way to B, at B, or on its way
    back. -/
def Covered (d : Duo) (k : ℤ × ℤ) : Prop :=
  (∃ msg ∈ d.ab, Requests msg k) ∨ k ∈ d.B.thread.state.incoming_keys ∨
    ∃ msg ∈ d.ba, Delivers msg k

/-- What holds between any two steps, for the requests of A. -/
structure Conserved (d : Duo) : Prop where
  asks : d.A.thread.pc.Asks d.A.thread.state
  serves : d.B.thread.pc.Serves d.B.thread.state
  fits : d.B.thread.state.IncomingFits
  no_cancel : ∀ msg ∈ d.ab, msg.id ≠ .Cancel
  interest : d.A.thread.state.am_interested = true →
    hears_all d.B.thread.state.am_choking d.ab = false
  welcome : Welcome d.B.thread.state.am_choking d.ab
  covered : ∀ k ∈ d.A.thread.state.pending_keys, d.Covered k

variable {sha1 : Bytes → Bytes} {d d' : Duo}

/-- What is covered stays so when no message is lost and nothing asked of B is
    dropped. -/
theorem Covered.mono {k : ℤ × ℤ} (h : d.Covered k) (hab : ∀ msg ∈ d.ab, msg ∈ d'.ab)
    (hba : ∀ msg ∈ d.ba, msg ∈ d'.ba)
    (hin : k ∈ d.B.thread.state.incoming_keys → d'.Covered k) : d'.Covered k := by
  rcases h with ⟨msg, hmsg, hreq⟩ | hk | ⟨msg, hmsg, hdel⟩
  · exact .inl ⟨msg, hab msg hmsg, hreq⟩
  · exact hin hk
  · exact .inr (.inr ⟨msg, hba msg hmsg, hdel⟩)

theorem hears_false {msg : PeerMessage} (h : msg.id ≠ .NotInterested) :
    hears false msg = false := by
  unfold hears
  split
  · rfl
  · exact absurd ‹_› h
  · rfl

/-- A step of A. -/
theorem Conserved.turned_A {A B : Party} {ab ba ab' ba' : List PeerMessage}
    (hl : A.ctl.mode = .LEECHER) (hfits : A.ctl.total_pieces < 2 ^ 31)
    (hd : Conserved ⟨A, B, ab, ba⟩) {other_closed : Bool} {ev : Event} {p : Party}
    (h : A.Turned sha1 other_closed ba ab ev p ba' ab') : Conserved ⟨p, B, ab', ba'⟩ := by
  cases h with
  | called _ _ c' t' hmove =>
    obtain ⟨-, hint, -, hpend⟩ := hmove.call_keeps (.inl rfl)
    exact ⟨hmove.asks hfits hd.asks, hd.serves, hd.fits, hd.no_cancel,
      fun h => hd.interest (hint ▸ h), hd.welcome, fun k hk => hd.covered k (hpend k hk)⟩
  | hung_up _ c' t' _ hmove =>
    obtain ⟨-, hint, -, hpend⟩ := hmove.call_keeps (.inr rfl)
    exact ⟨hmove.asks hfits hd.asks, hd.serves, hd.fits, hd.no_cancel,
      fun h => hd.interest (hint ▸ h), hd.welcome, fun k hk => hd.covered k (hpend k hk)⟩
  | others _ _ op c' _ =>
    exact ⟨hd.asks, hd.serves, hd.fits, hd.no_cancel, hd.interest, hd.welcome, hd.covered⟩
  | sent _ _ c' t' hmove =>
    obtain ⟨msg, hout, hcancel, hreq, hint, hpend⟩ := hmove.send_asks hd.asks
    rw [hout, Option.toList_some]
    refine ⟨hmove.asks hfits hd.asks, hd.serves, hd.fits, ?_, ?_, ?_, ?_⟩
    · intro m hm
      rcases List.mem_append.mp hm with hold | hnew
      · exact hd.no_cancel m hold
      · rw [List.mem_singleton.mp hnew]
        exact hcancel
    -- interest is announced before the first Request
    · intro h
      show hears_all B.thread.state.am_choking (ab ++ [msg]) = false
      rw [hears_all_concat]
      rcases hint h with hmsg | ⟨hwas, hmsg⟩
      · unfold hears
        rw [hmsg]
      · rw [hd.interest hwas]
        exact hears_false hmsg
    -- a Request goes out behind an Interested that B reads first
    · exact welcome_concat hd.welcome fun h => hd.interest (hreq h)
    · intro k hk
      rcases hpend k hk with hold | hnew
      · exact (hd.covered k hold).mono (fun m hm => List.mem_append_left _ hm)
          (fun _ hm => hm) (fun hk => .inr (.inl hk))
      · exact .inl ⟨msg, List.mem_append_right _ (List.mem_singleton_self _), hnew⟩
  | received msg _ _ c' t' hmove =>
    obtain ⟨-, hint, -, -, hpend⟩ := hmove.recv_keeps
    refine ⟨hmove.asks hfits hd.asks, hd.serves, hd.fits, hd.no_cancel,
      fun h => hd.interest (hint ▸ h), hd.welcome, fun k hk => ?_⟩
    obtain ⟨hold, hnot⟩ := hpend k hk
    rcases hd.covered k hold with hreq | hin | ⟨m, hm, hdel⟩
    · exact .inl hreq
    · exact .inr (.inl hin)
    · -- the message read is not the answer to a request that stays
      rcases List.mem_cons.mp hm with rfl | hm
      · exact absurd hdel (hnot hl)
      · exact .inr (.inr ⟨m, hm, hdel⟩)

/-- A step of B. -/
theorem Conserved.turned_B {A B : Party} {ab ba ab' ba' : List PeerMessage}
    (hd : Conserved ⟨A, B, ab, ba⟩) {other_closed : Bool} {ev : Event} {p : Party}
    (h : B.Turned sha1 other_closed ab ba ev p ab' ba') : Conserved ⟨A, p, ab', ba'⟩ := by
  -- a step that leaves alone what is asked of B, and whether it chokes
  have quiet {c' : Controller} {t' : Thread} {inp : Input}
      (hmove : Move sha1 B.ctl B.id B.thread.state B.thread.pc inp c' t'.state t'.pc)
      (hinp : inp = .call ∨ inp = .recv none) : Conserved ⟨A, ⟨c', B.id, t'⟩, ab, ba⟩ := by
    obtain ⟨hchoking, -, hin, -⟩ := hmove.call_keeps hinp
    refine ⟨hd.asks, hmove.serves hd.serves, hmove.incoming_fits hd.serves hd.fits, hd.no_cancel,
      ?_, ?_, fun k hk => (hd.covered k hk).mono (fun _ hm => hm) (fun _ hm => hm) fun hk => ?_⟩
    · show _ → hears_all t'.state.am_choking ab = false
      rw [hchoking]
      exact hd.interest
    · show Welcome t'.state.am_choking ab
      rw [hchoking]
      exact hd.welcome
    · refine .inr (.inl ?_)
      show k ∈ t'.state.incoming_requests.map IncomingRequest.key
      rw [hin]
      exact hk
  cases h with
  | called _ _ c' t' hmove => exact quiet hmove (.inl rfl)
  | hung_up _ c' t' _ hmove => exact quiet hmove (.inr rfl)
  | others _ _ op c' _ =>
    exact ⟨hd.asks, hd.serves, hd.fits, hd.no_cancel, hd.interest, hd.welcome, hd.covered⟩
  | sent _ _ c' t' hmove =>
    obtain ⟨msg, hout, hchoking, hin⟩ := hmove.send_serves hd.serves hd.fits
    rw [hout, Option.toList_some]
    refine ⟨hd.asks, hmove.serves hd.serves, hmove.incoming_fits hd.serves hd.fits, hd.no_cancel,
      ?_, ?_, fun k hk => (hd.covered k hk).mono (fun _ hm => hm)
        (fun _ hm => List.mem_append_left _ hm) fun hk => ?_⟩
    · show _ → hears_all t'.state.am_choking ab = false
      rw [hchoking]
      exact hd.interest
    · show Welcome t'.state.am_choking ab
      rw [hchoking]
      exact hd.welcome
    -- what B has answered is on its way back
    · rcases hin k hk with hstays | hdel
      · exact .inr (.inl hstays)
      · exact .inr (.inr ⟨msg, List.mem_append_right _ (List.mem_singleton_self _), hdel⟩)
  | received msg _ _ c' t' hmove =>
    obtain ⟨hchoking, -, hkeep, htake, -⟩ := hmove.recv_keeps
    refine ⟨hd.asks, hmove.serves hd.serves, hmove.incoming_fits hd.serves hd.fits,
      fun m hm => hd.no_cancel m (List.mem_cons_of_mem _ hm), ?_, ?_, fun k hk => ?_⟩
    · show _ → hears_all t'.state.am_choking ab' = false
      rw [hchoking]
      exact hd.interest
    · show Welcome t'.state.am_choking ab'
      rw [hchoking]
      exact hd.welcome.2
    · rcases hd.covered k hk with ⟨m, hm, hreq⟩ | hin | hdel
      · -- the Request that is read is taken: B does not choke when it reads it
        rcases List.mem_cons.mp hm with rfl | hm
        · exact .inr (.inl (htake (hd.welcome.1 hreq.1) k hreq))
        · exact .inl ⟨m, hm, hreq⟩
      · exact .inr (.inl (hkeep (hd.no_cancel msg (List.mem_cons_self ..)) k hin))
      · exact .inr (.inr hdel)

theorem reachable_conserved {cA cB : Controller} {idA idB : ℕ} (hl : cA.mode = .LEECHER)
    (hfits : cA.total_pieces < 2 ^ 31) (h : (system sha1 (start cA cB idA idB)).Reachable d) :
    d.Conserved := by
  refine System.invariant (I := Conserved) ?_ ?_ d h
  · rintro d rfl
    refine ⟨trivial, trivial, ?_, ?_, ?_, trivial, ?_⟩
    · intro req hreq
      cases hreq
    · intro msg hmsg
      cases hmsg
    · intro hint
      cases hint
    · intro k hk
      cases hk
  · intro d l d' hr hd hst
    have hmeta := (reachable_toMetadata hr).1
    cases next_stepped hst with
    | A ev p ab ba hturn => exact hd.turned_A (hmeta ▸ hl) (hmeta ▸ hfits) hturn
    | B ev p ab ba hturn => exact hd.turned_B hturn

/-- **Request conservation**: for any activity of either side and of the other
    threads of either client, every block pending at the leecher A is in a
    Request on its way to B, in B's incoming requests, or in a Piece on its way
    back; and B does not choke when it comes to read a Request. -/
theorem request_conserved (sha1 : Bytes → Bytes) {cA cB : Controller} {idA idB : ℕ}
    (hl : cA.mode = .LEECHER) (hfits : cA.total_pieces < 2 ^ 31) {d : Duo}
    (h : (system sha1 (start cA cB idA idB)).Reachable d) :
    (∀ req ∈ d.A.thread.state.pending_requests, (∃ msg ∈ d.ab, Requests msg req.key) ∨
      (∃ q ∈ d.B.thread.state.incoming_requests, q.key = req.key) ∨
      ∃ msg ∈ d.ba, Delivers msg req.key) ∧
    (∀ msg rest, d.ab = msg :: rest → msg.id = .Request →
      d.B.thread.state.am_choking = false) := by
  have hd := reachable_conserved hl hfits h
  refine ⟨fun req hreq => ?_, fun msg rest hab hmsg => ?_⟩
  · rcases hd.covered req.key (List.mem_map_of_mem hreq) with hmsg | hk | hmsg
    · exact .inl hmsg
    · exact .inr (.inl (List.mem_map.mp hk))
    · exact .inr (.inr hmsg)
  · have hw := hd.welcome
    rw [hab] at hw
    exact hw.1 hmsg

/-- A leecher and a seeder of a one-byte file, up to the leecher's first
    request. -/
def first_request : List Turn :=
  -- both open: bitfields, and Interested from the leecher
  [.A .call, .A .send, .A .send, .A .call, .A .call, .B .call, .B .send, .B .call, .B .call,
    -- the leecher reads the bitfield
    .A .recv, .A .call, .A .call, .A .call, .A .call, .A .call,
    -- the seeder reads the bitfield and Interested, and unchokes
    .B .recv, .B .call, .B .call, .B .recv, .B .send, .B .call, .B .call,
    -- the leecher reads Unchoke and requests
    .A .recv, .A .call, .A .send]

theorem tiny_request_conserved : ∃ d : Duo, ∃ req ∈ d.A.thread.state.pending_requests,
    (∃ msg ∈ d.ab, Requests msg req.key) ∨
      (∃ q ∈ d.B.thread.state.incoming_requests, q.key = req.key) ∨
      ∃ msg ∈ d.ba, Delivers msg req.key := by
  obtain ⟨d, hr, hd⟩ := System.Reachable.exists_of_run next_step
    (.init rfl : (system id (start (.make (.tiny .LEECHER [7]) none)
      (.make (.tiny .SEEDER [7]) (some [7])) 0 0)).Reachable _)
    first_request (P := fun d => !d.A.thread.state.pending_requests.isEmpty) (by decide +kernel)
  rw [Bool.not_eq_true', List.isEmpty_eq_false_iff_exists_mem] at hd
  obtain ⟨req, hreq⟩ := hd
  exact ⟨d, req, hreq, (request_conserved id rfl (by decide) hr).1 req hreq⟩

end Duo

end BitTorrentLite
