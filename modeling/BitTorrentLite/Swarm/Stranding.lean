import BitTorrentLite.Swarm.System

/-! # No Stranded Work

    Requests are issued by the Unchoke and Piece handlers only. A peer that
    could be asked for a block and is not being asked, an idle one, stays idle
    until one of these messages arrives. Nobody asks it when a block comes back
    to the pool, when it announces a piece, or when the block its thread found
    claimed was only claimed by another handler to see if there is one. The
    runs here are timely: a peer that is waiting for nothing announces no piece
    that is still wanted, blocks come back while no peer is idle, and nobody
    asks between a probe and its release. In such runs no available block is
    ever on offer at an idle peer.
-/

open Machine LTS

namespace BitTorrentLite

open Controller

/-! ## Idle Peers -/

/-- The peer lets us request and has room for a request. -/
def PeerState.Ready (st : PeerState) : Prop :=
  st.peer_choking = false ∧ st.pending_requests.length < pipeline

/-- The thread is on its way to `read_message` with no call of
    `request_next_blocks` before it, although the peer can be asked. -/
def PC.Idle (st : PeerState) : PC → Prop
  -- asking
  | .request => False
  | .send_request _ => False
  | .received _ _ _ => False
  -- leaving
  | .cleanup _ _ => False
  | .unregister => False
  | .closed => False
  -- the handlers that end with `am_interested = true`
  | .have_probe => st.Ready
  | .have_release _ => st.Ready
  | .bitfield_probe => st.Ready
  | .bitfield_release _ => st.Ready
  | .bitfield_store _ => st.Ready
  | .send_interested => st.Ready
  | _ => st.Ready ∧ st.am_interested = true

section jumps

variable {m : Metadata} {st : PeerState}

theorem PC.Idle.ready {pc : PC} (h : pc.Idle st) : st.Ready := by
  cases pc with
  | request | send_request | received | cleanup | unregister | closed => exact h.elim
  | have_probe | have_release | bitfield_probe | bitfield_release | bitfield_store
  | send_interested => exact h
  | _ => exact h.1

theorem not_idle_leave : ¬ (leave st).Idle st := leave_cases id fun _ _ => id

theorem not_idle_request_loop : ¬ (request_loop st).Idle st := by
  unfold request_loop
  split
  · exact id
  · rename_i hfull
    exact fun h => hfull h.1.2

theorem not_idle_request_next_blocks (hl : m.mode = .LEECHER) :
    ¬ (request_next_blocks m st).Idle st := by
  unfold request_next_blocks
  split
  · rename_i hno
    rintro ⟨hready, hint⟩
    rcases hno with hmode | hchoking | hnot
    · rw [hl] at hmode
      cases hmode
    · rw [hready.1] at hchoking
      cases hchoking
    · rw [hint] at hnot
      cases hnot
  · exact not_idle_request_loop

/-- The jumps of the serving calls are idle where the head of the loop is. -/
theorem idle_serve_next {kept rest : List IncomingRequest} {call : ServeCall}
    (h : (serve_next kept call rest).Idle st) : PC.loop_top.Idle st :=
  serve_next_cases (motive := fun pc => pc.Idle st → PC.loop_top.Idle st) id id (fun _ _ => id) h

theorem idle_serve {call : ServeCall} (h : (serve_incoming_requests st call).Idle st) :
    PC.loop_top.Idle st :=
  serve_cases (motive := fun pc => pc.Idle st → PC.loop_top.Idle st) id id (fun _ _ => id) h

theorem idle_flush {haves : List ℤ} (h : (flush_next st haves).Idle st) : PC.loop_top.Idle st :=
  flush_cases (motive := fun pc => pc.Idle st → PC.loop_top.Idle st) id id (fun _ _ => id)
    (fun _ _ => id) h

theorem ready_have_next (h : (have_next m st).Idle st) : st.Ready :=
  have_next_cases (motive := fun pc => pc.Idle st → st.Ready) And.left id h

end jumps

/-! ## Blocks Returned to the Pool -/

namespace Controller

/-- A block of an unfinished piece that is not stored. -/
structure Missing (c : Controller) (i : ℕ) (off : ℤ) : Prop where
  piece : i < c.total_pieces
  missing : c.piece_status i ≠ 1
  block : ∃ b : ℕ, (b : ℤ) < c.count_blocks i ∧ off = Metadata.block_offset b
  not_stored : c.piece_blocks i off = none

end Controller

/-- The step of a thread at this point makes the block `off` of piece `i`
    available again. -/
def PC.Returns (sha1 : Bytes → Bytes) (c : Controller) (i : ℕ) (off : ℤ) : PC → Prop
  | .choke_release req _ => req.piece_index = i ∧ req.block_offset = off ∧ c.Missing i off
  | .cleanup req _ => req.piece_index = i ∧ req.block_offset = off ∧ c.Missing i off
  | .request_release req => req.piece_index = i ∧ req.block_offset = off ∧ c.Missing i off
  | .have_release req => req.piece_index = i ∧ req.block_offset = off ∧ c.Missing i off
  | .bitfield_release req => req.piece_index = i ∧ req.block_offset = off ∧ c.Missing i off
  | .bitfield_store req => req.piece_index = i ∧ c.piece_status i = 1
  | .received x o data =>
    let c₁ := c.store i o data
    x = i ∧ (data.length : ℤ) = c.block_size x o ∧ c₁.complete i = true ∧
      sha1 (c₁.assembled i) ≠ c.piece_hash.getD i []
  | _ => False

section moves

variable {sha1 : Bytes → Bytes} {c c' : Controller} {peer_id : ℕ} {st st' : PeerState}
  {pc pc' : PC} {inp : Input} {i j : ℕ} {off o : ℤ}

/-- A missing block is available unless it is in flight. -/
theorem available_iff : c.Available i off ↔ c.Missing i off ∧ off ∉ c.inflight i :=
  ⟨fun h => ⟨⟨h.piece, h.missing, h.block, h.not_stored⟩, h.not_inflight⟩,
    fun h => ⟨h.1.piece, h.1.missing, h.1.block, h.1.not_stored, h.2⟩⟩

theorem missing_claim (h : (c.claim j o).Missing i off) (ha : c.Available j o) :
    c.Missing i off where
  piece := h.piece
  missing := by
    have := h.missing
    by_cases hij : i = j
    · subst hij
      exact ha.missing
    · rwa [claim_piece_status, Function.update_of_ne hij] at this
  block := h.block
  not_stored := h.not_stored

/-- Storing a block makes none missing, and that one not. -/
theorem missing_store {data : Bytes} (h : (c.store j o data).Missing i off) :
    c.Missing i off ∧ ¬ (i = j ∧ off = o) := by
  have hns := h.not_stored
  have hne : ¬ (i = j ∧ off = o) := by
    rintro ⟨rfl, rfl⟩
    rw [store_piece_blocks, Function.update_self, Function.update_self] at hns
    cases hns
  refine ⟨⟨h.piece, h.missing, h.block, ?_⟩, hne⟩
  by_cases hij : i = j
  · subst hij
    rwa [store_piece_blocks, Function.update_self,
      Function.update_of_ne fun hoff => hne ⟨rfl, hoff⟩] at hns
  · rwa [store_piece_blocks, Function.update_of_ne hij] at hns

/-- Setting the status of another piece makes no block missing. -/
theorem missing_settle {status : ℕ} (hij : i ≠ j) (h : (c.settle j status).Missing i off) :
    c.Missing i off where
  piece := h.piece
  missing := by
    have := h.missing
    rwa [settle_piece_status, Function.update_of_ne hij] at this
  block := h.block
  not_stored := by
    have := h.not_stored
    rwa [settle_piece_blocks, Function.update_of_ne hij] at this

theorem available_claim (h : (c.claim j o).Available i off) (ha : c.Available j o) :
    c.Available i off := by
  obtain ⟨hmiss, hni⟩ := available_iff.mp h
  refine available_iff.mpr ⟨missing_claim hmiss ha, ?_⟩
  by_cases hij : i = j
  · subst hij
    rw [claim_inflight, Function.update_self] at hni
    exact fun hin => hni (Finset.mem_insert_of_mem hin)
  · rwa [claim_inflight, Function.update_of_ne hij] at hni

/-- After a release, a block that is available was so before, or is the one
    released. -/
theorem available_release (h : (c.release j o).Available i off) :
    c.Available i off ∨ (i = j ∧ off = o ∧ c.Missing i off) := by
  have hmiss : c.Missing i off := ⟨h.piece, h.missing, h.block, h.not_stored⟩
  have hni := h.not_inflight
  by_cases hij : i = j
  · subst hij
    rw [release_inflight, Function.update_self] at hni
    by_cases hoff : off = o
    · exact .inr ⟨rfl, hoff, hmiss⟩
    · exact .inl (available_iff.mpr
        ⟨hmiss, fun hin => hni (Finset.mem_erase.mpr ⟨hoff, hin⟩)⟩)
  · rw [release_inflight, Function.update_of_ne hij] at hni
    exact .inl (available_iff.mpr ⟨hmiss, hni⟩)

/-- Storing a block makes none available. -/
theorem available_store {data : Bytes} (h : (c.store j o data).Available i off) :
    c.Available i off := by
  obtain ⟨hmiss, hni⟩ := available_iff.mp h
  obtain ⟨hmiss, hne⟩ := missing_store hmiss
  refine available_iff.mpr ⟨hmiss, ?_⟩
  by_cases hij : i = j
  · subst hij
    rw [store_inflight, Function.update_self] at hni
    exact fun hin => hni (Finset.mem_erase.mpr ⟨fun hoff => hne ⟨rfl, hoff⟩, hin⟩)
  · rwa [store_inflight, Function.update_of_ne hij] at hni

/-- Setting the status of another piece makes no block available. -/
theorem available_settle {status : ℕ} (hij : i ≠ j) (h : (c.settle j status).Available i off) :
    c.Available i off := by
  obtain ⟨hmiss, hni⟩ := available_iff.mp h
  exact available_iff.mpr ⟨missing_settle hij hmiss, hni⟩

/-- What is missing after a step was missing before, or the step returned it. -/
theorem Move.missing (h : Move sha1 c peer_id st pc inp c' st' pc') (hm : c'.Missing i off) :
    c.Missing i off ∨ pc.Returns sha1 c i off := by
  cases h
  case request_some j o _ hj _ => exact .inl (missing_claim hm hj)
  case have_some j o _ hj _ => exact .inl (missing_claim hm hj)
  case bitfield_some j o _ hj _ => exact .inl (missing_claim hm hj)
  case bitfield_stored req j hj _ =>
    by_cases hone : i = j ∧ c.piece_status i = 1
    · exact .inr ⟨hone.1 ▸ hj, hone.2⟩
    -- the status was not 1 before, or the piece is another
    · refine .inl ⟨hm.piece, ?_, hm.block, hm.not_stored⟩
      intro hst
      have hij : i ≠ j := fun heq => hone ⟨heq, hst⟩
      exact hm.missing ((Function.update_of_ne hij ..).trans hst)
  case block_received x o data done hrec =>
    cases hrec with
    | rejected => exact .inl hm
    | stored => exact .inl (missing_store hm).1
    | mismatch j hx _ _ hlen hcomp hhash =>
      -- the blocks of a piece that does not match are wanted again
      by_cases hij : i = j
      · subst hij
        exact .inr ⟨hx, hx ▸ hlen, hcomp, hhash⟩
      · exact .inl (missing_store (missing_settle hij hm)).1
    | finished j =>
      have hij : i ≠ j := by
        rintro rfl
        exact hm.missing (Function.update_self ..)
      have hm : ((c.store j o data).settle j 1).Missing i off :=
        ⟨hm.piece, hm.missing, hm.block, hm.not_stored⟩
      exact .inl (missing_store (missing_settle hij hm)).1
  all_goals exact .inl ⟨hm.piece, hm.missing, hm.block, hm.not_stored⟩

/-- What is available after a step was available before, or the step made it so. -/
theorem Move.available (h : Move sha1 c peer_id st pc inp c' st' pc')
    (ha : c'.Available i off) : c.Available i off ∨ pc.Returns sha1 c i off := by
  rcases h.missing (available_iff.mp ha).1 with hmiss | hret
  swap
  · exact .inr hret
  have released {j : ℕ} {req : BlockRequest} (hj : req.piece_index = j)
      (ha : (c.release j req.block_offset).Available i off) : c.Available i off ∨
        (req.piece_index = i ∧ req.block_offset = off ∧ c.Missing i off) := by
    rcases available_release ha with hav | ⟨rfl, rfl, hmiss⟩
    · exact .inl hav
    · exact .inr ⟨hj, rfl, hmiss⟩
  cases h
  case request_some j o _ hj _ => exact .inl (available_claim ha hj)
  case have_some j o _ hj _ => exact .inl (available_claim ha hj)
  case bitfield_some j o _ hj _ => exact .inl (available_claim ha hj)
  case choke_released hj _ => exact released hj ha
  case choke_cleared hj _ => exact released hj ha
  case request_released hj _ => exact released hj ha
  case have_released hj _ => exact released hj ha
  case bitfield_released hj _ => exact released hj ha
  case cleanup_released hj _ => exact released hj ha
  case cleanup_done hj _ => exact released hj ha
  case block_received x o data done hrec =>
    cases hrec with
    | rejected => exact .inl ha
    | stored => exact .inl (available_store ha)
    | mismatch j hx _ _ hlen hcomp hhash =>
      -- the blocks of a piece that does not match are wanted again
      by_cases hij : i = j
      · subst hij
        exact .inr ⟨hx, hx ▸ hlen, hcomp, hhash⟩
      · exact .inl (available_store (available_settle hij ha))
    | finished j =>
      have hij : i ≠ j := by
        rintro rfl
        exact ha.missing (Function.update_self ..)
      exact .inl (available_store
        (available_settle hij ⟨ha.piece, ha.missing, ha.block, ha.not_stored, ha.not_inflight⟩))
  all_goals exact .inl (available_iff.mpr ⟨hmiss, ha.not_inflight⟩)

/-! ## Probes -/

/-- The block the Have or Bitfield handler has claimed to see if there is one,
    and gives back next. -/
def PC.probed : PC → Option BlockRequest
  | .have_release req => some req
  | .bitfield_release req => some req
  | _ => none

/-- The thread is about to ask `next_request` for a block to request. -/
def PC.asks : PC → Bool
  | .request => true
  | _ => false

/-- A step that leads to the release of a probe has claimed an available block. -/
theorem Move.probed (h : Move sha1 c peer_id st pc inp c' st' pc') {req : BlockRequest}
    (hreq : pc'.probed = some req) :
    ∃ (i : ℕ) (off : ℤ), req.piece_index = i ∧ req.block_offset = off ∧ c.Available i off := by
  have unprobed {x : PC} (h : x.probed = some req) (hx : x.probed = none) : False := by
    rw [hx] at h
    cases h
  cases h
  case have_some i off _ ha _ =>
    cases hreq
    exact ⟨i, off, rfl, rfl, ha⟩
  case bitfield_some i off _ ha _ =>
    cases hreq
    exact ⟨i, off, rfl, rfl, ha⟩
  -- every other step leads elsewhere
  case shaken ok =>
    cases ok with
    | true => cases hreq
    | false => exact (unprobed hreq (leave_cases rfl fun _ _ => rfl)).elim
  case bitfield_sent => split at hreq <;> cases hreq
  case got_bitfield => split at hreq <;> cases hreq
  case bitfield_stored => split at hreq <;> cases hreq
  case finished => exact (unprobed hreq (leave_cases rfl fun _ _ => rfl)).elim
  case disconnected => exact (unprobed hreq (leave_cases rfl fun _ _ => rfl)).elim
  case drained =>
    exact (unprobed hreq (flush_cases rfl rfl (fun _ _ => rfl) fun _ _ => rfl)).elim
  case have_sent =>
    exact (unprobed hreq (flush_cases rfl rfl (fun _ _ => rfl) fun _ _ => rfl)).elim
  case have_unsent => exact (unprobed hreq (serve_cases rfl rfl fun _ _ => rfl)).elim
  case unchoke_sent => exact (unprobed hreq (serve_cases rfl rfl fun _ _ => rfl)).elim
  case got_request => exact (unprobed hreq (serve_cases rfl rfl fun _ _ => rfl)).elim
  case passed_over => exact (unprobed hreq (serve_next_cases rfl rfl fun _ _ => rfl)).elim
  case piece_sent => exact (unprobed hreq (serve_next_cases rfl rfl fun _ _ => rfl)).elim
  case piece_unsent => exact (unprobed hreq (call_cases _ rfl rfl)).elim
  case got_unchoke => exact (unprobed hreq (request_next_blocks_cases rfl rfl)).elim
  case block_received => exact (unprobed hreq (request_next_blocks_cases rfl rfl)).elim
  case request_sent => exact (unprobed hreq (request_loop_cases rfl rfl)).elim
  case got_have => exact (unprobed hreq (have_next_cases rfl rfl)).elim
  case got_have_beyond => exact (unprobed hreq (have_next_cases rfl rfl)).elim
  case got_choke => exact (unprobed hreq (choke_next_cases rfl fun _ _ => rfl)).elim
  all_goals cases hreq

/-! ## What a Thread Knows of Its Peer -/

/-- Before the loop, and while the Choke handler releases, the peer chokes us. -/
def PC.Choked (st : PeerState) : PC → Prop
  | .handshake => st.peer_choking = true
  | .opening => st.peer_choking = true
  | .send_bitfield _ => st.peer_choking = true
  | .choke_release _ _ => st.peer_choking = true
  | _ => True

theorem Move.choked (h : Move sha1 c peer_id st pc inp c' st' pc') (hc : pc.Choked st) :
    pc'.Choked st' := by
  cases h
  case shaken ok =>
    cases ok with
    | true => exact hc
    | false => exact leave_cases trivial fun _ _ => trivial
  case got_choke => exact choke_next_cases trivial fun _ _ => rfl
  case choke_released => exact hc
  -- the other jumps lead into the loop, past the opening, or out of it
  case bitfield_sent => split <;> trivial
  case finished => exact leave_cases trivial fun _ _ => trivial
  case disconnected => exact leave_cases trivial fun _ _ => trivial
  case drained => exact flush_cases trivial trivial (fun _ _ => trivial) fun _ _ => trivial
  case have_sent => exact flush_cases trivial trivial (fun _ _ => trivial) fun _ _ => trivial
  case have_unsent => exact serve_cases trivial trivial fun _ _ => trivial
  case unchoke_sent => exact serve_cases trivial trivial fun _ _ => trivial
  case got_request => exact serve_cases trivial trivial fun _ _ => trivial
  case passed_over => exact serve_next_cases trivial trivial fun _ _ => trivial
  case piece_sent => exact serve_next_cases trivial trivial fun _ _ => trivial
  case piece_unsent => exact call_cases _ trivial trivial
  case got_unchoke => exact request_next_blocks_cases trivial trivial
  case block_received => exact request_next_blocks_cases trivial trivial
  case request_sent => exact request_loop_cases trivial trivial
  case got_have => exact have_next_cases trivial trivial
  case got_have_beyond => exact have_next_cases trivial trivial
  case got_bitfield => split <;> trivial
  case bitfield_stored => split <;> trivial
  case opened => exact hc
  all_goals trivial

/-! ## Heard in Time -/

/-- A Have or Bitfield message that comes in time: from a peer that chokes us
    or has no room for a request, or from one we are interested in, naming no
    piece that is new of it and not done. -/
def HeardInTime (c : Controller) (st : PeerState) : Input → Prop
  | .recv (some ⟨.Have, p⟩) => 4 ≤ p.length → st.Ready → st.am_interested = true ∧
      ∀ i < c.total_pieces, ntohl p 0 = i → st.peer_bitfield i = true ∨ c.piece_status i = 1
  | .recv (some ⟨.Bitfield, p⟩) => st.Ready → st.am_interested = true ∧
      ∀ i < c.total_pieces, decode_bitfield st.peer_bitfield p i = true →
        st.peer_bitfield i = true ∨ c.piece_status i = 1
  | _ => True

/-- **Step lemma** for the thread that moves: when it is idle after a step, it
    was idle before or found nothing to request, and the peer has no piece with
    a missing block that it did not have before. -/
theorem Move.idle (h : Move sha1 c peer_id st pc inp c' st' pc') (off : ℤ)
    (hl : c.mode = .LEECHER) (hchoked : pc.Choked st) (hsent : inp ≠ .sent false)
    (hheard : HeardInTime c st inp) (hi : i < c.total_pieces)
    (hpre : pc.Idle st → st.peer_bitfield i = false)
    (hmissing : pc.Idle st → c.piece_status i ≠ 1) (hask : pc = .request → c.Available i off)
    (hidle : pc'.Idle st') : st'.peer_bitfield i = false := by
  -- the pieces a message in time adds are done
  have unheard {bf : ℕ → Bool} (hwas : pc.Idle st)
      (hnew : bf i = true → st.peer_bitfield i = true ∨ c.piece_status i = 1) : bf i = false := by
    by_contra hbf
    rcases hnew (by simpa using hbf) with hold | hdone
    · rw [hpre hwas] at hold
      cases hold
    · exact hmissing hwas hdone
  cases h
  case shaken ok =>
    cases ok with
    | true => exact hpre hidle
    | false => exact absurd hidle not_idle_leave
  -- before the loop the peer still chokes us
  case bitfield_sent =>
    rw [if_pos hl] at hidle
    exact absurd hidle.1 (by rw [show st.peer_choking = true from hchoked]; decide)
  case finished => exact absurd hidle not_idle_leave
  case disconnected => exact absurd hidle not_idle_leave
  case drained => exact hpre (idle_flush hidle)
  case have_sent => exact hpre (idle_flush hidle)
  case have_unsent => exact absurd rfl hsent
  case unchoke_sent => exact hpre (idle_serve hidle)
  case got_request p _ _ hst' =>
    have hwas : PC.loop_top.Idle st' := idle_serve hidle
    subst hst'
    exact hpre hwas
  case passed_over => exact hpre (idle_serve_next hidle)
  case piece_sent =>
    have hwas := idle_serve_next hidle
    exact hpre hwas
  case piece_unsent => exact absurd rfl hsent
  case got_choke =>
    have hready : st.choked.Ready := by
      unfold choke_next at hidle
      split at hidle <;> exact hidle.1
    cases hready.1
  case choke_cleared =>
    exact absurd hidle.1.1 (by rw [show st.peer_choking = true from hchoked]; decide)
  -- the two handlers that request end at the loop over requests
  case got_unchoke => exact absurd hidle (not_idle_request_next_blocks hl)
  case block_received => exact absurd hidle (not_idle_request_next_blocks hl)
  case request_sent => exact absurd hidle not_idle_request_loop
  case request_unsent => exact absurd rfl hsent
  case got_piece => cases hidle
  -- `next_request` found nothing, so nothing is on offer
  case request_none hnone => exact hnone hl i off (hask rfl)
  case bitfield_none => exact hpre hidle.1
  case have_none => exact hpre hidle.1
  case bitfield_stored =>
    refine hpre ?_
    split at hidle
    · exact hidle.1
    · exact hidle
  case interested_sent => exact hpre hidle.1
  case not_interested_sent => cases hidle.2
  case got_have p j hlen hj _ =>
    have hready : st.Ready := ready_have_next hidle
    obtain ⟨hint, hnames⟩ := hheard hlen hready
    refine unheard ⟨hready, hint⟩ fun hbf => ?_
    by_cases hij : i = j
    · subst hij
      exact hnames i hi hj
    · exact .inl ((Function.update_of_ne hij ..).symm.trans hbf)
  case got_have_beyond p hlen _ =>
    have hready : st.Ready := ready_have_next hidle
    exact hpre ⟨hready, (hheard hlen hready).1⟩
  case got_bitfield p =>
    rw [if_pos hl] at hidle
    obtain ⟨hint, hnames⟩ := hheard hidle
    exact unheard ⟨hidle, hint⟩ (hnames i hi)
  all_goals exact hpre hidle

end moves

/-! ## Runs -/

namespace Swarm

variable {sha1 : Bytes → Bytes} {m : Metadata} {disk : Option Bytes} {s s' : Swarm} {a : Action}

/-- No thread is idle. -/
def NoneIdle (s : Swarm) : Prop := ∀ id t, s.threads id = some t → ¬ t.pc.Idle t.state

/-- No thread is between a probe and its release. -/
def NoneProbing (s : Swarm) : Prop := ∀ id t, s.threads id = some t → t.pc.probed = none

/-- The step is timely: every send succeeds; Have and Bitfield messages are
    heard in time; a block comes back to the pool, other than by the release of
    a probe, while no thread is idle; and a block is asked for while no thread
    is probing. -/
def Timely (sha1 : Bytes → Bytes) (s : Swarm) : Action → Prop
  | .connect => True
  | .thread id inp => inp ≠ .sent false ∧ ∀ t, s.threads id = some t →
      HeardInTime s.ctl t.state inp ∧
      (t.pc.probed = none → (∃ i off, t.pc.Returns sha1 s.ctl i off) → s.NoneIdle) ∧
      (t.pc.asks = true → s.NoneProbing)

/-- A missing block is on offer, or will be when a probe is released. -/
def Offered (s : Swarm) (i : ℕ) (off : ℤ) : Prop :=
  s.ctl.Missing i off ∧ (off ∉ s.ctl.inflight i ∨ ∃ id t req, s.threads id = some t ∧
    t.pc.probed = some req ∧ req.piece_index = i ∧ req.block_offset = off)

/-- No idle peer has the piece of a block that is offered. -/
def NothingOnOffer (s : Swarm) : Prop :=
  ∀ id t, s.threads id = some t → t.pc.Choked t.state ∧
    (t.pc.Idle t.state → ∀ i off, s.Offered i off → t.state.peer_bitfield i = false)

theorem offered_of_available {i : ℕ} {off : ℤ} (h : s.ctl.Available i off) : s.Offered i off :=
  ⟨(available_iff.mp h).1, .inl h.not_inflight⟩

/-- While no thread is probing, what is offered is available. -/
theorem Offered.available {i : ℕ} {off : ℤ} (h : s.Offered i off) (hnone : s.NoneProbing) :
    s.ctl.Available i off := by
  obtain ⟨hmiss, hni | ⟨id, t, req, ht, hreq, -⟩⟩ := h
  · exact available_iff.mpr ⟨hmiss, hni⟩
  · rw [hnone id t ht] at hreq
    cases hreq

/-- A block that is offered after a step was offered before, or the step
    returned it to the pool otherwise than by the release of a probe. -/
theorem offered_moved {id : ℕ} {inp : Input} {t t' : Thread} {c' : Controller}
    (ht : s.threads id = some t)
    (hmove : Move sha1 s.ctl id t.state t.pc inp c' t'.state t'.pc) {i : ℕ} {off : ℤ}
    (h : (s.resume c' id t').Offered i off) :
    s.Offered i off ∨ (t.pc.probed = none ∧ t.pc.Returns sha1 s.ctl i off) := by
  -- what a probe returns was offered before
  have returned (hret : t.pc.Returns sha1 s.ctl i off) :
      s.Offered i off ∨ (t.pc.probed = none ∧ t.pc.Returns sha1 s.ctl i off) := by
    cases hpc : t.pc with
    | have_release req =>
      rw [hpc] at hret
      exact .inl ⟨hret.2.2, .inr ⟨id, t, req, ht, by rw [hpc]; rfl, hret.1, hret.2.1⟩⟩
    | bitfield_release req =>
      rw [hpc] at hret
      exact .inl ⟨hret.2.2, .inr ⟨id, t, req, ht, by rw [hpc]; rfl, hret.1, hret.2.1⟩⟩
    | _ => exact .inr ⟨rfl, hpc ▸ hret⟩
  obtain ⟨hmiss, hni | ⟨id', u, req, hu, hreq, hi, hoff⟩⟩ := h
  · rcases hmove.available (available_iff.mpr ⟨hmiss, hni⟩) with hav | hret
    · exact .inl (offered_of_available hav)
    · exact returned hret
  · rcases resume_threads hu with ⟨-, rfl⟩ | ⟨-, hu⟩
    · obtain ⟨j, o, hj, ho, hav⟩ := hmove.probed hreq
      obtain rfl : i = j := by exact_mod_cast hi.symm.trans hj
      obtain rfl : off = o := hoff.symm.trans ho
      exact .inl (offered_of_available hav)
    -- another thread's probe: what is missing was so before, or was returned
    · rcases hmove.missing hmiss with hmiss | hret
      · exact .inl ⟨hmiss, .inr ⟨id', u, req, hu, hreq, hi, hoff⟩⟩
      · exact returned hret

theorem NothingOnOffer.stepped (hl : s.ctl.mode = .LEECHER) (hs : s.NothingOnOffer)
    (hok : s.Timely sha1 a) (h : Stepped sha1 s a s') : s'.NothingOnOffer := by
  intro id t ht
  cases h with
  | connected =>
    rcases resume_threads ht with ⟨-, rfl⟩ | ⟨-, ht⟩
    · refine ⟨rfl, ?_⟩
      rintro ⟨⟨hchoking, -⟩, -⟩
      cases hchoking
    · obtain ⟨hchoked, hoffer⟩ := hs id t ht
      refine ⟨hchoked, fun hidle i off ho => hoffer hidle i off ?_⟩
      obtain ⟨⟨hi, hst, hb, hns⟩, hfree⟩ := ho
      refine ⟨⟨hi, hst, hb, hns⟩, ?_⟩
      rcases hfree with hni | ⟨id', u, req, hu, hreq, hkey⟩
      · exact .inl hni
      · rcases resume_threads hu with ⟨-, rfl⟩ | ⟨-, hu⟩
        · cases hreq
        · exact .inr ⟨id', u, req, hu, hreq, hkey⟩
  | moved id₀ inp t₀ t₁ c' ht₀ hmove =>
    obtain ⟨hsent, hthread⟩ := hok
    obtain ⟨hheard, hreturns, hasks⟩ := hthread t₀ ht₀
    rcases resume_threads ht with ⟨rfl, rfl⟩ | ⟨-, ht⟩
    · -- the thread that moved
      obtain ⟨hchoked, hoffer⟩ := hs id t₀ ht₀
      refine ⟨hmove.choked hchoked, fun hidle i off ho => ?_⟩
      have hwas := offered_moved ht₀ hmove ho
      -- an idle thread returns nothing, so the block was offered before
      have hidle₀ (hi : t₀.pc.Idle t₀.state) : s.Offered i off := by
        rcases hwas with hwas | ⟨hnone, hret⟩
        · exact hwas
        · exact absurd hi (hreturns hnone ⟨i, off, hret⟩ id t₀ ht₀)
      refine hmove.idle off hl hchoked hsent hheard ?_ (fun hi => ?_) (fun hi => ?_)
        (fun hpc => ?_) hidle
      · exact hmove.toMetadata ▸ ho.1.piece
      · exact hoffer hi i off (hidle₀ hi)
      · exact (hidle₀ hi).1.missing
      · rcases hwas with hwas | ⟨-, hret⟩
        · exact hwas.available (hasks (by rw [hpc]; rfl))
        · rw [hpc] at hret
          exact hret.elim
    · -- another thread: what is offered was so before, or was returned
      obtain ⟨hchoked, hoffer⟩ := hs id t ht
      refine ⟨hchoked, fun hidle i off ho => ?_⟩
      rcases offered_moved ht₀ hmove ho with hwas | ⟨hnone, hret⟩
      · exact hoffer hidle i off hwas
      · exact absurd hidle (hreturns hnone ⟨i, off, hret⟩ id t ht)

theorem reachable_nothingOnOffer (hm : m.mode = .LEECHER)
    (h : ((system sha1 m disk).restrict (Timely sha1)).Reachable s) : s.NothingOnOffer := by
  refine System.invariant (I := NothingOnOffer) ?_ ?_ s h
  · rintro s rfl id t ht
    cases ht
  · intro s a s' hr hs hst
    exact hs.stepped ((reachable_toMetadata hr.of_restrict) ▸ hm) hst.1 (next_stepped hst.2)

/-- The thread waits in `read_message` and its peer could be asked for a block. -/
def Askable (t : Thread) : Prop :=
  t.pc = .read_message ∧ t.state.peer_choking = false ∧ t.state.am_interested = true ∧
    t.state.pending_requests.length < 5

/-- `Askable`, computed. -/
def askable (t : Thread) : Bool :=
  (match t.pc with | .read_message => true | _ => false) && !t.state.peer_choking &&
    t.state.am_interested && decide (t.state.pending_requests.length < 5)

theorem askable_iff {t : Thread} : askable t = true ↔ Askable t := by
  unfold askable Askable
  cases t.pc <;> simp [and_assoc]

/-- **No stranded work**: in timely runs, no thread waits in `read_message`
    with a peer that could be asked for an available block. -/
theorem no_stranded_block (sha1 : Bytes → Bytes) {m : Metadata} (hm : m.mode = .LEECHER)
    (disk : Option Bytes) {s : Swarm}
    (h : ((system sha1 m disk).restrict (Timely sha1)).Reachable s) :
    ¬ ∃ id t, s.threads id = some t ∧ Askable t ∧
      (s.ctl.next_request t.state.peer_bitfield).2.isSome = true := by
  rintro ⟨id, t, ht, ⟨hpc, hchoking, hint, hroom⟩, hsome⟩
  have hl : s.ctl.mode = .LEECHER := (reachable_toMetadata h.of_restrict) ▸ hm
  obtain ⟨i, off, ha, hbf⟩ := (next_request_isSome_iff hl).mp hsome
  have hidle : t.pc.Idle t.state := by
    rw [hpc]
    exact ⟨⟨hchoking, hroom⟩, hint⟩
  have hnot := (reachable_nothingOnOffer hm h id t ht).2 hidle i off (offered_of_available ha)
  rw [hnot] at hbf
  cases hbf

/-- Every peer chokes us, or has no room for a request. -/
def none_ready (s : Swarm) : Bool :=
  (List.range s.ctl.crnt_peer).all fun id => (s.threads id).all fun t =>
    t.state.peer_choking || decide (pipeline ≤ t.state.pending_requests.length)

/-- No thread is probing, computed over the ids handed out. -/
def none_probing (s : Swarm) : Bool :=
  (List.range s.ctl.crnt_peer).all fun id => (s.threads id).all fun t => t.pc.probed.isNone

/-- A computed guard of timely steps: peers announce pieces while they choke
    us, blocks come back while no peer is ready, and nobody asks while a thread
    is probing. -/
def timely (sha1 : Bytes → Bytes) (s : Swarm) : Action → Bool
  | .connect => true
  | .thread id inp =>
    (match inp with
      | .sent ok => ok
      | _ => true) &&
    (s.threads id).all fun t =>
      (match inp with
        | .recv (some ⟨.Have, _⟩) => t.state.peer_choking
        | .recv (some ⟨.Bitfield, _⟩) => t.state.peer_choking
        | _ => true) &&
      (match t.pc with
        | .choke_release _ _ | .cleanup _ _ | .request_release _ => s.none_ready
        | .bitfield_store req => s.ctl.piece_status req.piece_index.toNat != 1
        | .received x off data => !(s.ctl.store x.toNat off data).complete x.toNat ||
          sha1 ((s.ctl.store x.toNat off data).assembled x.toNat) ==
            s.ctl.piece_hash.getD x.toNat []
        | .request => s.none_probing
        | _ => true)

theorem noneIdle_of_computed (hr : (system sha1 m disk).Reachable s)
    (h : s.none_ready = true) : s.NoneIdle := by
  intro id t ht hidle
  have hid := List.all_eq_true.mp h id (List.mem_range.mpr (reachable_fresh hr id t ht))
  obtain ⟨hchoking, hroom⟩ := hidle.ready
  rw [ht, Option.all_some, hchoking] at hid
  simp only [Bool.false_or, decide_eq_true_eq] at hid
  omega

theorem noneProbing_of_computed (hr : (system sha1 m disk).Reachable s)
    (h : s.none_probing = true) : s.NoneProbing := by
  intro id t ht
  have hid := List.all_eq_true.mp h id (List.mem_range.mpr (reachable_fresh hr id t ht))
  rw [ht, Option.all_some] at hid
  exact Option.isNone_iff_eq_none.mp hid

theorem timely_of_computed (s : Swarm) (a : Action) (hr : (system sha1 m disk).Reachable s)
    (h : s.timely sha1 a = true) : s.Timely sha1 a := by
  cases a with
  | connect => trivial
  | thread id inp =>
    obtain ⟨hinp, hall⟩ := (Bool.and_eq_true _ _).mp h
    refine ⟨?_, fun t ht => ?_⟩
    · rintro rfl
      cases hinp
    rw [ht, Option.all_some] at hall
    obtain ⟨hmsg, hpc⟩ := (Bool.and_eq_true _ _).mp hall
    refine ⟨?_, ?_, ?_⟩
    -- a peer that chokes us is not ready
    · have choked (hready : t.state.Ready) (hch : t.state.peer_choking = true) : False := by
        rw [hready.1] at hch
        cases hch
      unfold HeardInTime
      split
      · exact fun _ hready => (choked hready hmsg).elim
      · exact fun hready => (choked hready hmsg).elim
      · trivial
    · rintro hprobed ⟨i, off, hret⟩
      cases heq : t.pc with
      | choke_release | cleanup | request_release =>
        rw [heq] at hpc
        exact noneIdle_of_computed hr hpc
      | bitfield_store req =>
        rw [heq] at hpc hret
        obtain ⟨hi, hone⟩ := hret
        change (s.ctl.piece_status req.piece_index.toNat != 1) = true at hpc
        rw [hi, Int.toNat_natCast, hone] at hpc
        cases hpc
      | received x o data =>
        rw [heq] at hpc hret
        obtain ⟨rfl, -, hcomp, hhash⟩ := hret
        exfalso
        simp only [Int.toNat_natCast, hcomp, Bool.not_true, Bool.false_or, beq_iff_eq] at hpc
        exact hhash hpc
      | have_release | bitfield_release =>
        rw [heq] at hprobed
        cases hprobed
      | _ =>
        rw [heq] at hret
        exact hret.elim
    · intro hask
      cases heq : t.pc with
      | request =>
        rw [heq] at hpc
        exact noneProbing_of_computed hr hpc
      | _ =>
        rw [heq] at hask
        cases hask

/-- Two peers of which the first is asked for all three blocks, delivers the
    last one of each piece and chokes; the second is asked for what is left. -/
def mixed_steps : List Action :=
  greet 0 ++ greet 1 ++ hear 0 ⟨.Bitfield, [192]⟩ [.call, .call, .call]
    ++ hear 0 ⟨.Unchoke, []⟩ [.call, .sent true, .call, .sent true, .call, .sent true, .call]
    ++ hear 0 (build_piece_msg 1 0 [8]) [.call, .call] ++ [.thread 0 (.sent true)]
    ++ hear 0 (build_piece_msg 0 16384 [7]) [.call, .call]
    ++ hear 0 ⟨.Choke, []⟩ [.call]
    ++ hear 1 ⟨.Bitfield, [192]⟩ [.call, .call, .call] ++ [.thread 1 (.sent true)]
    ++ hear 1 ⟨.Unchoke, []⟩ [.call, .sent true, .call]

/-- With one piece done, one block of the other stored and its last one asked
    for, both threads wait, the second peer can be asked and nothing is on
    offer. -/
theorem mixed_nothing_stranded : ∃ (s : Swarm) (t : Thread),
    ((system id (.mixed .LEECHER [] [8]) none).restrict (Timely id)).Reachable s ∧
      s.AllWaiting ∧ s.threads 1 = some t ∧ Askable t ∧
      s.ctl.piece_status 1 = 1 ∧ s.ctl.piece_blocks 0 16384 = some [7] ∧
      t.state.pending_keys = [(0, 0)] ∧
      (s.ctl.next_request t.state.peer_bitfield).2 = none := by
  have hrun : (System.run (System.guarded (timely id) (next id)) (start (.mixed .LEECHER [] [8])
      none) mixed_steps).any (fun s => s.all_waiting && (s.threads 1).any (fun t => askable t &&
      t.state.pending_keys == [(0, 0)]) && s.ctl.piece_status 1 == 1 &&
      s.ctl.piece_blocks 0 16384 == some [7]) = true := by
    decide +kernel
  obtain ⟨s, hr, hs⟩ := System.Reachable.exists_of_guarded_run timely_of_computed next_step
    (.init rfl : ((system id (.mixed .LEECHER [] [8]) none).restrict (Timely id)).Reachable _) hrun
  simp only [Bool.and_eq_true, Option.any_eq_true, beq_iff_eq] at hs
  obtain ⟨⟨⟨hw, t, ht, hask, hkeys⟩, hdone⟩, hstored⟩ := hs
  refine ⟨s, t, hr, allWaiting_of_computed hr.of_restrict hw, ht, askable_iff.mp hask, hdone,
    hstored, hkeys, ?_⟩
  have hnot := no_stranded_block id rfl none hr
  cases hreq : (s.ctl.next_request t.state.peer_bitfield).2 with
  | none => rfl
  | some req => exact absurd ⟨1, t, ht, askable_iff.mp hask, by rw [hreq]; rfl⟩ hnot

/-- The peer unchokes first and then has the piece: nothing asks for it. -/
theorem have_after_unchoke_strands : ∃ s : Swarm,
    (system id (.tiny .LEECHER [7]) none).Reachable s ∧ s.AllWaiting ∧
      ∃ peer t, s.threads peer = some t ∧ Askable t ∧
        (s.ctl.next_request t.state.peer_bitfield).2.isSome = true := by
  obtain ⟨s, hr, hs⟩ := System.Reachable.exists_of_run next_step
    (.init rfl : (system id (.tiny .LEECHER [7]) none).Reachable _)
    (greet 0 ++ hear 0 ⟨.Unchoke, []⟩ [.call] ++ hear 0 (build_have 0) [])
    (P := fun s => s.all_waiting && (s.threads 0).any fun t : Thread =>
      askable t && (s.ctl.next_request t.state.peer_bitfield).2.isSome) (by decide +kernel)
  obtain ⟨hw, hs⟩ := (Bool.and_eq_true _ _).mp hs
  obtain ⟨t, ht, hs⟩ := (Option.any_eq_true _ _).mp hs
  obtain ⟨hask, hsome⟩ := (Bool.and_eq_true _ _).mp hs
  exact ⟨s, hr, allWaiting_of_computed hr hw, 0, t, ht, askable_iff.mp hask, hsome⟩

end Swarm

end BitTorrentLite
