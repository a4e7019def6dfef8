import BitTorrentLite.Swarm.System

/-! # Every Block in Flight Has an Owner

    A block offset in `inflight` should be the request of some peer thread,
    which delivers or releases it. The request is with the thread while it is
    on its way: between `next_request` and the send, between the release loops
    of Choke and of the cleanup and their end, and while `received_block` is
    about to take the block off. `Thread.claims` collects what a thread owes
    at each point.

    The Piece handler drops the request before `received_block` looks at the
    block, and a block of the wrong length leaves it in flight with no owner.
    That message is what the runs below exclude.
-/

open Machine LTS

namespace BitTorrentLite

/-- The blocks in flight a thread at this point is to deliver or release. -/
def PC.claims (m : Metadata) (st : PeerState) : PC → List (ℤ × ℤ)
  -- what the release loops have still to go through
  | .choke_release req rest => (req :: rest).map BlockRequest.key
  | .cleanup req rest => (req :: rest).map BlockRequest.key
  | .unregister => []
  | .closed => []
  -- a request on its way to the peer, or back
  | .send_request req => req.key :: st.pending_keys
  | .request_release req => req.key :: st.pending_keys
  | .have_release req => req.key :: st.pending_keys
  | .bitfield_release req => req.key :: st.pending_keys
  -- a block `received_block` is going to accept
  | .received x off data =>
    if (data.length : ℤ) = m.block_size x off then (x, off) :: st.pending_keys
    else st.pending_keys
  | _ => st.pending_keys

/-! ### Claims at the Jumps of the Code -/

section jumps

variable (m : Metadata) (st : PeerState)

theorem claims_leave : (leave st).claims m st = st.pending_keys := by
  unfold leave PeerState.pending_keys
  cases st.pending_requests <;> rfl

theorem claims_choke_next : (choke_next st).claims m st.choked = st.pending_keys := by
  unfold choke_next PeerState.pending_keys
  cases h : st.pending_requests with
  | nil => simp [PC.claims, PeerState.pending_keys, PeerState.choked, h]
  | cons req rest => rfl

theorem claims_call (call : ServeCall) : call.pc.claims m st = st.pending_keys :=
  call_cases call rfl rfl

theorem claims_serve_next (kept rest : List IncomingRequest) (call : ServeCall) :
    (serve_next kept call rest).claims m st = st.pending_keys :=
  serve_next_cases rfl rfl fun _ _ => rfl

theorem claims_serve_incoming_requests (call : ServeCall) :
    (serve_incoming_requests st call).claims m st = st.pending_keys :=
  serve_cases rfl rfl fun _ _ => rfl

theorem claims_flush_next (haves : List ℤ) :
    (flush_next st haves).claims m st = st.pending_keys :=
  flush_cases rfl rfl (fun _ _ => rfl) fun _ _ => rfl

theorem claims_request_loop : (request_loop st).claims m st = st.pending_keys :=
  request_loop_cases rfl rfl

theorem claims_request_next_blocks (m' : Metadata) :
    (request_next_blocks m' st).claims m st = st.pending_keys :=
  request_next_blocks_cases rfl rfl

theorem claims_have_next (m' : Metadata) (st' : PeerState) :
    (have_next m' st').claims m st = st.pending_keys := have_next_cases rfl rfl

end jumps

/-! ### What a Move Does to the Claims -/

/-- A Piece message for a block that is pending with its sender and in flight
    has the length of that block. -/
def PieceSized (c : Controller) (st : PeerState) (p : Bytes) : Prop :=
  8 ≤ p.length → ∀ i : ℕ, ntohl p 0 = i → (ntohl p 0, ntohl p 4) ∈ st.pending_keys →
    ntohl p 4 ∈ c.inflight i → ((p.drop 8).length : ℤ) = c.block_size (ntohl p 0) (ntohl p 4)

section blocks

variable {c : Controller} {i j : ℕ} {off o : ℤ}

theorem mem_claim : off ∈ (c.claim j o).inflight i ↔ (i = j ∧ off = o) ∨ off ∈ c.inflight i := by
  by_cases h : i = j
  · subst h
    simp
  · simp [h]

theorem mem_release :
    off ∈ (c.release j o).inflight i ↔ ¬(i = j ∧ off = o) ∧ off ∈ c.inflight i := by
  by_cases h : i = j
  · subst h
    simp
  · simp [h]

/-- A release for a request leaves every other block in flight. -/
theorem mem_release_key {req : BlockRequest} (hj : req.piece_index = j)
    (h : off ∈ (c.release j req.block_offset).inflight i) :
    off ∈ c.inflight i ∧ ((i : ℤ), off) ≠ req.key := by
  obtain ⟨hne, hin⟩ := mem_release.mp h
  refine ⟨hin, fun hkey => hne ?_⟩
  obtain ⟨h₁, h₂⟩ := Prod.mk.inj hkey
  exact ⟨by omega, h₂⟩

end blocks

variable {sha1 : Bytes → Bytes} {c c' : Controller} {peer_id : ℕ} {st st' : PeerState}
  {pc pc' : PC} {inp : Input}

/-- **Step lemma**: a block in flight after a step is this thread's, or it was
    in flight before the step and not this thread's. -/
theorem Move.claims_kept (h : Move sha1 c peer_id st pc inp c' st' pc') (hl : c.mode = .LEECHER)
    (hok : ∀ p, inp = .recv (some ⟨.Piece, p⟩) → PieceSized c st p)
    {i : ℕ} {off : ℤ} (hin : off ∈ c'.inflight i) :
    ((i : ℤ), off) ∈ pc'.claims c.toMetadata st' ∨
      (off ∈ c.inflight i ∧ ((i : ℤ), off) ∉ pc.claims c.toMetadata st) := by
  -- a block that was in flight, and that the thread keeps if it had it
  have keep : off ∈ c.inflight i →
      (((i : ℤ), off) ∈ pc.claims c.toMetadata st →
        ((i : ℤ), off) ∈ pc'.claims c.toMetadata st') →
      ((i : ℤ), off) ∈ pc'.claims c.toMetadata st' ∨
        (off ∈ c.inflight i ∧ ((i : ℤ), off) ∉ pc.claims c.toMetadata st) := by
    intro hin hsub
    by_cases hmine : ((i : ℤ), off) ∈ pc.claims c.toMetadata st
    · exact .inl (hsub hmine)
    · exact .inr ⟨hin, hmine⟩
  cases h
  case request_some j o _ _ _ =>
    -- the block just handed out is this thread's
    rcases mem_claim.mp hin with ⟨rfl, rfl⟩ | hin
    · exact .inl (List.mem_cons_self ..)
    · exact keep hin fun hk => List.mem_cons_of_mem _ hk
  case have_some j o _ _ _ =>
    rcases mem_claim.mp hin with ⟨rfl, rfl⟩ | hin
    · exact .inl (List.mem_cons_self ..)
    · exact keep hin fun hk => List.mem_cons_of_mem _ hk
  case bitfield_some j o _ _ _ =>
    rcases mem_claim.mp hin with ⟨rfl, rfl⟩ | hin
    · exact .inl (List.mem_cons_self ..)
    · exact keep hin fun hk => List.mem_cons_of_mem _ hk
  case request_sent req hst' =>
    refine keep hin fun hk => ?_
    rw [claims_request_loop]
    simpa [PC.claims, hst', PeerState.pending_keys, or_comm] using hk
  case request_released req j hj _ =>
    obtain ⟨hin, hne⟩ := mem_release_key hj hin
    exact keep hin fun hk => (List.mem_cons.mp hk).resolve_left hne
  case have_released req j hj _ =>
    obtain ⟨hin, hne⟩ := mem_release_key hj hin
    exact keep hin fun hk => (List.mem_cons.mp hk).resolve_left hne
  case bitfield_released req j hj _ =>
    obtain ⟨hin, hne⟩ := mem_release_key hj hin
    exact keep hin fun hk => (List.mem_cons.mp hk).resolve_left hne
  case choke_released req req' rest j hj _ =>
    obtain ⟨hin, hne⟩ := mem_release_key hj hin
    exact keep hin fun hk => (List.mem_cons.mp hk).resolve_left hne
  case choke_cleared req j hj _ =>
    obtain ⟨hin, hne⟩ := mem_release_key hj hin
    exact keep hin fun hk => absurd (List.mem_singleton.mp hk) hne
  case cleanup_released req req' rest j hj _ =>
    obtain ⟨hin, hne⟩ := mem_release_key hj hin
    exact keep hin fun hk => (List.mem_cons.mp hk).resolve_left hne
  case cleanup_done req j hj _ =>
    obtain ⟨hin, hne⟩ := mem_release_key hj hin
    exact keep hin fun hk => absurd (List.mem_singleton.mp hk) hne
  case got_piece p _ hlen =>
    -- the answered request is dropped: the step the guard is about
    refine keep hin fun hk => ?_
    by_cases heq : ((i : ℤ), off) = (ntohl p 0, ntohl p 4)
    · obtain ⟨hx, rfl⟩ := Prod.mk.inj heq
      have hsize := hok p rfl hlen i hx.symm (heq ▸ hk) hin
      simp only [PC.claims, if_pos hsize, heq]
      exact List.mem_cons_self ..
    · have hmem := mem_drop_request hk heq
      simp only [PC.claims]
      split
      · exact List.mem_cons_of_mem _ hmem
      · exact hmem
  case block_received x o data done hrec =>
    rw [claims_request_next_blocks] at keep ⊢
    -- a block that is stored is taken out of the set, whoever asked for it
    have haccept : ∀ j : ℕ, x = j → (data.length : ℤ) = c.block_size j o →
        off ∈ (c.release j o).inflight i → ((i : ℤ), off) ∈ st.pending_keys ∨
          (off ∈ c.inflight i ∧
            ((i : ℤ), off) ∉ PC.claims c.toMetadata st (.received x o data)) := by
      rintro j rfl hlen hin
      obtain ⟨hne, hin⟩ := mem_release.mp hin
      refine keep hin fun hk => ?_
      simp only [PC.claims, if_pos hlen] at hk
      exact (List.mem_cons.mp hk).resolve_left fun heq => hne (by simpa using heq)
    cases hrec with
    -- a block of the wrong length was not among the claims to begin with
    | rejected hrej =>
      refine keep hin fun hk => ?_
      have hlen := hrej.resolve_left (by simp [hl])
      simpa only [PC.claims, if_neg hlen] using hk
    | stored j hx _ _ hlen => exact haccept j hx hlen hin
    | mismatch j hx _ _ hlen => exact haccept j hx hlen hin
    | finished j hx _ _ hlen => exact haccept j hx hlen hin
  -- everywhere else nothing is claimed or given up
  all_goals refine keep hin fun hk => ?_
  case shaken ok =>
    cases ok with
    | true => exact hk
    | false => exact (claims_leave _ st).symm ▸ hk
  case bitfield_sent => split <;> exact hk
  case got_bitfield => split <;> exact hk
  case bitfield_stored => split <;> exact hk
  case got_choke => rw [claims_choke_next]; exact hk
  case got_unchoke => rw [claims_request_next_blocks]; exact hk
  case got_request hst' => rw [claims_serve_incoming_requests, hst']; exact hk
  all_goals try exact hk
  all_goals
    simp only [claims_leave, claims_flush_next, claims_serve_incoming_requests,
      claims_serve_next, claims_call, claims_have_next]
    exact hk

/-! ## The Invariant -/

namespace Swarm

variable {m : Metadata} {disk : Option Bytes} {s s' : Swarm} {a : Action}

/-- Every block in flight is some thread's. -/
def Owned (s : Swarm) : Prop :=
  ∀ i : ℕ, ∀ off ∈ s.ctl.inflight i, ∃ id t,
    s.threads id = some t ∧ ((i : ℤ), off) ∈ t.pc.claims s.ctl.toMetadata t.state

/-- A Piece message the step hands to a thread has the right length, when it
    is for a block pending there and in flight. -/
def PiecesSized (s : Swarm) : Action → Prop
  | .thread id (.recv (some ⟨.Piece, p⟩)) =>
    ∀ t, s.threads id = some t → PieceSized s.ctl t.state p
  | _ => True

/-- **Step lemma**: a step with a Piece message of the right length, if any,
    leaves no block in flight without an owner. -/
theorem Owned.stepped (hl : s.ctl.mode = .LEECHER) (hfresh : s.threads s.ctl.crnt_peer = none)
    (ho : s.Owned) (hok : s.PiecesSized a) (h : Stepped sha1 s a s') : s'.Owned := by
  intro i off hin
  cases h with
  | connected =>
    obtain ⟨id, t, ht, hmem⟩ := ho i off hin
    have hne : id ≠ s.ctl.crnt_peer := by
      rintro rfl
      rw [hfresh] at ht
      cases ht
    exact ⟨id, t, (resume_threads_ne _ _ _ hne).trans ht, hmem⟩
  | moved id inp t t' c' ht hmove =>
    have hmeta : (s.resume c' id t').ctl.toMetadata = s.ctl.toMetadata := hmove.toMetadata
    rw [hmeta]
    have hpiece : ∀ p, inp = .recv (some ⟨.Piece, p⟩) → PieceSized s.ctl t.state p := by
      rintro p rfl
      exact hok t ht
    rcases hmove.claims_kept hl hpiece hin with hmem | ⟨hin, hnot⟩
    · exact ⟨id, t', resume_threads_self _ _ _ _, hmem⟩
    -- the owner is another thread, which has not moved
    · obtain ⟨id', u, hu, hmem⟩ := ho i off hin
      have hne : id' ≠ id := by
        rintro rfl
        rw [ht] at hu
        obtain rfl := Option.some.inj hu
        exact hnot hmem
      exact ⟨id', u, (resume_threads_ne _ _ _ hne).trans hu, hmem⟩

theorem reachable_owned (hm : m.mode = .LEECHER)
    (h : ((system sha1 m disk).restrict PiecesSized).Reachable s) : s.Owned := by
  refine System.invariant (I := Owned) ?_ ?_ s h
  · rintro s rfl i off hin
    simp [start, Controller.make] at hin
  · intro s a s' hr ho hst
    have hreach := hr.of_restrict
    have hfresh : s.threads s.ctl.crnt_peer = none := by
      cases ht : s.threads s.ctl.crnt_peer with
      | none => rfl
      | some t => exact absurd (reachable_fresh hreach _ t ht) (lt_irrefl _)
    exact ho.stepped ((reachable_toMetadata hreach) ▸ hm) hfresh hst.1 (next_stepped hst.2)

/-- **No leaked block**: while no Piece message of the wrong length is handled
    for a block that is pending with its sender and in flight, every block in
    flight is, whenever all live threads wait in `read_message`, in the
    pending requests of a connected peer. -/
theorem inflight_pending (sha1 : Bytes → Bytes) {m : Metadata} (hm : m.mode = .LEECHER)
    (disk : Option Bytes) {s : Swarm}
    (h : ((system sha1 m disk).restrict PiecesSized).Reachable s) (hw : s.AllWaiting) :
    ∀ i : ℕ, ∀ off ∈ s.ctl.inflight i, ∃ id t, s.threads id = some t ∧ t.pc = .read_message ∧
      ∃ req ∈ t.state.pending_requests, req.piece_index = i ∧ req.block_offset = off := by
  intro i off hin
  obtain ⟨id, t, ht, hmem⟩ := reachable_owned hm h i off hin
  -- a thread that has ended claims nothing
  rcases hw id t ht with hpc | hpc <;> rw [hpc] at hmem
  · cases hmem
  · obtain ⟨req, hreq, hkey⟩ := List.mem_map.mp hmem
    obtain ⟨h₁, h₂⟩ := Prod.mk.inj hkey
    exact ⟨id, t, ht, hpc, req, hreq, h₁, h₂⟩

/-- Every Piece message has the length of the block it names. -/
def pieces_sized (s : Swarm) : Action → Bool
  | .thread _ (.recv (some ⟨.Piece, p⟩)) =>
    ((p.drop 8).length : ℤ) == s.ctl.block_size (ntohl p 0) (ntohl p 4)
  | _ => true

theorem piecesSized_of_computed (s : Swarm) (a : Action) (h : s.pieces_sized a = true) :
    s.PiecesSized a := by
  unfold PiecesSized
  split
  · intro t _ _ i _ _ _
    exact eq_of_beq h
  · trivial

/-- The block that has not come yet is in flight and pending. -/
theorem pair_inflight_pending : ∃ s : Swarm, s.ctl.piece_status 0 = 1 ∧ 0 ∈ s.ctl.inflight 1 ∧
    ∃ id t, s.threads id = some t ∧ t.pc = .read_message ∧
      ∃ req ∈ t.state.pending_requests, req.piece_index = 1 ∧ req.block_offset = 0 := by
  obtain ⟨s, hr, hs⟩ := System.Reachable.exists_of_run
    (System.guarded_step piecesSized_of_computed next_step)
    (.init rfl : ((system id (.pair .LEECHER [7] [8]) none).restrict PiecesSized).Reachable _)
    first_of_pair (P := fun s => s.all_waiting && s.ctl.piece_status 0 == 1 &&
      decide (0 ∈ s.ctl.inflight 1))
    (by decide +kernel)
  simp only [Bool.and_eq_true, beq_iff_eq, decide_eq_true_eq] at hs
  obtain ⟨⟨hw, hdone⟩, hin⟩ := hs
  have hw := allWaiting_of_computed hr.of_restrict hw
  exact ⟨s, hdone, hin, inflight_pending id rfl none hr hw 1 0 hin⟩

/-- A leecher of a one-byte file requests its block. -/
def request_steps : List Action :=
  greet 0 ++ hear 0 ⟨.Bitfield, [128]⟩ [.call, .call, .call]
    ++ hear 0 ⟨.Unchoke, []⟩ [.call, .sent true, .call]

/-- A Piece message with two bytes for the one-byte block: the request is gone
    and the block stays in flight. -/
theorem wrong_length_leaks : ∃ s : Swarm,
    (system id (.tiny .LEECHER []) none).Reachable s ∧ s.AllWaiting ∧
      0 ∈ s.ctl.inflight 0 ∧ ¬ ∃ id t, s.threads id = some t ∧
        ∃ req ∈ t.state.pending_requests, req.piece_index = 0 ∧ req.block_offset = 0 := by
  obtain ⟨s, hr, hs⟩ := System.Reachable.exists_of_run next_step
    (.init rfl : (system id (.tiny .LEECHER []) none).Reachable _)
    (request_steps ++ hear 0 (build_piece_msg 0 0 [7, 7]) [.call, .call])
    (P := fun s => s.all_waiting && decide (0 ∈ s.ctl.inflight 0) && s.ctl.crnt_peer == 1 &&
      (s.threads 0).all fun t => t.state.pending_requests.isEmpty)
    (by decide +kernel)
  simp only [Bool.and_eq_true, decide_eq_true_eq, beq_iff_eq] at hs
  obtain ⟨⟨⟨hw, hin⟩, hpeers⟩, hempty⟩ := hs
  refine ⟨s, hr, allWaiting_of_computed hr hw, hin, ?_⟩
  rintro ⟨id, t, ht, req, hreq, -⟩
  have hid := reachable_fresh hr id t ht
  obtain rfl : id = 0 := by omega
  rw [ht, Option.all_some, List.isEmpty_iff] at hempty
  rw [hempty] at hreq
  cases hreq

end Swarm

end BitTorrentLite
