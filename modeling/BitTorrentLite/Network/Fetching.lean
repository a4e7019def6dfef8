import BitTorrentLite.Swarm.Ownership
import BitTorrentLite.Swarm.Stranding
import BitTorrentLite.TwoParty.Exchange

/-! # A Leecher and One of Its Seeders

    What holds at a thread of a leecher whose peer is a seeder, whatever the
    other threads of the leecher do. It asks only while it is interested and
    not choked, and it is eager until there is nothing left for it to ask: it
    has still to hear from the seeder, waits for a block, or is about to
    request one.
-/

open Machine Region LTS

namespace BitTorrentLite

open Controller

/-! ## Points of Such a Thread -/

/-- The thread is interested and its peer does not choke it. -/
def PeerState.Asking (st : PeerState) : Prop :=
  st.am_interested = true ∧ st.peer_choking = false

theorem PeerState.not_asking_of_choked {st : PeerState} (h : st.peer_choking = true) :
    ¬ st.Asking := by
  intro hask
  rw [hask.2] at h
  cases h

theorem PeerState.not_asking_of_declined {st : PeerState} (h : st.am_interested = false) :
    ¬ st.Asking := by
  intro hask
  rw [hask.1] at h
  cases h

/-- What comes from a seeder to a thread in the state `st`. -/
def Comes (st : PeerState) (msg : PeerMessage) : Prop :=
  match msg.id with
  | .Bitfield => st.am_interested = true ∧ st.peer_choking = true
  | .Unchoke => True
  | .Choke => st.am_interested = false
  | .Piece => st.Asking
  | _ => False

/-- The points such a thread comes to, with what it knows there. -/
def PC.Fetches (st : PeerState) : PC → Prop
  | .opening => st.peer_choking = true
  | .send_bitfield _ => st.peer_choking = true
  | .send_interested => st.peer_choking = true
  | .loop_top => True
  | .flush_haves => True
  | .send_have _ _ => True
  | .read_message => True
  | .request => st.Asking
  | .send_request _ => st.Asking
  | .received _ _ _ => st.Asking
  | .bitfield_probe => st.am_interested = true ∧ st.peer_choking = true
  | .bitfield_release _ => st.am_interested = true ∧ st.peer_choking = true
  | .bitfield_store _ => st.am_interested = true ∧ st.peer_choking = true
  | .send_not_interested => st.peer_choking = true
  | .cleanup _ _ => True
  | .unregister => True
  | .closed => True
  | _ => False

/-- What holds at the thread between any two steps. -/
structure Fetching (st : PeerState) (pc : PC) : Prop where
  point : pc.Fetches st
  /-- The seeder asks for nothing. -/
  choking : st.am_choking = true
  none_pending : ¬ st.Asking → st.pending_requests = []

/-- The thread asks for a block, waits for one, or is going to hear of some. -/
def PC.Eager (st : PeerState) : PC → Prop
  | .handshake => True
  | .opening => True
  | .send_bitfield _ => True
  | .send_interested => True
  | .loop_top => st.am_interested = true ∧ (st.peer_choking = true ∨ st.pending_requests ≠ [])
  | .flush_haves => st.am_interested = true ∧ (st.peer_choking = true ∨ st.pending_requests ≠ [])
  | .send_have _ _ => st.am_interested = true ∧ (st.peer_choking = true ∨ st.pending_requests ≠ [])
  | .read_message => st.am_interested = true ∧ (st.peer_choking = true ∨ st.pending_requests ≠ [])
  | .request => True
  | .send_request _ => True
  | .received _ _ _ => True
  | .bitfield_probe => True
  | .bitfield_release _ => True
  | .bitfield_store _ => True
  | _ => False

section moves

variable {sha1 : Bytes → Bytes} {c c' : Controller} {id : ℕ} {st st' : PeerState} {pc pc' : PC}
  {inp : Input}

/-! ### Jumps -/

theorem fetches_leave : (leave st).Fetches st := leave_cases trivial fun _ _ => trivial

theorem fetches_request_loop (h : st.Asking) : (request_loop st).Fetches st :=
  request_loop_cases trivial h

theorem fetches_request_next_blocks (m : Metadata) : (request_next_blocks m st).Fetches st := by
  unfold request_next_blocks
  split
  · trivial
  · rename_i hno
    simp only [not_or, Bool.not_eq_true, Bool.not_eq_false] at hno
    exact fetches_request_loop ⟨hno.2.2, hno.2.1⟩

/-- The thread serves nothing: it chokes. -/
theorem fetches_flush {haves : List ℤ} (h : st.am_choking = true) :
    (flush_next st haves).Fetches st := by
  cases haves with
  | nil =>
    show (serve_incoming_requests st .before_read).Fetches st
    unfold serve_incoming_requests
    rw [if_pos h]
    trivial
  | cons piece rest => trivial

theorem eager_request_loop (h : st.Asking) : (request_loop st).Eager st := by
  unfold request_loop
  split
  · trivial
  · rename_i hfull
    refine ⟨h.1, .inr ?_⟩
    intro hnil
    rw [hnil] at hfull
    exact hfull (by decide)

theorem eager_request_next_blocks (hl : c.mode = .LEECHER) (h : st.Asking) :
    (request_next_blocks c.toMetadata st).Eager st := by
  unfold request_next_blocks
  rw [if_neg]
  · exact eager_request_loop h
  · simp [hl, h.1, h.2]

theorem eager_flush {haves : List ℤ} (hchoking : st.am_choking = true)
    (h : PC.loop_top.Eager st) : (flush_next st haves).Eager st := by
  cases haves with
  | nil =>
    show (serve_incoming_requests st .before_read).Eager st
    unfold serve_incoming_requests
    rw [if_pos hchoking]
    exact h
  | cons piece rest => exact h

/-! ### What a Step Preserves -/

/-- Where the thread goes. -/
theorem Fetching.point_moved (hl : c.mode = .LEECHER) (h : Fetching st pc)
    (hmove : Move sha1 c id st pc inp c' st' pc') (hsent : inp ≠ .sent false)
    (hmsg : ∀ msg, inp = .recv (some msg) → Comes st msg) : pc'.Fetches st' := by
  have hpoint := h.point
  cases hmove
  case opened => exact hpoint
  case bitfield_sent =>
    rw [if_pos hl]
    exact hpoint
  case interested_sent => trivial
  case finished => exact fetches_leave
  case disconnected => exact fetches_leave
  case continued => trivial
  case drained => exact fetches_flush h.choking
  case have_sent => exact fetches_flush h.choking
  case ignored => trivial
  -- a seeder chokes a thread that has declined, so nothing is pending
  case got_choke =>
    have hcomes : st.am_interested = false := hmsg _ rfl
    unfold choke_next
    rw [h.none_pending (st.not_asking_of_declined hcomes)]
    trivial
  case got_unchoke => exact fetches_request_next_blocks _
  case got_bitfield =>
    rw [if_pos hl]
    exact hmsg _ rfl
  case got_piece =>
    have hask : st.Asking := hmsg _ rfl
    exact hask
  case request_none => trivial
  case request_some => exact hpoint
  case request_sent req hst' =>
    have hask : st.Asking := hpoint
    subst hst'
    exact fetches_request_loop hask
  case bitfield_none => exact hpoint.2
  case bitfield_some => exact hpoint
  case bitfield_released => exact hpoint
  case bitfield_stored =>
    rw [if_pos hpoint.1]
    trivial
  case not_interested_sent => trivial
  case block_received => exact fetches_request_next_blocks _
  case cleanup_released => trivial
  case cleanup_done => trivial
  case unregistered => trivial
  case have_unsent => exact absurd rfl hsent
  case request_unsent => exact absurd rfl hsent
  all_goals first
    | exact hpoint.elim
    | exact (hmsg _ rfl).elim

/-- What it keeps in its state. -/
theorem Fetching.state_moved (h : Fetching st pc)
    (hmove : Move sha1 c id st pc inp c' st' pc')
    (hmsg : ∀ msg, inp = .recv (some msg) → Comes st msg) :
    st'.am_choking = true ∧ (¬ st'.Asking → st'.pending_requests = []) := by
  have hpoint := h.point
  have hchoking := h.choking
  have hnone := h.none_pending
  cases hmove
  case got_choke =>
    have hcomes : st.am_interested = false := hmsg _ rfl
    exact ⟨hchoking, fun _ => hnone (st.not_asking_of_declined hcomes)⟩
  case got_unchoke =>
    refine ⟨hchoking, fun hnot => hnone ?_⟩
    exact fun hask => hnot ⟨hask.1, rfl⟩
  -- before the Unchoke nothing is pending
  case interested_sent => exact ⟨hchoking, fun _ => hnone (st.not_asking_of_choked hpoint)⟩
  case not_interested_sent => exact ⟨hchoking, fun _ => hnone (st.not_asking_of_choked hpoint)⟩
  case got_piece =>
    refine ⟨hchoking, fun hnot => ?_⟩
    exact absurd (show st.Asking from hmsg _ rfl) hnot
  case request_sent req hst' =>
    have hask : st.Asking := hpoint
    subst hst'
    exact ⟨hchoking, fun hnot => absurd hask hnot⟩
  case got_request hopen _ =>
    rw [hopen] at hchoking
    cases hchoking
  case got_interested => exact (hmsg _ rfl).elim
  case got_not_interested => exact (hmsg _ rfl).elim
  case choke_cleared => exact hpoint.elim
  all_goals exact ⟨hchoking, hnone⟩

/-- **Step lemma** for the thread. -/
theorem Fetching.moved (hl : c.mode = .LEECHER) (h : Fetching st pc)
    (hmove : Move sha1 c id st pc inp c' st' pc') (hsent : inp ≠ .sent false)
    (hmsg : ∀ msg, inp = .recv (some msg) → Comes st msg) : Fetching st' pc' := by
  obtain ⟨hchoking, hnone⟩ := h.state_moved hmove hmsg
  exact ⟨h.point_moved hl hmove hsent hmsg, hchoking, hnone⟩

/-- The thread as it enters the loop. -/
theorem fetching_start : Fetching {} .opening := ⟨rfl, rfl, fun _ => rfl⟩

/-! ### What It Asks For -/

/-- **Eagerness**: an eager thread stays so until nothing is left to ask for. -/
theorem Fetching.eager_moved (hl : c.mode = .LEECHER) (h : Fetching st pc)
    (hmove : Move sha1 c id st pc inp c' st' pc') (hsent : inp ≠ .sent false)
    (hopen : inp ≠ .recv none) (hmsg : ∀ msg, inp = .recv (some msg) → Comes st msg)
    (hfull : pc = .request ∨ pc = .bitfield_probe → c.Full st.peer_bitfield)
    (hdone : c.all_done = true → ∀ i < c.total_pieces, c.piece_status i = 1)
    (heager : pc.Eager st) : pc'.Eager st' ∨ ∀ i off, ¬ c'.Available i off := by
  have hpoint := h.point
  cases hmove
  case shaken ok => exact hpoint.elim
  case opened => exact .inl trivial
  case bitfield_sent =>
    rw [if_pos hl]
    exact .inl trivial
  case interested_sent => exact .inl ⟨rfl, .inl hpoint⟩
  -- it leaves when every piece is done
  case finished hall =>
    refine .inr ?_
    intro i off ha
    exact ha.missing (hdone hall i ha.piece)
  case disconnected => exact absurd rfl hopen
  case continued => exact .inl heager
  case drained => exact .inl (eager_flush h.choking heager)
  case have_sent => exact .inl (eager_flush h.choking heager)
  case ignored => exact .inl heager
  case got_choke =>
    have hcomes : st.am_interested = false := hmsg _ rfl
    rw [heager.1] at hcomes
    cases hcomes
  case got_unchoke =>
    have hint : st.am_interested = true := heager.1
    exact .inl (eager_request_next_blocks hl ⟨hint, rfl⟩)
  case got_bitfield =>
    rw [if_pos hl]
    exact .inl trivial
  case got_piece => exact .inl trivial
  -- `next_request` finds nothing although the seeder has every piece
  case request_none hnone =>
    refine .inr ?_
    intro i off ha
    have hbit := hnone hl i off ha
    rw [hfull (.inl rfl) i ha.piece] at hbit
    cases hbit
  case bitfield_none hnone =>
    refine .inr ?_
    intro i off ha
    have hbit := hnone hl i off ha
    rw [hfull (.inr rfl) i ha.piece] at hbit
    cases hbit
  case request_some => exact .inl trivial
  case request_sent req hst' =>
    have hask : st.Asking := hpoint
    subst hst'
    exact .inl (eager_request_loop hask)
  case bitfield_some => exact .inl trivial
  case bitfield_released => exact .inl trivial
  case bitfield_stored =>
    rw [if_pos hpoint.1]
    exact .inl ⟨hpoint.1, .inl hpoint.2⟩
  case block_received => exact .inl (eager_request_next_blocks hl hpoint)
  case have_unsent => exact absurd rfl hsent
  case request_unsent => exact absurd rfl hsent
  all_goals first
    | exact hpoint.elim
    | exact heager.elim
    | exact (hmsg _ rfl).elim

/-- A step returns a block to the pool where the thread is eager, or has left. -/
theorem Fetching.returns (h : Fetching st pc) {i : ℕ} {off : ℤ} (hret : pc.Returns sha1 c i off) :
    pc.Eager st ∨ (pc.Left ∧ c.Missing i off) := by
  have hpoint := h.point
  cases pc with
  | bitfield_release | bitfield_store | received => exact .inl trivial
  | cleanup => exact .inr ⟨trivial, hret.2.2⟩
  | choke_release | request_release | have_release => exact hpoint.elim
  | _ => exact hret.elim

/-- A thread that claims a block and has not left is eager. -/
theorem Fetching.claims_eager (h : Fetching st pc) {m : Metadata} {k : ℤ × ℤ}
    (hk : k ∈ pc.claims m st) (hin : ¬ pc.Left) : pc.Eager st := by
  -- with a request pending it is asking
  have asking (hk : k ∈ st.pending_keys) : PC.loop_top.Eager st := by
    have hne : st.pending_requests ≠ [] := by
      intro hnil
      rw [PeerState.pending_keys, hnil] at hk
      cases hk
    have hask : st.Asking := by
      by_contra hnot
      exact hne (h.none_pending hnot)
    exact ⟨hask.1, .inr hne⟩
  have hpoint := h.point
  cases pc with
  | loop_top | flush_haves | send_have | read_message => exact asking hk
  | send_not_interested =>
    have hnil := h.none_pending (st.not_asking_of_choked hpoint)
    change k ∈ st.pending_keys at hk
    rw [PeerState.pending_keys, hnil] at hk
    cases hk
  | opening | send_bitfield | send_interested | request | send_request | received
  | bitfield_probe | bitfield_release | bitfield_store => trivial
  | cleanup | unregister | closed => exact absurd trivial hin
  | _ => exact hpoint.elim

end moves

end BitTorrentLite
