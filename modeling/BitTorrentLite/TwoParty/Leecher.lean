import BitTorrentLite.Swarm.Ownership
import BitTorrentLite.Swarm.Stranding
import BitTorrentLite.TwoParty.Exchange

/-! # A Leecher and Its Only Peer

    What holds at a leecher whose one thread is the only one to use the
    controller, while the other side sends what a seeder of the whole file
    sends: one Bitfield with every piece before Unchoke, and the blocks asked
    for after it.
-/

open Machine Region LTS

namespace BitTorrentLite

open Controller

/-- What reaches a leecher in the state `st` from a seeder of the file `F`. -/
structure Arrives (m : Metadata) (F : Bytes) (st : PeerState) (msg : PeerMessage) : Prop where
  sent : FromSeeder m F msg
  early : msg.id = .Bitfield → st.peer_choking = true
  late : msg.id = .Piece → st.peer_choking = false

/-- The points such a leecher comes to, with what it knows there. -/
def PC.Leeches (m : Metadata) (F : Bytes) (st : PeerState) : PC → Prop
  | .opening => st.peer_choking = true
  | .send_bitfield _ => st.peer_choking = true
  | .send_interested => st.peer_choking = true
  | .loop_top => st.am_interested = true
  | .flush_haves => st.am_interested = true
  | .send_have piece rest => st.am_interested = true ∧ ∀ x ∈ piece :: rest, m.Has x
  | .read_message => st.am_interested = true
  | .request => st.am_interested = true ∧ st.peer_choking = false
  | .send_request req => st.am_interested = true ∧ st.peer_choking = false ∧
      m.IsBlock req.piece_index req.block_offset
  | .bitfield_probe =>
    st.am_interested = true ∧ st.peer_choking = true ∧ m.Full st.peer_bitfield
  | .bitfield_release _ => st.am_interested = true ∧ st.peer_choking = true
  | .bitfield_store _ => st.am_interested = true ∧ st.peer_choking = true
  | .received x off data => st.am_interested = true ∧ st.peer_choking = false ∧
      ∃ i < m.total_pieces, ∃ b < m.block_count i,
        x = i ∧ off = Metadata.block_offset b ∧ data = m.block_of F i b
  | .cleanup _ _ => True
  | .unregister => True
  | .closed => True
  | _ => False

/-- What holds at the leecher between any two steps. -/
structure Leeching (F : Bytes) (peer_id : ℕ) (c : Controller) (st : PeerState) (pc : PC) :
    Prop where
  point : pc.Leeches c.toMetadata F st
  /-- The seeder asks for nothing. -/
  choking : st.am_choking = true
  no_incoming : st.incoming_requests = []
  /-- Nothing is asked for, and nothing done, before the Unchoke. -/
  none_pending : st.peer_choking = true → st.pending_requests = []
  none_done : st.peer_choking = true → ∀ i < c.total_pieces, c.piece_status i ≠ 1
  /-- What the seeder is to be told names pieces of the torrent. -/
  announced : ∀ x ∈ (c.send_haves peer_id).getD [], c.Has x
  delivering : c.Delivering F
  owned : ∀ i : ℕ, ∀ off ∈ c.inflight i, ((i : ℤ), off) ∈ pc.claims c.toMetadata st
  choked : pc.Choked st
  nothing_on_offer : pc.Idle st → ∀ i off, c.Available i off → st.peer_bitfield i = false
  guarded : st.Guarded c.toMetadata ∧ pc.Guarded c.toMetadata
  finished : pc.Left → c.all_done = true

section moves

variable {sha1 : Bytes → Bytes} {F : Bytes} {c c' : Controller} {peer_id : ℕ}
  {st st' : PeerState} {pc pc' : PC} {inp : Input}

/-! ### Jumps -/

theorem leeches_request_next_blocks {m m' : Metadata} (h : st.am_interested = true) :
    (request_next_blocks m' st).Leeches m F st := by
  unfold request_next_blocks
  split
  · exact h
  · rename_i hno
    simp only [not_or, Bool.not_eq_true] at hno
    exact request_loop_cases h ⟨h, hno.2.1⟩

/-- The leecher serves nothing: it chokes. -/
theorem leeches_flush {m : Metadata} {haves : List ℤ} (h : st.am_interested = true)
    (hchoking : st.am_choking = true) (hhaves : ∀ x ∈ haves, m.Has x) :
    (flush_next st haves).Leeches m F st := by
  cases haves with
  | nil =>
    show (serve_incoming_requests st .before_read).Leeches m F st
    unfold serve_incoming_requests
    rw [if_pos hchoking]
    exact h
  | cons piece rest => exact ⟨h, hhaves⟩

/-! ### What a Step Preserves -/

/-- With nothing claimed by the one thread, nothing is in flight. -/
theorem Leeching.inflight_eq_empty (h : Leeching F peer_id c st pc)
    (hnone : pc.claims c.toMetadata st = []) (i : ℕ) : c.inflight i = ∅ := by
  refine Finset.eq_empty_of_forall_notMem fun off hoff => ?_
  have hmine := h.owned i off hoff
  rw [hnone] at hmine
  cases hmine

/-- Right after a full Bitfield there is something to ask for. -/
theorem Leeching.on_offer (hg : c.Consistent) (hfit : c.CountFits)
    (h : Leeching F peer_id c st .bitfield_probe) :
    ∃ i off, c.Available i off ∧ st.peer_bitfield i = true := by
  obtain ⟨-, hchoking, hfull⟩ := h.point
  have hpos := hg.total_pieces_pos
  have hnone : st.pending_keys = [] := List.map_eq_nil_iff.mpr (h.none_pending hchoking)
  have hin := h.inflight_eq_empty hnone 0
  obtain ⟨off, ha⟩ := h.delivering.missing hg hfit hpos (h.none_done hchoking 0 hpos) hin
  exact ⟨0, off, ha, hfull 0 hpos⟩

/-- Where the leecher goes. -/
theorem Leeching.point_moved (hl : c.mode = .LEECHER) (hg : c.Consistent) (hfit : c.CountFits)
    (h : Leeching F peer_id c st pc) (hmove : Move sha1 c peer_id st pc inp c' st' pc')
    (hsent : inp ≠ .sent false)
    (harr : ∀ msg, inp = .recv (some msg) → Arrives c.toMetadata F st msg) :
    pc'.Leeches c.toMetadata F st' := by
  have hpoint := h.point
  cases hmove
  case opened => exact hpoint
  case bitfield_sent =>
    rw [if_pos hl]
    exact hpoint
  case interested_sent => exact rfl
  case finished => exact leave_cases trivial fun _ _ => trivial
  case disconnected => exact leave_cases trivial fun _ _ => trivial
  case continued => exact hpoint
  case drained => exact leeches_flush hpoint h.choking h.announced
  case have_sent =>
    exact leeches_flush hpoint.1 h.choking fun x hx => hpoint.2 x (List.mem_cons_of_mem _ hx)
  case ignored => exact hpoint
  case got_unchoke => exact leeches_request_next_blocks hpoint
  case got_bitfield =>
    rw [if_pos hl]
    exact ⟨hpoint, (harr _ rfl).early rfl, (harr _ rfl).sent _⟩
  case got_piece =>
    obtain ⟨-, i, hi, b, hb, hx, hoff, hdata⟩ := (harr _ rfl).sent
    exact ⟨hpoint, (harr _ rfl).late rfl, i, hi, b, hb, hx, hoff, hdata⟩
  case got_cancel => exact hpoint
  case request_none => exact hpoint.1
  case request_some i off _ ha _ =>
    obtain ⟨b, hb, rfl⟩ := ha.block_lt hg hfit
    exact ⟨hpoint.1, hpoint.2, Metadata.isBlock_block ha.piece hb⟩
  case request_sent req hst' =>
    subst hst'
    exact request_loop_cases hpoint.1 ⟨hpoint.1, hpoint.2.1⟩
  -- a full Bitfield at the start: there is always something to ask for
  case bitfield_none hnone =>
    obtain ⟨i, off, ha, hbf⟩ := h.on_offer hg hfit
    rw [hnone hl i off ha] at hbf
    cases hbf
  case bitfield_some => exact ⟨hpoint.1, hpoint.2.1⟩
  case bitfield_released => exact hpoint
  case bitfield_stored =>
    rw [if_pos hpoint.1]
    exact hpoint.1
  case block_received => exact leeches_request_next_blocks hpoint.1
  case cleanup_released => trivial
  case cleanup_done => trivial
  case unregistered => trivial
  case have_unsent => exact absurd rfl hsent
  case request_unsent => exact absurd rfl hsent
  all_goals first
    | exact hpoint.elim
    | exact (harr _ rfl).sent.elim

/-- What it keeps in its state. -/
theorem Leeching.state_moved (h : Leeching F peer_id c st pc)
    (hmove : Move sha1 c peer_id st pc inp c' st' pc')
    (harr : ∀ msg, inp = .recv (some msg) → Arrives c.toMetadata F st msg) :
    st'.am_choking = true ∧ st'.incoming_requests = [] ∧
      (st'.peer_choking = true →
        st.peer_choking = true ∧ st'.pending_requests = st.pending_requests) := by
  have hpoint := h.point
  have hchoking := h.choking
  have hincoming := h.no_incoming
  cases hmove
  case got_unchoke => exact ⟨hchoking, hincoming, fun h => by cases h⟩
  case got_piece =>
    have hunchoked : st.peer_choking = false := (harr _ rfl).late rfl
    refine ⟨hchoking, hincoming, fun hst => ?_⟩
    rw [show st.peer_choking = true from hst] at hunchoked
    cases hunchoked
  case got_request hopen _ =>
    rw [hopen] at hchoking
    cases hchoking
  case got_cancel => exact (harr _ rfl).sent.elim
  case request_sent req hst' =>
    subst hst'
    have hunchoked : st.peer_choking = false := hpoint.2.1
    refine ⟨hchoking, hincoming, fun hst => ?_⟩
    rw [show st.peer_choking = true from hst] at hunchoked
    cases hunchoked
  case piece_sent => exact hpoint.elim
  case choke_cleared => exact hpoint.elim
  case got_choke => exact (harr _ rfl).sent.elim
  case got_interested => exact (harr _ rfl).sent.elim
  case got_not_interested => exact (harr _ rfl).sent.elim
  all_goals exact ⟨hchoking, hincoming, fun hst => ⟨hst, rfl⟩⟩

/-- Only a block that arrives finishes a piece. -/
theorem Move.newly_done (h : Move sha1 c peer_id st pc inp c' st' pc') {i : ℕ}
    (hone : c'.piece_status i = 1) :
    c.piece_status i = 1 ∨ ∃ x off data, pc = .received x off data := by
  -- a step that gives one piece another status than 1
  have update {j n : ℕ} (hn : n ≠ 1) (hone : Function.update c.piece_status j n i = 1) :
      c.piece_status i = 1 := by
    by_cases hij : i = j
    · rw [hij, Function.update_self] at hone
      exact absurd hone hn
    · rwa [Function.update_of_ne hij] at hone
  cases h
  case request_some => exact .inl (update (by decide) hone)
  case have_some => exact .inl (update (by decide) hone)
  case bitfield_some => exact .inl (update (by decide) hone)
  case bitfield_stored => exact .inl (update (by decide) hone)
  case block_received x off data _ _ => exact .inr ⟨x, off, data, rfl⟩
  all_goals exact .inl hone

/-- What it is going to announce. -/
theorem Leeching.announced_moved (h : Leeching F peer_id c st pc)
    (hmove : Move sha1 c peer_id st pc inp c' st' pc') :
    ∀ x ∈ (c'.send_haves peer_id).getD [], c.Has x := by
  have hann := h.announced
  cases hmove
  case drained =>
    intro x hx
    simp [drain_haves] at hx
  case unregistered =>
    intro x hx
    simp [unregister_peer] at hx
  case block_received x off data done hrec =>
    cases hrec with
    | finished i _ hi =>
      intro y hy
      change y ∈ ((c.send_haves peer_id).map (· ++ [(i : ℤ)])).getD [] at hy
      cases hq : c.send_haves peer_id with
      | none =>
        rw [hq] at hy
        cases hy
      | some haves =>
        rw [hq] at hy hann
        rcases List.mem_append.mp hy with hold | hnew
        · exact hann y hold
        · rw [List.mem_singleton.mp hnew]
          exact Metadata.has_natCast hi
    | _ => exact hann
  all_goals exact hann

/-- The blocks and the file: only blocks of the original are stored. -/
theorem Leeching.delivering_moved (hl : c.mode = .LEECHER) (hg : c.Consistent)
    (hfit : c.CountFits) (ho : c.Original sha1 F) (h : Leeching F peer_id c st pc)
    (hmove : Move sha1 c peer_id st pc inp c' st' pc') : c'.Delivering F := by
  have hpoint := h.point
  have hdel := h.delivering
  cases hmove
  case drained => exact hdel.undisturbed (c.undisturbed_queues _ _)
  case unregistered => exact hdel.undisturbed (c.undisturbed_queues _ _)
  case choke_released => exact hdel.release _ _
  case choke_cleared => exact hdel.release _ _
  case request_released => exact hdel.release _ _
  case have_released => exact hdel.release _ _
  case bitfield_released => exact hdel.release _ _
  case cleanup_released => exact hdel.release _ _
  case cleanup_done => exact hdel.release _ _
  case request_some => exact hdel.claim _ _
  case have_some => exact hdel.claim _ _
  case bitfield_some => exact hdel.claim _ _
  case bitfield_stored => exact hdel.clear _
  case block_received hrec =>
    obtain ⟨-, -, i, hi, b, hb, rfl, rfl, rfl⟩ := hpoint
    exact hdel.received hg hfit ho hl hi hb hrec
  all_goals exact hdel

/-- A block that arrives was asked for, or its message has its length. -/
theorem Arrives.pieceSized (hg : c.Consistent) (ho : c.Original sha1 F) {p : Bytes}
    (h : Arrives c.toMetadata F st ⟨.Piece, p⟩) : PieceSized c st p := by
  intro _ _ _ _ _
  obtain ⟨-, i, hi, b, hb, hx, hoff, hdata⟩ := h.sent
  rw [show ntohl p 0 = i from hx, show ntohl p 4 = Metadata.block_offset b from hoff,
    show p.drop 8 = c.block_of F i b from hdata, Metadata.block_of_length hg ho hi hb,
    hg.block_size_eq hi hb]

/-- An idle leecher returns nothing to the pool. -/
theorem Leeching.not_returns (h : Leeching F peer_id c st pc) (hidle : pc.Idle st) (i : ℕ)
    (off : ℤ) : ¬ pc.Returns sha1 c i off := by
  have hpoint := h.point
  -- while the peer chokes us the thread is not idle
  have awake (hready : st.Ready) (hchoking : st.peer_choking = true) : False := by
    rw [hready.1] at hchoking
    cases hchoking
  intro hret
  cases pc with
  | bitfield_release req => exact awake hidle hpoint.2
  | bitfield_store req => exact awake hidle hpoint.2
  | received x off data => exact hidle
  | cleanup req rest => exact hidle
  | choke_release req rest => exact hpoint
  | request_release req => exact hpoint
  | have_release req => exact hpoint
  | _ => exact hret

theorem Arrives.heardInTime {msg : PeerMessage} (h : Arrives c.toMetadata F st msg) :
    HeardInTime c st (.recv (some msg)) := by
  rcases msg with ⟨mid, p⟩
  cases mid with
  | Have => exact h.sent.elim
  | Bitfield =>
    intro hready
    have hchoking : st.peer_choking = true := h.early rfl
    rw [hready.1] at hchoking
    cases hchoking
  | _ => trivial

/-- It leaves when all is done. -/
theorem Leeching.finished_moved (h : Leeching F peer_id c st pc)
    (hmove : Move sha1 c peer_id st pc inp c' st' pc') (hopen : inp ≠ .recv none)
    (hleft : pc'.Left) : c'.all_done = true := by
  rcases hmove.target with hin | rfl | ⟨-, -, hop⟩ | ⟨-, hwas | hnone | ⟨-, hdone⟩⟩
  · exact absurd hleft hin.not_left
  · exact h.point.elim
  · exact absurd hop hleft.not_opening
  · -- the cleanup leaves the pieces alone
    have hdone := h.finished hwas
    cases hmove
    case cleanup_released => exact hdone
    case cleanup_done => exact hdone
    case unregistered => exact hdone
    all_goals exact hwas.elim
  · exact absurd hnone hopen
  · exact hdone

/-- **Step lemma** for the leecher. -/
theorem Leeching.moved (hl : c.mode = .LEECHER) (hg : c.Consistent) (hfit : c.CountFits)
    (ho : c.Original sha1 F) (h : Leeching F peer_id c st pc)
    (hmove : Move sha1 c peer_id st pc inp c' st' pc') (hsent : inp ≠ .sent false)
    (hopen : inp ≠ .recv none)
    (harr : ∀ msg, inp = .recv (some msg) → Arrives c.toMetadata F st msg) :
    Leeching F peer_id c' st' pc' := by
  have hmeta := hmove.toMetadata
  obtain ⟨hchoking, hincoming, hearly⟩ := h.state_moved hmove harr
  have hok : ∀ msg, inp = .recv (some msg) → MessageOk c.toMetadata st msg :=
    fun msg hmsg => (harr msg hmsg).sent.messageOk hg hfit
  have hst := hmove.state_guarded hok h.guarded.1 h.guarded.2
  refine
    { point := ?_
      choking := hchoking
      no_incoming := hincoming
      none_pending := fun hst => (hearly hst).2.trans (h.none_pending (hearly hst).1)
      none_done := ?_
      announced := ?_
      delivering := h.delivering_moved hl hg hfit ho hmove
      owned := ?_
      choked := hmove.choked h.choked
      nothing_on_offer := ?_
      guarded := ?_
      finished := h.finished_moved hmove hopen }
  · rw [hmeta]
    exact h.point_moved hl hg hfit hmove hsent harr
  -- a piece is finished by a block, and no block comes before Unchoke
  · intro hst' i hi hone
    have hwas := (hearly hst').1
    rcases hmove.newly_done hone with hone | ⟨x, off, data, rfl⟩
    · exact h.none_done hwas i (hmeta ▸ hi) hone
    · have hunchoked : st.peer_choking = false := h.point.2.1
      rw [hwas] at hunchoked
      cases hunchoked
  · rw [hmeta]
    exact h.announced_moved hmove
  · intro i off hin
    rw [hmeta]
    have hsized : ∀ p, inp = .recv (some ⟨.Piece, p⟩) → PieceSized c st p :=
      fun p hp => (harr _ hp).pieceSized hg ho
    -- the one thread owns all, so a block it gives up is not in flight
    rcases hmove.claims_kept hl hsized hin with hmine | ⟨hwas, hnot⟩
    · exact hmine
    · exact absurd (h.owned i off hwas) hnot
  -- nothing comes within reach of an idle leecher
  · intro hidle i off ha
    have hwas := hmove.available ha
    have hav (hidle : pc.Idle st) : c.Available i off :=
      hwas.resolve_right (h.not_returns hidle i off)
    refine hmove.idle off hl h.choked hsent ?_ ?_ (fun hidle => ?_)
      (fun hidle => (hav hidle).missing) (fun hpc => ?_) hidle
    · rcases inp with _ | _ | msg | _
      · trivial
      · trivial
      · cases msg with
        | none => trivial
        | some msg => exact (harr msg rfl).heardInTime
      · trivial
    · exact hmeta ▸ ha.piece
    · exact h.nothing_on_offer hidle i off (hav hidle)
    · rw [hpc] at hwas
      exact hwas.resolve_right id
  · rw [hmeta]
    exact ⟨hst, hmove.pc_guarded hg hok h.guarded.1 hst h.guarded.2⟩

/-- What the leecher sends. -/
theorem Leeching.output (hg : c.Consistent) (h : Leeching F peer_id c st pc)
    (hmove : Move sha1 c peer_id st pc (.sent true) c' st' pc') :
    ∃ msg, pc.output = some msg ∧ FromLeecher c.toMetadata msg ∧
      (msg.id = .Request → st.peer_choking = false) := by
  have hpoint := h.point
  cases hmove
  case bitfield_sent => exact ⟨_, rfl, trivial, by simp⟩
  case interested_sent => exact ⟨_, rfl, trivial, by simp⟩
  case have_sent piece rest =>
    have hhas := hpoint.2 piece (List.mem_cons_self ..)
    exact ⟨_, rfl, fromLeecher_have hg hhas, by simp [build_have]⟩
  case request_sent req _ =>
    exact ⟨_, rfl, fromLeecher_request hg hpoint.2.2 _, fun _ => hpoint.2.1⟩
  all_goals exact hpoint.elim

/-- The leecher at the start. -/
theorem leeching_start {m : Metadata} (hl : m.mode = .LEECHER) (hg : m.Consistent)
    (disk : Option Bytes) : Leeching F 0 (make m disk).register_peer.1 {} .opening where
  point := rfl
  choking := rfl
  no_incoming := rfl
  none_pending := fun _ => rfl
  none_done := by
    intro _ i _
    simp [register_peer, make, hl]
  announced := by
    intro x hx
    simp [register_peer, make] at hx
  delivering := (delivering_make hg hl disk).undisturbed (undisturbed_queues _ _ _)
  owned := by
    intro i off hin
    cases hin
  choked := rfl
  nothing_on_offer := by
    rintro ⟨⟨hchoking, -⟩, -⟩
    cases hchoking
  guarded := by
    refine ⟨⟨?_, ?_⟩, trivial⟩
    · intro r hr
      cases hr
    · intro r hr
      cases hr
  finished := False.elim

end moves

end BitTorrentLite
