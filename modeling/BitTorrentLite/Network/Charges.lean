import BitTorrentLite.Network.Connections
import BitTorrentLite.Network.Supply
import BitTorrentLite.TwoParty.Charges

/-! # What Is Left to Do among Seeders

    A leecher with several connections is charged as one with a single peer is,
    with three differences. A block calls for a Have to every peer. A Bitfield
    may take back the status of a piece that is done, and so return its blocks
    to the pool. And a thread that leaves may return what it has pending, which
    is never more than `pipeline` blocks.
-/

open Machine LTS

namespace BitTorrentLite

open Controller Metadata

/-! ## The Pipeline -/

/-- A thread that is about to request has room for one more. -/
def PC.Pipelined (st : PeerState) : PC → Prop
  | .request => st.pending_requests.length < pipeline
  | .send_request _ => st.pending_requests.length < pipeline
  | _ => st.pending_requests.length ≤ pipeline

section moves

variable {sha1 : Bytes → Bytes} {c c' : Controller} {id : ℕ} {st st' : PeerState} {pc pc' : PC}
  {inp : Input}

theorem PC.Pipelined.length_le (h : pc.Pipelined st) : st.pending_requests.length ≤ pipeline := by
  cases pc with
  | request | send_request => exact Nat.le_of_lt h
  | _ => exact h

theorem pipelined_request_loop (h : st.pending_requests.length ≤ pipeline) :
    (request_loop st).Pipelined st := by
  unfold request_loop
  split
  · assumption
  · exact h

theorem pipelined_request_next_blocks (m : Metadata)
    (h : st.pending_requests.length ≤ pipeline) : (request_next_blocks m st).Pipelined st := by
  unfold request_next_blocks
  split
  · exact h
  · exact pipelined_request_loop h

/-- **Step lemma**: no thread has more than `pipeline` requests pending. -/
theorem Move.pipelined (h : Move sha1 c id st pc inp c' st' pc') (hp : pc.Pipelined st) :
    pc'.Pipelined st' := by
  have hle := hp.length_le
  cases h
  case shaken => split <;> first | exact hle | exact leave_cases hle fun _ _ => hle
  case bitfield_sent => split <;> exact hle
  case finished => exact leave_cases hle fun _ _ => hle
  case disconnected => exact leave_cases hle fun _ _ => hle
  case drained => exact flush_cases hle hle (fun _ _ => hle) fun _ _ => hle
  case have_sent => exact flush_cases hle hle (fun _ _ => hle) fun _ _ => hle
  case have_unsent => exact serve_cases hle hle fun _ _ => hle
  case unchoke_sent => exact serve_cases hle hle fun _ _ => hle
  case got_request hst => exact hst ▸ serve_cases hle hle fun _ _ => hle
  case passed_over => exact serve_next_cases hle hle fun _ _ => hle
  case piece_sent => exact serve_next_cases hle hle fun _ _ => hle
  case piece_unsent call => exact call_cases call hle hle
  case got_choke => exact choke_next_cases hle fun _ _ => hle
  case got_unchoke => exact pipelined_request_next_blocks _ hle
  case got_have => exact have_next_cases hle hle
  case got_have_beyond => exact have_next_cases hle hle
  case got_bitfield => split <;> exact hle
  case got_piece => exact (List.length_filter_le ..).trans hle
  case choke_cleared => exact Nat.zero_le _
  case request_sent req hst =>
    subst hst
    apply pipelined_request_loop
    rw [List.length_append, List.length_singleton]
    exact hp
  case bitfield_stored => split <;> exact hle
  case block_received => exact pipelined_request_next_blocks _ hle
  all_goals first
    | exact hp
    | exact hle

end moves

theorem Swarm.reachable_pipelined {sha1 : Bytes → Bytes} {m : Metadata} {disk : Option Bytes}
    {s : Swarm} (h : (Swarm.system sha1 m disk).Reachable s) :
    ∀ id t, s.threads id = some t → t.pc.Pipelined t.state := by
  refine System.invariant
    (I := fun s : Swarm => ∀ id t, s.threads id = some t → t.pc.Pipelined t.state) ?_ ?_ s h
  · rintro s rfl id t ht
    cases ht
  · intro s a s' _ hs hst id t ht
    cases next_stepped hst with
    | connected =>
      rcases resume_threads ht with ⟨-, rfl⟩ | ⟨-, ht⟩
      · exact Nat.zero_le _
      · exact hs id t ht
    | moved id' inp t₀ t' c' ht₀ hmove =>
      rcases resume_threads ht with ⟨-, rfl⟩ | ⟨-, ht⟩
      · exact hmove.pipelined (hs id' t₀ ht₀)
      · exact hs id t ht

/-- Neither has the thread of a side. -/
theorem Swarm.party_pipelined (s : Swarm)
    (h : ∀ id t, s.threads id = some t → t.pc.Pipelined t.state) (p : ℕ) :
    (s.party p).thread.pc.Pipelined (s.party p).thread.state := by
  show (s.thread p).entered.pc.Pipelined (s.thread p).entered.state
  have hp : (s.thread p).pc.Pipelined (s.thread p).state := by
    unfold Swarm.thread
    cases ht : s.threads p with
    | none => exact Nat.zero_le _
    | some t => exact h p t ht
  unfold Thread.entered
  split
  · exact hp.length_le
  · exact hp

/-! ## Charges -/

/-- What a block in the pool is charged. -/
def block_charge (peers : ℕ) : ℕ := 4 * peers + 12

/-- What the Bitfield of a seeder is charged. -/
def bitfield_charge (peers blocks : ℕ) : ℕ := blocks * block_charge peers + 13

/-- What a thread may have to do to leave. -/
def leaving_charge (peers : ℕ) : ℕ := (block_charge peers + 1) * pipeline + 1

/-- What is left to do at a point of a leecher's thread. -/
def PC.fetch_charge (peers blocks : ℕ) : PC → ℕ
  | .opening => leaving_charge peers + 17
  | .send_bitfield _ => leaving_charge peers + 16
  | .send_interested => leaving_charge peers + 12
  | .loop_top => leaving_charge peers + 3
  | .flush_haves => leaving_charge peers + 2
  | .send_have _ rest => leaving_charge peers + 5 + 4 * rest.length
  | .read_message => leaving_charge peers + 1
  | .request => leaving_charge peers + 4
  | .send_request _ => leaving_charge peers + 4 * peers + 15
  | .received _ _ _ => leaving_charge peers + 4 * peers + 5
  | .bitfield_probe => leaving_charge peers + bitfield_charge peers blocks
  | .bitfield_release _ =>
    leaving_charge peers + blocks * block_charge peers + block_charge peers + 12
  | .bitfield_store _ => leaving_charge peers + blocks * block_charge peers + 11
  | .send_not_interested => leaving_charge peers + 12
  | .cleanup _ rest => (block_charge peers + 1) * (rest.length + 1) + 1
  | .unregister => 1
  | _ => 0

/-- Of two sums, with one term of each left out. -/
theorem sum_range_exchange {f g : ℕ → ℕ} {k i : ℕ} (hi : i < k) (h : ∀ j, j ≠ i → f j ≤ g j) :
    ∑ j ∈ Finset.range k, f j + g i ≤ ∑ j ∈ Finset.range k, g j + f i := by
  have hmem := Finset.mem_range.mpr hi
  have hrest : ∑ j ∈ (Finset.range k).erase i, f j ≤ ∑ j ∈ (Finset.range k).erase i, g j :=
    Finset.sum_le_sum fun j hj => h j (Finset.ne_of_mem_erase hj)
  rw [← Finset.sum_erase_add _ f hmem, ← Finset.sum_erase_add _ g hmem]
  omega

namespace Controller

/-- The Haves that wait for the first `peers` peers. -/
def announcements (c : Controller) (peers : ℕ) : ℕ := ∑ q ∈ Finset.range peers, c.queued q

/-- What the controller of a leecher is charged. -/
def fetch_charge (c : Controller) (peers : ℕ) : ℕ :=
  block_charge peers * c.pool.card + 4 * c.announcements peers

variable {c c' : Controller} {id : ℕ} (peers : ℕ)

/-- The queue of one peer is emptied. -/
theorem announcements_update {peers : ℕ} {q : Option (List ℤ)} (hq : q.getD [] = [])
    (h : c'.send_haves = Function.update c.send_haves id q) (hid : id < peers) :
    c'.announcements peers + c.queued id ≤ c.announcements peers := by
  have hempty : c'.queued id = 0 := by
    rw [queued, h, Function.update_self, hq]
    rfl
  have hsum : c'.announcements peers + c.queued id ≤ c.announcements peers + c'.queued id := by
    apply sum_range_exchange hid
    intro j hj
    rw [queued, h, Function.update_of_ne hj]
    rfl
  omega

/-- One more Have for each peer, at most. -/
theorem announcements_succ (h : ∀ q, c'.queued q ≤ c.queued q + 1) :
    c'.announcements peers ≤ c.announcements peers + peers := by
  have hsum := Finset.sum_le_sum fun q (_ : q ∈ Finset.range peers) => h q
  rw [Finset.sum_add_distrib] at hsum
  simpa [announcements] using hsum

/-- Fewer blocks in the pool. -/
theorem pool_charge_le {d : Controller} {k : ℕ} (h : d.pool.card ≤ c.pool.card + k) :
    block_charge peers * d.pool.card ≤ block_charge peers * c.pool.card + block_charge peers * k := by
  rw [← Nat.mul_add]
  exact Nat.mul_le_mul_left _ h

theorem pool_card_le_blocks (c : Controller) : c.pool.card ≤ c.blocks.card :=
  Finset.card_filter_le _ _

end Controller

section moves

variable {sha1 : Bytes → Bytes} {F : Bytes} {c c' : Controller} {id : ℕ}
  {st st' : PeerState} {pc pc' : PC} {inp : Input}

/-! ### At the Jumps -/

theorem leave_fetch_charge (peers blocks : ℕ) (h : st.pending_requests.length ≤ pipeline) :
    (leave st).fetch_charge peers blocks ≤ leaving_charge peers := by
  unfold leave
  cases hp : st.pending_requests with
  | nil => exact Nat.le_add_left ..
  | cons req rest =>
    rw [hp, List.length_cons] at h
    exact Nat.add_le_add_right (Nat.mul_le_mul_left _ h) 1

theorem request_loop_fetch_charge (st : PeerState) (peers blocks : ℕ) :
    (request_loop st).fetch_charge peers blocks ≤ leaving_charge peers + 4 :=
  request_loop_cases (Nat.le_succ _) le_rfl

theorem request_next_blocks_fetch_charge (m : Metadata) (st : PeerState) (peers blocks : ℕ) :
    (request_next_blocks m st).fetch_charge peers blocks ≤ leaving_charge peers + 4 :=
  request_next_blocks_cases (Nat.le_succ _) le_rfl

theorem flush_fetch_charge (hchoking : st.am_choking = true) (haves : List ℤ)
    (peers blocks : ℕ) : (flush_next st haves).fetch_charge peers blocks
      = leaving_charge peers + 1 + 4 * haves.length := by
  cases haves with
  | nil =>
    show (serve_incoming_requests st .before_read).fetch_charge peers blocks = _
    unfold serve_incoming_requests
    rw [if_pos hchoking]
    rfl
  | cons piece rest =>
    rw [List.length_cons]
    show leaving_charge peers + 5 + 4 * rest.length = _
    omega

/-! ### What a Step Costs -/

/-- **Step lemma** for a thread of a leecher among seeders: a step costs more
    than it leaves to do. -/
theorem Fetching.charged {peers : ℕ} (hl : c.mode = .LEECHER) (hg : c.Consistent) (hfit : c.CountFits)
    (ho : c.Original sha1 F) (hgen : c.Genuine F) (h : Fetching st pc) (hp : pc.Pipelined st)
    (hid : id < peers) (hspeaks : pc.Speaks F c)
    (hmove : Move sha1 c id st pc inp c' st' pc') (hsent : inp ≠ .sent false)
    (hopen : inp ≠ .recv none) (hmsg : ∀ msg, inp = .recv (some msg) → Comes st msg) :
    c'.fetch_charge peers + pc'.fetch_charge peers c.blocks.card
        + inp.sent_charge (request_charge (4 * peers)) pc
      < c.fetch_charge peers + pc.fetch_charge peers c.blocks.card
        + inp.read_charge (answer_charge (4 * peers) (bitfield_charge peers c.blocks.card)) := by
  have hpoint := h.point
  have hblock : block_charge peers = 4 * peers + 12 := rfl
  have hbf : bitfield_charge peers c.blocks.card = c.blocks.card * block_charge peers + 13 := rfl
  simp only [Input.read_charge, Input.sent_charge, Controller.fetch_charge]
  cases hmove
  case opened =>
    simp only [PC.fetch_charge]
    omega
  case bitfield_sent =>
    rw [if_pos hl]
    simp only [PC.fetch_charge, PC.output, Option.map_some, Option.getD_some, request_charge]
    omega
  case interested_sent =>
    simp only [PC.fetch_charge, PC.output, Option.map_some, Option.getD_some, request_charge]
    omega
  case finished =>
    have hleave : (leave st).fetch_charge peers c.blocks.card ≤ leaving_charge peers :=
      leave_fetch_charge _ _ hp.length_le
    simp only [PC.fetch_charge] at hleave ⊢
    omega
  case disconnected => exact absurd rfl hopen
  case continued =>
    simp only [PC.fetch_charge]
    omega
  -- the Haves go from the queue to the thread
  case drained =>
    have hflush : (flush_next st (c.drain_haves id).2).fetch_charge peers c.blocks.card = _ :=
      flush_fetch_charge h.choking _ _ _
    have hsum : (c.drain_haves id).1.announcements peers + c.queued id ≤ c.announcements peers :=
      announcements_update (q := some []) rfl rfl hid
    have hpool : (c.drain_haves id).1.pool.card = c.pool.card := rfl
    have hlen : (c.drain_haves id).2.length = c.queued id := rfl
    rw [hflush, hpool, hlen]
    simp only [PC.fetch_charge]
    omega
  case have_sent piece rest =>
    rw [flush_fetch_charge h.choking rest]
    simp only [PC.fetch_charge, PC.output, build_have, Option.map_some, Option.getD_some,
      request_charge]
    omega
  case have_unsent => exact absurd rfl hsent
  case ignored msg _ =>
    have hfour := four_le_answer_charge (4 * peers) (by omega : 4 ≤ bitfield_charge peers
      c.blocks.card) msg
    simp only [PC.fetch_charge]
    omega
  -- a seeder chokes a thread that has declined, so nothing is pending
  case got_choke =>
    have hcomes : st.am_interested = false := hmsg _ rfl
    unfold choke_next
    rw [h.none_pending (st.not_asking_of_declined hcomes)]
    simp only [PC.fetch_charge, answer_charge]
    omega
  case got_unchoke =>
    have hnext := request_next_blocks_fetch_charge c.toMetadata { st with peer_choking := false }
      peers c.blocks.card
    simp only [PC.fetch_charge, answer_charge] at hnext ⊢
    omega
  case got_bitfield =>
    rw [if_pos hl]
    simp only [PC.fetch_charge, answer_charge]
    omega
  case got_piece =>
    simp only [PC.fetch_charge, answer_charge]
    omega
  case request_none =>
    simp only [PC.fetch_charge]
    omega
  case request_some i off _ ha _ =>
    have hpool := pool_card_claim hg hfit ha
    have hcharge := Nat.mul_le_mul_left (block_charge peers) hpool
    have hsum : (c.claim i off).announcements peers = c.announcements peers := rfl
    rw [Nat.mul_succ] at hcharge
    simp only [PC.fetch_charge]
    omega
  case request_sent req hst =>
    have hloop := request_loop_fetch_charge st' peers c.blocks.card
    simp only [PC.fetch_charge, PC.output, build_request, Option.map_some, Option.getD_some,
      request_charge] at hloop ⊢
    omega
  case request_unsent => exact absurd rfl hsent
  case bitfield_none =>
    simp only [PC.fetch_charge]
    omega
  case bitfield_some i off _ ha _ =>
    have hpool := pool_card_claim hg hfit ha
    have hcharge := Nat.mul_le_mul_left (block_charge peers) hpool
    have hsum : (c.claim i off).announcements peers = c.announcements peers := rfl
    rw [Nat.mul_succ] at hcharge
    simp only [PC.fetch_charge]
    omega
  case bitfield_released req i _ _ =>
    have hpool := pool_charge_le peers (pool_card_release hg hfit i req.block_offset)
    have hsum : (c.release i req.block_offset).announcements peers = c.announcements peers := rfl
    simp only [PC.fetch_charge]
    omega
  -- at worst all blocks come back
  case bitfield_stored req i _ hi =>
    have hpool := pool_charge_le peers (c := c) (d := { c with
      piece_status := Function.update c.piece_status i 0 }) (k := c.blocks.card)
      ((pool_card_le_blocks _).trans (Nat.le_add_left ..))
    have hsum : announcements { c with
      piece_status := Function.update c.piece_status i 0 } peers = c.announcements peers := rfl
    rw [Nat.mul_comm _ c.blocks.card] at hpool
    rw [if_pos hpoint.1]
    simp only [PC.fetch_charge]
    omega
  case not_interested_sent =>
    simp only [PC.fetch_charge, PC.output, Option.map_some, Option.getD_some, request_charge]
    omega
  case block_received hrec =>
    obtain ⟨i, hi, b, hb, rfl, rfl, rfl⟩ := hspeaks
    have hpool := pool_charge_le peers (k := 0)
      (pool_card_received hg hfit ho hl hgen hi hb hrec)
    have hsum := announcements_succ peers fun q =>
      queued_received q hg hfit ho hl hgen hi hb hrec
    have hnext := request_next_blocks_fetch_charge c.toMetadata st peers c.blocks.card
    simp only [PC.fetch_charge] at hnext ⊢
    omega
  -- another thread may have taken back the status of the piece
  case cleanup_released req req' rest i _ _ =>
    have hpool := pool_charge_le peers (pool_card_release hg hfit i req.block_offset)
    have hsum : (c.release i req.block_offset).announcements peers = c.announcements peers := rfl
    simp only [PC.fetch_charge, List.length_cons, Nat.mul_succ]
    omega
  case cleanup_done req i _ _ =>
    have hpool := pool_charge_le peers (pool_card_release hg hfit i req.block_offset)
    have hsum : (c.release i req.block_offset).announcements peers = c.announcements peers := rfl
    simp only [PC.fetch_charge, List.length_nil]
    omega
  case unregistered =>
    have hsum : (c.unregister_peer id).announcements peers + c.queued id ≤ c.announcements peers :=
      announcements_update (q := none) rfl rfl hid
    have hpool : (c.unregister_peer id).pool.card = c.pool.card := rfl
    rw [hpool]
    simp only [PC.fetch_charge]
    omega
  all_goals first
    | exact hpoint.elim
    | exact (hmsg _ rfl).elim

/-- **Step lemma** for the seeder, which may be told to choke. -/
theorem Serving.calm_charged (haves bitfield : ℕ) (hs : c.mode = .SEEDER) (hg : c.Consistent)
    (ho : c.Original sha1 F) (h : Serving F id c st pc.calm)
    (hmove : Move sha1 c id st pc inp c' st' pc') (hsent : inp ≠ .sent false)
    (hmsg : ∀ msg, inp = .recv (some msg) → FromLeecher c.toMetadata msg ∨ msg.id = .NotInterested) :
    pc'.seed_charge haves bitfield + inp.sent_charge (answer_charge haves bitfield) pc
      < pc.seed_charge haves bitfield + inp.read_charge (request_charge haves) := by
  by_cases hpc : pc = .send_choke
  · subst hpc
    cases hmove
    simp only [Input.read_charge, Input.sent_charge, PC.seed_charge, PC.output, Option.map_some,
      Option.getD_some, answer_charge]
    omega
  · rw [PC.calm_eq hpc] at h
    by_cases hnot : ∃ p, inp = .recv (some ⟨.NotInterested, p⟩)
    · obtain ⟨p, rfl⟩ := hnot
      cases hmove with
      | ignored _ hign => exact hign.elim
      | got_not_interested =>
        simp only [Input.read_charge, Input.sent_charge, PC.seed_charge, request_charge]
        omega
    · apply h.charged haves bitfield hs hg ho hmove hsent
      intro msg hinp
      rcases hmsg msg hinp with hfrom | hid
      · exact hfrom
      · obtain ⟨mid, p⟩ := msg
        obtain rfl : mid = .NotInterested := hid
        exact absurd ⟨p, hinp⟩ hnot

end moves

/-! ## Both Sides -/

namespace Duo

/-- What is left to do at the two ends of a connection to a seeder. -/
def fetch_charge (peers blocks : ℕ) (d : Duo) : ℕ :=
  d.A.thread.pc.fetch_charge peers blocks
    + d.B.thread.pc.seed_charge (4 * peers) (bitfield_charge peers blocks)
    + (d.ab.map (request_charge (4 * peers))).sum
    + (d.ba.map (answer_charge (4 * peers) (bitfield_charge peers blocks))).sum

variable {sha1 : Bytes → Bytes} {F : Bytes} {m : Metadata} {d d' : Duo}
  {ev : Event} (peers : ℕ)

/-- A step of the leecher. -/
theorem Supplied.charged_A (hm : m.Describes sha1 F)
    (hA : d.A.ctl.toMetadata = m.playing .LEECHER) (hgen : d.A.ctl.Genuine F)
    (hp : d.A.thread.pc.Pipelined d.A.thread.state) (hid : d.A.id < peers)
    (hspeaks : d.A.thread.pc.Speaks F d.A.ctl) (hd : Supplied F m d)
    (hown : ∀ op, ev ≠ .other op) (h : d.next sha1 (.A ev) = some d') :
    d'.A.ctl.fetch_charge peers + d'.fetch_charge peers m.blocks.card
      < d.A.ctl.fetch_charge peers + d.fetch_charge peers m.blocks.card := by
  obtain ⟨A, B, ab, ba⟩ := d
  have hl : A.ctl.mode = .LEECHER := by
    rw [hA]
    rfl
  obtain ⟨hg, hfit, ho⟩ := hm.playing .LEECHER
  rw [← hA] at hg hfit ho
  have hblocks : m.blocks = A.ctl.blocks := by
    rw [hA]
    rfl
  rw [hblocks]
  cases next_stepped h with
  | A _ p ab' ba' hturn =>
    unfold fetch_charge
    cases hturn with
    | called _ _ c' t' hmove =>
      have hlt := hd.leecher.charged hl hg hfit ho hgen hp hid hspeaks hmove Input.noConfusion
        Input.noConfusion fun _ => Input.noConfusion
      simp only [Input.sent_charge, Input.read_charge] at hlt ⊢
      omega
    | sent _ _ c' t' hmove =>
      have hlt := hd.leecher.charged hl hg hfit ho hgen hp hid hspeaks hmove (by simp)
        Input.noConfusion fun _ => Input.noConfusion
      have hout := charges_append (request_charge (4 * peers)) ab A.thread.pc.output
      simp only [Input.sent_charge, Input.read_charge] at hlt ⊢
      omega
    | received msg _ _ c' t' hmove =>
      have hcomes : ∀ msg', Input.recv (some msg) = .recv (some msg') → Comes A.thread.state msg' := by
        intro msg' heq
        obtain rfl := Option.some.inj (Input.recv.inj heq)
        exact hd.comes rfl hmove.at_read
      have hlt := hd.leecher.charged hl hg hfit ho hgen hp hid hspeaks hmove Input.noConfusion
        (by simp) hcomes
      simp only [Input.sent_charge, Input.read_charge, List.map_cons, List.sum_cons] at hlt ⊢
      omega
    | hung_up _ c' t' hclosed hmove =>
      -- the seeder closes after the leecher
      have hleft : B.thread.pc.Left := by
        rw [closed_eq hclosed]
        trivial
      exact absurd (hd.left hleft) hmove.not_closed
    | others _ _ op => exact absurd rfl (hown op)

/-- A step of the seeder. -/
theorem Supplied.charged_B (hm : m.Describes sha1 F)
    (hB : d.B.ctl.toMetadata = m.playing .SEEDER) (hd : Supplied F m d)
    (hown : ∀ op, ev ≠ .other op) (h : d.next sha1 (.B ev) = some d') (blocks : ℕ) :
    d'.fetch_charge peers blocks < d.fetch_charge peers blocks := by
  obtain ⟨A, B, ab, ba⟩ := d
  have hs : B.ctl.mode = .SEEDER := by
    rw [hB]
    rfl
  obtain ⟨hg, -, ho⟩ := hm.playing .SEEDER
  rw [← hB] at hg ho
  have charged {c' : Controller} {t' : Thread} {inp : Input}
      (hmove : Move sha1 B.ctl B.id B.thread.state B.thread.pc inp c' t'.state t'.pc)
      (hsent : inp ≠ .sent false) (hmsg : ∀ msg, inp = .recv (some msg) → msg ∈ ab) :=
    hd.seeder.calm_charged (4 * peers) (bitfield_charge peers blocks) hs hg ho hmove hsent
      fun msg heq => by
        rw [hB]
        exact hd.from_leecher msg (hmsg msg heq)
  cases next_stepped h with
  | B _ p ab' ba' hturn =>
    unfold fetch_charge
    cases hturn with
    | called _ _ c' t' hmove =>
      have hlt := charged hmove Input.noConfusion fun _ => Input.noConfusion
      simp only [Input.sent_charge, Input.read_charge] at hlt ⊢
      omega
    | sent _ _ c' t' hmove =>
      have hlt := charged hmove (by simp) fun _ => Input.noConfusion
      have hout := charges_append (answer_charge (4 * peers) (bitfield_charge peers blocks)) ba
        B.thread.pc.output
      simp only [Input.sent_charge, Input.read_charge] at hlt ⊢
      omega
    | received msg _ _ c' t' hmove =>
      have hlt := charged hmove Input.noConfusion (by simp)
      simp only [Input.sent_charge, Input.read_charge, List.map_cons, List.sum_cons] at hlt ⊢
      omega
    | hung_up _ c' t' hclosed hmove =>
      have hlt := charged hmove Input.noConfusion (by simp)
      simp only [Input.sent_charge, Input.read_charge] at hlt ⊢
      omega
    | others _ _ op => exact absurd rfl (hown op)

end Duo

end BitTorrentLite
