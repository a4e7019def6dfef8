import BitTorrentLite.Network.Charges
import BitTorrentLite.Network.Completion

/-! # Termination among Seeders

    The threads at the ends of a leecher's connections take finitely many steps,
    when the connections all lead to seeders: each of the steps lowers what is
    left to do, and no other client adds to it. So every run can be taken on,
    by these threads alone, to a state where they rest.
-/

open Machine Region LTS

namespace BitTorrentLite

open Controller

section network

variable {ι : Type} [DecidableEq ι] {sha1 : Bytes → Bytes} {m : Metadata} {F : Bytes}
  {cs : Clients ι F} {n n' : Network ι Swarm ℕ PeerMessage} {ev : NetEvent ι ℕ Action} {i : ι}
  {x e' : ι × ℕ} {inp : Input} {peers : ℕ}

/-! ## The Measure -/

/-- One unit while the thread at the port has still to shake hands. -/
def shaking_charge (n : Network ι Swarm ℕ PeerMessage) (x : ι × ℕ) : ℕ :=
  if ((n.node x.1).thread x.2).pc.shaking then 1 else 0

/-- What is left to do at both ends of the connection at a port. -/
def line_charge (peers blocks : ℕ) (n : Network ι Swarm ℕ PeerMessage) (x : ι × ℕ) : ℕ :=
  match n.link x with
  | none => leaving_charge peers + bitfield_charge peers blocks + 25
  | some e' => shaking_charge n x + shaking_charge n e'
      + (connection n x e').fetch_charge peers blocks

/-- What is left to do for the client `i`. -/
def network_charge (peers : ℕ) (m : Metadata) (n : Network ι Swarm ℕ PeerMessage) (i : ι) : ℕ :=
  (n.node i).ctl.fetch_charge peers
    + ∑ p ∈ Finset.range peers, line_charge peers m.blocks.card n (i, p)

/-- The step is of a thread at one of the two ends of a connection of `i`. -/
def involves (n : Network ι Swarm ℕ PeerMessage) (i : ι) : NetEvent ι ℕ Action → Bool
  | .act j (.thread q _) => decide (j = i) || (n.link (j, q)).any fun e => decide (e.1 = i)
  | _ => false

omit [DecidableEq ι] in
theorem shaking_charge_le (n : Network ι Swarm ℕ PeerMessage) (x : ι × ℕ) :
    shaking_charge n x ≤ 1 := by
  unfold shaking_charge
  split
  · exact le_rfl
  · exact Nat.zero_le _

omit [DecidableEq ι] in
theorem line_charge_linked {blocks : ℕ} (hlink : n.link x = some e') :
    line_charge peers blocks n x = shaking_charge n x + shaking_charge n e'
      + (connection n x e').fetch_charge peers blocks := by
  unfold line_charge
  rw [hlink]

/-! ### Steps of Other Threads -/

theorem shaking_charge_elsewhere (hr : (Network.system (clients sha1 m cs)).Reachable n)
    (hm : m.Describes sha1 F) (h : Network.Stepped (clients sha1 m cs) n ev n')
    (hx : Elsewhere ev x) : shaking_charge n' x = shaking_charge n x := by
  unfold shaking_charge
  rw [(elsewhere_bystander hr hm h hx).thread]

/-- A step of another thread leaves as much to do, and so does a new
    connection. -/
theorem line_charge_elsewhere (hr : (Network.system (clients sha1 m cs)).Reachable n)
    (hm : m.Describes sha1 F) (hrel : Reliable n ev)
    (h : Network.Stepped (clients sha1 m cs) n ev n') (hx : Elsewhere ev x)
    (hx' : ∀ e', n.link x = some e' → Elsewhere ev e') (blocks : ℕ) :
    line_charge peers blocks n' x ≤ line_charge peers blocks n x := by
  cases hlink : n.link x with
  | some e' =>
    obtain ⟨cA, cB, -, -, hnext⟩ := connection_others hr hm h hlink hx (hx' e' hlink)
    rw [line_charge_linked hlink, line_charge_linked (h.link_stays hlink), hnext,
      shaking_charge_elsewhere hr hm h hx, shaking_charge_elsewhere hr hm h (hx' e' hlink)]
    exact le_rfl
  | none =>
    have hnew : line_charge peers blocks n x =
        leaving_charge peers + bitfield_charge peers blocks + 25 := by
      unfold line_charge
      rw [hlink]
    rw [hnew]
    cases hlink' : n'.link x with
    | none =>
      unfold line_charge
      rw [hlink']
    | some e' =>
      have hone := shaking_charge_le n' x
      have hone' := shaking_charge_le n' e'
      rw [line_charge_linked hlink', connection_start hr hm hrel h hlink' hlink]
      simp only [Duo.fetch_charge, Duo.start, PC.fetch_charge, PC.seed_charge, List.map_nil,
        List.sum_nil]
      omega

/-! ### Steps of the Two Threads -/

/-- A thread that has taken a step has shaken hands. -/
theorem shaking_charge_moved
    (h : Network.Stepped (clients sha1 m cs) n (.act x.1 (.thread x.2 inp)) n') :
    shaking_charge n' x = 0 := by
  obtain ⟨s, hs, hnode, -⟩ := h.acted
  obtain ⟨t, c', t', -, hadv, rfl⟩ := Swarm.next_thread hs
  have ht' : (n'.node x.1).threads x.2 = some t' := by
    rw [hnode, Function.update_self]
    exact Swarm.resume_threads_self ..
  unfold shaking_charge
  rw [Swarm.thread_eq ht', if_neg]
  intro hshake
  exact (advance_move hadv).not_handshake (PC.shaking_eq hshake)

/-- The leecher's thread has taken a step. -/
theorem line_charge_first
    (hn : ((Network.system (clients sha1 m cs)).restrict Reliable).Reachable n)
    (hm : m.Describes sha1 F) (hl : cs.mode x.1 = .LEECHER)
    (hrel : Reliable n (.act x.1 (.thread x.2 inp)))
    (h : Network.Stepped (clients sha1 m cs) n (.act x.1 (.thread x.2 inp)) n')
    (hlink : n.link x = some e') (hd : (connection n x e').Supplied F m) (hid : x.2 < peers) :
    (n'.node x.1).ctl.fetch_charge peers + line_charge peers m.blocks.card n' x
      < (n.node x.1).ctl.fetch_charge peers + line_charge peers m.blocks.card n x := by
  have hr := hn.of_restrict
  have hapart := (Network.wired hr).apart _ _ hlink
  have hother := shaking_charge_elsewhere hr hm h (elsewhere_of_ne hapart.symm)
  rw [line_charge_linked hlink, line_charge_linked (h.link_stays hlink), hother,
    shaking_charge_moved h]
  obtain ⟨cB, -, ⟨hshake, hctl, hnext⟩ | ⟨ev, d₁, hown, hturn, hctl, hnext⟩⟩ :=
    connection_first hr hm hrel h hlink
  -- the handshake is over
  · have hone : shaking_charge n x = 1 := by
      unfold shaking_charge
      rw [hshake]
      rfl
    have hsame : (connection n' x e').fetch_charge peers m.blocks.card
        = (connection n x e').fetch_charge peers m.blocks.card := by
      rw [hnext]
      rfl
    rw [hctl, hone, hsame]
    omega
  · have hmeta := network_toMetadata hm hr x.1
    have hfair := network_fair hm hr x.1
    have hmode : (n.node x.1).ctl.mode = .LEECHER := (network_mode hm hr).trans hl
    have hgen := (hfair.stocked.leecher hmode).genuine
    have hp := (n.node x.1).party_pipelined
      (Swarm.reachable_pipelined (network_alone hm hr x.1).of_restrict) x.2
    have hlt := hd.charged_A peers hm (hmeta.trans (congrArg m.playing hl)) hgen hp hid
      (hfair.party_speaks x.2) hown hturn
    have hsame : (connection n' x e').fetch_charge peers m.blocks.card
        = d₁.fetch_charge peers m.blocks.card := by
      rw [hnext]
      rfl
    change _ < (n.node x.1).ctl.fetch_charge peers + _ at hlt
    rw [← hctl, hsame]
    omega

/-- The seeder's thread has taken a step. -/
theorem line_charge_second
    (hn : ((Network.system (clients sha1 m cs)).restrict Reliable).Reachable n)
    (hm : m.Describes sha1 F) (hs : cs.mode e'.1 = .SEEDER)
    (hrel : Reliable n (.act e'.1 (.thread e'.2 inp)))
    (h : Network.Stepped (clients sha1 m cs) n (.act e'.1 (.thread e'.2 inp)) n')
    (hlink : n.link x = some e') (hd : (connection n x e').Supplied F m) (blocks : ℕ) :
    line_charge peers blocks n' x < line_charge peers blocks n x := by
  have hr := hn.of_restrict
  have hapart := (Network.wired hr).apart _ _ hlink
  have hother := shaking_charge_elsewhere hr hm h (elsewhere_of_ne hapart)
  rw [line_charge_linked hlink, line_charge_linked (h.link_stays hlink), hother,
    shaking_charge_moved h]
  obtain ⟨cA, -, ⟨hshake, hnext⟩ | ⟨ev, d₁, hown, hturn, hnext⟩⟩ :=
    connection_second hr hm hrel h hlink
  · have hone : shaking_charge n e' = 1 := by
      unfold shaking_charge
      rw [hshake]
      rfl
    have hsame : (connection n' x e').fetch_charge peers blocks
        = (connection n x e').fetch_charge peers blocks := by
      rw [hnext]
      rfl
    rw [hone, hsame]
    omega
  · have hmeta := network_toMetadata hm hr e'.1
    have hlt := hd.charged_B peers hm (hmeta.trans (congrArg m.playing hs)) hown hturn blocks
    have hsame : (connection n' x e').fetch_charge peers blocks = d₁.fetch_charge peers blocks := by
      rw [hnext]
      rfl
    rw [hsame]
    omega

/-! ### Every Step -/

theorem crnt_peer_le (h : Network.Stepped (clients sha1 m cs) n ev n') (i : ι) :
    (n.node i).ctl.crnt_peer ≤ (n'.node i).ctl.crnt_peer := by
  rcases h.node with hnode | ⟨j, a, s, -, hs, hnode, -⟩
  · rw [hnode]
  · rw [hnode]
    by_cases hi : i = j
    · rw [hi, Function.update_self]
      cases Swarm.next_stepped hs with
      | connected => exact Nat.le_succ _
      | moved id inp t t' c' _ hmove => exact hmove.crnt_peer.ge
    · rw [Function.update_of_ne hi]

/-- Threads do not hand out ids. -/
theorem crnt_peer_thread (h : Network.Stepped (clients sha1 m cs) n (.act x.1 (.thread x.2 inp)) n')
    (i : ι) : (n'.node i).ctl.crnt_peer = (n.node i).ctl.crnt_peer := by
  obtain ⟨s, hs, hnode, -⟩ := h.acted
  rw [hnode]
  by_cases hi : i = x.1
  · rw [hi, Function.update_self]
    obtain ⟨t, c', t', -, hadv, rfl⟩ := Swarm.next_thread hs
    exact (advance_move hadv).crnt_peer
  · rw [Function.update_of_ne hi]

/-- The port of a connection is one of the ids handed out. -/
theorem linked_lt (hn : ((Network.system (clients sha1 m cs)).restrict Reliable).Reachable n)
    (hm : m.Describes sha1 F) (hlink : n.link x = some e') :
    x.2 < (n.node x.1).ctl.crnt_peer := by
  obtain ⟨t, ht⟩ := linked_thread hn hlink
  exact Swarm.reachable_fresh (network_alone hm hn.of_restrict x.1).of_restrict x.2 t ht

/-- A thread that takes a step is connected. -/
theorem moved_linked (hn : ((Network.system (clients sha1 m cs)).restrict Reliable).Reachable n)
    (hrel : Reliable n (.act x.1 (.thread x.2 inp)))
    (h : Network.Stepped (clients sha1 m cs) n (.act x.1 (.thread x.2 inp)) n') :
    ∃ e', n.link x = some e' := by
  cases hlink : n.link x with
  | some e' => exact ⟨e', rfl⟩
  | none =>
    obtain ⟨s, hs, -⟩ := h.acted
    obtain ⟨⟨st, pc⟩, c', t', ht, hadv, -⟩ := Swarm.next_thread hs
    obtain rfl : pc = .handshake := unlinked_shaking hn hlink ht
    cases inp with
    | shaken ok =>
      obtain ⟨-, hlinked⟩ := hrel
      rw [hlink] at hlinked
      cases hlinked
    | _ => cases hadv

/-- A step of another client, or a new peer, adds nothing at the controller. -/
theorem fetch_charge_elsewhere (h : Network.Stepped (clients sha1 m cs) n ev n')
    (hthread : ∀ p inp, ev ≠ .act i (.thread p inp)) :
    (n'.node i).ctl.fetch_charge peers ≤ (n.node i).ctl.fetch_charge peers := by
  rcases h.node with hnode | ⟨j, a, s, rfl, hs, hnode, -⟩
  · rw [hnode]
  · rw [hnode]
    by_cases hi : i = j
    · subst hi
      rw [Function.update_self]
      cases Swarm.next_stepped hs with
      | connected =>
        apply Nat.add_le_add_left
        apply Nat.mul_le_mul_left
        apply Finset.sum_le_sum
        intro q _
        show ((Function.update (n.node i).ctl.send_haves (n.node i).ctl.crnt_peer (some []) q).getD
          []).length ≤ _
        by_cases hq : q = (n.node i).ctl.crnt_peer
        · rw [hq, Function.update_self]
          exact Nat.zero_le _
        · rw [Function.update_of_ne hq]
          exact le_rfl
      | moved p inp => exact absurd rfl (hthread p inp)
    · rw [Function.update_of_ne hi]

/-- A step elsewhere adds nothing. -/
theorem network_charge_elsewhere (hr : (Network.system (clients sha1 m cs)).Reachable n)
    (hm : m.Describes sha1 F) (hrel : Reliable n ev)
    (h : Network.Stepped (clients sha1 m cs) n ev n') (hx : ∀ p, Elsewhere ev (i, p))
    (hx' : ∀ p e', n.link (i, p) = some e' → Elsewhere ev e') :
    network_charge peers m n' i ≤ network_charge peers m n i := by
  apply Nat.add_le_add
  · apply fetch_charge_elsewhere h
    intro p inp heq
    exact hx p inp heq
  · apply Finset.sum_le_sum
    intro p _
    exact line_charge_elsewhere hr hm hrel h (hx p) (hx' p) _

/-- A step of the leecher's thread. -/
theorem network_charge_first
    (hn : ((Network.system (clients sha1 m cs)).restrict Reliable).Reachable n)
    (hm : m.Describes sha1 F) (hl : cs.mode i = .LEECHER) (hsources : Sources cs n i) {p : ℕ}
    (hrel : Reliable n (.act i (.thread p inp)))
    (h : Network.Stepped (clients sha1 m cs) n (.act i (.thread p inp)) n')
    (hpeers : (n.node i).ctl.crnt_peer ≤ peers) :
    network_charge peers m n' i < network_charge peers m n i := by
  have hr := hn.of_restrict
  obtain ⟨e', hlink⟩ := moved_linked (x := (i, p)) hn hrel h
  have hd := (network_sourced hm hn hl hsources).supplied p e' hlink
  have hp : p < peers := (linked_lt hn hm hlink).trans_le hpeers
  have hlt := line_charge_first (x := (i, p)) hn hm hl hrel h hlink hd hp
  have hsum := sum_range_exchange hp
    (f := fun q => line_charge peers m.blocks.card n' (i, q))
    (g := fun q => line_charge peers m.blocks.card n (i, q)) (by
      intro q hq
      apply line_charge_elsewhere hr hm hrel h
      · apply elsewhere_of_ne
        intro heq
        exact hq (Prod.mk.inj heq).2
      · intro e'' hlink'
        apply elsewhere_of_ne
        rintro rfl
        -- a leecher is not one of its seeders
        have hseeder := hsources q (i, p) hlink'
        rw [hl] at hseeder
        cases hseeder)
  unfold network_charge
  dsimp only at hlt
  omega

/-- A step of the thread at the other end of one of its connections. -/
theorem network_charge_second
    (hn : ((Network.system (clients sha1 m cs)).restrict Reliable).Reachable n)
    (hm : m.Describes sha1 F) (hl : cs.mode i = .LEECHER) (hsources : Sources cs n i) {p : ℕ}
    (hlink : n.link (i, p) = some e') (hrel : Reliable n (.act e'.1 (.thread e'.2 inp)))
    (h : Network.Stepped (clients sha1 m cs) n (.act e'.1 (.thread e'.2 inp)) n')
    (hpeers : (n.node i).ctl.crnt_peer ≤ peers) :
    network_charge peers m n' i < network_charge peers m n i := by
  have hr := hn.of_restrict
  have hw : n.Wired := Network.wired hr
  have hseeder := hsources p e' hlink
  have hother : i ≠ e'.1 := by
    intro heq
    rw [← heq, hl] at hseeder
    cases hseeder
  have hd := (network_sourced hm hn hl hsources).supplied p e' hlink
  have hp : p < peers := (linked_lt hn hm hlink).trans_le hpeers
  have hlt : line_charge peers m.blocks.card n' (i, p) < line_charge peers m.blocks.card n (i, p) :=
    line_charge_second hn hm hseeder hrel h hlink hd _
  have hctl : (n'.node i).ctl.fetch_charge peers ≤ (n.node i).ctl.fetch_charge peers := by
    apply fetch_charge_elsewhere h
    intro q inp' heq
    injection heq with heq
    exact hother heq.symm
  have hsum := sum_range_exchange hp
    (f := fun q => line_charge peers m.blocks.card n' (i, q))
    (g := fun q => line_charge peers m.blocks.card n (i, q)) (by
      intro q hq
      apply line_charge_elsewhere hr hm hrel h
      · apply elsewhere_of_ne
        intro heq
        exact hother (congrArg Prod.fst heq)
      · intro e'' hlink'
        apply elsewhere_of_ne
        rintro rfl
        have heq := Option.some.inj ((hw.symm _ _ hlink').symm.trans (hw.symm _ _ hlink))
        exact hq (congrArg Prod.snd heq))
  unfold network_charge
  omega

/-- A step that is counted is of a thread of the client, or of the thread at the
    other end. -/
theorem involves_cases (hw : n.Wired) (hev : involves n i ev = true) :
    (∃ p inp, ev = .act i (.thread p inp)) ∨
      ∃ p e' inp, n.link (i, p) = some e' ∧ ev = .act e'.1 (.thread e'.2 inp) := by
  unfold involves at hev
  split at hev
  · rename_i j q inp
    rcases (Bool.or_eq_true _ _).mp hev with hj | hlink
    · obtain rfl := of_decide_eq_true hj
      exact .inl ⟨q, inp, rfl⟩
    · obtain ⟨y, hy, heq⟩ := (Option.any_eq_true _ _).mp hlink
      obtain rfl := of_decide_eq_true heq
      exact .inr ⟨y.2, (j, q), inp, hw.symm _ _ hy, rfl⟩
  · cases hev

/-- **Step lemma**: no step adds to what is left to do for a leecher among
    seeders, and a step at its connections uses some of it up. -/
theorem network_charged
    (hn : ((Network.system (clients sha1 m cs)).restrict Reliable).Reachable n)
    (hm : m.Describes sha1 F) (hl : cs.mode i = .LEECHER) (hsources : Sources cs n i)
    (hrel : Reliable n ev) (h : Network.Stepped (clients sha1 m cs) n ev n')
    (hpeers : (n.node i).ctl.crnt_peer ≤ peers) :
    network_charge peers m n' i + (if involves n i ev then 1 else 0)
      ≤ network_charge peers m n i := by
  have hone : (if involves n i ev then 1 else 0) ≤ 1 := by
    split
    · exact le_rfl
    · exact Nat.zero_le _
  by_cases hfirst : ∃ p inp, ev = .act i (.thread p inp)
  · obtain ⟨p, inp, rfl⟩ := hfirst
    have hlt := network_charge_first hn hm hl hsources hrel h hpeers
    omega
  · by_cases hsecond : ∃ p e' inp, n.link (i, p) = some e' ∧ ev = .act e'.1 (.thread e'.2 inp)
    · obtain ⟨p, e', inp, hlink, rfl⟩ := hsecond
      have hlt := network_charge_second hn hm hl hsources hlink hrel h hpeers
      omega
    · rw [if_neg]
      · apply network_charge_elsewhere hn.of_restrict hm hrel h
        · intro p inp heq
          exact hfirst ⟨p, inp, heq⟩
        · intro p e' hlink inp heq
          exact hsecond ⟨p, e', inp, hlink, heq⟩
      · intro hev
        rcases involves_cases (Network.wired hn.of_restrict) hev with hwas | hwas
        · exact hfirst hwas
        · exact hsecond hwas

/-! ## Whole Runs -/

/-- Later links do not change what is counted. -/
theorem involves_later
    (hn : ((Network.system (clients sha1 m cs)).restrict Reliable).Reachable n)
    (hrel : Reliable n ev) (h : Network.Stepped (clients sha1 m cs) n ev n')
    {n₁ : Network ι Swarm ℕ PeerMessage}
    (hlater : ∀ x e', n.link x = some e' → n₁.link x = some e') :
    involves n₁ i ev = involves n i ev := by
  cases ev with
  | connect a b => rfl
  | act j a =>
    cases a with
    | connect => rfl
    | thread q inp =>
      obtain ⟨y, hlink⟩ := moved_linked (x := (j, q)) hn hrel h
      show (_ || (n₁.link (j, q)).any _) = (_ || (n.link (j, q)).any _)
      rw [hlink, hlater _ _ hlink]

/-- How many steps the threads at `peers` connections can take. -/
def step_bound (peers blocks : ℕ) : ℕ :=
  (4 * peers + 12) * (blocks + peers * (blocks + 5)) + 44 * peers

omit [DecidableEq ι] in
/-- What is left to do at the start. -/
theorem network_charge_start (sha1 : Bytes → Bytes) (m : Metadata) (cs : Clients ι F) (i : ι)
    (peers : ℕ) : network_charge peers m (Network.start (clients sha1 m cs)) i
      ≤ step_bound peers m.blocks.card := by
  have hpool : ((Network.start (clients sha1 m cs)).node i).ctl.pool.card ≤ m.blocks.card :=
    pool_card_le_blocks _
  have hnone : ((Network.start (clients sha1 m cs)).node i).ctl.announcements peers = 0 :=
    Finset.sum_eq_zero fun q _ => rfl
  have hlines : ∑ p ∈ Finset.range peers,
      line_charge peers m.blocks.card (Network.start (clients sha1 m cs)) (i, p) =
        peers * (leaving_charge peers + bitfield_charge peers m.blocks.card + 25) := by
    simp [line_charge, Network.start]
  unfold network_charge Controller.fetch_charge
  rw [hnone, hlines]
  simp only [leaving_charge, bitfield_charge, block_charge, pipeline, step_bound]
  nlinarith [Nat.mul_le_mul_left (4 * peers + 12) hpool]

/-- A run has no more steps at the connections than there was left to do. -/
theorem network_bounded (hm : m.Describes sha1 F) (hl : cs.mode i = .LEECHER)
    {evs : List (NetEvent ι ℕ Action)}
    (hp : ((Network.system (clients sha1 m cs)).restrict Reliable).Path
      (Network.start (clients sha1 m cs)) evs n) (hsources : Sources cs n i) :
    evs.countP (involves n i) ≤ step_bound (n.node i).ctl.crnt_peer m.blocks.card := by
  have hstart := network_charge_start sha1 m cs i (n.node i).ctl.crnt_peer
  have hcount := (hp.count_le (fun n₁ => network_charge (n.node i).ctl.crnt_peer m n₁ i)
    (involves n i) (P := fun n₁ => Sources cs n₁ i ∧
      (n₁.node i).ctl.crnt_peer ≤ (n.node i).ctl.crnt_peer ∧
      ∀ x e', n₁.link x = some e' → n.link x = some e') ?_ ?_ (.init rfl)
    ⟨hsources, le_rfl, fun _ _ hlink => hlink⟩).2
  · omega
  · intro n₁ ev n₂ hst hP
    obtain ⟨hsrc, hle, hlater⟩ := hP
    have h := Network.next_stepped hst.2
    refine ⟨?_, (crnt_peer_le h i).trans hle, fun x e' hlink => hlater x e' (h.link_stays hlink)⟩
    intro p e' hlink
    exact hsrc p e' (h.link_stays hlink)
  · intro n₁ ev n₂ hn hst hP
    obtain ⟨hsrc, hle, hlater⟩ := hP
    obtain ⟨hrel, hstep⟩ := hst
    have h := Network.next_stepped hstep
    have hstays : ∀ x e', n₁.link x = some e' → n.link x = some e' :=
      fun x e' hlink => hlater x e' (h.link_stays hlink)
    rw [involves_later hn hrel h hstays]
    apply network_charged hn hm hl _ hrel h ((crnt_peer_le h i).trans hle)
    intro p e' hlink
    exact hsrc p e' (h.link_stays hlink)

/-- Where the connections do not rest, a thread at one of them can take a step,
    which leaves less to do. -/
theorem involves_of_not_rest
    (hn : ((Network.system (clients sha1 m cs)).restrict Reliable).Reachable n)
    (hm : m.Describes sha1 F) (hl : cs.mode i = .LEECHER) (hsources : Sources cs n i)
    (hpeers : (n.node i).ctl.crnt_peer ≤ peers) (hrest : ¬ AtRest sha1 m cs n i) :
    ∃ (x : ι × ℕ) (inp : Input) (n' : Network ι Swarm ℕ PeerMessage), Reliable n (.act x.1 (.thread x.2 inp)) ∧
      n.next (clients sha1 m cs) (.act x.1 (.thread x.2 inp)) = some n' ∧
      involves n i (.act x.1 (.thread x.2 inp)) = true ∧
      network_charge peers m n' i < network_charge peers m n i := by
  unfold AtRest Resting at hrest
  push Not at hrest
  obtain ⟨p, e', hlink, hmoves⟩ := hrest
  by_cases hfirst : ∃ inp n', Reliable n (.act i (.thread p inp)) ∧
      n.next (clients sha1 m cs) (.act i (.thread p inp)) = some n'
  · obtain ⟨inp, n', hrel, hstep⟩ := hfirst
    refine ⟨(i, p), inp, n', hrel, hstep, ?_, ?_⟩
    · show (decide (i = i) || _) = true
      rw [decide_eq_true rfl]
      rfl
    · exact network_charge_first hn hm hl hsources hrel (Network.next_stepped hstep) hpeers
  · obtain ⟨inp, n', hrel, hstep⟩ := hmoves fun inp n' hrel hstep => hfirst ⟨inp, n', hrel, hstep⟩
    refine ⟨e', inp, n', hrel, hstep, ?_, ?_⟩
    · show (_ || (n.link e').any _) = true
      rw [(Network.wired hn.of_restrict).symm _ _ hlink]
      simp
    · exact network_charge_second hn hm hl hsources hlink hrel (Network.next_stepped hstep) hpeers

/-- So the threads at the connections come to rest, when the other clients wait
    for them. -/
theorem network_rests
    (hn : ((Network.system (clients sha1 m cs)).restrict Reliable).Reachable n)
    (hm : m.Describes sha1 F) (hl : cs.mode i = .LEECHER) (hsources : Sources cs n i) :
    ∃ evs n', ((Network.system (clients sha1 m cs)).restrict Reliable).Path n evs n' ∧
      (∀ ev ∈ evs, involves n i ev = true) ∧ n'.link = n.link ∧ AtRest sha1 m cs n' i := by
  obtain ⟨evs, n', hp, hevs, ⟨hlink, -⟩, hrest⟩ := System.exists_goal
    (fun n₁ => network_charge (n.node i).ctl.crnt_peer m n₁ i)
    (P := fun n₁ => n₁.link = n.link ∧ (n₁.node i).ctl.crnt_peer = (n.node i).ctl.crnt_peer)
    (Q := fun n₁ => AtRest sha1 m cs n₁ i) (G := fun ev => involves n i ev = true)
    (fun n₁ hn₁ hP => by
      obtain ⟨hlink, hpeers⟩ := hP
      by_cases hrest : AtRest sha1 m cs n₁ i
      · exact .inl hrest
      · have hsrc : Sources cs n₁ i := by
          intro p e' hlinked
          exact hsources p e' (hlink ▸ hlinked)
        obtain ⟨x, inp, n₂, hrel, hstep, hev, hlt⟩ :=
          involves_of_not_rest hn₁ hm hl hsrc hpeers.le hrest
        have h := Network.next_stepped hstep
        obtain ⟨-, -, -, hsame⟩ := h.acted
        refine .inr ⟨_, n₂, ⟨hrel, hstep⟩, ?_, ⟨hsame.trans hlink, ?_⟩, hlt⟩
        · unfold involves at hev ⊢
          rw [← hlink]
          exact hev
        · exact (crnt_peer_thread h i).trans hpeers)
    hn ⟨rfl, rfl⟩
  exact ⟨evs, n', hp, hevs, hlink, hrest⟩

/-! ## Results -/

/-- **Termination**: in every run of a network whose connections hold, whatever
    the number of clients and the order of their steps, the threads at the two
    ends of a leecher's connections take no more steps than the size of the
    torrent and the number of its peers allow, when the connections all lead to
    seeders. Where the run stops, these threads can take it on, by themselves,
    to a state where `wait_until_done` returns and the file begins with the
    original. -/
theorem network_terminates (hm : m.Describes sha1 F) (hl : cs.mode i = .LEECHER)
    {evs : List (NetEvent ι ℕ Action)}
    (hp : ((Network.system (clients sha1 m cs)).restrict Reliable).Path
      (Network.start (clients sha1 m cs)) evs n) (hsources : Sources cs n i) {p : ℕ}
    (hlink : n.link (i, p) = some e') :
    evs.countP (involves n i) ≤ step_bound (n.node i).ctl.crnt_peer m.blocks.card ∧
      ∃ evs' n', ((Network.system (clients sha1 m cs)).restrict Reliable).Path n evs' n' ∧
        (∀ ev ∈ evs', involves n i ev = true) ∧ (n'.node i).ctl.wait_until_done = true ∧
        ∃ f, (n'.node i).ctl.file = some f ∧ slice f 0 F.length = F := by
  have hn := hp.reachable (.init rfl)
  constructor
  · exact network_bounded hm hl hp hsources
  · obtain ⟨evs', n', hp', hevs, hsame, hrest⟩ := network_rests hn hm hl hsources
    have hn' := hp'.reachable hn
    have hsources' : Sources cs n' i := by
      intro q e'' hlinked
      exact hsources q e'' (hsame ▸ hlinked)
    have hlink' : n'.link (i, p) = some e' := by
      rw [hsame]
      exact hlink
    have hdone := done_at_rest hm hn' hl hsources' hlink' hrest
    exact ⟨evs', n', hp', hevs, hdone, file_of_done hm hn'.of_restrict hl hdone⟩

/-- The leecher has asked for both blocks, and goes on until it has them. -/
theorem couple_terminates : ∃ (n n' : Network Bool Swarm ℕ PeerMessage)
    (evs : List (NetEvent Bool ℕ Action)),
    couple_asks.countP (involves n true) ≤ step_bound 1 2 ∧
      ((Network.system couple_clients).restrict Reliable).Path n evs n' ∧
      (n'.node true).ctl.wait_until_done = true ∧
      ∃ f, (n'.node true).ctl.file = some f ∧ slice f 0 2 = [7, 8] := by
  have hrun : (System.run (System.guarded reliable (Network.next couple_clients))
      (Network.start couple_clients) couple_asks).any (fun n =>
        n.link (true, 0) == some (false, 0) && (n.node true).ctl.crnt_peer == 1) = true := by
    decide +kernel
  obtain ⟨n, hrun, hP⟩ := (Option.any_eq_true _ _).mp hrun
  simp only [Bool.and_eq_true, beq_iff_eq] at hP
  obtain ⟨hlink, hone⟩ := hP
  have hp : ((Network.system couple_clients).restrict Reliable).Path
      (Network.start couple_clients) couple_asks n :=
    .of_run (System.guarded_step reliable_of_computed Network.next_step) hrun
  have hsources : Sources (couple [7, 8]) n true := by
    intro p e' h
    obtain ⟨-, rfl⟩ := couple_only (hp.reachable (.init rfl)) hone hlink h
    rfl
  obtain ⟨hcount, evs, n', hp', -, hdone, hfile⟩ :=
    network_terminates pair_describes rfl hp hsources hlink
  rw [hone] at hcount
  exact ⟨n, n', evs, hcount, hp', hdone, hfile⟩

end network

end BitTorrentLite
