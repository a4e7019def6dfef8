import BitTorrentLite.Controller.Recovery
import BitTorrentLite.Network.Connections
import BitTorrentLite.Network.Inflight
import BitTorrentLite.Network.Supply
import BitTorrentLite.Swarm.Stability

/-! # A Leecher among Seeders

    A leecher with any number of connections, all to seeders, somewhere in a
    network whose connections hold. Its threads compete for the blocks: one may
    find none left and decline, a block that was tried with the Bitfield comes
    back to the pool, and so may a piece that was done. Still none is left
    behind: while a block can be requested some thread is going to ask for it,
    so where its connections have come to rest the leecher has the file.
-/

open Machine Region LTS

namespace BitTorrentLite

open Controller

/-! ## Connections to Seeders -/

namespace Duo

variable {sha1 : Bytes → Bytes} {F : Bytes} {m : Metadata} {d d' : Duo}

/-- Two threads that enter `run_peer_loop`. -/
theorem supplied_start {cA cB : Controller} {p q : ℕ} (hB : cB.Supplies F) :
    Supplied F m (start cA cB p q) where
  leecher := fetching_start
  seeder :=
    { point := rfl
      no_pending := rfl
      asked := by
        intro req hreq
        cases hreq
      seeding := hB.seeding
      no_haves := hB.no_haves q
      guarded := by
        refine ⟨⟨?_, ?_⟩, trivial⟩
        · intro req hreq
          cases hreq
        · intro req hreq
          cases hreq }
  from_leecher := by
    intro msg hmsg
    cases hmsg
  from_seeder := by
    intro msg hmsg
    cases hmsg
  met := .to_be_sent ⟨rfl, trivial⟩ rfl trivial
  wanted := by
    refine fun _ => ⟨?_, PC.noConfusion, ?_⟩
    · intro msg hmsg
      cases hmsg
    · intro msg hmsg
      cases hmsg
  unchoked := by
    intro _ hB
    cases hB
  not_asked := by
    refine fun _ => ⟨?_, rfl, ?_⟩
    · intro msg hmsg
      cases hmsg
    · intro msg hmsg
      cases hmsg
  left := False.elim

/-- Other threads of the two clients have moved. -/
theorem Supplied.under (hd : Supplied F m d) {cA cB : Controller}
    (hmeta : cB.toMetadata = d.B.ctl.toMetadata) (hB : cB.Supplies F) :
    Supplied F m (d.under cA cB) where
  leecher := hd.leecher
  seeder := hd.seeder.under hmeta hB
  from_leecher := hd.from_leecher
  from_seeder := hd.from_seeder
  met := by
    cases hd.met with
    | read hfull hnone hop => exact .read hfull hnone hop
    | on_the_way bf rest hwait hba hid hnone hop => exact .on_the_way bf rest hwait hba hid hnone hop
    | to_be_sent hwait hba hop => exact .to_be_sent hwait hba hop
  wanted := hd.wanted
  unchoked := hd.unchoked
  not_asked := hd.not_asked
  left := hd.left

/-- **Step lemma**: a step of the network keeps what links the two sides. -/
theorem Supplied.onwards (hm : m.Describes sha1 F) (hd : Supplied F m d)
    (hA : d.A.ctl.toMetadata = m.playing .LEECHER) (hspeaks : d.A.thread.pc.Speaks F d.A.ctl)
    (hB : d.B.ctl.toMetadata = m.playing .SEEDER) (hB' : d'.B.ctl.toMetadata = m.playing .SEEDER)
    (hsupply : d'.B.ctl.Supplies F) (h : Onwards sha1 d d') : Supplied F m d' := by
  cases h with
  | others cA cB => exact hd.under (hB'.trans hB.symm) hsupply
  | turn l d₁ cA cB halone hturn =>
    cases next_stepped hturn with
    | A ev p ab ba hturned =>
      have hd₁ := hd.turned_A hm hA hspeaks halone hturned
      exact hd₁.under (hB'.trans hB.symm) hsupply
    | B ev p ab ba hturned =>
      have hd₁ := hd.turned_B hm hB halone hturned
      apply hd₁.under _ hsupply
      show cB.toMetadata = p.ctl.toMetadata
      rw [hturned.toMetadata, hB]
      exact hB'

end Duo

/-! ## Threads of a Client -/

section moves

variable {sha1 : Bytes → Bytes} {c c' : Controller} {id : ℕ} {st st' : PeerState} {pc pc' : PC}
  {inp : Input}

/-- A thread that has left takes no block, and stays away. -/
theorem Move.left_keeps (h : Move sha1 c id st pc inp c' st' pc') (hleft : pc.Left) :
    pc'.Left ∧ ∀ i, ∀ off ∈ c'.inflight i, off ∈ c.inflight i := by
  cases h
  case cleanup_released => exact ⟨trivial, fun i off hin => (mem_release.mp hin).2⟩
  case cleanup_done => exact ⟨trivial, fun i off hin => (mem_release.mp hin).2⟩
  case unregistered => exact ⟨trivial, fun i off hin => hin⟩
  all_goals exact hleft.elim

/-- A thread in its loop leaves it when every piece is done, unless the stream
    has ended. -/
theorem Move.leaves (h : Move sha1 c id st pc inp c' st' pc') (hpc : ¬ pc.Left)
    (hstart : pc ≠ .handshake) (hopen : inp ≠ .recv none) (hleft : pc'.Left) :
    c'.all_done = true := by
  rcases h.target with hin | heq | ⟨-, -, hop⟩ | ⟨-, hwas | hnone | ⟨-, hdone⟩⟩
  · exact absurd hleft hin.not_left
  · exact absurd heq hstart
  · exact absurd hop hleft.not_opening
  · exact absurd hwas hpc
  · exact absurd hnone hopen
  · exact hdone

end moves

namespace Swarm

variable {sha1 : Bytes → Bytes} {m : Metadata} {disk : Option Bytes} {s : Swarm}

/-- In every reachable state, nothing of a piece that is done is in flight. -/
theorem reachable_doneIdle (h : (system sha1 m disk).Reachable s) : s.ctl.DoneIdle := by
  apply (controller_invariant (I := fun c => c.InflightOpen ∧ c.DoneIdle) ?_ ?_ h).2
  · refine ⟨inflightOpen_make m disk, ?_⟩
    intro i _ _
    rfl
  · intro c c' hc hst
    exact ⟨hc.1.stepped hst, hc.2.stepped hc.1 hst⟩

/-- The thread of a side says what the thread of the client does. -/
theorem Fair.party_speaks {F : Bytes} (h : s.Fair F) (p : ℕ) :
    (s.party p).thread.pc.Speaks F s.ctl := by
  show (s.thread p).entered.pc.Speaks F s.ctl
  have hspeaks : (s.thread p).pc.Speaks F s.ctl := by
    unfold thread
    cases ht : s.threads p with
    | none => trivial
    | some t => exact h.speaks p t ht
  unfold Thread.entered
  split
  · trivial
  · exact hspeaks

end Swarm

/-! ## The Leecher in the Network -/

section network

variable {ι : Type} [DecidableEq ι] {sha1 : Bytes → Bytes} {m : Metadata} {F : Bytes}
  {cs : Clients ι F} {n n' : Network ι Swarm ℕ PeerMessage} {ev : NetEvent ι ℕ Action} {i : ι}

/-- The connections of the client `i` all lead to seeders. -/
def Sources (cs : Clients ι F) (n : Network ι Swarm ℕ PeerMessage) (i : ι) : Prop :=
  ∀ p e', n.link (i, p) = some e' → cs.mode e'.1 = .SEEDER

/-- The connections of the leecher `i`, all to seeders, and its blocks. -/
structure Sourced (F : Bytes) (m : Metadata) (n : Network ι Swarm ℕ PeerMessage) (i : ι) :
    Prop where
  supplied : ∀ p e', n.link (i, p) = some e' → (connection n (i, p) e').Supplied F m
  /-- A block in flight is some thread's that has not left. -/
  owned : ∀ k < m.total_pieces, ∀ off ∈ (n.node i).ctl.inflight k, ∃ p t,
    (n.node i).threads p = some t ∧ ¬ t.pc.Left ∧
      ((k : ℤ), off) ∈ t.pc.claims (n.node i).ctl.toMetadata t.state
  /-- While there is a block to request, some thread is going to ask for it. -/
  sought : (∃ p e', n.link (i, p) = some e') → ∀ k off, (n.node i).ctl.Available k off →
    ∃ p e' t, n.link (i, p) = some e' ∧ (n.node i).threads p = some t ∧ t.pc.Eager t.state

/-! ### The Threads of the Leecher -/

/-- A thread of the leecher has not shaken hands, or is connected to a seeder
    and in its loop. -/
theorem Sourced.at_port (hm : m.Describes sha1 F)
    (h : ((Network.system (clients sha1 m cs)).restrict Reliable).Reachable n) (hS : Sourced F m n i) {p : ℕ}
    {t : Thread} (ht : (n.node i).threads p = some t) :
    (t.pc = .handshake ∧ t.state = {}) ∨ ∃ e', n.link (i, p) = some e' ∧
      Fetching t.state t.pc ∧ ((n.node i).party p).thread = t := by
  by_cases hpc : t.pc = .handshake
  · have hst := Swarm.reachable_shaking (network_alone hm h.of_restrict i).of_restrict p t ht hpc
    exact .inl ⟨hpc, hst⟩
  · cases hlink : n.link (i, p) with
    | none => exact absurd (unlinked_shaking h hlink ht) hpc
    | some e' =>
      have hthread : ((n.node i).party p).thread = t := by
        rw [connection_thread (x := (i, p)) ht, Thread.entered_eq hpc]
      have hfetch := (hS.supplied p e' hlink).leecher
      rw [show (connection n (i, p) e').A.thread = t from hthread] at hfetch
      exact .inr ⟨e', rfl, hfetch, hthread⟩

/-- The owner of a block in flight is eager. -/
theorem Sourced.owner_eager (hm : m.Describes sha1 F)
    (h : ((Network.system (clients sha1 m cs)).restrict Reliable).Reachable n) (hS : Sourced F m n i) {k : ℕ}
    (hk : k < m.total_pieces) {off : ℤ} (hin : off ∈ (n.node i).ctl.inflight k) :
    ∃ p e' t, n.link (i, p) = some e' ∧ (n.node i).threads p = some t ∧ ¬ t.pc.Left ∧
      ((k : ℤ), off) ∈ t.pc.claims (n.node i).ctl.toMetadata t.state ∧ t.pc.Eager t.state := by
  obtain ⟨p, t, ht, hleft, hclaims⟩ := hS.owned k hk off hin
  rcases hS.at_port hm h ht with ⟨hpc, hst⟩ | ⟨e', hlink, hfetch, -⟩
  · rw [hpc, hst] at hclaims
    cases hclaims
  · exact ⟨p, e', t, hlink, ht, hleft, hclaims, hfetch.claims_eager hclaims hleft⟩

/-- A thread of the leecher that takes a step is connected; it ends its
    handshake, or it is in its loop, where nothing fails. -/
theorem Sourced.mover (hm : m.Describes sha1 F)
    (h : ((Network.system (clients sha1 m cs)).restrict Reliable).Reachable n) (hS : Sourced F m n i) {p : ℕ}
    {inp : Input} (hrel : Reliable n (.act i (.thread p inp))) {t t' : Thread} {c' : Controller}
    (ht : (n.node i).threads p = some t)
    (hmove : Move sha1 (n.node i).ctl p t.state t.pc inp c' t'.state t'.pc) :
    ∃ e', n.link (i, p) = some e' ∧
      ((t.pc = .handshake ∧ t'.pc = .opening ∧ t'.state = t.state ∧ c' = (n.node i).ctl) ∨
        (Fetching t.state t.pc ∧ ((n.node i).party p).thread = t ∧ inp ≠ .sent false ∧
          inp ≠ .recv none)) := by
  by_cases hpc : t.pc = .handshake
  · rw [hpc] at hmove
    obtain ⟨st', pc'⟩ := t'
    cases hmove with
    | shaken ok =>
      obtain ⟨rfl, hlink⟩ := hrel
      obtain ⟨e', hlink⟩ := Option.isSome_iff_exists.mp hlink
      exact ⟨e', hlink, .inl ⟨hpc, rfl, rfl, rfl⟩⟩
  · rcases hS.at_port hm h ht with ⟨hwas, -⟩ | ⟨e', hlink, hfetch, hthread⟩
    · exact absurd hwas hpc
    · refine ⟨e', hlink, .inr ⟨hfetch, hthread, ?_, ?_⟩⟩
      · rintro rfl
        cases hrel
      -- the seeder closes after the leecher
      · rintro rfl
        obtain ⟨-, e'', hlink', hclosed⟩ := hrel
        obtain rfl := Option.some.inj (hlink.symm.trans hlink')
        have hgone := (hS.supplied p e' hlink).left (by
          rw [Duo.closed_eq (p := (connection n (i, p) e').B) hclosed]
          trivial)
        rw [show (connection n (i, p) e').A.thread = t from hthread, hmove.at_read] at hgone
        cases hgone

/-! ### Blocks in Flight -/

theorem network_mode (hm : m.Describes sha1 F)
    (hr : (Network.system (clients sha1 m cs)).Reachable n) :
    (n.node i).ctl.mode = cs.mode i := by
  rw [network_toMetadata hm hr i]
  rfl

/-- A leecher that finds all done has every piece done. -/
theorem done_of_all_done {s : Swarm} {disk : Option Bytes}
    (hr : (Swarm.system sha1 m disk).Reachable s) (hdone : s.ctl.all_done = true) :
    ∀ k < s.ctl.total_pieces, s.ctl.piece_status k = 1 :=
  ((all_done_iff_verified (Swarm.reachable_statusRange hr)).mp hdone).2

/-- The leecher's step leaves no block in flight without an owner. -/
theorem Sourced.owned_step (hm : m.Describes sha1 F)
    (h : ((Network.system (clients sha1 m cs)).restrict Reliable).Reachable n) (hl : cs.mode i = .LEECHER)
    (hS : Sourced F m n i) {a : Action} (hrel : Reliable n (.act i a)) {s : Swarm}
    (hs : (n.node i).next sha1 a = some s)
    (hread : ∀ p msg, a.reads = some (p, msg) → msg ∈ n.inbox (i, p)) :
    ∀ k < m.total_pieces, ∀ off ∈ s.ctl.inflight k, ∃ p t, s.threads p = some t ∧ ¬ t.pc.Left ∧
      ((k : ℤ), off) ∈ t.pc.claims s.ctl.toMetadata t.state := by
  have hr := h.of_restrict
  have halone := (network_alone hm hr i).of_restrict
  intro k hk off hin
  cases Swarm.next_stepped hs with
  | connected =>
    obtain ⟨p, t, ht, hleft, hclaims⟩ := hS.owned k hk off hin
    have hne : p ≠ (n.node i).ctl.crnt_peer := by
      rintro rfl
      rw [Swarm.reachable_not_crnt halone] at ht
      cases ht
    exact ⟨p, t, (Swarm.resume_threads_ne _ _ _ hne).trans ht, hleft, hclaims⟩
  | moved p inp t t' c' ht hmove =>
    have hmeta : c'.toMetadata = (n.node i).ctl.toMetadata := hmove.toMetadata
    change off ∈ c'.inflight k at hin
    -- the owner is another thread, which has not moved
    have other (hwas : off ∈ (n.node i).ctl.inflight k)
        (hnot : t.pc.Left ∨ ((k : ℤ), off) ∉ t.pc.claims (n.node i).ctl.toMetadata t.state) :
        ∃ q u, ((n.node i).resume c' p t').threads q = some u ∧ ¬ u.pc.Left ∧
          ((k : ℤ), off) ∈ u.pc.claims c'.toMetadata u.state := by
      obtain ⟨q, u, hu, hleft, hclaims⟩ := hS.owned k hk off hwas
      have hne : q ≠ p := by
        rintro rfl
        obtain rfl := Option.some.inj (ht.symm.trans hu)
        rcases hnot with hgone | hnot
        · exact hleft hgone
        · exact hnot hclaims
      refine ⟨q, u, (Swarm.resume_threads_ne _ _ _ hne).trans hu, hleft, ?_⟩
      rw [hmeta]
      exact hclaims
    obtain ⟨e', hlink, hstart | ⟨hfetch, -, hsent, hopen⟩⟩ := hS.mover hm h hrel ht hmove
    · obtain ⟨hpc, hpc', hst, rfl⟩ := hstart
      apply other hin
      rcases hS.at_port hm h ht with ⟨-, hnew⟩ | ⟨-, -, hfetch, -⟩
      · rw [hpc, hnew]
        exact .inr List.not_mem_nil
      · rw [hpc] at hfetch
        exact hfetch.point.elim
    · by_cases hleft : t.pc.Left
      · exact other ((hmove.left_keeps hleft).2 k off hin) (.inl hleft)
      · have hpc : t.pc ≠ .handshake := by
          intro heq
          rw [heq] at hfetch
          exact hfetch.point
        by_cases hleft' : t'.pc.Left
        -- it leaves when every piece is done, and nothing is in flight then
        · have hdone := hmove.leaves hleft hpc hopen hleft'
          have hreach := halone.step hs
          have hk' : k < c'.total_pieces := by
            rw [hmeta, network_toMetadata hm hr i]
            exact hk
          have hone := done_of_all_done hreach hdone k hk'
          have hnone : c'.inflight k = ∅ := Swarm.reachable_doneIdle hreach k hk' hone
          rw [hnone] at hin
          cases hin
        · have hl' : (n.node i).ctl.mode = .LEECHER := (network_mode hm hr).trans hl
          have hsized : ∀ payload, inp = .recv (some ⟨.Piece, payload⟩) →
              PieceSized (n.node i).ctl t.state payload := by
            rintro payload rfl
            have hdesc := network_describes hm hr i
            have hmsg := network_honest hm hr (i, p) _ (hread p _ rfl)
            have hcarries : (n.node i).ctl.Carries F payload := by
              rw [network_toMetadata hm hr i]
              exact hmsg
            exact hcarries.pieceSized hdesc.consistent hdesc.original
          rcases hmove.claims_kept hl' hsized hin with hmine | ⟨hwas, hnot⟩
          · refine ⟨p, t', Swarm.resume_threads_self .., hleft', ?_⟩
            show _ ∈ t'.pc.claims c'.toMetadata t'.state
            rw [hmeta]
            exact hmine
          · exact other hwas (.inr hnot)

/-! ### Blocks to Be Requested -/

/-- A thread that looks for a block knows that its seeder has every piece. -/
theorem Sourced.full (hm : m.Describes sha1 F)
    (hr : (Network.system (clients sha1 m cs)).Reachable n) (hS : Sourced F m n i) {p : ℕ}
    {e' : ι × ℕ} (hlink : n.link (i, p) = some e') {t : Thread}
    (hthread : ((n.node i).party p).thread = t)
    (hpc : t.pc = .request ∨ t.pc = .bitfield_probe) :
    (n.node i).ctl.Full t.state.peer_bitfield := by
  have hA : (connection n (i, p) e').A.thread = t := hthread
  have hwaits : ¬ t.Awaits := by
    intro hawaits
    have hat := hawaits.2
    rcases hpc with hpc | hpc
    · rw [hpc] at hat
      exact hat
    · rw [hpc] at hat
      exact hat
  rw [network_toMetadata hm hr i]
  cases (hS.supplied p e' hlink).met with
  | read hfull => exact hA ▸ hfull
  | on_the_way _ _ hawaits => exact absurd (hA ▸ hawaits) hwaits
  | to_be_sent hawaits => exact absurd (hA ▸ hawaits) hwaits

/-- A block that could be requested, or that is in flight, has an eager thread. -/
theorem Sourced.missing_eager (hm : m.Describes sha1 F)
    (h : ((Network.system (clients sha1 m cs)).restrict Reliable).Reachable n) (hS : Sourced F m n i)
    (hlinked : ∃ p e', n.link (i, p) = some e') {k : ℕ} {off : ℤ}
    (hmissing : (n.node i).ctl.Missing k off) :
    ∃ p e' t, n.link (i, p) = some e' ∧ (n.node i).threads p = some t ∧ ¬ t.pc.Left ∧
      t.pc.Eager t.state := by
  by_cases hin : off ∈ (n.node i).ctl.inflight k
  · have hk : k < m.total_pieces := by
      have hlt := hmissing.piece
      rw [network_toMetadata hm h.of_restrict i] at hlt
      exact hlt
    obtain ⟨p, e', t, hlink, ht, hleft, -, heager⟩ := hS.owner_eager hm h hk hin
    exact ⟨p, e', t, hlink, ht, hleft, heager⟩
  · obtain ⟨p, e', t, hlink, ht, heager⟩ := hS.sought hlinked k off
      ⟨hmissing.piece, hmissing.missing, hmissing.block, hmissing.not_stored, hin⟩
    refine ⟨p, e', t, hlink, ht, ?_, heager⟩
    intro hleft
    cases hpc : t.pc with
    | cleanup | unregister | closed =>
      rw [hpc] at heager
      exact heager
    | _ =>
      rw [hpc] at hleft
      exact hleft

/-- The leecher's step leaves no block behind. -/
theorem Sourced.sought_step (hm : m.Describes sha1 F)
    (hn : ((Network.system (clients sha1 m cs)).restrict Reliable).Reachable n) (hl : cs.mode i = .LEECHER)
    (hS : Sourced F m n i) {a : Action}
    (h : Network.Stepped (clients sha1 m cs) n (.act i a) n') (hrel : Reliable n (.act i a))
    {s : Swarm} (hs : (n.node i).next sha1 a = some s)
    (hlinked : ∃ p e', n.link (i, p) = some e') {k : ℕ} {off : ℤ} (ha : s.ctl.Available k off) :
    ∃ p e' t, n.link (i, p) = some e' ∧ s.threads p = some t ∧ t.pc.Eager t.state := by
  have hr := hn.of_restrict
  have halone := (network_alone hm hr i).of_restrict
  cases Swarm.next_stepped hs with
  | connected =>
    obtain ⟨p, e', t, hlink, ht, heager⟩ := hS.sought hlinked k off
      ⟨ha.piece, ha.missing, ha.block, ha.not_stored, ha.not_inflight⟩
    have hne : p ≠ (n.node i).ctl.crnt_peer := by
      rintro rfl
      rw [Swarm.reachable_not_crnt halone] at ht
      cases ht
    exact ⟨p, e', t, hlink, (Swarm.resume_threads_ne _ _ _ hne).trans ht, heager⟩
  | moved p inp t t' c' ht hmove =>
    change c'.Available k off at ha
    obtain ⟨e', hlink, hstart | ⟨hfetch, hthread, hsent, hopen⟩⟩ := hS.mover hm hn hrel ht hmove
    · obtain ⟨-, hpc', -, -⟩ := hstart
      refine ⟨p, e', t', hlink, Swarm.resume_threads_self .., ?_⟩
      rw [hpc']
      trivial
    · have hl' : (n.node i).ctl.mode = .LEECHER := (network_mode hm hr).trans hl
      by_cases heager : t.pc.Eager t.state
      -- the thread that moves goes on asking, or nothing is left
      · have hcomes : ∀ msg, inp = .recv (some msg) → Comes t.state msg := by
          rintro msg rfl
          obtain ⟨rest, hbox⟩ := h.reads_first rfl
          have hA : (connection n (i, p) e').A.thread = t := hthread
          have hpc : (connection n (i, p) e').A.thread.pc = .read_message := by
            rw [hA]
            exact hmove.at_read
          have hcomes := (hS.supplied p e' hlink).comes hbox hpc
          rw [hA] at hcomes
          exact hcomes
        have hmoved := hfetch.eager_moved hl' hmove hsent hopen hcomes
          (hS.full hm hr hlink hthread) (done_of_all_done halone) heager
        rcases hmoved with hnow | hnone
        · exact ⟨p, e', t', hlink, Swarm.resume_threads_self .., hnow⟩
        · exact absurd ha (hnone k off)
      -- another thread is eager
      · have hmissing : (n.node i).ctl.Missing k off := by
          rcases hmove.available ha with hav | hret
          · exact ⟨hav.piece, hav.missing, hav.block, hav.not_stored⟩
          · rcases hfetch.returns hret with hwas | ⟨-, hmissing⟩
            · exact absurd hwas heager
            · exact hmissing
        obtain ⟨q, e'', u, hlink', hu, -, hother⟩ := hS.missing_eager hm hn hlinked hmissing
        have hne : q ≠ p := by
          rintro rfl
          obtain rfl := Option.some.inj (ht.symm.trans hu)
          exact heager hother
        exact ⟨q, e'', u, hlink', (Swarm.resume_threads_ne _ _ _ hne).trans hu, hother⟩

/-! ### Every Step Keeps It -/

/-- **Step lemma** for a leecher among seeders. -/
theorem Sourced.stepped (hm : m.Describes sha1 F)
    (hn : ((Network.system (clients sha1 m cs)).restrict Reliable).Reachable n) (hl : cs.mode i = .LEECHER)
    (hrel : Reliable n ev) (hstep : n.next (clients sha1 m cs) ev = some n')
    (hsources : Sources cs n' i) (hS : Sourced F m n i) : Sourced F m n' i := by
  have h := Network.next_stepped hstep
  have hr := hn.of_restrict
  have hr' := hr.step hstep
  have hmeta := network_toMetadata hm hr
  have hmeta' := network_toMetadata hm hr'
  have hsupplies {e' : ι × ℕ} (he' : cs.mode e'.1 = .SEEDER) :
      (n'.node e'.1).ctl.Supplies F := by
    have halone := (network_alone hm hr' e'.1).of_restrict
    rw [cs.seeds e'.1 he', he'] at halone
    exact Swarm.reachable_supplies rfl halone
  -- the leecher has moved, or not
  have hnode : n'.node i = n.node i ∨ ∃ a s, ev = .act i a ∧ n'.node i = s ∧
      (n.node i).next sha1 a = some s ∧
        ∀ p msg, a.reads = some (p, msg) → msg ∈ n.inbox (i, p) := by
    rcases h.node with hnode | ⟨j, a, s, rfl, hs, hnode, hread⟩
    · exact .inl (by rw [hnode])
    · by_cases hj : i = j
      · subst hj
        exact .inr ⟨a, s, rfl, by rw [hnode, Function.update_self], hs, hread⟩
      · exact .inl (by rw [hnode, Function.update_of_ne hj])
  refine ⟨?_, ?_, ?_⟩
  · intro p e' hlink
    have he' := hsources p e' hlink
    rcases h.link hlink with hold | ⟨hnew, -⟩
    · apply (hS.supplied p e' hold).onwards hm _ _ _ _ (hsupplies he')
        (connection_onwards hr hm hrel h hold)
      · exact (hmeta i).trans (congrArg m.playing hl)
      · exact (network_fair hm hr i).party_speaks p
      · exact (hmeta e'.1).trans (congrArg m.playing he')
      · exact (hmeta' e'.1).trans (congrArg m.playing he')
    · rw [connection_start hr hm hrel h hlink hnew]
      exact Duo.supplied_start (hsupplies he')
  · rcases hnode with hsame | ⟨a, s, rfl, hnow, hs, hread⟩
    · rw [hsame]
      exact hS.owned
    · rw [hnow]
      exact hS.owned_step hm hn hl hrel hs hread
  · intro hlinked k off ha
    by_cases hnew : ∃ p e', n'.link (i, p) = some e' ∧ n.link (i, p) = none
    -- a thread that has just been connected has still to hear of the pieces
    · obtain ⟨p, e', hlink, hwas⟩ := hnew
      obtain ⟨⟨t, ht, hpc⟩, -⟩ := shaking_of_new hrel h hlink hwas
      rcases h.link hlink with hold | ⟨-, -, -, -, -, hsame⟩
      · rw [hwas] at hold
        cases hold
      · refine ⟨p, e', t, hlink, by rw [hsame]; exact ht, ?_⟩
        rw [hpc]
        trivial
    · have hlinked : ∃ p e', n.link (i, p) = some e' := by
        obtain ⟨p, e', hlink⟩ := hlinked
        cases hwas : n.link (i, p) with
        | none => exact absurd ⟨p, e', hlink, hwas⟩ hnew
        | some e'' => exact ⟨p, e'', hwas⟩
      rcases hnode with hsame | ⟨a, s, rfl, hnow, hs, -⟩
      · rw [hsame] at ha ⊢
        obtain ⟨p, e', t, hlink, ht, heager⟩ := hS.sought hlinked k off ha
        exact ⟨p, e', t, h.link_stays hlink, ht, heager⟩
      · rw [hnow] at ha ⊢
        obtain ⟨p, e', t, hlink, ht, heager⟩ := hS.sought_step hm hn hl h hrel hs hlinked ha
        exact ⟨p, e', t, h.link_stays hlink, ht, heager⟩

/-- **Run lemma**: in every run over connections that hold, a leecher all of
    whose connections lead to seeders. -/
theorem network_sourced (hm : m.Describes sha1 F)
    (h : ((Network.system (clients sha1 m cs)).restrict Reliable).Reachable n)
    (hl : cs.mode i = .LEECHER) (hsources : Sources cs n i) : Sourced F m n i := by
  induction h with
  | init h0 =>
    obtain rfl := h0
    refine ⟨?_, ?_, ?_⟩
    · intro p e' hlink
      cases hlink
    · intro k _ off hin
      cases hin
    · rintro ⟨p, e', hlink⟩
      cases hlink
  | @step n ev n' hr hst ih =>
    obtain ⟨hrel, hstep⟩ := hst
    have hwas : Sources cs n i := by
      intro p e' hlink
      exact hsources p e' ((Network.next_stepped hstep).link_stays hlink)
    exact (ih hwas).stepped hm hr hl hrel hstep hsources

end network

end BitTorrentLite
