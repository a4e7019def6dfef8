import BitTorrentLite.Network.Sources

/-! # Completion

    A leecher among seeders does not come to rest before it has the file: where
    no thread at either end of its connections can take a step, nothing is on
    its way, nothing is pending and nothing is left to request.
-/

open Machine Region LTS

namespace BitTorrentLite

open Controller

/-! ## Steps That Are Possible -/

section network

variable {ι : Type} [DecidableEq ι] {sha1 : Bytes → Bytes} {m : Metadata} {F : Bytes}
  {cs : Clients ι F} {n : Network ι Swarm ℕ PeerMessage} {i : ι} {x e' : ι × ℕ} {t t' : Thread}
  {c' : Controller} {inp : Input}

/-- The thread at the port can take no step. -/
def Resting (sha1 : Bytes → Bytes) (m : Metadata) (cs : Clients ι F)
    (n : Network ι Swarm ℕ PeerMessage) (x : ι × ℕ) : Prop :=
  ∀ inp n', Reliable n (.act x.1 (.thread x.2 inp)) →
    n.next (clients sha1 m cs) (.act x.1 (.thread x.2 inp)) ≠ some n'

/-- A step of a thread is a step of its client. -/
theorem Swarm.next_of_advance {s : Swarm} {p : ℕ} (ht : s.threads p = some t)
    (hadv : t.advance sha1 s.ctl p inp = some (.ok (c', t'))) :
    s.next sha1 (.thread p inp) = some (s.resume c' p t') := by
  show ((s.threads p).bind _).bind _ = _
  rw [ht]
  show ((t.advance sha1 s.ctl p inp).map _).bind _ = _
  rw [hadv]
  rfl

/-- A thread that rests does not call a method and sends nothing. -/
theorem Resting.waiting (hlink : n.link x = some e') (ht : (n.node x.1).threads x.2 = some t)
    (hrest : Resting sha1 m cs n x) : Party.Waiting sha1 ⟨(n.node x.1).ctl, x.2, t⟩ := by
  -- a step of the thread alone
  have taken {inp : Input} {p : Party}
      (h : Party.take sha1 ⟨(n.node x.1).ctl, x.2, t⟩ inp = some p) :
      ∃ c' t', t.advance sha1 (n.node x.1).ctl x.2 inp = some (.ok (c', t')) := by
    obtain ⟨⟨c', t'⟩, hadv, -⟩ := Option.map_eq_some_iff.mp h
    obtain ⟨r, hr, hok⟩ := Option.bind_eq_some_iff.mp hadv
    cases r with
    | error e => cases hok
    | ok r =>
      obtain rfl := Option.some.inj hok
      exact ⟨c', t', hr⟩
  constructor
  · refine Option.eq_none_iff_forall_ne_some.mpr fun p htake => ?_
    obtain ⟨c', t', hadv⟩ := taken htake
    apply hrest .call (n.moved x.1 ((n.node x.1).resume c' x.2 t')) trivial
    show Option.bind ((n.node x.1).next sha1 (.thread x.2 .call)) _ = _
    rw [Swarm.next_of_advance ht hadv]
    rfl
  · refine Option.eq_none_iff_forall_ne_some.mpr fun p htake => ?_
    obtain ⟨c', t', hadv⟩ := taken htake
    obtain ⟨msg, hout⟩ := (advance_move hadv).output_sent
    have hsends : (n.node x.1).sends (.thread x.2 (.sent true)) = some (x.2, msg) := by
      show ((n.node x.1).threads x.2).bind _ = _
      rw [ht]
      show t.pc.output.map _ = _
      rw [hout]
      rfl
    apply hrest (.sent true) ((n.moved x.1 ((n.node x.1).resume c' x.2 t')).queued e'
      (n.inbox e' ++ [msg])) rfl
    show Option.bind ((n.node x.1).next sha1 (.thread x.2 (.sent true))) _ = _
    rw [Swarm.next_of_advance ht hadv]
    show Network.exchange _ _ none ((n.node x.1).sends (.thread x.2 (.sent true))) = _
    rw [hsends]
    show (n.link x).map _ = _
    rw [hlink]
    rfl

/-- A thread that rests reads nothing. -/
theorem Resting.inbox (hm : m.Describes sha1 F)
    (hr : (Network.system (clients sha1 m cs)).Reachable n)
    (ht : (n.node x.1).threads x.2 = some t) (hpc : t.pc = .read_message)
    (hrest : Resting sha1 m cs n x) : n.inbox x = [] := by
  cases hbox : n.inbox x with
  | nil => rfl
  | cons msg rest =>
    obtain ⟨st, pc⟩ := t
    obtain rfl : pc = .read_message := hpc
    have hadv : Thread.advance sha1 (n.node x.1).ctl x.2 ⟨st, .read_message⟩ (.recv (some msg)) =
        some ((handle_message (n.node x.1).ctl.toMetadata st msg).map ((n.node x.1).ctl, ·)) := rfl
    -- no message that arrives is the end of the program
    have hfine : ∃ t', handle_message (n.node x.1).ctl.toMetadata st msg = .ok t' := by
      cases hres : handle_message (n.node x.1).ctl.toMetadata st msg with
      | ok t' => exact ⟨t', rfl⟩
      | error e =>
        rw [hres] at hadv
        have hallows : Allows n x.1 (.thread x.2 (.recv (some msg))) := by
          intro p msg' hread
          obtain ⟨rfl, rfl⟩ := Prod.mk.inj (Option.some.inj hread)
          exact ⟨rest, hbox⟩
        refine absurd ?_ (client_no_fault hm hr hallows e)
        show ((n.node x.1).threads x.2).bind _ = _
        rw [ht]
        rw [Option.bind_some, hadv]
        rfl
    obtain ⟨t', hres⟩ := hfine
    rw [hres] at hadv
    exfalso
    apply hrest (.recv (some msg)) ((n.moved x.1
      ((n.node x.1).resume (n.node x.1).ctl x.2 t')).queued x rest) trivial
    show Option.bind ((n.node x.1).next sha1 (.thread x.2 (.recv (some msg)))) _ = _
    rw [Swarm.next_of_advance ht hadv]
    show Network.take _ _ _ = _
    unfold Network.take
    rw [show (n.moved x.1 ((n.node x.1).resume (n.node x.1).ctl x.2 t')).inbox (x.1, x.2)
      = msg :: rest from hbox]
    exact if_pos rfl

/-- **Rest**: a connected thread rests at its end, or in `read_message` with
    nothing to read. -/
theorem Resting.cases (hm : m.Describes sha1 F)
    (hr : (Network.system (clients sha1 m cs)).Reachable n) (hlink : n.link x = some e')
    (ht : (n.node x.1).threads x.2 = some t) (hrest : Resting sha1 m cs n x) :
    t.pc = .closed ∨ (t.pc = .read_message ∧ n.inbox x = []) := by
  have hguard := Swarm.reachable_guarded (hm.playing _).consistent
    (messagesOk_of_honest (hm.playing _) (network_alone hm hr x.1)) x.2 t ht
  have hg := (network_describes hm hr x.1).consistent
  rcases (hrest.waiting hlink ht).rests hg hguard.2 with hpc | hpc | hpc
  · exact .inr ⟨hpc, hrest.inbox hm hr ht hpc⟩
  · exact .inl hpc
  -- the handshake would go on
  · obtain ⟨st, pc⟩ := t
    obtain rfl : pc = .handshake := hpc
    exfalso
    apply hrest (.shaken true)
      (n.moved x.1 ((n.node x.1).resume (n.node x.1).ctl x.2 ⟨st, .opening⟩))
    · refine ⟨rfl, ?_⟩
      show (n.link x).isSome = true
      rw [hlink]
      rfl
    · show Option.bind ((n.node x.1).next sha1 (.thread x.2 (.shaken true))) _ = _
      rw [Swarm.next_of_advance ht rfl]
      rfl

/-! ## Connections at Rest -/

/-- Where both threads of a connection to a seeder rest, the leecher's asks for
    nothing and waits for nothing. -/
theorem Duo.Supplied.not_eager {d : Duo} (hd : Supplied F m d) (hc : d.Conserved)
    (hA : d.A.thread.pc = .closed ∨ (d.A.thread.pc = .read_message ∧ d.ba = []))
    (hB : d.B.thread.pc = .closed ∨ (d.B.thread.pc = .read_message ∧ d.ab = [])) :
    ¬ d.A.thread.pc.Eager d.A.thread.state := by
  intro heager
  rcases hA with hpcA | ⟨hpcA, hba⟩
  · rw [hpcA] at heager
    exact heager
  · rw [hpcA] at heager
    obtain ⟨hint, hwaits⟩ := heager
    rcases hB with hpcB | ⟨hpcB, hab⟩
    -- the seeder leaves after the leecher
    · have hgone := hd.left (by rw [hpcB]; trivial)
      rw [hpcA] at hgone
      cases hgone
    · have hopen : d.B.thread.state.am_choking = false := by
        have hhears := hc.interest hint
        rw [hab] at hhears
        exact hhears
      have hch : d.A.thread.state.peer_choking = false := by
        rcases hd.unchoked (Thread.not_declined hint) hopen with hpc | ⟨msg, hmsg, -⟩ | hch
        · rw [hpcB] at hpc
          cases hpc
        · rw [hba] at hmsg
          cases hmsg
        · exact hch
      -- what was asked for has been answered, and the answer was read
      have hnone : d.A.thread.state.pending_requests = [] := by
        by_contra hne
        obtain ⟨req, hreq⟩ := List.exists_mem_of_ne_nil _ hne
        rcases hc.covered req.key (List.mem_map_of_mem hreq) with ⟨msg, hmsg, -⟩ | hin | ⟨msg, hmsg, -⟩
        · rw [hab] at hmsg
          cases hmsg
        · have hserve := hd.seeder.point
          rw [hpcB] at hserve
          have hempty : d.B.thread.state.incoming_requests = [] := hserve
          rw [PeerState.incoming_keys, hempty] at hin
          cases hin
        · rw [hba] at hmsg
          cases hmsg
      rcases hwaits with hwas | hne
      · rw [hch] at hwas
        cases hwas
      · exact hne hnone

/-- The connections of the client `i` rest at both ends. -/
def AtRest (sha1 : Bytes → Bytes) (m : Metadata) (cs : Clients ι F)
    (n : Network ι Swarm ℕ PeerMessage) (i : ι) : Prop :=
  ∀ p e', n.link (i, p) = some e' → Resting sha1 m cs n (i, p) ∧ Resting sha1 m cs n e'

/-- Where a leecher's connections rest, no thread of it is eager. -/
theorem Sourced.none_eager (hm : m.Describes sha1 F)
    (h : ((Network.system (clients sha1 m cs)).restrict Reliable).Reachable n)
    (hl : cs.mode i = .LEECHER) (hS : Sourced F m n i) (hrest : AtRest sha1 m cs n i) {p : ℕ}
    (hlink : n.link (i, p) = some e') (ht : (n.node i).threads p = some t) :
    ¬ t.pc.Eager t.state := by
  have hback := (Network.wired h.of_restrict).symm _ _ hlink
  obtain ⟨t', ht'⟩ := linked_thread h hback
  obtain ⟨hA, hB⟩ := hrest p e' hlink
  have hcases := hA.cases hm h.of_restrict hlink ht
  have hcases' := hB.cases hm h.of_restrict hback ht'
  have entered {u : Thread} {P : Prop} (hu : u.pc = .closed ∨ (u.pc = .read_message ∧ P)) :
      u.entered = u := by
    apply Thread.entered_eq
    intro hpc
    rw [hpc] at hu
    rcases hu with hu | ⟨hu, -⟩
    · cases hu
    · cases hu
  have hthread : (connection n (i, p) e').A.thread = t :=
    (connection_thread (x := (i, p)) ht).trans (entered hcases)
  have hthread' : (connection n (i, p) e').B.thread = t' :=
    (connection_thread ht').trans (entered hcases')
  have hnot := (hS.supplied p e' hlink).not_eager (connection_conserved hm h hl hlink)
    (by rw [hthread]; exact hcases) (by rw [hthread']; exact hcases')
  rw [hthread] at hnot
  exact hnot

/-- Where a leecher's connections rest, every piece is done. -/
theorem done_at_rest (hm : m.Describes sha1 F)
    (h : ((Network.system (clients sha1 m cs)).restrict Reliable).Reachable n)
    (hl : cs.mode i = .LEECHER) (hsources : Sources cs n i) {p : ℕ}
    (hlink : n.link (i, p) = some e') (hrest : AtRest sha1 m cs n i) :
    (n.node i).ctl.wait_until_done = true := by
  have hr := h.of_restrict
  have hS := network_sourced hm h hl hsources
  have hdesc := network_describes hm hr i
  have hmode : (n.node i).ctl.mode = .LEECHER := (network_mode hm hr).trans hl
  -- nothing is left to request
  have hnone : ∀ k off, ¬ (n.node i).ctl.Available k off := by
    intro k off ha
    obtain ⟨q, e'', t, hlink', ht, heager⟩ := hS.sought ⟨p, e', hlink⟩ k off ha
    exact hS.none_eager hm h hl hrest hlink' ht heager
  -- and nothing is in flight
  have hidle : ∀ k < m.total_pieces, (n.node i).ctl.inflight k = ∅ := by
    intro k hk
    by_contra hne
    obtain ⟨off, hin⟩ := Finset.nonempty_iff_ne_empty.mpr hne
    obtain ⟨q, e'', t, hlink', ht, -, -, heager⟩ := hS.owner_eager hm h hk hin
    exact hS.none_eager hm h hl hrest hlink' ht heager
  apply wait_until_done_iff.mpr
  intro k hk
  by_contra hst
  have hk' : k < m.total_pieces := by
    rw [network_toMetadata hm hr i] at hk
    exact hk
  obtain ⟨off, ha⟩ := ((network_fair hm hr i).stocked.leecher hmode).missing hdesc.consistent
    hdesc.fits hk hst (hidle k hk')
  exact hnone k off ha

/-- A leecher of the network that has every piece has the file. -/
theorem file_of_done (hm : m.Describes sha1 F)
    (hr : (Network.system (clients sha1 m cs)).Reachable n) (hl : cs.mode i = .LEECHER)
    (hdone : (n.node i).ctl.wait_until_done = true) :
    ∃ f, (n.node i).ctl.file = some f ∧ slice f 0 F.length = F :=
  (network_fair hm hr i).file_eq (network_describes hm hr i) ((network_mode hm hr).trans hl) hdone

/-! ## Results -/

/-- **Completion**: a leecher all of whose connections lead to seeders, over
    connections that hold, does not come to rest before it has everything,
    whatever the number of its connections and of the other clients and the
    order of their steps. Where no thread at either end of its connections can
    take a step, `wait_until_done` returns and the file begins with the
    original. -/
theorem network_completes (hm : m.Describes sha1 F)
    (h : ((Network.system (clients sha1 m cs)).restrict Reliable).Reachable n)
    (hl : cs.mode i = .LEECHER) (hsources : Sources cs n i) {p : ℕ}
    (hlink : n.link (i, p) = some e') (hrest : AtRest sha1 m cs n i) :
    (n.node i).ctl.wait_until_done = true ∧
      ∃ f, (n.node i).ctl.file = some f ∧ slice f 0 F.length = F := by
  have hdone := done_at_rest hm h hl hsources hlink hrest
  exact ⟨hdone, file_of_done hm h.of_restrict hl hdone⟩

/-- A thread that has ended rests. -/
theorem resting_of_closed (h : ((n.node x.1).party x.2).closed = true) :
    Resting sha1 m cs n x := by
  intro inp n' _ hstep
  obtain ⟨s, hs, -⟩ := Option.bind_eq_some_iff.mp hstep
  obtain ⟨t, c', t', ht, hadv, -⟩ := Swarm.next_thread hs
  have hpc : t.entered.pc = .closed := by
    rw [← connection_thread ht]
    exact Duo.closed_eq h
  have hentered : t.entered = t := by
    apply Thread.entered_eq
    intro hshake
    unfold Thread.entered at hpc
    rw [hshake] at hpc
    cases hpc
  rw [hentered] at hpc
  exact (advance_move hadv).not_closed hpc

/-- The only connection of a leecher that has one peer. -/
theorem couple_only {n : Network Bool Swarm ℕ PeerMessage}
    (hr : ((Network.system couple_clients).restrict Reliable).Reachable n)
    (hone : (n.node true).ctl.crnt_peer = 1) (hlink : n.link (true, 0) = some (false, 0)) {p : ℕ}
    {e' : Bool × ℕ} (h : n.link (true, p) = some e') : p = 0 ∧ e' = (false, 0) := by
  obtain ⟨t, ht⟩ := linked_thread hr h
  have halone := (network_alone pair_describes hr.of_restrict true).of_restrict
  have hp := Swarm.reachable_fresh halone p t ht
  rw [hone] at hp
  obtain rfl := Nat.lt_one_iff.mp hp
  exact ⟨rfl, Option.some.inj (h.symm.trans hlink)⟩

/-- The leecher has the file when both threads have ended. -/
theorem couple_completes : ∃ n : Network Bool Swarm ℕ PeerMessage,
    (n.node true).ctl.wait_until_done = true ∧
      ∃ f, (n.node true).ctl.file = some f ∧ slice f 0 2 = [7, 8] := by
  obtain ⟨n, hr, hP⟩ := couple_holds (couple_serves ++ [leech .call, leech .call, leech .call,
      leech .call, seed .call, seed .call, seed (.recv (some (build_have 0))), seed .call, seed .call,
      seed (.recv none), seed .call])
    (P := fun n => n.link (true, 0) == some (false, 0) && (n.node true).ctl.crnt_peer == 1 &&
      ((n.node true).party 0).closed && ((n.node false).party 0).closed) (by decide +kernel)
  simp only [Bool.and_eq_true, beq_iff_eq] at hP
  obtain ⟨⟨⟨hlink, hone⟩, hA⟩, hB⟩ := hP
  refine ⟨n, network_completes pair_describes hr rfl ?_ hlink ?_⟩
  · intro p e' h
    obtain ⟨-, rfl⟩ := couple_only hr hone hlink h
    rfl
  · intro p e' h
    obtain ⟨rfl, rfl⟩ := couple_only hr hone hlink h
    exact ⟨resting_of_closed hA, resting_of_closed hB⟩

end network

end BitTorrentLite
