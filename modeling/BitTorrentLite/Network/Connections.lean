import BitTorrentLite.Network.Delivery
import BitTorrentLite.TwoParty.Deadlock

/-! # The Connections of a Network

    In a network whose connections hold, each connection runs as the two-party
    system: the threads at its two ends take their turns, and the other threads
    of either client call methods of its controller. What holds of two peer
    loops, whatever the others do, so holds across every connection.
-/

open Machine LTS

namespace BitTorrentLite

/-! ## One Thread of a Client -/

/-- The thread, with the exchange of handshakes over. -/
def Thread.entered (t : Thread) : Thread :=
  match t.pc with
  | .handshake => ⟨t.state, .opening⟩
  | _ => t

/-- At most one call of a controller's methods. -/
def Called (sha1 : Bytes → Bytes) (c c' : Controller) : Prop :=
  c' = c ∨ ∃ op : Controller.Op, op.exec sha1 c = .ok c'

section threads

variable {sha1 : Bytes → Bytes} {c c' : Controller} {id : ℕ} {t t' : Thread} {inp : Input}

theorem Thread.entered_eq (h : t.pc ≠ .handshake) : t.entered = t := by
  unfold entered
  split
  · rename_i hpc
    exact absurd hpc h
  · rfl

/-- No step leads back to the handshake. -/
theorem Move.not_handshake {st st' : PeerState} {pc pc' : PC}
    (h : Move sha1 c id st pc inp c' st' pc') : pc' ≠ .handshake := by
  intro heq
  rcases h.target with hin | hpc | ⟨-, -, hop⟩ | ⟨hleft, -⟩
  · rw [heq] at hin
    exact hin
  · cases h with
    | shaken ok =>
      split at heq
      · cases heq
      · exact leave_cases (motive := fun pc => pc ≠ .handshake) PC.noConfusion
          (fun _ _ => PC.noConfusion) heq
    | _ => cases hpc
  · rw [heq] at hop
    exact hop
  · rw [heq] at hleft
    exact hleft

/-- What a thread does to the controller is at most one call. -/
theorem Thread.advance_op (h : t.advance sha1 c id inp = some (.ok (c', t'))) :
    Called sha1 c c' := by
  obtain ⟨st, pc⟩ := t
  -- a release
  have released {x off : ℤ} {next : Controller → Controller × Thread}
      (hr : (c.release_in_flight x off).map next = .ok (c', t'))
      (hnext : ∀ d, (next d).1 = d) : ∃ op : Controller.Op, op.exec sha1 c = .ok c' := by
    obtain ⟨d, hd, heq⟩ := map_ok hr
    obtain rfl : d = c' := (hnext d).symm.trans (congrArg Prod.fst heq).symm
    exact ⟨.release_in_flight x off, hd⟩
  -- a request
  have requested {d : Controller} {r : Option BlockRequest}
      (hr : c.next_request st.peer_bitfield = (d, r)) :
      ∃ op : Controller.Op, op.exec sha1 c = .ok d := by
    refine ⟨.next_request st.peer_bitfield, ?_⟩
    show Except.ok (c.next_request st.peer_bitfield).1 = .ok d
    rw [hr]
  cases inp with
  | sent ok =>
    obtain ⟨t₁, -, heq⟩ := Option.map_eq_some_iff.mp h
    cases heq
    exact .inl rfl
  | recv msg =>
    cases pc with
    | read_message =>
      cases msg with
      | none => cases h; exact .inl rfl
      | some msg =>
        obtain ⟨t₁, -, heq⟩ := map_ok (Option.some.inj h)
        cases heq
        exact .inl rfl
    | _ => cases h
  | shaken ok =>
    cases pc with
    | handshake => cases h; exact .inl rfl
    | _ => cases h
  | call =>
    cases pc with
    | opening => cases h; exact .inl rfl
    | loop_top => cases h; exact .inl rfl
    | flush_haves => cases h; exact .inr ⟨.drain_haves id, rfl⟩
    | unregister => cases h; exact .inr ⟨.unregister_peer id, rfl⟩
    | serve kept req rest call =>
      obtain ⟨block, -, heq⟩ := map_ok (Option.some.inj h)
      cases heq
      exact .inl rfl
    | request | have_probe | bitfield_probe =>
      unfold Thread.advance Thread.call at h
      cases hr : c.next_request st.peer_bitfield with
      | mk d r =>
        rw [hr] at h
        cases r with
        | none => cases h; exact .inr (requested hr)
        | some req => cases h; exact .inr (requested hr)
    | request_release req => exact .inr (released (Option.some.inj h) fun _ => rfl)
    | have_release req => exact .inr (released (Option.some.inj h) fun _ => rfl)
    | bitfield_release req => exact .inr (released (Option.some.inj h) fun _ => rfl)
    | choke_release req rest => exact .inr (released (Option.some.inj h) fun _ => rfl)
    | cleanup req rest => exact .inr (released (Option.some.inj h) fun _ => rfl)
    | bitfield_store req =>
      obtain ⟨d, hd, heq⟩ := map_ok (Option.some.inj h)
      cases heq
      exact .inr ⟨.clear_status req.piece_index, hd⟩
    | received x off data =>
      obtain ⟨⟨d, done⟩, hd, heq⟩ := map_ok (Option.some.inj h)
      cases heq
      refine .inr ⟨.received_block x off data, ?_⟩
      show (c.received_block sha1 x off data).map Prod.fst = .ok c'
      rw [hd]
      rfl
    | _ => cases h

end threads

/-- The thread has not shaken hands. -/
def PC.shaking : PC → Bool
  | .handshake => true
  | _ => false

theorem PC.shaking_eq {pc : PC} (h : pc.shaking = true) : pc = .handshake := by
  cases pc with
  | handshake => rfl
  | _ => cases h

/-! ## One Side of a Connection -/

namespace Swarm

open Controller

variable {sha1 : Bytes → Bytes} {m : Metadata} {disk : Option Bytes} {s s' : Swarm} {a : Action}
  {p q : ℕ} {inp : Input}

/-- The thread for the peer `p`, if need be as it will start. -/
def thread (s : Swarm) (p : ℕ) : Thread := (s.threads p).getD ⟨{}, .handshake⟩

/-- The client and its thread for the peer `p`, as one side of a connection. -/
def party (s : Swarm) (p : ℕ) : Party := ⟨s.ctl, p, (s.thread p).entered⟩

/-- A side, while another thread of the client has moved. -/
structure Bystander (sha1 : Bytes → Bytes) (s s' : Swarm) (p : ℕ) : Prop where
  thread : s'.thread p = s.thread p
  call : Called sha1 s.ctl s'.ctl

theorem Bystander.party_eq (h : Bystander sha1 s s' p) :
    s'.party p = { s.party p with ctl := s'.ctl } := by
  show (⟨s'.ctl, p, (s'.thread p).entered⟩ : Party) = _
  rw [h.thread]
  rfl

/-- The thread `p` has moved, and nothing else. -/
theorem next_thread (h : s.next sha1 (.thread p inp) = some s') :
    ∃ t c' t', s.threads p = some t ∧ t.advance sha1 s.ctl p inp = some (.ok (c', t')) ∧
      s' = s.resume c' p t' := by
  obtain ⟨r, hr, hs'⟩ := Option.bind_eq_some_iff.mp h
  obtain ⟨t, ht, hmap⟩ := Option.bind_eq_some_iff.mp hr
  obtain ⟨x, hadv, hx⟩ := Option.map_eq_some_iff.mp hmap
  cases r with
  | error e => cases hs'
  | ok d =>
    obtain rfl := Option.some.inj hs'
    obtain ⟨⟨c', t'⟩, rfl, rfl⟩ := map_ok hx
    exact ⟨t, c', t', ht, hadv, rfl⟩

theorem bystander_connect (hfresh : s.threads s.ctl.crnt_peer = none)
    (h : s.next sha1 .connect = some s') (q : ℕ) : Bystander sha1 s s' q := by
  obtain rfl := Option.some.inj h
  refine ⟨?_, .inr ⟨.register_peer, rfl⟩⟩
  show (Function.update s.threads s.ctl.crnt_peer (some ⟨{}, .handshake⟩) q).getD ⟨{}, .handshake⟩
    = s.thread q
  by_cases hq : q = s.ctl.crnt_peer
  · rw [hq, Function.update_self, thread, hfresh]
    rfl
  · rw [Function.update_of_ne hq]
    rfl

theorem bystander_thread (h : s.next sha1 (.thread p inp) = some s') (hq : q ≠ p) :
    Bystander sha1 s s' q := by
  obtain ⟨t, c', t', -, hadv, rfl⟩ := next_thread h
  refine ⟨?_, Thread.advance_op hadv⟩
  unfold thread
  rw [resume_threads_ne _ _ _ hq]

/-- The thread of a side takes a step. -/
theorem take_party (h : s.next sha1 (.thread p inp) = some s') (hinp : ∀ ok, inp ≠ .shaken ok) :
    (s.party p).take sha1 inp = some (s'.party p) ∧ (s.party p).thread = s.thread p := by
  obtain ⟨t, c', t', ht, hadv, rfl⟩ := next_thread h
  have hthread : s.thread p = t := by
    unfold thread
    rw [ht]
    rfl
  have hpc : t.pc ≠ .handshake := by
    intro hpc
    obtain ⟨st, pc⟩ := t
    obtain rfl : pc = .handshake := hpc
    cases inp with
    | shaken ok => exact hinp ok rfl
    | _ => cases hadv
  have hentered : (s.party p).thread = t := by
    show (s.thread p).entered = t
    rw [hthread, Thread.entered_eq hpc]
  have hnew : (s.resume c' p t').party p = ⟨c', p, t'⟩ := by
    show (⟨c', p, ((s.resume c' p t').thread p).entered⟩ : Party) = _
    have hself : (s.resume c' p t').thread p = t' := by
      unfold thread
      rw [resume_threads_self]
      rfl
    rw [hself, Thread.entered_eq (advance_move hadv).not_handshake]
  refine ⟨?_, hentered.trans hthread.symm⟩
  rw [hnew]
  unfold Party.take
  rw [hentered]
  show ((t.advance sha1 s.ctl p inp).bind Except.toOption).map _ = _
  rw [hadv]
  rfl

theorem thread_eq {t : Thread} (ht : s.threads p = some t) : s.thread p = t := by
  unfold thread
  rw [ht]
  rfl

/-- What a step sends is the message its thread has ready. -/
theorem sends_eq {msg : PeerMessage} (h : s.sends (.thread p inp) = some (q, msg)) :
    q = p ∧ inp = .sent true ∧ ∃ t, s.threads p = some t ∧ t.pc.output = some msg := by
  unfold sends at h
  split at h
  · rename_i heq
    obtain ⟨rfl, rfl⟩ := Action.thread.inj heq
    obtain ⟨t, ht, hmap⟩ := Option.bind_eq_some_iff.mp h
    obtain ⟨out, hout, hmsg⟩ := Option.map_eq_some_iff.mp hmap
    obtain ⟨rfl, rfl⟩ := Prod.mk.inj hmsg
    exact ⟨rfl, rfl, t, ht, hout⟩
  · cases h

/-- A thread that sends has a message ready. -/
theorem sends_ne_none (h : s.next sha1 (.thread p (.sent true)) = some s') :
    s.sends (.thread p (.sent true)) ≠ none := by
  obtain ⟨t, c', t', ht, hadv, -⟩ := next_thread h
  obtain ⟨msg, hout⟩ := (advance_move hadv).output_sent
  show (s.threads p).bind _ ≠ none
  rw [ht]
  show t.pc.output.map _ ≠ none
  rw [hout]
  exact Option.some_ne_none _

theorem shaken_thread {ok : Bool} (h : s.next sha1 (.thread p (.shaken ok)) = some s') :
    (s.thread p).pc = .handshake := by
  obtain ⟨t, c', t', ht, hadv, -⟩ := next_thread h
  rw [thread_eq ht]
  obtain ⟨st, pc⟩ := t
  cases pc with
  | handshake => rfl
  | _ => cases hadv

/-- The handshake does not show. -/
theorem shaken_party (h : s.next sha1 (.thread p (.shaken true)) = some s') :
    s'.party p = s.party p := by
  obtain ⟨t, c', t', ht, hadv, rfl⟩ := next_thread h
  obtain ⟨st, pc⟩ := t
  cases pc with
  | handshake =>
    cases hadv
    show (⟨s.ctl, p, ((s.resume s.ctl p ⟨st, .opening⟩).thread p).entered⟩ : Party) =
      ⟨s.ctl, p, (s.thread p).entered⟩
    unfold thread
    rw [resume_threads_self, ht]
    rfl
  | _ => cases hadv

/-- A thread that was started is there for good. -/
theorem Stepped.threads_stay (h : Stepped sha1 s a s') {t : Thread} (ht : s.threads p = some t) :
    ∃ t', s'.threads p = some t' := by
  have resumed (c : Controller) (id : ℕ) (t₁ : Thread) :
      ∃ t', (s.resume c id t₁).threads p = some t' := by
    by_cases hp : p = id
    · rw [hp]
      exact ⟨t₁, resume_threads_self ..⟩
    · exact ⟨t, (resume_threads_ne _ _ _ hp).trans ht⟩
  cases h with
  | connected => exact resumed _ _ _
  | moved => exact resumed _ _ _

/-- Before the handshake nothing has happened to a thread. -/
theorem reachable_shaking (h : (system sha1 m disk).Reachable s) :
    ∀ id t, s.threads id = some t → t.pc = .handshake → t.state = {} := by
  refine System.invariant
    (I := fun s : Swarm => ∀ id t, s.threads id = some t → t.pc = .handshake → t.state = {}) ?_ ?_ s h
  · rintro s rfl id t ht
    cases ht
  · intro s a s' _ hs hst id t ht hpc
    cases next_stepped hst with
    | connected =>
      rcases resume_threads ht with ⟨-, rfl⟩ | ⟨-, ht⟩
      · rfl
      · exact hs id t ht hpc
    | moved id' inp t₀ t' c' ht₀ hmove =>
      rcases resume_threads ht with ⟨-, rfl⟩ | ⟨-, ht⟩
      · exact absurd hpc hmove.not_handshake
      · exact hs id t ht hpc

theorem reachable_not_crnt (h : (system sha1 m disk).Reachable s) :
    s.threads s.ctl.crnt_peer = none := by
  cases ht : s.threads s.ctl.crnt_peer with
  | none => rfl
  | some t => exact absurd (reachable_fresh h _ t ht) (lt_irrefl _)

end Swarm

/-! ## Both Sides -/

section network

variable {ι : Type} {sha1 : Bytes → Bytes} {m : Metadata} {F : Bytes} {cs : Clients ι F}
  {n n' : Network ι Swarm ℕ PeerMessage} {e e' : ι × ℕ} {ev : NetEvent ι ℕ Action}

/-- The connection between the ports `e` and `e'`. -/
def connection (n : Network ι Swarm ℕ PeerMessage) (e e' : ι × ℕ) : Duo :=
  ⟨(n.node e.1).party e.2, (n.node e'.1).party e'.2, n.inbox e', n.inbox e⟩

/-- The thread at a port is there, and has not shaken hands. -/
def Shaking (n : Network ι Swarm ℕ PeerMessage) (e : ι × ℕ) : Prop :=
  ∃ t, (n.node e.1).threads e.2 = some t ∧ t.pc = .handshake

/-- The other end of the connection at a port is closed. -/
def HungUp (n : Network ι Swarm ℕ PeerMessage) (e : ι × ℕ) : Prop :=
  ∃ e', n.link e = some e' ∧ ((n.node e'.1).party e'.2).closed = true

/-- A step of a network whose connections hold: two threads are connected
    before they shake hands, and they agree; a send succeeds; and the end of a
    stream is read when everything was read and the other side has closed. -/
def Reliable (n : Network ι Swarm ℕ PeerMessage) : NetEvent ι ℕ Action → Prop
  | .connect e e' => Shaking n e ∧ Shaking n e'
  | .act _ (.thread _ (.sent ok)) => ok = true
  | .act i (.thread p (.recv none)) => n.inbox (i, p) = [] ∧ HungUp n (i, p)
  | .act i (.thread p (.shaken ok)) => ok = true ∧ (n.link (i, p)).isSome = true
  | _ => True

/-- The connection, with the controllers as other threads have left them. -/
def Duo.under (d : Duo) (cA cB : Controller) : Duo :=
  ⟨{ d.A with ctl := cA }, { d.B with ctl := cB }, d.ab, d.ba⟩

theorem Duo.alone_own {d : Duo} {ev : Event} (h : ∀ op, ev ≠ .other op) :
    d.Alone (.A ev) ∧ d.Alone (.B ev) := by
  cases ev with
  | other op => exact absurd rfl (h op)
  | _ => exact ⟨trivial, trivial⟩

/-- A connection after a step of its network: at most one of its own threads
    has taken a turn, and then other threads have called. -/
inductive Onwards (sha1 : Bytes → Bytes) (d : Duo) : Duo → Prop
  | others (cA cB : Controller) : Called sha1 d.A.ctl cA → Called sha1 d.B.ctl cB →
      Onwards sha1 d (d.under cA cB)
  | turn (l : Turn) (d₁ : Duo) (cA cB : Controller) : d.Alone l → d.next sha1 l = some d₁ →
      Called sha1 d₁.A.ctl cA → Called sha1 d₁.B.ctl cB → Onwards sha1 d (d₁.under cA cB)

/-- It is a step or more of the two-party system. -/
theorem Onwards.reachable {d₀ d d' : Duo} (h : Onwards sha1 d d')
    (hd : (Duo.system sha1 d₀).Reachable d) : (Duo.system sha1 d₀).Reachable d' := by
  have others {d : Duo} {cA cB : Controller} (hd : (Duo.system sha1 d₀).Reachable d)
      (hA : Called sha1 d.A.ctl cA) (hB : Called sha1 d.B.ctl cB) :
      (Duo.system sha1 d₀).Reachable (d.under cA cB) := by
    have hd₁ : (Duo.system sha1 d₀).Reachable (d.under cA d.B.ctl) := by
      rcases hA with rfl | ⟨op, hop⟩
      · exact hd
      · apply System.Reachable.step (l := .A (.other op)) hd
        show (((op.exec sha1 d.A.ctl).toOption.map _).map _) = some _
        rw [hop]
        rfl
    rcases hB with rfl | ⟨op, hop⟩
    · exact hd₁
    · apply System.Reachable.step (l := .B (.other op)) hd₁
      show (((op.exec sha1 d.B.ctl).toOption.map _).map _) = some _
      rw [hop]
      rfl
  cases h with
  | others cA cB hA hB => exact others hd hA hB
  | turn l d₁ cA cB _ hturn hA hB => exact others (.step hd hturn) hA hB

/-! ## Steps of a Network -/

variable [DecidableEq ι]

/-- Only the thread that moves changes at its port. -/
theorem bystander (hr : (Network.system (clients sha1 m cs)).Reachable n) (hm : m.Describes sha1 F)
    {i : ι} {a : Action} {s : Swarm} (hs : (n.node i).next sha1 a = some s) (x : ι × ℕ)
    (hx : ∀ p inp, a = .thread p inp → x ≠ (i, p)) :
    Swarm.Bystander sha1 (n.node x.1) ((n.moved i s).node x.1) x.2 := by
  obtain ⟨j, q⟩ := x
  by_cases hj : j = i
  · subst hj
    rw [Network.moved_node_self]
    cases a with
    | connect =>
      exact Swarm.bystander_connect
        (Swarm.reachable_not_crnt (network_alone hm hr j).of_restrict) hs q
    | thread p inp =>
      apply Swarm.bystander_thread hs
      rintro rfl
      exact hx q inp rfl rfl
  · rw [Network.moved_node_ne _ _ hj]
    exact ⟨rfl, .inl rfl⟩

/-- The step is of another thread than the one at the port `x`. -/
def Elsewhere (ev : NetEvent ι ℕ Action) (x : ι × ℕ) : Prop :=
  ∀ inp, ev ≠ .act x.1 (.thread x.2 inp)

omit [DecidableEq ι] in
theorem elsewhere_of_ne {i : ι} {p : ℕ} {inp : Input} {x : ι × ℕ} (h : x ≠ (i, p)) :
    Elsewhere (.act i (.thread p inp)) x := by
  intro inp' heq
  injection heq with hi ha
  injection ha with hp
  exact h (Prod.ext hi.symm hp.symm)

/-- The queues of a connection stay when other threads move. -/
theorem untouched (hw : n.Wired) (h : Network.Stepped (clients sha1 m cs) n ev n')
    (hlink : n.link e = some e') (he : Elsewhere ev e) (he' : Elsewhere ev e') :
    n'.inbox e = n.inbox e := by
  cases h with
  | connected => rfl
  | silent => rfl
  | read i a s q msg rest _ hread =>
    apply Network.queued_inbox_ne
    rintro rfl
    cases a with
    | connect => cases hread
    | thread p inp =>
      obtain ⟨rfl, -⟩ := Action.reads_eq hread
      exact he inp rfl
  | sent i a s q msg x _ _ hsend hto =>
    apply Network.queued_inbox_ne
    rintro rfl
    -- the port at the other end of the sender's is linked to the sender's
    obtain rfl := Option.some.inj (hlink.symm.trans (hw.symm _ _ hto))
    cases a with
    | connect => cases hsend
    | thread p inp =>
      obtain ⟨rfl, -⟩ := Swarm.sends_eq hsend
      exact he' inp rfl

/-- The step of a thread is a turn of its side of the connection, or it is the
    end of the handshake. -/
theorem own_turn (hw : n.Wired) {i : ι} {p : ℕ} {inp : Input}
    (hrel : Reliable n (.act i (.thread p inp)))
    (h : Network.Stepped (clients sha1 m cs) n (.act i (.thread p inp)) n')
    (hlink : n.link (i, p) = some e') :
    (((n.node i).thread p).pc = .handshake ∧ (n'.node i).party p = (n.node i).party p ∧
        n'.inbox (i, p) = n.inbox (i, p) ∧ n'.inbox e' = n.inbox e') ∨
      ∃ ev : Event, (∀ op, ev ≠ .other op) ∧
        ((n.node i).party p).turn sha1 ((n.node e'.1).party e'.2).closed (n.inbox (i, p))
          (n.inbox e') ev = some ((n'.node i).party p, n'.inbox (i, p), n'.inbox e') := by
  have hapart : (i, p) ≠ e' := hw.apart _ _ hlink
  cases h with
  | silent _ _ s hs hread hsend =>
    rw [Network.moved_node_self]
    show _ ∨ ∃ ev : Event, _ ∧ _ = some (s.party p, n.inbox (i, p), n.inbox e')
    cases inp with
    | call =>
      obtain ⟨htake, -⟩ := Swarm.take_party hs fun _ => Input.noConfusion
      refine .inr ⟨.call, fun _ => Event.noConfusion, ?_⟩
      show (((n.node i).party p).take sha1 .call).map _ = _
      rw [htake]
      rfl
    | sent ok =>
      obtain rfl : ok = true := hrel
      exact absurd hsend (Swarm.sends_ne_none hs)
    | recv msg =>
      cases msg with
      | some msg => cases hread
      | none =>
        obtain ⟨hempty, x, hx, hclosed⟩ := hrel
        obtain rfl : e' = x := Option.some.inj (hlink.symm.trans hx)
        obtain ⟨htake, -⟩ := Swarm.take_party hs fun _ => Input.noConfusion
        refine .inr ⟨.hangup, fun _ => Event.noConfusion, ?_⟩
        show (if (n.inbox (i, p)).isEmpty && ((n.node e'.1).party e'.2).closed then
          (((n.node i).party p).take sha1 (.recv none)).map _ else none) = _
        rw [hclosed, hempty, htake]
        rfl
    | shaken ok =>
      obtain ⟨rfl, -⟩ := hrel
      exact .inl ⟨Swarm.shaken_thread hs, Swarm.shaken_party hs, rfl, rfl⟩
  | read _ _ s q msg rest hs hread _ hbox =>
    obtain ⟨rfl, rfl⟩ := Action.reads_eq hread
    obtain ⟨htake, -⟩ := Swarm.take_party hs fun _ => Input.noConfusion
    refine .inr ⟨.recv, fun _ => Event.noConfusion, ?_⟩
    rw [Network.queued_inbox_self, Network.queued_inbox_ne _ _ hapart.symm, hbox]
    show (((n.node i).party q).take sha1 (.recv (some msg))).map _ =
      some (((n.moved i s).node i).party q, rest, n.inbox e')
    rw [htake, Network.moved_node_self]
    rfl
  | sent _ _ s q msg x hs _ hsend hto =>
    obtain ⟨rfl, rfl, t, ht, hout⟩ := Swarm.sends_eq hsend
    obtain rfl : e' = x := Option.some.inj (hlink.symm.trans hto)
    obtain ⟨htake, hthread⟩ := Swarm.take_party hs fun _ => Input.noConfusion
    refine .inr ⟨.send, fun _ => Event.noConfusion, ?_⟩
    rw [Network.queued_inbox_self, Network.queued_inbox_ne _ _ hapart]
    show (((n.node i).party q).take sha1 (.sent true)).map _ =
      some (((n.moved i s).node i).party q, n.inbox (i, q), n.inbox e' ++ [msg])
    rw [htake, Network.moved_node_self, hthread, Swarm.thread_eq ht, hout]
    rfl

/-- One side of a connection, when another thread has taken a step. -/
theorem elsewhere_bystander (hr : (Network.system (clients sha1 m cs)).Reachable n)
    (hm : m.Describes sha1 F) (h : Network.Stepped (clients sha1 m cs) n ev n') {x : ι × ℕ}
    (hx : Elsewhere ev x) : Swarm.Bystander sha1 (n.node x.1) (n'.node x.1) x.2 := by
  rcases h.node with hnode | ⟨i, a, s, rfl, hs, hnode, -⟩
  · rw [hnode]
    exact ⟨rfl, .inl rfl⟩
  · have hmoved : n'.node = (n.moved i s).node := hnode
    rw [hmoved]
    apply bystander hr hm hs
    rintro p inp rfl rfl
    exact hx inp rfl

/-- The connection after a step of another thread. -/
theorem connection_others (hr : (Network.system (clients sha1 m cs)).Reachable n)
    (hm : m.Describes sha1 F) (h : Network.Stepped (clients sha1 m cs) n ev n')
    (hlink : n.link e = some e') (hx : Elsewhere ev e) (hx' : Elsewhere ev e') :
    ∃ cA cB : Controller, Called sha1 (n.node e.1).ctl cA ∧ Called sha1 (n.node e'.1).ctl cB ∧
      connection n' e e' = (connection n e e').under cA cB := by
  have hw : n.Wired := Network.wired hr
  have hA := elsewhere_bystander hr hm h hx
  have hB := elsewhere_bystander hr hm h hx'
  refine ⟨_, _, hA.call, hB.call, ?_⟩
  unfold connection
  rw [hA.party_eq, hB.party_eq, untouched hw h (hw.symm _ _ hlink) hx' hx, untouched hw h hlink hx hx']
  rfl

/-- The connection after a step of the thread at its first end: the handshake
    is over, or the thread has taken a turn. -/
theorem connection_first (hr : (Network.system (clients sha1 m cs)).Reachable n)
    (hm : m.Describes sha1 F) {inp : Input} (hrel : Reliable n (.act e.1 (.thread e.2 inp)))
    (h : Network.Stepped (clients sha1 m cs) n (.act e.1 (.thread e.2 inp)) n')
    (hlink : n.link e = some e') : ∃ cB : Controller, Called sha1 (n.node e'.1).ctl cB ∧
      ((((n.node e.1).thread e.2).pc = .handshake ∧ (n'.node e.1).ctl = (n.node e.1).ctl ∧
          connection n' e e' = (connection n e e').under (n.node e.1).ctl cB) ∨
        ∃ ev d₁, (∀ op, ev ≠ .other op) ∧ (connection n e e').next sha1 (.A ev) = some d₁ ∧
          d₁.A.ctl = (n'.node e.1).ctl ∧ connection n' e e' = d₁.under d₁.A.ctl cB) := by
  have hw : n.Wired := Network.wired hr
  have hB := elsewhere_bystander hr hm h (elsewhere_of_ne (hw.apart _ _ hlink).symm)
  refine ⟨_, hB.call, ?_⟩
  unfold connection
  rcases own_turn hw hrel h hlink with ⟨hshake, hA, hba, hab⟩ | ⟨ev, hown, hturn⟩
  · rw [hA, hB.party_eq, hab, hba]
    exact .inl ⟨hshake, congrArg Party.ctl hA, rfl⟩
  · rw [hB.party_eq]
    refine .inr ⟨ev, ⟨(n'.node e.1).party e.2, (n.node e'.1).party e'.2, n'.inbox e', n'.inbox e⟩,
      hown, ?_, rfl, rfl⟩
    show (Party.turn _ _ _ _ _ _).map _ = _
    rw [hturn]
    rfl

/-- And at its second end. -/
theorem connection_second (hr : (Network.system (clients sha1 m cs)).Reachable n)
    (hm : m.Describes sha1 F) {inp : Input} (hrel : Reliable n (.act e'.1 (.thread e'.2 inp)))
    (h : Network.Stepped (clients sha1 m cs) n (.act e'.1 (.thread e'.2 inp)) n')
    (hlink : n.link e = some e') : ∃ cA : Controller, Called sha1 (n.node e.1).ctl cA ∧
      ((((n.node e'.1).thread e'.2).pc = .handshake ∧
          connection n' e e' = (connection n e e').under cA (n.node e'.1).ctl) ∨
        ∃ ev d₁, (∀ op, ev ≠ .other op) ∧ (connection n e e').next sha1 (.B ev) = some d₁ ∧
          connection n' e e' = d₁.under cA d₁.B.ctl) := by
  have hw : n.Wired := Network.wired hr
  have hback := hw.symm _ _ hlink
  have hA := elsewhere_bystander hr hm h (elsewhere_of_ne (hw.apart _ _ hlink))
  refine ⟨_, hA.call, ?_⟩
  unfold connection
  rcases own_turn hw hrel h hback with ⟨hshake, hB, hab, hba⟩ | ⟨ev, hown, hturn⟩
  · rw [hA.party_eq, hB, hab, hba]
    exact .inl ⟨hshake, rfl⟩
  · rw [hA.party_eq]
    refine .inr ⟨ev, ⟨(n.node e.1).party e.2, (n'.node e'.1).party e'.2, n'.inbox e', n'.inbox e⟩,
      hown, ?_, rfl⟩
    show (Party.turn _ _ _ _ _ _).map _ = _
    rw [hturn]
    rfl

omit [DecidableEq ι] in
/-- A step is of the thread at the port, or of another. -/
theorem elsewhere_or (ev : NetEvent ι ℕ Action) (x : ι × ℕ) :
    Elsewhere ev x ∨ ∃ inp, ev = .act x.1 (.thread x.2 inp) := by
  by_cases h : ∃ inp, ev = .act x.1 (.thread x.2 inp)
  · exact .inr h
  · exact .inl fun inp heq => h ⟨inp, heq⟩

/-- **A step of the network is a step of the connection**, or none. -/
theorem connection_onwards (hr : (Network.system (clients sha1 m cs)).Reachable n)
    (hm : m.Describes sha1 F) (hrel : Reliable n ev)
    (h : Network.Stepped (clients sha1 m cs) n ev n') (hlink : n.link e = some e') :
    Onwards sha1 (connection n e e') (connection n' e e') := by
  rcases elsewhere_or ev e with hx | ⟨inp, rfl⟩
  · rcases elsewhere_or ev e' with hx' | ⟨inp, rfl⟩
    · obtain ⟨cA, cB, hA, hB, hnext⟩ := connection_others hr hm h hlink hx hx'
      rw [hnext]
      exact .others cA cB hA hB
    · obtain ⟨cA, hA, ⟨-, hnext⟩ | ⟨ev, d₁, hown, hturn, hnext⟩⟩ :=
        connection_second hr hm hrel h hlink
      · rw [hnext]
        exact .others _ _ hA (.inl rfl)
      · rw [hnext]
        have honly : d₁.A = (connection n e e').A := by
          cases Duo.next_stepped hturn
          rfl
        refine .turn (.B ev) d₁ _ _ (Duo.alone_own hown).2 hturn ?_ (.inl rfl)
        rw [honly]
        exact hA
  · obtain ⟨cB, hB, ⟨-, -, hnext⟩ | ⟨ev, d₁, hown, hturn, -, hnext⟩⟩ :=
      connection_first hr hm hrel h hlink
    · rw [hnext]
      exact .others _ _ (.inl rfl) hB
    · rw [hnext]
      have honly : d₁.B = (connection n e e').B := by
        cases Duo.next_stepped hturn
        rfl
      refine .turn (.A ev) d₁ _ _ (Duo.alone_own hown).1 hturn (.inl rfl) ?_
      rw [honly]
      exact hB

/-! ### A New Connection -/

/-- Two threads are connected before they shake hands. -/
theorem shaking_of_new (hrel : Reliable n ev)
    (h : Network.Stepped (clients sha1 m cs) n ev n') (hlink : n'.link e = some e')
    (hnew : n.link e = none) : Shaking n e ∧ Shaking n e' := by
  have known (hlink : n.link e = some e') : Shaking n e ∧ Shaking n e' := by
    rw [hnew] at hlink
    cases hlink
  cases h with
  | connected a b =>
    rcases Network.linked_link hlink with hold | ⟨rfl, rfl⟩ | ⟨rfl, rfl⟩
    · exact known hold
    · exact hrel
    · exact hrel.symm
  | silent => exact known hlink
  | read => exact known hlink
  | sent => exact known hlink

/-- Two threads that are connected have been started. -/
theorem linked_thread (h : ((Network.system (clients sha1 m cs)).restrict Reliable).Reachable n)
    {x e' : ι × ℕ} (hlink : n.link x = some e') : ∃ t, (n.node x.1).threads x.2 = some t := by
  induction h with
  | init h0 =>
    obtain rfl := h0
    cases hlink
  | @step n _ _ hr hst ih =>
    obtain ⟨hrel, hstep⟩ := hst
    have hnext := Network.next_stepped hstep
    obtain ⟨t, ht⟩ : ∃ t, (n.node x.1).threads x.2 = some t := by
      rcases hnext.link hlink with hold | ⟨hnew, -⟩
      · exact ih hold
      · obtain ⟨⟨t, ht, -⟩, -⟩ := shaking_of_new hrel hnext hlink hnew
        exact ⟨t, ht⟩
    rcases hnext.node with hnode | ⟨j, a, s, -, hs, hnode, -⟩
    · rw [hnode]
      exact ⟨t, ht⟩
    · rw [hnode]
      by_cases hj : x.1 = j
      · rw [hj, Function.update_self]
        exact (Swarm.next_stepped hs).threads_stay (hj ▸ ht)
      · rw [Function.update_of_ne hj]
        exact ⟨t, ht⟩

/-- A thread that is not connected has not shaken hands. -/
theorem unlinked_shaking
    (h : ((Network.system (clients sha1 m cs)).restrict Reliable).Reachable n) {t : Thread}
    (hlink : n.link e = none) (ht : (n.node e.1).threads e.2 = some t) : t.pc = .handshake := by
  induction h generalizing t with
  | init h0 =>
    obtain rfl := h0
    cases ht
  | @step n ev n' hr hst ih =>
    obtain ⟨hrel, hstep⟩ := hst
    have hnext := Network.next_stepped hstep
    have hwas := hnext.not_linked hlink
    rcases hnext.node with hnode | ⟨i, a, s, rfl, hs, hnode, -⟩
    · rw [hnode] at ht
      exact ih hwas ht
    · rw [hnode] at ht
      by_cases hi : e.1 = i
      · subst hi
        rw [Function.update_self] at ht
        cases Swarm.next_stepped hs with
        | connected =>
          rcases Swarm.resume_threads ht with ⟨-, rfl⟩ | ⟨-, ht⟩
          · rfl
          · exact ih hwas ht
        | moved p inp t₀ t' c' ht₀ hmove =>
          rcases Swarm.resume_threads ht with ⟨rfl, rfl⟩ | ⟨-, ht⟩
          -- it shakes hands only when it is connected
          · have hpc := ih hwas ht₀
            rw [hpc] at hmove
            obtain ⟨st', pc'⟩ := t
            cases hmove with
            | shaken ok =>
              obtain ⟨-, hlinked⟩ := hrel
              rw [hwas] at hlinked
              cases hlinked
          · exact ih hwas ht
      · rw [Function.update_of_ne hi] at ht
        exact ih hwas ht

/-- The two threads enter `run_peer_loop` after they were connected. -/
theorem connection_start (hr : (Network.system (clients sha1 m cs)).Reachable n)
    (hm : m.Describes sha1 F) (hrel : Reliable n ev)
    (h : Network.Stepped (clients sha1 m cs) n ev n') (hlink : n'.link e = some e')
    (hnew : n.link e = none) :
    connection n' e e' = Duo.start (n'.node e.1).ctl (n'.node e'.1).ctl e.2 e'.2 := by
  -- a thread that has not shaken hands
  have party {x : ι × ℕ} (hx : Shaking n x) :
      (n.node x.1).party x.2 = ⟨(n.node x.1).ctl, x.2, ⟨{}, .opening⟩⟩ := by
    obtain ⟨t, ht, hpc⟩ := hx
    have hst := Swarm.reachable_shaking (network_alone hm hr x.1).of_restrict x.2 t ht hpc
    show (⟨_, x.2, ((n.node x.1).thread x.2).entered⟩ : Party) = _
    rw [Swarm.thread_eq ht]
    unfold Thread.entered
    rw [hpc, hst]
  obtain ⟨he, he'⟩ := shaking_of_new hrel h hlink hnew
  have hempty := (Network.wired hr).empty
  rcases h.link hlink with hold | ⟨-, hnew', -, -, hbox, hnode⟩
  · rw [hnew] at hold
    cases hold
  · unfold connection
    rw [hbox, hnode, party he, party he', hempty e hnew, hempty e' hnew']
    rfl

/-! ## Results -/

/-- What holds of two peer loops in every state they reach with each other,
    whatever other threads do, holds across every connection. -/
theorem connection_rule (hm : m.Describes sha1 F)
    (h : ((Network.system (clients sha1 m cs)).restrict Reliable).Reachable n)
    (hlink : n.link e = some e') {P : Duo → Prop}
    (hP : ∀ cA cB : Controller, cA.toMetadata = m.playing (cs.mode e.1) →
      cB.toMetadata = m.playing (cs.mode e'.1) →
      ∀ d, (Duo.system sha1 (Duo.start cA cB e.2 e'.2)).Reachable d → P d) :
    P (connection n e e') := by
  have hreach : ∃ cA cB : Controller, cA.toMetadata = m.playing (cs.mode e.1) ∧
      cB.toMetadata = m.playing (cs.mode e'.1) ∧
      (Duo.system sha1 (Duo.start cA cB e.2 e'.2)).Reachable (connection n e e') := by
    induction h with
    | init h0 =>
      obtain rfl := h0
      cases hlink
    | step hr hst ih =>
      obtain ⟨hrel, hstep⟩ := hst
      have hnext := Network.next_stepped hstep
      rcases hnext.link hlink with hold | ⟨hnew, -⟩
      · obtain ⟨cA, cB, hA, hB, hreach⟩ := ih hold
        have honwards := connection_onwards hr.of_restrict hm hrel hnext hold
        exact ⟨cA, cB, hA, hB, honwards.reachable hreach⟩
      · have hreach := hr.of_restrict.step hstep
        refine ⟨_, _, network_toMetadata hm hreach e.1, network_toMetadata hm hreach e'.1, ?_⟩
        rw [connection_start hr.of_restrict hm hrel hnext hlink hnew]
        exact .init rfl
  obtain ⟨cA, cB, hA, hB, hreach⟩ := hreach
  exact hP cA cB hA hB _ hreach

/-- **The connections of a network are two-party systems**: whatever the number
    of clients and the order of their steps, the two threads of a connection,
    and what is on its way between them, are in a state which the two peer
    loops reach with each other while other threads call methods of the
    controllers. -/
theorem network_connections (hm : m.Describes sha1 F)
    (h : ((Network.system (clients sha1 m cs)).restrict Reliable).Reachable n)
    {i j : ι} {p q : ℕ} (hlink : n.link (i, p) = some (j, q)) :
    ∃ cA cB : Controller, cA.toMetadata = m.playing (cs.mode i) ∧
      cB.toMetadata = m.playing (cs.mode j) ∧
      (Duo.system sha1 (Duo.start cA cB p q)).Reachable (connection n (i, p) (j, q)) := by
  apply connection_rule hm h hlink (P := fun d => ∃ cA cB : Controller,
    cA.toMetadata = m.playing (cs.mode i) ∧ cB.toMetadata = m.playing (cs.mode j) ∧
      (Duo.system sha1 (Duo.start cA cB p q)).Reachable d)
  intro cA cB hA hB d hd
  exact ⟨cA, cB, hA, hB, hd⟩

/-- The requests of a leecher are conserved. -/
theorem connection_conserved (hm : m.Describes sha1 F)
    (h : ((Network.system (clients sha1 m cs)).restrict Reliable).Reachable n)
    (hl : cs.mode e.1 = .LEECHER) (hlink : n.link e = some e') :
    (connection n e e').Conserved := by
  apply connection_rule hm h hlink (P := Duo.Conserved)
  intro cA cB hA _ d hd
  have hmode : cA.mode = .LEECHER := by
    rw [hA]
    exact hl
  have hfits : cA.total_pieces < 2 ^ 31 := by
    rw [hA]
    exact hm.consistent.pieces_int
  exact Duo.reachable_conserved hmode hfits hd

/-- `Reliable` can be computed. -/
def reliable (n : Network ι Swarm ℕ PeerMessage) : NetEvent ι ℕ Action → Bool
  | .connect e e' => shaking n e && shaking n e'
  | .act _ (.thread _ (.sent ok)) => ok
  | .act i (.thread p (.recv none)) => (n.inbox (i, p)).isEmpty &&
      (n.link (i, p)).any fun e' => ((n.node e'.1).party e'.2).closed
  | .act i (.thread p (.shaken ok)) => ok && (n.link (i, p)).isSome
  | _ => true
where
  shaking (n : Network ι Swarm ℕ PeerMessage) (e : ι × ℕ) : Bool :=
    ((n.node e.1).threads e.2).any fun t => t.pc.shaking

omit [DecidableEq ι] in
theorem reliable_of_computed (n : Network ι Swarm ℕ PeerMessage) (ev : NetEvent ι ℕ Action)
    (h : reliable n ev = true) : Reliable n ev := by
  have shaking {e : ι × ℕ} (h : reliable.shaking n e = true) : Shaking n e := by
    obtain ⟨t, ht, hpc⟩ := (Option.any_eq_true _ _).mp h
    exact ⟨t, ht, PC.shaking_eq hpc⟩
  unfold reliable at h
  split at h
  · obtain ⟨ha, hb⟩ := (Bool.and_eq_true _ _).mp h
    exact ⟨shaking ha, shaking hb⟩
  · exact h
  · obtain ⟨hempty, hclosed⟩ := (Bool.and_eq_true _ _).mp h
    obtain ⟨e', he', hclosed⟩ := (Option.any_eq_true _ _).mp hclosed
    exact ⟨List.isEmpty_iff.mp hempty, e', he', hclosed⟩
  · exact (Bool.and_eq_true _ _).mp h
  · unfold Reliable
    split <;> simp_all

/-- The leecher and the seeder, over a connection that holds. -/
theorem couple_holds (evs : List (NetEvent Bool ℕ Action))
    {P : Network Bool Swarm ℕ PeerMessage → Bool}
    (h : (System.run (System.guarded reliable (Network.next couple_clients))
      (Network.start couple_clients) evs).any P = true) :
    ∃ n, ((Network.system couple_clients).restrict Reliable).Reachable n ∧ P n = true :=
  System.Reachable.exists_of_run
    (System.guarded_step reliable_of_computed Network.next_step) (.init rfl) evs h

/-- The two loops, with both blocks asked for and one sent. -/
theorem couple_connections : ∃ (n : Network Bool Swarm ℕ PeerMessage) (cA cB : Controller),
    (Duo.system id (Duo.start cA cB 0 0)).Reachable (connection n (true, 0) (false, 0)) ∧
      0 ∈ (connection n (true, 0) (false, 0)).A.ctl.inflight 1 := by
  obtain ⟨n, hr, hP⟩ := couple_holds couple_answers
    (P := fun n => n.link (true, 0) == some (false, 0) &&
      decide (0 ∈ (n.node true).ctl.inflight 1)) (by decide +kernel)
  rw [Bool.and_eq_true, beq_iff_eq, decide_eq_true_eq] at hP
  obtain ⟨cA, cB, -, -, hduo⟩ := network_connections pair_describes hr hP.1
  exact ⟨n, cA, cB, hduo, hP.2⟩

omit [DecidableEq ι] in
/-- The thread at a port, once it is in its loop. -/
theorem connection_thread {x : ι × ℕ} {t : Thread} (ht : (n.node x.1).threads x.2 = some t) :
    ((n.node x.1).party x.2).thread = t.entered := by
  show ((n.node x.1).thread x.2).entered = _
  rw [Swarm.thread_eq ht]

end network

end BitTorrentLite
