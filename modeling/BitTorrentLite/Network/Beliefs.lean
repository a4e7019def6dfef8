import BitTorrentLite.Network.Delivery

/-! # What a Client Believes of Its Peers

    A client learns from Bitfield and Have messages what its peer has, and
    requests from that. The bits it keeps and the requests it makes are its
    beliefs; in a network of clients they are true: the piece lies on the disk
    of the client at the other end, as the original has it.
-/

open Machine LTS

namespace BitTorrentLite

open Controller

/-- The request a thread is about to send. -/
def PC.asking : PC → List BlockRequest
  | .send_request req => [req]
  | _ => []

/-- The thread has the bit of piece `k` set for its peer, or has asked it for
    a block of the piece. -/
def Thread.Believes (t : Thread) (k : ℕ) : Prop :=
  t.state.peer_bitfield k = true ∨
    ∃ req ∈ t.state.pending_requests ++ t.pc.asking, req.piece_index = k

section moves

variable {sha1 : Bytes → Bytes} {c c' : Controller} {peer_id : ℕ} {st st' : PeerState}
  {pc pc' : PC} {inp : Input} {k : ℕ}

/-- At a point where nothing is asked, what was believed before. -/
theorem believed_before (st : PeerState) (pc : PC) (h : Thread.Believes ⟨st', pc'⟩ k)
    (hnone : pc'.asking = []) (hbits : st'.peer_bitfield k = true → st.peer_bitfield k = true)
    (hpending : ∀ req ∈ st'.pending_requests, req ∈ st.pending_requests ++ pc.asking) :
    Thread.Believes ⟨st, pc⟩ k := by
  rcases h with hbit | ⟨req, hreq, hk⟩
  · exact .inl (hbits hbit)
  · change req ∈ st'.pending_requests ++ pc'.asking at hreq
    rw [hnone, List.append_nil] at hreq
    exact .inr ⟨req, hpending req hreq, hk⟩

/-- A step that leaves the bits and the pending requests as they are. -/
theorem believed_same (hb : Thread.Believes ⟨st', pc'⟩ k) (hnone : pc'.asking = [])
    (hbits : st'.peer_bitfield = st.peer_bitfield := by rfl)
    (hpending : st'.pending_requests = st.pending_requests := by rfl) :
    Thread.Believes ⟨st, pc⟩ k := by
  apply believed_before st pc hb hnone
  · intro hbit
    rw [← hbits]
    exact hbit
  · intro req hreq
    rw [hpending] at hreq
    exact List.mem_append_left _ hreq

/-- A bit that a Bitfield sets was set before, or is set in the message. -/
theorem decode_bitfield_cases {old : ℕ → Bool} {p : Bytes} (h : decode_bitfield old p k = true) :
    old k = true ∨ decode_bitfield (fun _ => false) p k = true := by
  unfold decode_bitfield at h ⊢
  by_cases hlen : ((k / 8 : ℕ) : ℤ) < int32 p.length
  · rw [if_pos hlen] at h ⊢
    exact .inr h
  · rw [if_neg hlen] at h
    exact .inl h

/-- **Step lemma**: a thread believes what it believed, or was told. -/
theorem Move.believes (h : Move sha1 c peer_id st pc inp c' st' pc') (hk : k < c.total_pieces)
    (hb : Thread.Believes ⟨st', pc'⟩ k) : Thread.Believes ⟨st, pc⟩ k ∨
      ∃ msg, inp = .recv (some msg) ∧ Tells c.toMetadata msg k := by
  cases h
  case got_have p i _ hi _ =>
    by_cases hki : k = i
    · exact .inr ⟨_, rfl, hk, by rw [hki]; exact hi⟩
    · apply Or.inl
      apply believed_before st .read_message hb (have_next_cases rfl rfl)
      · intro hbit
        exact (Function.update_of_ne hki ..).symm.trans hbit
      · intro req hreq
        exact List.mem_append_left _ hreq
  case got_bitfield p =>
    rcases hb with hbit | ⟨req, hreq, hkey⟩
    · rcases decode_bitfield_cases hbit with hold | hnew
      · exact .inl (.inl hold)
      · exact .inr ⟨_, rfl, hk, hnew⟩
    · refine .inl (.inr ⟨req, ?_, hkey⟩)
      have hnone : PC.asking (if c.mode = .LEECHER then .bitfield_probe else .loop_top) = [] := by
        split <;> rfl
      change req ∈ st.pending_requests ++ PC.asking (if c.mode = .LEECHER then _ else _) at hreq
      rw [hnone] at hreq
      exact hreq
  -- the block is of a piece whose bit is set
  case request_some i off _ _ hbit =>
    apply Or.inl
    rcases hb with hbit' | ⟨req, hreq, hkey⟩
    · exact .inl hbit'
    · rcases List.mem_append.mp hreq with hold | hnew
      · exact .inr ⟨req, List.mem_append_left _ hold, hkey⟩
      · obtain rfl := List.mem_singleton.mp hnew
        obtain rfl : i = k := Int.ofNat_inj.mp hkey
        exact .inl hbit
  case request_sent req hst =>
    apply Or.inl
    subst hst
    apply believed_before st (.send_request req) hb (request_loop_cases rfl rfl) id
    intro req' hreq'
    exact hreq'
  case request_unsent req =>
    apply Or.inl
    apply believed_before st (.send_request req) hb rfl id
    intro req' hreq'
    exact List.mem_append_left _ hreq'
  case got_piece p _ _ =>
    apply Or.inl
    apply believed_before st .read_message hb rfl id
    intro req hreq
    exact List.mem_append_left _ (List.mem_filter.mp hreq).1
  case choke_cleared req i _ _ =>
    apply Or.inl
    apply believed_before st (.choke_release req []) hb rfl id
    intro req' hreq'
    cases hreq'
  -- the other steps leave the bits and the requests as they are
  all_goals apply Or.inl
  case shaken =>
    apply believed_same hb
    split
    · rfl
    · exact leave_cases rfl fun _ _ => rfl
  case bitfield_sent => exact believed_same hb (by split <;> rfl)
  case bitfield_stored => exact believed_same hb (by split <;> rfl)
  case finished => exact believed_same hb (leave_cases rfl fun _ _ => rfl)
  case disconnected => exact believed_same hb (leave_cases rfl fun _ _ => rfl)
  case drained => exact believed_same hb (flush_cases rfl rfl (fun _ _ => rfl) fun _ _ => rfl)
  case have_sent => exact believed_same hb (flush_cases rfl rfl (fun _ _ => rfl) fun _ _ => rfl)
  case have_unsent => exact believed_same hb (serve_cases rfl rfl fun _ _ => rfl)
  case unchoke_sent => exact believed_same hb (serve_cases rfl rfl fun _ _ => rfl)
  case got_request hst =>
    subst hst
    exact believed_same hb (serve_cases rfl rfl fun _ _ => rfl)
  case passed_over => exact believed_same hb (serve_next_cases rfl rfl fun _ _ => rfl)
  case piece_sent => exact believed_same hb (serve_next_cases rfl rfl fun _ _ => rfl)
  case piece_unsent call => exact believed_same hb (call_cases call rfl rfl)
  case got_choke => exact believed_same hb (choke_next_cases rfl fun _ _ => rfl)
  case got_unchoke => exact believed_same hb (request_next_blocks_cases rfl rfl)
  case got_have_beyond => exact believed_same hb (have_next_cases rfl rfl)
  case block_received => exact believed_same hb (request_next_blocks_cases rfl rfl)
  all_goals exact believed_same hb rfl

end moves

/-! ## Beliefs of a Client -/

/-- What the client believes of its peer `id`. -/
def Swarm.Believes (s : Swarm) (id k : ℕ) : Prop := ∃ t, s.threads id = some t ∧ t.Believes k

/-- A new connection starts without beliefs, and a thread learns by reading. -/
theorem Swarm.believes_stepped {sha1 : Bytes → Bytes} {s s' : Swarm} {a : Action} {id k : ℕ}
    (h : Stepped sha1 s a s') (hk : k < s.ctl.total_pieces) (hb : s'.Believes id k) :
    s.Believes id k ∨ ∃ msg, a.reads = some (id, msg) ∧ Tells s.ctl.toMetadata msg k := by
  obtain ⟨t, ht, hb⟩ := hb
  cases h with
  | connected =>
    rcases resume_threads ht with ⟨-, rfl⟩ | ⟨-, ht⟩
    · rcases hb with hbit | ⟨req, hreq, -⟩
      · cases hbit
      · cases hreq
    · exact .inl ⟨t, ht, hb⟩
  | moved id' inp t₀ t₁ c' ht₀ hmove =>
    rcases resume_threads ht with ⟨rfl, rfl⟩ | ⟨-, ht⟩
    · rcases hmove.believes hk hb with hold | ⟨msg, rfl, htells⟩
      · exact .inl ⟨t₀, ht₀, hold⟩
      · exact .inr ⟨msg, rfl, htells⟩
    · exact .inl ⟨t, ht, hb⟩

section network

variable {ι : Type} {sha1 : Bytes → Bytes} {m : Metadata} {F : Bytes}

/-- A client knows of its peers the pieces on their disks. -/
def stock_knowledge [DecidableEq ι] (hm : m.Describes sha1 F) (cs : Clients ι F) :
    Network.Knowledge (fair_contract hm cs) ℕ where
  holds := fun s k => s.ctl.Held F k
  tells := Tells m
  believes := fun s id k => k < m.total_pieces ∧ s.Believes id k
  unbiased := by
    intro i id k hb
    obtain ⟨-, t, ht, -⟩ := hb
    cases ht
  stays := by
    intro i s a s' k hr hfed hst hk
    have hmeta : s.ctl.toMetadata = m.playing (cs.mode i) := Swarm.reachable_toMetadata hr
    have hm' : s.ctl.Describes sha1 F := hmeta ▸ hm.playing _
    have hfair : s.Fair F := hfed.1
    exact hfair.held hm' (Swarm.next_stepped hst) hk
  honest := by
    intro i s a s' id msg k hr hfair _ hsend htells
    have hmeta : s.ctl.toMetadata = m.playing (cs.mode i) := Swarm.reachable_toMetadata hr
    have hg : s.ctl.Consistent := hmeta ▸ (hm.playing _).consistent
    have hfair : s.Fair F := hfair
    apply (hfair.sent hg hsend).2 k
    rw [hmeta]
    exact htells
  learnt := by
    intro i s a s' id k hr hst hb
    have hmeta : s.ctl.toMetadata = m.playing (cs.mode i) := Swarm.reachable_toMetadata hr
    have hk : k < s.ctl.total_pieces := by
      rw [hmeta]
      exact hb.1
    rcases Swarm.believes_stepped (Swarm.next_stepped hst) hk hb.2 with hold | hnew
    · exact .inl ⟨hb.1, hold⟩
    · rw [hmeta] at hnew
      exact .inr hnew

variable [DecidableEq ι] {cs : Clients ι F} {n : Network ι Swarm ℕ PeerMessage}

/-- **Beliefs are true**: in every run of a network of clients, a piece whose
    bit a thread has set for its peer, or of which it has asked its peer a
    block, lies on the disk of the client at the other end of the connection,
    as the original has it; and so does every piece that a Have or Bitfield on
    its way there tells of. -/
theorem network_beliefs (hm : m.Describes sha1 F)
    (h : (Network.system (clients sha1 m cs)).Reachable n) {i j : ι} {p q : ℕ}
    (hlink : n.link (i, p) = some (j, q)) {k : ℕ} (hk : k < m.total_pieces) :
    ((n.node i).Believes p k → (n.node j).ctl.Held F k) ∧
      ∀ msg ∈ n.inbox (i, p), Tells m msg k → (n.node j).ctl.Held F k := by
  have hsound := (stock_knowledge hm cs).sound h
  refine ⟨?_, ?_⟩
  · intro hb
    exact hsound.believed i p j q hlink k ⟨hk, hb⟩
  · intro msg hmsg htells
    exact hsound.told (i, p) j q hlink msg hmsg k htells

/-- The leecher has read the seeder's Bitfield. -/
theorem couple_beliefs : ∃ n : Network Bool Swarm ℕ PeerMessage,
    (n.node true).Believes 0 1 ∧ (n.node false).ctl.Held [7, 8] 1 := by
  obtain ⟨n, hr, hP⟩ := couple_reaches couple_asks
    (P := fun n => n.link (true, 0) == some (false, 0) &&
      ((n.node true).threads 0).any fun t => t.state.peer_bitfield 1) (by decide +kernel)
  rw [Bool.and_eq_true, beq_iff_eq] at hP
  obtain ⟨t, ht, hbit⟩ := (Option.any_eq_true _ _).mp hP.2
  have hb : (n.node true).Believes 0 1 := ⟨t, ht, .inl hbit⟩
  exact ⟨n, hb, (network_beliefs pair_describes hr hP.1 Nat.one_lt_two).1 hb⟩

end network

end BitTorrentLite
