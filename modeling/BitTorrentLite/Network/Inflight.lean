import BitTorrentLite.Network.Beliefs
import BitTorrentLite.Swarm.Ownership

/-! # Blocks in Flight in a Network of Clients

    A block that a leecher has marked in flight is one it has asked a client
    for that can send it: in a network of clients no block is marked without a
    request, and no request goes to a client that lacks the piece. Only honest
    messages are read, so the length of a Piece message is always that of the
    block it names.
-/

open Machine LTS

namespace BitTorrentLite

open Controller

section clients

variable {sha1 : Bytes → Bytes} {m : Metadata} {F : Bytes} {disk : Option Bytes} {s : Swarm}

/-- A block of the original has the length its request asked for. -/
theorem Metadata.Carries.pieceSized {c : Controller} {st : PeerState} (hg : c.Consistent)
    (ho : c.Original sha1 F) {p : Bytes} (h : c.Carries F p) : PieceSized c st p := by
  intro _ _ _ _ _
  obtain ⟨-, i, hi, b, hb, hx, hoff, hdata⟩ := h
  rw [hx, hoff, hdata, Metadata.block_of_length hg ho hi hb, hg.block_size_eq hi hb]

/-- Honest Piece messages have the right length. -/
theorem piecesSized_of_honest (hm : m.Describes sha1 F)
    (h : ((Swarm.system sha1 m disk).restrict (HonestRun F)).Reachable s) :
    ((Swarm.system sha1 m disk).restrict Swarm.PiecesSized).Reachable s := by
  apply System.Reachable.restrict_mono ?_ h
  intro s a hr hrun
  have hmeta : s.ctl.toMetadata = m := Swarm.reachable_toMetadata hr
  have hdesc : s.ctl.Describes sha1 F := hmeta ▸ hm
  unfold Swarm.PiecesSized
  split
  · rename_i id p
    intro t _
    have hmsg : s.ctl.Carries F p := hrun.2 id _ rfl
    exact hmsg.pieceSized hdesc.consistent hdesc.original
  · trivial

/-- A client has only asked for what it believes its peer has. -/
theorem believes_of_pending {s : Swarm} {id k : ℕ} {t : Thread} (ht : s.threads id = some t)
    {req : BlockRequest} (hreq : req ∈ t.state.pending_requests) (hk : req.piece_index = k) :
    s.Believes id k :=
  ⟨t, ht, .inr ⟨req, List.mem_append_left _ hreq, hk⟩⟩

end clients

section network

variable {ι : Type} [DecidableEq ι] {sha1 : Bytes → Bytes} {m : Metadata} {F : Bytes}
  {cs : Clients ι F} {n : Network ι Swarm ℕ PeerMessage}

/-- **No block is lost in flight**: in every run of a network of clients,
    whenever the threads of a leecher all wait in `read_message`, each block it
    has in flight is pending at a connection whose other end is a client that
    has the piece on its disk, as the original has it. -/
theorem network_inflight (hm : m.Describes sha1 F)
    (h : (Network.system (clients sha1 m cs)).Reachable n) {i : ι} (hl : cs.mode i = .LEECHER)
    (hw : (n.node i).AllWaiting) {k : ℕ} {off : ℤ} (hin : off ∈ (n.node i).ctl.inflight k) :
    ∃ p t, (n.node i).threads p = some t ∧ t.pc = .read_message ∧
      (∃ req ∈ t.state.pending_requests, req.piece_index = k ∧ req.block_offset = off) ∧
      ∃ j q, n.link (i, p) = some (j, q) ∧ (n.node j).ctl.Held F k := by
  have halone := network_alone hm h i
  have hmeta := network_toMetadata hm h i
  obtain ⟨p, t, ht, hmem⟩ :=
    Swarm.reachable_owned hl (piecesSized_of_honest (hm.playing _) halone) k off hin
  -- a thread that has ended claims nothing
  rcases hw p t ht with hpc | hpc
  · rw [hpc] at hmem
    cases hmem
  · rw [hpc] at hmem
    obtain ⟨req, hreq, hkey⟩ := List.mem_map.mp hmem
    obtain ⟨hpiece, hoff⟩ := Prod.mk.inj hkey
    have hguard := Swarm.reachable_guarded (hm.playing _).consistent
      (messagesOk_of_honest (hm.playing _) halone) p t ht
    have hhas := (hguard.1.pending req hreq).1
    rw [hmeta] at hhas
    have hk : k < m.total_pieces := by
      have hlt := hhas.2
      rw [hpiece] at hlt
      exact_mod_cast hlt
    have hb : (n.node i).Believes p k := believes_of_pending ht hreq hpiece
    refine ⟨p, t, ht, hpc, ⟨req, hreq, hpiece, hoff⟩, ?_⟩
    have hsound := (stock_knowledge hm cs).sound h
    cases hlink : n.link (i, p) with
    | none => exact absurd ⟨hk, hb⟩ (hsound.unlinked i p hlink k)
    | some e =>
      obtain ⟨j, q⟩ := e
      exact ⟨j, q, rfl, hsound.believed i p j q hlink k ⟨hk, hb⟩⟩

/-- The leecher has asked the seeder for both blocks, and the first is on its
    way. -/
theorem couple_inflight : ∃ (n : Network Bool Swarm ℕ PeerMessage) (j : Bool),
    0 ∈ (n.node true).ctl.inflight 1 ∧ (n.node j).ctl.Held [7, 8] 1 := by
  obtain ⟨n, hr, hP⟩ := couple_reaches couple_answers
    (P := fun n => (n.node true).all_waiting && decide (0 ∈ (n.node true).ctl.inflight 1))
    (by decide +kernel)
  rw [Bool.and_eq_true, decide_eq_true_eq] at hP
  have hw := Swarm.allWaiting_of_computed (network_alone pair_describes hr true).of_restrict hP.1
  obtain ⟨p, t, ht, hpc, hreq, j, q, hlink, hheld⟩ := network_inflight pair_describes hr rfl hw hP.2
  exact ⟨n, j, hP.2, hheld⟩

end network

end BitTorrentLite
