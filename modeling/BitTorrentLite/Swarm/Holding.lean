import BitTorrentLite.Swarm.Ownership

/-! # The Requests a Thread Holds

    `next_request` hands a block to one thread, which holds it until it gives
    it up: `PC.held`. The request list of a connected peer is something else
    in two places: the Choke handler clears it only after it has released all
    that is on it, and a block the Have and Bitfield handlers try
    `next_request` with never gets there. `PC.asked` follows the list.

    `Holding` says what one move of a thread does to the two, and to the
    blocks of the controller.
-/

open Machine LTS

namespace BitTorrentLite

/-- The blocks handed out to a thread at this point: what it claims, but for
    the block `received_block` is about to take. -/
def PC.held (m : Metadata) (st : PeerState) : PC → List (ℤ × ℤ)
  | .received _ _ _ => st.pending_keys
  | pc => pc.claims m st

/-- The blocks in the request list of a connected peer, the one that is about
    to be sent, and what the cleanup has still to go through. -/
def PC.asked (st : PeerState) : PC → List (ℤ × ℤ)
  | .send_request req => req.key :: st.pending_keys
  | .choke_release req rest => (req :: rest).map BlockRequest.key ++ st.pending_keys
  | .cleanup req rest => (req :: rest).map BlockRequest.key
  | .unregister => []
  | .closed => []
  | _ => st.pending_keys

/-- At most points of the loop the two are the request list. -/
structure PC.Plain (m : Metadata) (st : PeerState) (pc : PC) : Prop where
  held : pc.held m st = st.pending_keys
  asked : pc.asked st = st.pending_keys

section moves

variable {sha1 : Bytes → Bytes} {c c' : Controller} {id : ℕ} {st st' : PeerState} {pc pc' : PC}
  {inp : Input} {k : ℤ × ℤ}

/-- Outside the Choke handler, what has been asked for is held. -/
theorem asked_subset_held {m : Metadata} (hpc : ∀ req rest, pc ≠ .choke_release req rest) :
    pc.asked st ⊆ pc.held m st := by
  cases pc with
  | choke_release req rest => exact absurd rfl (hpc req rest)
  | request_release req => exact List.subset_cons_self ..
  | have_release req => exact List.subset_cons_self ..
  | bitfield_release req => exact List.subset_cons_self ..
  | _ => exact List.Subset.refl _

/-! ### One Move -/

/-- The blocks of the two controllers are the same. -/
structure Controller.SameBlocks (c c' : Controller) : Prop where
  inflight : c'.inflight = c.inflight
  piece_blocks : c'.piece_blocks = c.piece_blocks
  piece_status : c'.piece_status = c.piece_status

theorem Controller.SameBlocks.refl (c : Controller) : c.SameBlocks c := ⟨rfl, rfl, rfl⟩

/-- What a move of a thread does to the requests it holds and to the blocks. -/
inductive Holding (sha1 : Bytes → Bytes) (c : Controller) (st : PeerState) (pc : PC)
    (c' : Controller) (st' : PeerState) (pc' : PC) : Prop where
  /-- No block changes hands; a request may be dropped. -/
  | quiet : c.SameBlocks c' → (pc'.held c.toMetadata st').Subperm (pc.held c.toMetadata st) →
      pc'.asked st' ⊆ pc.asked st → Holding sha1 c st pc c' st' pc'
  /-- `next_request` hands out a block, to be asked for or to be released again. -/
  | handed (i : ℕ) (off : ℤ) : c.Available i off → c' = c.claim i off →
      pc'.held c.toMetadata st' = ((i : ℤ), off) :: pc.held c.toMetadata st →
      (pc'.asked st' ⊆ pc.asked st ∨ pc = .request ∧ st.peer_bitfield i = true ∧
        pc'.asked st' = ((i : ℤ), off) :: pc.asked st) → Holding sha1 c st pc c' st' pc'
  | released (i : ℕ) (off : ℤ) : c' = c.release i off →
      pc.held c.toMetadata st = ((i : ℤ), off) :: pc'.held c.toMetadata st' →
      pc'.asked st' ⊆ pc.asked st → Holding sha1 c st pc c' st' pc'
  | received (x off : ℤ) (data : Bytes) (done : Bool) : pc = .received x off data →
      Controller.Received c sha1 x off data c' done →
      pc'.held c.toMetadata st' = pc.held c.toMetadata st →
      pc'.asked st' ⊆ pc.asked st → Holding sha1 c st pc c' st' pc'
  | cleared (req : BlockRequest) (i : ℕ) : pc = .bitfield_store req → req.piece_index = i →
      c' = { c with piece_status := Function.update c.piece_status i 0 } →
      pc'.held c.toMetadata st' = pc.held c.toMetadata st →
      pc'.asked st' ⊆ pc.asked st → Holding sha1 c st pc c' st' pc'

/-- From one plain point to another, with the same request list. -/
theorem holding_plain (hc : c.SameBlocks c') (hpc : pc.Plain c.toMetadata st)
    (hpc' : pc'.Plain c.toMetadata st') (hkeys : st'.pending_keys = st.pending_keys) :
    Holding sha1 c st pc c' st' pc' := by
  refine .quiet hc ?_ ?_
  · rw [hpc.held, hpc'.held, hkeys]
  · rw [hpc.asked, hpc'.asked, hkeys]
    exact List.Subset.refl _

theorem plain_leave (m : Metadata) (st : PeerState) : (leave st).Plain m st := by
  unfold leave
  cases h : st.pending_requests <;> constructor <;>
    simp [PC.held, PC.claims, PC.asked, PeerState.pending_keys, h]

/-- The Choke handler starts with the whole request list. -/
theorem holding_choke_next (c : Controller) (st : PeerState) :
    Holding sha1 c st .read_message c st.choked (choke_next st) := by
  have hkeys : st.choked.pending_keys = st.pending_keys := rfl
  unfold choke_next
  cases h : st.pending_requests with
  | nil => exact holding_plain (.refl c) ⟨rfl, rfl⟩ ⟨rfl, rfl⟩ rfl
  | cons req rest =>
    have hlist : (req :: rest).map BlockRequest.key = st.pending_keys := by
      rw [PeerState.pending_keys, h]
    refine .quiet (.refl c) ?_ ?_
    · show List.Subperm ((req :: rest).map BlockRequest.key) st.pending_keys
      rw [hlist]
    · show (req :: rest).map BlockRequest.key ++ st.choked.pending_keys ⊆ st.pending_keys
      rw [hlist, hkeys]
      exact List.append_subset_of_subset_of_subset (List.Subset.refl _) (List.Subset.refl _)

/-- A Piece message drops the requests it answers. -/
theorem drop_request_sublist (st : PeerState) (x off : ℤ) :
    (st.drop_request x off).pending_keys.Sublist st.pending_keys :=
  List.Sublist.map _ List.filter_sublist

/-- A request that was sent is pending now. -/
theorem holding_request_sent {req : BlockRequest}
    (hst' : st' = { st with pending_requests := st.pending_requests ++ [req] }) :
    Holding sha1 c st (.send_request req) c st' (request_loop st') := by
  have hlist : st'.pending_keys = st.pending_keys ++ [req.key] := by
    simp [hst', PeerState.pending_keys]
  have hnext : (request_loop st').Plain c.toMetadata st' :=
    request_loop_cases ⟨rfl, rfl⟩ ⟨rfl, rfl⟩
  refine .quiet (.refl c) ?_ ?_
  · rw [hnext.held, hlist]
    exact (List.perm_append_singleton _ _).subperm
  · rw [hnext.asked, hlist]
    exact (List.perm_append_singleton _ _).subset

/-- The key of a request for a piece of the torrent. -/
theorem key_eq {req : BlockRequest} {i : ℕ} (hi : req.piece_index = i) :
    req.key = ((i : ℤ), req.block_offset) := by
  unfold BlockRequest.key
  rw [hi]

/-- **Inversion**: every move of a thread is one of the five. -/
theorem Move.holding (h : Move sha1 c id st pc inp c' st' pc') :
    Holding sha1 c st pc c' st' pc' := by
  have same := Controller.SameBlocks.refl c
  cases h
  -- a block changes hands
  case request_some i off _ ha hbf => exact .handed i off ha rfl rfl (.inr ⟨rfl, hbf, rfl⟩)
  case have_some i off _ ha _ => exact .handed i off ha rfl rfl (.inl (List.Subset.refl _))
  case bitfield_some i off _ ha _ => exact .handed i off ha rfl rfl (.inl (List.Subset.refl _))
  case request_released req i hi _ =>
    exact .released i _ rfl (by rw [← key_eq hi]; rfl) (List.Subset.refl _)
  case have_released req i hi _ =>
    exact .released i _ rfl (by rw [← key_eq hi]; rfl) (List.Subset.refl _)
  case bitfield_released req i hi _ =>
    exact .released i _ rfl (by rw [← key_eq hi]; rfl) (List.Subset.refl _)
  case choke_released req req' rest i hi _ =>
    exact .released i _ rfl (by rw [← key_eq hi]; rfl) (List.subset_cons_self ..)
  case choke_cleared req i hi _ =>
    exact .released i _ rfl (by rw [← key_eq hi]; rfl) (List.nil_subset _)
  case cleanup_released req req' rest i hi _ =>
    exact .released i _ rfl (by rw [← key_eq hi]; rfl) (List.subset_cons_self ..)
  case cleanup_done req i hi _ =>
    exact .released i _ rfl (by rw [← key_eq hi]; rfl) (List.nil_subset _)
  -- a block arrives, or a status is overwritten
  case block_received x off data done hrec =>
    have hnext : (request_next_blocks c.toMetadata st).Plain c.toMetadata st :=
      request_next_blocks_cases ⟨rfl, rfl⟩ ⟨rfl, rfl⟩
    exact .received x off data done rfl hrec hnext.held (hnext.asked ▸ List.Subset.refl _)
  case bitfield_stored req i hi _ =>
    have hnext : PC.Plain c.toMetadata st (if st.am_interested then .loop_top
        else .send_interested) := by
      split <;> exact ⟨rfl, rfl⟩
    exact .cleared req i rfl hi rfl hnext.held (hnext.asked ▸ List.Subset.refl _)
  -- the request list changes, or is followed by the loops that go through it
  case got_choke => exact holding_choke_next c st
  case got_piece p _ _ =>
    have hsub := drop_request_sublist st (ntohl p 0) (ntohl p 4)
    exact .quiet same hsub.subperm hsub.subset
  case request_sent req hst' => exact holding_request_sent hst'
  case request_unsent req => exact .quiet same (List.Subperm.refl _) (List.subset_cons_self ..)
  case unregistered => exact .quiet ⟨rfl, rfl, rfl⟩ (List.Subperm.refl _) (List.Subset.refl _)
  case got_request hst' =>
    subst hst'
    exact holding_plain same ⟨rfl, rfl⟩
      (serve_cases ⟨rfl, rfl⟩ ⟨rfl, rfl⟩ fun _ _ => ⟨rfl, rfl⟩) rfl
  -- the other moves lead from one plain point to another
  all_goals refine holding_plain ⟨rfl, rfl, rfl⟩ ⟨rfl, rfl⟩ ?_ rfl
  case shaken ok =>
    cases ok with
    | true => exact ⟨rfl, rfl⟩
    | false => exact plain_leave _ _
  case finished => exact plain_leave _ _
  case disconnected => exact plain_leave _ _
  case bitfield_sent => split <;> exact ⟨rfl, rfl⟩
  case got_bitfield => split <;> exact ⟨rfl, rfl⟩
  case drained =>
    exact flush_cases ⟨rfl, rfl⟩ ⟨rfl, rfl⟩ (fun _ _ => ⟨rfl, rfl⟩) fun _ _ => ⟨rfl, rfl⟩
  case have_sent =>
    exact flush_cases ⟨rfl, rfl⟩ ⟨rfl, rfl⟩ (fun _ _ => ⟨rfl, rfl⟩) fun _ _ => ⟨rfl, rfl⟩
  case have_unsent => exact serve_cases ⟨rfl, rfl⟩ ⟨rfl, rfl⟩ fun _ _ => ⟨rfl, rfl⟩
  case unchoke_sent => exact serve_cases ⟨rfl, rfl⟩ ⟨rfl, rfl⟩ fun _ _ => ⟨rfl, rfl⟩
  case passed_over => exact serve_next_cases ⟨rfl, rfl⟩ ⟨rfl, rfl⟩ fun _ _ => ⟨rfl, rfl⟩
  case piece_sent => exact serve_next_cases ⟨rfl, rfl⟩ ⟨rfl, rfl⟩ fun _ _ => ⟨rfl, rfl⟩
  case piece_unsent call => exact call_cases call ⟨rfl, rfl⟩ ⟨rfl, rfl⟩
  case got_unchoke => exact request_next_blocks_cases ⟨rfl, rfl⟩ ⟨rfl, rfl⟩
  case got_have => exact have_next_cases ⟨rfl, rfl⟩ ⟨rfl, rfl⟩
  case got_have_beyond => exact have_next_cases ⟨rfl, rfl⟩ ⟨rfl, rfl⟩
  all_goals exact ⟨rfl, rfl⟩

end moves

end BitTorrentLite
