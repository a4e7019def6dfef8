import BitTorrentLite.Network.Stock
import BitTorrentLite.Peer.Bitfield
import BitTorrentLite.Swarm.Replies

/-! # What the Clients Say

    The messages of clients that exchange the file `F`: Requests for whole
    blocks, Pieces with blocks of the original, Haves and Bitfields that name
    pieces of the torrent only and the messages without numbers. No client
    sends KeepAlive, Cancel or an unknown id of its own accord. A thread that
    reads such messages comes to send such messages only, and what it announces
    lies on its disk.
-/

open Machine Region LTS

namespace BitTorrentLite

open Controller

namespace Metadata

/-- A block of the torrent with its length. -/
def WholeBlock (m : Metadata) (x off len : ℤ) : Prop :=
  m.IsBlock x off ∧ len = m.block_size x off

/-- The request is for a whole block. -/
def Whole (m : Metadata) (req : IncomingRequest) : Prop :=
  m.WholeBlock req.piece_index req.block_offset req.block_length

variable {m : Metadata} {x off len : ℤ}

theorem WholeBlock.fits (h : m.WholeBlock x off len) : FitsInt len := by
  obtain ⟨-, rfl⟩ := h
  have hint := int32_fits (m.piece_length_for x - off)
  unfold block_size block_length
  constructor <;> (unfold FitsInt at hint; omega)

end Metadata

/-- A message of a client that exchanges the file `F`. -/
def Honest (m : Metadata) (F : Bytes) (msg : PeerMessage) : Prop :=
  match msg.id with
  | .Choke => True
  | .Unchoke => True
  | .Interested => True
  | .NotInterested => True
  | .Bitfield => m.BitfieldOf msg.payload
  | .Have => 4 ≤ msg.payload.length ∧ m.Has (ntohl msg.payload 0)
  | .Request => 12 ≤ msg.payload.length ∧
      m.WholeBlock (ntohl msg.payload 0) (ntohl msg.payload 4) (ntohl msg.payload 8)
  | .Piece => m.Carries F msg.payload
  | _ => False

/-- The pieces a message says its sender has. -/
def Tells (m : Metadata) (msg : PeerMessage) (i : ℕ) : Prop :=
  i < m.total_pieces ∧ match msg.id with
  | .Have => ntohl msg.payload 0 = i
  | .Bitfield => decode_bitfield (fun _ => false) msg.payload i = true
  | _ => False

section messages

variable {m : Metadata} {F : Bytes} {msg : PeerMessage} {x off len : ℤ} {st : PeerState}

theorem honest_have (hg : m.Consistent) (h : m.Has x) : Honest m F (build_have x) := by
  have hread : ntohl (htonl x ++ []) 0 = x := ntohl_first (h.fits hg) []
  rw [List.append_nil] at hread
  refine ⟨le_of_eq (htonl_length x).symm, ?_⟩
  show m.Has (ntohl (htonl x) 0)
  rw [hread]
  exact h

theorem honest_request (hg : m.Consistent) (h : m.WholeBlock x off len) :
    Honest m F (build_request x off len) := by
  obtain ⟨hx, hoff⟩ := h.1.fits hg
  obtain ⟨-, hlen, hkey⟩ := requests_build hx hoff len
  obtain ⟨h₀, h₄⟩ := Prod.mk.inj hkey
  have h₈ : ntohl (htonl x ++ htonl off ++ htonl len ++ []) 8 = len :=
    ntohl_htonl h.fits (htonl x ++ htonl off) []
  rw [List.append_nil] at h₈
  refine ⟨hlen, ?_⟩
  rw [h₀, h₄, show ntohl (build_request x off len).payload 8 = len from h₈]
  exact h

theorem honest_piece {c : Controller} (hg : c.Consistent) {data : Bytes}
    (h : c.BlockOf F x off data) : Honest c.toMetadata F (build_piece_msg x off data) := by
  obtain ⟨i, hi, b, hb, rfl, rfl, rfl⟩ := h
  exact fromSeeder_piece hg hi hb

/-- Such a message does no harm. -/
theorem Honest.messageOk (hg : m.Consistent) (hfit : m.CountFits) (h : Honest m F msg) :
    MessageOk m st msg := by
  rcases msg with ⟨mid, p⟩
  cases mid with
  | Have => exact fun _ => h.2.1
  | Request => exact fun _ => .inr (h.2.1.inside hg)
  | Piece =>
    have hp : FromSeeder m F ⟨.Piece, p⟩ := h
    exact hp.messageOk hg hfit
  | _ => trivial

/-- A Have is told as it was built. -/
theorem tells_have (hg : m.Consistent) {i : ℕ} (hx : m.Has x)
    (h : Tells m (build_have x) i) : x = i := by
  have hread : ntohl (htonl x ++ []) 0 = x := ntohl_first (hx.fits hg) []
  rw [List.append_nil] at hread
  exact hread.symm.trans h.2

end messages

/-! ## What a Thread Has to Say -/

/-- What a thread at this point is about to say is honest, and so is the block
    it is about to hand over. -/
def PC.Speaks (F : Bytes) (c : Controller) : PC → Prop
  | .send_bitfield bf => c.BitfieldOf bf ∧
      ∀ i < c.total_pieces, decode_bitfield (fun _ => false) bf i = true → c.Held F i
  | .send_have piece rest => ∀ x ∈ piece :: rest, c.Announces F x
  | .send_piece _ req _ block _ => c.BlockOf F req.piece_index req.block_offset block
  | .send_request req => c.WholeBlock req.piece_index req.block_offset req.block_length
  | .received x off data => c.BlockOf F x off data
  | .send_keep_alive => False
  | _ => True

/-- What is queued for the peers lies on the disk. -/
def Controller.Quotes (F : Bytes) (c : Controller) : Prop :=
  ∀ id q, c.send_haves id = some q → ∀ x ∈ q, c.Announces F x

section moves

variable {sha1 : Bytes → Bytes} {F : Bytes} {c c' : Controller} {peer_id : ℕ}
  {st st' : PeerState} {pc pc' : PC} {inp : Input}

/-- Another thread may move meanwhile: what lies on the disk stays there. -/
theorem PC.Speaks.mono (h : pc.Speaks F c) (hmeta : c'.toMetadata = c.toMetadata)
    (hheld : ∀ i, c.Held F i → c'.Held F i) : pc.Speaks F c' := by
  have hann : ∀ x, c.Announces F x → c'.Announces F x := by
    intro x hx
    obtain ⟨i, hxi, hi⟩ := hx
    exact ⟨i, hxi, hheld i hi⟩
  cases pc with
  | send_bitfield bf =>
    refine ⟨?_, ?_⟩
    · rw [hmeta]
      exact h.1
    · intro i hi hbit
      rw [hmeta] at hi
      exact hheld i (h.2 i hi hbit)
  | send_have piece rest => exact fun x hx => hann x (h x hx)
  | send_piece kept req rest block call =>
    unfold PC.Speaks BlockOf
    rw [hmeta]
    exact h
  | send_request req =>
    unfold PC.Speaks
    rw [hmeta]
    exact h
  | received x off data =>
    unfold PC.Speaks BlockOf
    rw [hmeta]
    exact h
  | send_keep_alive => exact h
  | _ => trivial

theorem speaks_flush {haves : List ℤ} (h : ∀ x ∈ haves, c.Announces F x) :
    (flush_next st haves).Speaks F c := by
  cases haves with
  | nil =>
    show (serve_incoming_requests st .before_read).Speaks F c
    exact serve_cases trivial trivial fun _ _ => trivial
  | cons piece rest => exact h

/-- Only `received_block` changes what is stored and what is done. -/
theorem Move.received_or_undisturbed (h : Move sha1 c peer_id st pc inp c' st' pc') :
    (∃ x off data done, pc = .received x off data ∧ Received c sha1 x off data c' done) ∨
      c.Undisturbed c' := by
  cases h
  case block_received x off data done hrec => exact .inl ⟨x, off, data, done, rfl, hrec⟩
  all_goals apply Or.inr
  case drained => exact c.undisturbed_queues _ _
  case unregistered => exact c.undisturbed_queues _ _
  case choke_released => exact c.undisturbed_release _ _
  case choke_cleared => exact c.undisturbed_release _ _
  case request_released => exact c.undisturbed_release _ _
  case have_released => exact c.undisturbed_release _ _
  case bitfield_released => exact c.undisturbed_release _ _
  case cleanup_released => exact c.undisturbed_release _ _
  case cleanup_done => exact c.undisturbed_release _ _
  case request_some => exact c.undisturbed_claim _ _
  case have_some => exact c.undisturbed_claim _ _
  case bitfield_some => exact c.undisturbed_claim _ _
  case bitfield_stored => exact c.undisturbed_clear _
  all_goals exact c.undisturbed_queues c.crnt_peer c.send_haves

/-- The stock is kept by a thread with honest blocks. -/
theorem Move.stocked (h : Move sha1 c peer_id st pc inp c' st' pc') (hg : c.Consistent)
    (hfit : c.CountFits) (ho : c.Original sha1 F) (hc : c.Stocked F) (hpc : pc.Speaks F c) :
    c'.Stocked F := by
  rcases h.received_or_undisturbed with ⟨x, off, data, done, rfl, hrec⟩ | hq
  · exact hc.received hg hfit ho hpc hrec
  · exact hc.undisturbed hq

/-- What lies on the disk stays there. -/
theorem Move.held (h : Move sha1 c peer_id st pc inp c' st' pc') (hg : c.Consistent)
    (hfit : c.CountFits) (ho : c.Original sha1 F) (hc : c.Stocked F) (hpc : pc.Speaks F c)
    (i : ℕ) (hi : c.Held F i) : c'.Held F i := by
  rcases h.received_or_undisturbed with ⟨x, off, data, done, rfl, hrec⟩ | hq
  · cases hm : c.mode with
    | SEEDER =>
      rw [hrec.seeder hm]
      exact hi
    | LEECHER => exact hi.received hg hfit ho hm (hc.leecher hm).genuine hpc hrec
  · exact hi.undisturbed hq

theorem Move.announces (h : Move sha1 c peer_id st pc inp c' st' pc') (hg : c.Consistent)
    (hfit : c.CountFits) (ho : c.Original sha1 F) (hc : c.Stocked F) (hpc : pc.Speaks F c)
    {x : ℤ} (hx : c.Announces F x) : c'.Announces F x := by
  obtain ⟨i, hxi, hi⟩ := hx
  exact ⟨i, hxi, h.held hg hfit ho hc hpc i hi⟩

/-- Every piece that is queued lies on the disk. -/
theorem Move.quotes (h : Move sha1 c peer_id st pc inp c' st' pc') (hg : c.Consistent)
    (hfit : c.CountFits) (ho : c.Original sha1 F) (hc : c.Stocked F) (hpc : pc.Speaks F c)
    (hq : c.Quotes F) : c'.Quotes F := by
  have hann := fun x => h.announces (x := x) hg hfit ho hc hpc
  have hsame (hqueue : c'.send_haves = c.send_haves) : c'.Quotes F := by
    intro id q hid x hx
    rw [hqueue] at hid
    exact hann x (hq id q hid x hx)
  cases h
  case drained =>
    intro id q hid x hx
    change Function.update c.send_haves peer_id (some []) id = some q at hid
    by_cases heq : id = peer_id
    · subst heq
      rw [Function.update_self] at hid
      obtain rfl := Option.some.inj hid
      cases hx
    · rw [Function.update_of_ne heq] at hid
      exact hann x (hq id q hid x hx)
  case unregistered =>
    intro id q hid x hx
    change Function.update c.send_haves peer_id none id = some q at hid
    by_cases heq : id = peer_id
    · subst heq
      rw [Function.update_self] at hid
      cases hid
    · rw [Function.update_of_ne heq] at hid
      exact hann x (hq id q hid x hx)
  case block_received x off data done hrec =>
    cases hrec with
    | finished i hx hi hl hlen hcomp hhash =>
      -- the piece has just been written, and is queued for everyone
      have hnew : ((((c.store i off data).write_to_disk i ((c.store i off data).assembled i)).settle
          i 1).announce i).Announces F x := by
        apply hc.finished hg hfit ho hpc (.finished i hx hi hl hlen hcomp hhash) hx hi
        exact Function.update_self ..
      intro id q hid y hy
      obtain ⟨old, hold, rfl⟩ := Option.map_eq_some_iff.mp hid
      rcases List.mem_append.mp hy with hy | hy
      · exact hann y (hq id old hold y hy)
      · rw [List.mem_singleton.mp hy, ← hx]
        exact hnew
    | _ => exact hsame rfl
  all_goals exact hsame rfl

/-- **Step lemma** for what a thread has to say. -/
theorem Move.speaks (h : Move sha1 c peer_id st pc inp c' st' pc') (hg : c.Consistent)
    (hfit : c.CountFits) (hc : c.Stocked F) (hq : c.Quotes F) (hpc : pc.Speaks F c)
    (hholds : Thread.Holds c.Whole ⟨st, pc⟩)
    (hmsg : ∀ msg, inp = .recv (some msg) → Honest c.toMetadata F msg) : pc'.Speaks F c' := by
  cases h
  case opened =>
    refine ⟨c.bitfieldOf_get_bitfield, ?_⟩
    intro i hi hbit
    rw [c.decode_get_bitfield hg.pieces_int _ hi, decide_eq_true_iff] at hbit
    exact hc.done i hi hbit
  case drained =>
    have hhaves : ∀ x ∈ (c.drain_haves peer_id).2, c.Announces F x := by
      intro x hx
      change x ∈ (c.send_haves peer_id).getD [] at hx
      cases hown : c.send_haves peer_id with
      | none =>
        rw [hown] at hx
        cases hx
      | some q =>
        rw [hown] at hx
        exact hq peer_id q hown x hx
    exact speaks_flush (c := (c.drain_haves peer_id).1) hhaves
  case have_sent piece rest => exact speaks_flush fun x hx => hpc x (List.mem_cons_of_mem _ hx)
  case fetched kept req rest call block hget hne =>
    have hreq : c.Whole req := hholds.serving req (by simp [PC.requests])
    exact hc.get_block hg hreq.1 hget hne
  case got_piece p _ _ =>
    obtain ⟨-, i, hi, b, hb, hx, hoff, hdata⟩ := hmsg _ rfl
    exact ⟨i, hi, b, hb, hx, hoff, hdata⟩
  case request_some i off _ ha _ =>
    obtain ⟨b, hb, rfl⟩ := ha.block_lt hg hfit
    exact ⟨Metadata.isBlock_block ha.piece hb, rfl⟩
  case got_keep_alive => exact hmsg _ rfl
  -- the other jumps lead to points where nothing is said that needs to be checked
  case shaken => split <;> first | trivial | exact leave_cases trivial fun _ _ => trivial
  case bitfield_sent => split <;> trivial
  case got_bitfield => split <;> trivial
  case bitfield_stored => split <;> trivial
  case finished => exact leave_cases trivial fun _ _ => trivial
  case disconnected => exact leave_cases trivial fun _ _ => trivial
  case have_unsent => exact serve_cases trivial trivial fun _ _ => trivial
  case unchoke_sent => exact serve_cases trivial trivial fun _ _ => trivial
  case got_request => exact serve_cases trivial trivial fun _ _ => trivial
  case passed_over => exact serve_next_cases trivial trivial fun _ _ => trivial
  case piece_sent => exact serve_next_cases trivial trivial fun _ _ => trivial
  case piece_unsent call => exact call_cases call trivial trivial
  case got_choke => exact choke_next_cases trivial fun _ _ => trivial
  case got_unchoke => exact request_next_blocks_cases trivial trivial
  case got_have => exact have_next_cases trivial trivial
  case got_have_beyond => exact have_next_cases trivial trivial
  case request_sent => exact request_loop_cases trivial trivial
  case block_received => exact request_next_blocks_cases trivial trivial
  all_goals trivial

/-- **Output**: what a thread says is honest, and tells of pieces on its disk. -/
theorem PC.Speaks.output (hg : c.Consistent) (hpc : pc.Speaks F c) {msg : PeerMessage}
    (hout : pc.output = some msg) :
    Honest c.toMetadata F msg ∧ ∀ i, Tells c.toMetadata msg i → c.Held F i := by
  cases pc with
  | send_bitfield bf =>
    obtain rfl := Option.some.inj hout
    exact ⟨hpc.1, fun i hi => hpc.2 i hi.1 hi.2⟩
  | send_have piece rest =>
    obtain rfl := Option.some.inj hout
    obtain ⟨j, hj, hheld⟩ := hpc piece (List.mem_cons_self ..)
    have hhas : c.Has piece := Announces.has ⟨j, hj, hheld⟩
    refine ⟨honest_have hg hhas, ?_⟩
    intro i hi
    have hpi := tells_have hg hhas hi
    obtain rfl : i = j := by exact_mod_cast hpi.symm.trans hj
    exact hheld
  | send_piece kept req rest block call =>
    obtain rfl := Option.some.inj hout
    exact ⟨honest_piece hg hpc, fun i hi => hi.2.elim⟩
  | send_request req =>
    obtain rfl := Option.some.inj hout
    exact ⟨honest_request hg hpc, fun i hi => hi.2.elim⟩
  | send_keep_alive => exact hpc.elim
  | send_interested | send_unchoke | send_choke | send_not_interested =>
    obtain rfl := Option.some.inj hout
    exact ⟨trivial, fun i hi => hi.2.elim⟩
  | _ => cases hout

end moves

end BitTorrentLite
