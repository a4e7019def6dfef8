import BitTorrentLite.Swarm.System

/-! # Index Safety

    The numbers in Have, Request and Piece messages come from the peer and are
    used as indices and in `int` arithmetic. The guards of the handlers let
    some numbers through that lie outside the torrent; `MessageOk` says which
    messages do no harm, and in runs of such messages no step fails and no
    operation on lengths and offsets overflows. A message that names a piece or
    an offset outside the torrent then leaves state and controller as they
    were, but a Have from a peer we are not interested in and a Piece from one
    that can be asked still set the thread asking for blocks.
-/

open Machine LTS

namespace BitTorrentLite

/-! ## Inside the Torrent -/

namespace Metadata

/-- A piece of the torrent. -/
def Has (m : Metadata) (x : ℤ) : Prop := 0 ≤ x ∧ x < m.total_pieces

/-- A piece of the torrent and an offset in it. -/
def Inside (m : Metadata) (x off : ℤ) : Prop := m.Has x ∧ 0 ≤ off ∧ off < m.piece_length_for x

instance (m : Metadata) (x off : ℤ) : Decidable (m.Inside x off) :=
  inferInstanceAs (Decidable ((_ ∧ _) ∧ _ ∧ _))

/-- The signed operations of `received_block` do not overflow: the length
    check, and `count_blocks` and the offsets of the blocks for a block of the
    right length. -/
def received_fits (m : Metadata) (x off : ℤ) (len : ℕ) : Prop :=
  FitsInt (m.piece_length_for x - off) ∧
    ((len : ℤ) = m.block_size x off →
      FitsInt (m.piece_length_for x + block_length) ∧
      FitsInt (m.piece_length_for x + block_length - 1) ∧
      ∀ b : ℕ, (b : ℤ) < m.count_blocks x → FitsInt (b * block_length))

/-- A block `received_block` can be handed: the length check does not
    overflow, and rejects the block unless it lies in the torrent, in a piece
    whose blocks can be counted. -/
def BlockOk (m : Metadata) (x off : ℤ) (len : ℕ) : Prop :=
  FitsInt (m.piece_length_for x - off) ∧
    ((len : ℤ) ≠ m.block_size x off ∨
      (m.Inside x off ∧ m.piece_length_for x + block_length < 2 ^ 31))

instance (m : Metadata) (x off : ℤ) (len : ℕ) : Decidable (m.BlockOk x off len) :=
  inferInstanceAs (Decidable (_ ∧ (_ ∨ _ ∧ _)))

variable {m : Metadata} {x off : ℤ}

theorem Has.nat (h : m.Has x) : ∃ i : ℕ, x = i ∧ i < m.total_pieces :=
  ⟨x.toNat, (Int.toNat_of_nonneg h.1).symm, by have := h.1; have := h.2; omega⟩

theorem Has.index (h : m.Has x) : m.index x = .ok x.toNat := if_pos h

theorem has_natCast {i : ℕ} (hi : i < m.total_pieces) : m.Has i := ⟨by omega, by omega⟩

/-- A block that is counted lies inside its piece. -/
theorem inside_block_offset (hg : m.Consistent) {i b : ℕ} (hi : i < m.total_pieces)
    (hb : (b : ℤ) < m.count_blocks i) : m.Inside i (block_offset b) := by
  have hb : b < m.block_count i := by
    have := hg.count_blocks_le hi
    omega
  have hlt := Consistent.block_start_lt hb
  refine ⟨has_natCast hi, ?_, ?_⟩
  · rw [hg.block_offset_eq hb]
    omega
  · rw [hg.block_offset_eq hb, hg.piece_length_for_eq hi]
    exact_mod_cast hlt

theorem Inside.fits (hg : m.Consistent) (h : m.Inside x off) :
    FitsInt (m.piece_length_for x - off) := by
  obtain ⟨i, rfl, hi⟩ := h.1.nat
  have hint := hg.piece_size_int (i := i)
  have hoff := h.2
  rw [hg.piece_length_for_eq hi] at hoff ⊢
  constructor <;> omega

/-- A block inside the torrent has at least one byte. -/
theorem Inside.block_size_pos (hg : m.Consistent) (h : m.Inside x off) :
    0 < m.block_size x off := by
  have hoff := h.2
  unfold block_size
  rw [int32_of_fits (h.fits hg)]
  unfold block_length
  omega

theorem BlockOk.received_fits {len : ℕ} (h : m.BlockOk x off len) :
    m.received_fits x off len := by
  refine ⟨h.1, fun hlen => ?_⟩
  obtain ⟨hin, hroom⟩ := h.2.resolve_left (not_not.mpr hlen)
  have hoff := hin.2
  have hsum : FitsInt (m.piece_length_for x + block_length) := by
    unfold block_length at hroom ⊢
    constructor <;> omega
  have hpred : FitsInt (m.piece_length_for x + block_length - 1) := by
    unfold block_length at hroom ⊢
    constructor <;> omega
  refine ⟨hsum, hpred, fun b hb => ?_⟩
  unfold count_blocks at hb
  rw [int32_of_fits hsum, int32_of_fits hpred] at hb
  unfold block_length at hb hroom ⊢
  -- the last block starts inside the piece
  rw [Int.tdiv_eq_ediv_of_nonneg (by omega)] at hb
  constructor <;> omega

end Metadata

/-- `get_block` does not overflow: its one signed operation comes after the
    checks of the status and of the offset. -/
def Controller.get_block_fits (c : Controller) (x off : ℤ) : Prop :=
  c.piece_status x.toNat = 1 → off < c.piece_length_for x → FitsInt (c.piece_length_for x - off)

/-- The `int` arithmetic of the controller method a thread is about to call. -/
def PC.Fits (c : Controller) : PC → Prop
  | .serve _ req _ _ => c.get_block_fits req.piece_index req.block_offset
  | .received x off data => c.received_fits x off data.length
  | _ => True

/-! ## Messages -/

/-- A message whose numbers the guards of the code do not let through by
    mistake. -/
def MessageOk (m : Metadata) (st : PeerState) (msg : PeerMessage) : Prop :=
  match msg.id with
  | .Have => 4 ≤ msg.payload.length → 0 ≤ ntohl msg.payload 0
  | .Request => 12 ≤ msg.payload.length →
    st.am_choking = true ∨ m.Inside (ntohl msg.payload 0) (ntohl msg.payload 4)
  | .Piece => 8 ≤ msg.payload.length →
    m.mode = .SEEDER ∨
      m.BlockOk (ntohl msg.payload 0) (ntohl msg.payload 4) (msg.payload.drop 8).length
  | _ => True

/-- A message that names a piece or an offset outside the torrent. -/
def Outside (m : Metadata) (msg : PeerMessage) : Prop :=
  match msg.id with
  | .Have => 4 ≤ msg.payload.length ∧ ¬ m.Has (ntohl msg.payload 0)
  | .Request => 12 ≤ msg.payload.length ∧ ¬ m.Inside (ntohl msg.payload 0) (ntohl msg.payload 4)
  | .Piece => 8 ≤ msg.payload.length ∧ ¬ m.Inside (ntohl msg.payload 0) (ntohl msg.payload 4)
  | .Cancel => 12 ≤ msg.payload.length ∧ ¬ m.Inside (ntohl msg.payload 0) (ntohl msg.payload 4)
  | _ => False

/-- Where a thread in the state `st` is after a message it ignores: back at
    the head of the loop, with its state as it was, nothing sent and nothing
    asked for; a block is first turned down by `received_block`, whatever the
    other threads have done to the controller by then. -/
inductive Disregarded (sha1 : Bytes → Bytes) (m : Metadata) (id : ℕ) (st : PeerState) :
    Thread → Prop where
  | at_once : Disregarded sha1 m id st ⟨st, .loop_top⟩
  | block (x off : ℤ) (data : Bytes) : (∀ c : Controller, c.toMetadata = m →
      Thread.call sha1 c id st (.received x off data) = some (.ok (c, ⟨st, .loop_top⟩))) →
      Disregarded sha1 m id st ⟨st, .received x off data⟩

/-- The handler of the message has no occasion to ask for blocks: a Have from a
    peer we are interested in already, a Piece from a peer that chokes us, is of
    no interest or has no room for a request. -/
def AsksNothing (m : Metadata) (st : PeerState) (msg : PeerMessage) : Prop :=
  match msg.id with
  | .Have => m.mode = .SEEDER ∨ st.am_interested = true
  | .Piece => m.mode = .SEEDER ∨ st.peer_choking = true ∨ st.am_interested = false ∨
    pipeline ≤ st.pending_requests.length
  | _ => True

/-! ## What the Threads Hold -/

/-- The requests a thread holds, those it made and those it is asked for, lie
    inside the torrent. -/
structure PeerState.Guarded (m : Metadata) (st : PeerState) : Prop where
  pending : ∀ req ∈ st.pending_requests, m.Inside req.piece_index req.block_offset
  incoming : ∀ req ∈ st.incoming_requests, m.Inside req.piece_index req.block_offset

/-- The same for the requests and the block a thread is about to handle. -/
def PC.Guarded (m : Metadata) : PC → Prop
  | .serve kept req rest _ =>
    ∀ r ∈ kept ++ req :: rest, m.Inside r.piece_index r.block_offset
  | .send_piece kept req rest _ _ =>
    ∀ r ∈ kept ++ req :: rest, m.Inside r.piece_index r.block_offset
  | .choke_release req rest => ∀ r ∈ req :: rest, m.Inside r.piece_index r.block_offset
  | .cleanup req rest => ∀ r ∈ req :: rest, m.Inside r.piece_index r.block_offset
  | .send_request req => m.Inside req.piece_index req.block_offset
  | .request_release req => m.Inside req.piece_index req.block_offset
  | .have_release req => m.Inside req.piece_index req.block_offset
  | .bitfield_release req => m.Inside req.piece_index req.block_offset
  | .bitfield_store req => m.Inside req.piece_index req.block_offset
  | .received x off data => m.BlockOk x off data.length
  | _ => True

section moves

variable {sha1 : Bytes → Bytes} {c c' : Controller} {peer_id : ℕ} {st st' : PeerState}
  {pc pc' : PC} {inp : Input} {m : Metadata}

/-- What `next_request` hands out lies inside the torrent. -/
theorem available_inside (hg : c.Consistent) {i : ℕ} {off : ℤ} (ha : c.Available i off) :
    c.Inside i off := by
  obtain ⟨b, hb, rfl⟩ := ha.block
  exact Metadata.inside_block_offset hg ha.piece hb

/-! ### The Requests at the Jumps -/

theorem guarded_call (call : ServeCall) : call.pc.Guarded m := call_cases call trivial trivial

theorem guarded_serve_next {kept rest : List IncomingRequest} (call : ServeCall)
    (h : ∀ r ∈ kept ++ rest, m.Inside r.piece_index r.block_offset) :
    (serve_next kept call rest).Guarded m := by
  cases rest with
  | nil => exact guarded_call call
  | cons req rest => exact h

theorem guarded_serve (call : ServeCall) (h : st.Guarded m) :
    (serve_incoming_requests st call).Guarded m := by
  unfold serve_incoming_requests
  split
  · exact guarded_call call
  · exact guarded_serve_next call h.incoming

theorem guarded_flush (haves : List ℤ) (h : st.Guarded m) : (flush_next st haves).Guarded m := by
  cases haves with
  | nil => exact guarded_serve .before_read h
  | cons piece rest => trivial

theorem guarded_leave (h : st.Guarded m) : (leave st).Guarded m := by
  have hpending := h.pending
  unfold leave
  split
  · trivial
  · rename_i req rest heq
    rw [heq] at hpending
    exact hpending

theorem guarded_choke_next (h : st.Guarded m) : (choke_next st).Guarded m := by
  have hpending := h.pending
  unfold choke_next
  split
  · trivial
  · rename_i req rest heq
    rw [heq] at hpending
    exact hpending

/-! ### Every Step Keeps Them -/

/-- The requests in the thread's state. -/
theorem Move.state_guarded (h : Move sha1 c peer_id st pc inp c' st' pc')
    (hok : ∀ msg, inp = .recv (some msg) → MessageOk c.toMetadata st msg)
    (hst : st.Guarded c.toMetadata) (hpc : pc.Guarded c.toMetadata) :
    st'.Guarded c.toMetadata := by
  cases h
  case piece_sent kept req rest block call =>
    refine ⟨hst.pending, fun r hr => hpc r ?_⟩
    -- the requests left are among those that were there
    rcases List.mem_append.mp hr with hkept | hrest
    · exact List.mem_append_left _ hkept
    · exact List.mem_append_right _ (List.mem_cons_of_mem _ hrest)
  case got_request p hlen hchoking hst' =>
    subst hst'
    refine ⟨hst.pending, fun r hr => ?_⟩
    rcases List.mem_append.mp hr with hold | hnew
    · exact hst.incoming r hold
    · rw [List.mem_singleton.mp hnew]
      refine (hok _ rfl hlen).resolve_left ?_
      -- the handler takes a Request only while it does not choke
      rw [hchoking]
      decide
  case got_piece =>
    exact ⟨fun r hr => hst.pending r (List.mem_filter.mp hr).1, hst.incoming⟩
  case got_cancel =>
    exact ⟨hst.pending, fun r hr => hst.incoming r (List.mem_filter.mp hr).1⟩
  case choke_cleared => exact ⟨fun r hr => (List.not_mem_nil hr).elim, hst.incoming⟩
  case request_sent req hst' =>
    subst hst'
    refine ⟨fun r hr => ?_, hst.incoming⟩
    rcases List.mem_append.mp hr with hold | hnew
    · exact hst.pending r hold
    · rw [List.mem_singleton.mp hnew]
      exact hpc
  all_goals exact ⟨hst.pending, hst.incoming⟩

/-- The requests at the point the thread comes to. -/
theorem Move.pc_guarded (h : Move sha1 c peer_id st pc inp c' st' pc') (hg : c.Consistent)
    (hok : ∀ msg, inp = .recv (some msg) → MessageOk c.toMetadata st msg)
    (hst : st.Guarded c.toMetadata) (hst' : st'.Guarded c.toMetadata)
    (hpc : pc.Guarded c.toMetadata) : pc'.Guarded c.toMetadata := by
  cases h
  case shaken ok =>
    cases ok with
    | true => trivial
    | false => exact guarded_leave hst
  case bitfield_sent => split <;> trivial
  case got_bitfield => split <;> trivial
  case bitfield_stored => split <;> trivial
  case finished => exact guarded_leave hst
  case disconnected => exact guarded_leave hst
  case drained => exact guarded_flush _ hst
  case have_sent => exact guarded_flush _ hst
  case have_unsent => exact guarded_serve _ hst
  case unchoke_sent => exact guarded_serve _ hst
  case got_request => exact guarded_serve _ hst'
  case passed_over kept req rest call _ =>
    refine guarded_serve_next call fun r hr => hpc r ?_
    rwa [List.append_assoc] at hr
  case piece_sent kept req rest block call => exact guarded_serve_next call hst'.incoming
  case piece_unsent call => exact guarded_call call
  case got_choke => exact guarded_choke_next hst
  case got_unchoke => exact request_next_blocks_cases trivial trivial
  case block_received => exact request_next_blocks_cases trivial trivial
  case request_sent => exact request_loop_cases trivial trivial
  case got_have => exact have_next_cases trivial trivial
  case got_have_beyond => exact have_next_cases trivial trivial
  case got_piece p hl hlen =>
    refine (hok _ rfl hlen).resolve_left ?_
    rw [hl]
    decide
  case choke_released => exact fun r hr => hpc r (List.mem_cons_of_mem _ hr)
  case cleanup_released => exact fun r hr => hpc r (List.mem_cons_of_mem _ hr)
  case request_some ha _ => exact available_inside hg ha
  case have_some ha _ => exact available_inside hg ha
  case bitfield_some ha _ => exact available_inside hg ha
  case request_unsent => exact hpc
  case fetched => exact hpc
  case bitfield_released => exact hpc
  all_goals trivial

/-! ### No Step Fails -/

/-- A message that is `MessageOk` is handled. -/
theorem handle_message_no_fault {msg : PeerMessage} (hok : MessageOk m st msg) (e : Fault) :
    handle_message m st msg ≠ .error e := by
  rcases msg with ⟨mid, p⟩
  cases mid with
  | Have =>
    change handle_have m st p ≠ _
    unfold handle_have
    split
    · intro h
      cases h
    · rename_i hlen
      dsimp only
      split
      · rename_i hlt
        -- the code tests the upper bound, the guard gives the lower one
        have hhas : m.Has (ntohl p 0) := ⟨hok (Nat.not_lt.mp hlen), hlt⟩
        rw [hhas.index]
        intro h
        cases h
      · intro h
        cases h
  | _ => intro h; cases h

theorem map_no_fault {α β : Type} {x : Except Fault α} {f : α → β} (hx : ∀ e, x ≠ .error e)
    (e : Fault) : x.map f ≠ .error e := by
  cases x with
  | error e' => exact absurd rfl (hx e')
  | ok a =>
    intro h
    cases h

theorem release_no_fault {x off : ℤ} (h : c.Has x) (e : Fault) :
    c.release_in_flight x off ≠ .error e := by
  refine map_no_fault (fun e => ?_) e
  rw [h.index]
  intro h
  cases h

theorem clear_no_fault {x : ℤ} (h : c.Has x) (e : Fault) : c.clear_status x ≠ .error e := by
  refine map_no_fault (fun e => ?_) e
  rw [h.index]
  intro h
  cases h

/-- A block inside the torrent can be asked for. -/
theorem get_block_no_fault (hg : c.Consistent) {x off : ℤ} (h : c.Inside x off) (e : Fault) :
    c.get_block x off ≠ .error e := by
  have hsize := h.block_size_pos hg
  obtain ⟨i, rfl, hi⟩ := h.1.nat
  unfold Controller.get_block
  rw [Controller.index_natCast hi]
  dsimp only
  repeat' split
  all_goals first | omega | (intro h; cases h)

/-- `received_block` rejects what lies outside, or finds the piece. -/
theorem received_no_fault {x off : ℤ} {data : Bytes} (h : c.BlockOk x off data.length)
    (e : Fault) : c.received_block sha1 x off data ≠ .error e := by
  unfold Controller.received_block
  split
  · intro h
    cases h
  · split
    · intro h
      cases h
    -- the length check passed, so the block lies inside
    · rename_i hlen
      have hin := (h.2.resolve_left hlen).1
      refine map_no_fault (fun e => ?_) e
      rw [hin.1.index]
      intro h
      cases h

/-- No controller method a thread calls fails. -/
theorem call_no_fault (hg : c.Consistent) (hpc : pc.Guarded c.toMetadata) (e : Fault) :
    Thread.call sha1 c peer_id st pc ≠ some (.error e) := by
  -- the call of a method that does not fail
  have called {α : Type} {x : Except Fault α} {f : α → Controller × Thread}
      (hx : ∀ e, x ≠ .error e) : some (x.map f) ≠ some (.error e) :=
    fun h => map_no_fault hx e (Option.some.inj h)
  cases pc with
  | serve kept req rest call =>
    exact called fun e => get_block_no_fault hg (hpc req (by simp)) e
  | choke_release req rest => exact called fun e => release_no_fault (hpc req (by simp)).1 e
  | cleanup req rest => exact called fun e => release_no_fault (hpc req (by simp)).1 e
  | request_release req => exact called fun e => release_no_fault hpc.1 e
  | have_release req => exact called fun e => release_no_fault hpc.1 e
  | bitfield_release req => exact called fun e => release_no_fault hpc.1 e
  | bitfield_store req => exact called fun e => clear_no_fault hpc.1 e
  | received x off data => exact called fun e => received_no_fault hpc e
  | request | have_probe | bitfield_probe =>
    rcases Controller.next_request_cases c st.peer_bitfield with
      ⟨hreq, -⟩ | ⟨i, off, -, -, -, hreq⟩ <;>
      (unfold Thread.call; rw [hreq]; intro h; cases h)
  | _ => intro h; cases h

/-- **No fault**: a thread that holds requests inside the torrent takes no step
    that fails, when the message it gets, if any, is `MessageOk`. -/
theorem advance_no_fault {t : Thread} (hg : c.Consistent) (hpc : t.pc.Guarded c.toMetadata)
    (hok : ∀ msg, inp = .recv (some msg) → MessageOk c.toMetadata t.state msg) (e : Fault) :
    t.advance sha1 c peer_id inp ≠ some (.error e) := by
  rcases t with ⟨st, pc⟩
  cases inp with
  | call => exact call_no_fault hg hpc e
  | sent ok =>
    intro h
    obtain ⟨t, -, heq⟩ := Option.map_eq_some_iff.mp h
    cases heq
  | recv msg =>
    cases pc with
    | read_message =>
      cases msg with
      | none => intro h; cases h
      | some msg =>
        intro h
        exact map_no_fault (handle_message_no_fault (hok msg rfl)) e (Option.some.inj h)
    | _ => intro h; cases h
  | shaken ok =>
    cases pc with
    | handshake => intro h; cases h
    | _ => intro h; cases h

/-- The arithmetic of the method a thread is about to call does not overflow. -/
theorem PC.Guarded.fits (hg : c.Consistent) (hpc : pc.Guarded c.toMetadata) : pc.Fits c := by
  cases pc with
  | serve kept req rest call => exact fun _ _ => (hpc req (by simp)).fits hg
  | received x off data => exact Metadata.BlockOk.received_fits hpc
  | _ => trivial

/-- Where `request_next_blocks` asks for nothing. -/
theorem request_next_blocks_eq_loop_top (hl : m.mode = .LEECHER) :
    request_next_blocks m st = .loop_top ↔ st.peer_choking = true ∨ st.am_interested = false ∨
      pipeline ≤ st.pending_requests.length := by
  unfold request_next_blocks request_loop
  rw [hl]
  split
  · rename_i hno
    refine iff_of_true rfl ?_
    rcases hno with hmode | hno
    · cases hmode
    · exact hno.elim .inl fun hint => .inr (.inl hint)
  · rename_i hno
    simp only [not_or, Bool.not_eq_true] at hno
    split
    · rename_i hroom
      refine iff_of_false PC.noConfusion ?_
      rintro (hch | hint | hfull)
      · exact absurd hch (by rw [hno.2.1]; decide)
      · exact hno.2.2 hint
      · omega
    · exact iff_of_true rfl (.inr (.inr (by omega)))

/-- Requests of the torrent are not answered from outside of it. -/
theorem PeerState.Guarded.drop_request (h : st.Guarded m) {x off : ℤ} (hout : ¬ m.Inside x off) :
    st.drop_request x off = st := by
  have hkeep : (st.pending_requests.filter fun req => !req.answered x off)
      = st.pending_requests := by
    refine List.filter_eq_self.mpr fun req hreq => ?_
    rw [Bool.not_eq_true', Bool.eq_false_iff]
    intro hans
    unfold BlockRequest.answered at hans
    rw [Bool.and_eq_true, beq_iff_eq, beq_iff_eq] at hans
    exact hout (hans.1 ▸ hans.2 ▸ h.pending req hreq)
  unfold PeerState.drop_request
  rw [hkeep]

/-- Nor are the requests taken cancelled from there. -/
theorem PeerState.Guarded.cancel (h : st.Guarded m) {x off : ℤ} (hout : ¬ m.Inside x off) :
    (st.incoming_requests.filter fun req => !req.cancelled x off) = st.incoming_requests := by
  refine List.filter_eq_self.mpr fun req hreq => ?_
  rw [Bool.not_eq_true', Bool.eq_false_iff]
  intro hcancel
  unfold IncomingRequest.cancelled at hcancel
  rw [Bool.and_eq_true, beq_iff_eq, beq_iff_eq] at hcancel
  exact hout (hcancel.1 ▸ hcancel.2 ▸ h.incoming req hreq)

/-- A block of a length that does not fit its place is turned down, and what
    the thread does then is up to `request_next_blocks`. -/
theorem call_received_wrong_length {x off : ℤ} {data : Bytes}
    (hlen : (data.length : ℤ) ≠ c.block_size x off) :
    Thread.call sha1 c peer_id st (.received x off data)
      = some (.ok (c, ⟨st, request_next_blocks c.toMetadata st⟩)) := by
  show some ((c.received_block sha1 x off data).map _) = _
  rw [Controller.received_block_wrong_length hlen]
  rfl

/-- A message that is `MessageOk` and names something outside is ignored,
    unless its handler goes on to ask for blocks. -/
theorem handle_message_disregarded {msg : PeerMessage} (hst : st.Guarded c.toMetadata)
    (hok : MessageOk c.toMetadata st msg) (hout : Outside c.toMetadata msg)
    (h : handle_message c.toMetadata st msg = .ok ⟨st', pc'⟩) :
    Disregarded sha1 c.toMetadata peer_id st ⟨st', pc'⟩ ↔ AsksNothing c.toMetadata st msg := by
  have hmove : Move id c 0 st .read_message (.recv (some msg)) c st' pc' := handle_message_move h
  cases hmove with
  | ignored _ hign =>
    refine iff_of_true .at_once ?_
    rcases msg with ⟨mid, p⟩
    cases mid with
    | Have => exact absurd hout.1 (Nat.not_le.mpr hign)
    | Piece => exact .inl (hign.resolve_right (Nat.not_lt.mpr hout.1))
    | _ => trivial
  -- a Have the code acts on names a piece of the torrent
  | got_have p i _ hi hlt =>
    exact absurd (hi ▸ Metadata.has_natCast hlt) hout.2
  | got_have_beyond p =>
    unfold have_next
    split
    · rename_i hno
      refine iff_of_false (fun hdis => by cases hdis) ?_
      rintro (hmode | hint)
      · rw [hno.1] at hmode
        cases hmode
      · rw [hno.2] at hint
        cases hint
    · rename_i hno
      refine iff_of_true .at_once ?_
      show c.mode = .SEEDER ∨ st.am_interested = true
      cases hmode : c.mode with
      | SEEDER => exact .inl rfl
      | LEECHER => exact .inr (by simpa [hmode] using hno)
  | got_request p _ hlen hchoking =>
    rcases hok hlen with hchokes | hin
    · rw [hchoking] at hchokes
      cases hchokes
    · exact absurd hin hout.2
  | got_piece p hl hlen =>
    have hblock := (hok hlen).resolve_left (by rw [hl]; decide)
    -- outside, so of a length that `received_block` rejects
    have hsize := hblock.2.resolve_right fun hin => hout.2 hin.1
    rw [hst.drop_request hout.2]
    have hasks : AsksNothing c.toMetadata st ⟨.Piece, p⟩ ↔
        request_next_blocks c.toMetadata st = .loop_top := by
      rw [request_next_blocks_eq_loop_top hl]
      exact or_iff_right (by rw [hl]; decide)
    rw [hasks]
    constructor
    · intro hdis
      cases hdis with
      | block x off data hcall =>
        have hcall := hcall c rfl
        rw [call_received_wrong_length hsize] at hcall
        exact (Thread.mk.inj (Prod.mk.inj (Except.ok.inj (Option.some.inj hcall))).2).2
    · intro htop
      refine .block _ _ _ fun d hd => ?_
      rw [call_received_wrong_length (hd ▸ hsize), hd, htop]
  | got_cancel p =>
    rw [hst.cancel hout.2]
    exact iff_of_true .at_once trivial
  | got_keep_alive | got_choke | got_unchoke | got_interested | got_not_interested
  | got_bitfield => exact hout.elim

end moves

/-! ## Runs -/

namespace Swarm

variable {sha1 : Bytes → Bytes} {m : Metadata} {disk : Option Bytes} {s s' : Swarm} {a : Action}

/-- The message the step hands to a thread, if any, is `MessageOk`. -/
def MessagesOk (s : Swarm) : Action → Prop
  | .thread id (.recv (some msg)) =>
    ∀ t, s.threads id = some t → MessageOk s.ctl.toMetadata t.state msg
  | _ => True

/-- What every thread holds is guarded. -/
def Guarded (s : Swarm) : Prop :=
  ∀ id t, s.threads id = some t →
    t.state.Guarded s.ctl.toMetadata ∧ t.pc.Guarded s.ctl.toMetadata

theorem Guarded.stepped (hg : s.ctl.Consistent) (hs : s.Guarded) (hok : s.MessagesOk a)
    (h : Stepped sha1 s a s') : s'.Guarded := by
  intro id t ht
  cases h with
  | connected =>
    rcases resume_threads ht with ⟨-, rfl⟩ | ⟨-, ht⟩
    · refine ⟨⟨?_, ?_⟩, trivial⟩
      · intro r hr
        cases hr
      · intro r hr
        cases hr
    · exact hs id t ht
  | moved id₀ inp t₀ t₁ c' ht₀ hmove =>
    rw [show (s.resume c' id₀ t₁).ctl.toMetadata = s.ctl.toMetadata from hmove.toMetadata]
    rcases resume_threads ht with ⟨rfl, rfl⟩ | ⟨-, ht⟩
    · obtain ⟨hst, hpc⟩ := hs id t₀ ht₀
      have hmsg : ∀ msg, inp = .recv (some msg) → MessageOk s.ctl.toMetadata t₀.state msg := by
        rintro msg rfl
        exact hok t₀ ht₀
      have hst' := hmove.state_guarded hmsg hst hpc
      exact ⟨hst', hmove.pc_guarded hg hmsg hst hst' hpc⟩
    · exact hs id t ht

theorem reachable_guarded (hg : m.Consistent)
    (h : ((system sha1 m disk).restrict MessagesOk).Reachable s) : s.Guarded := by
  refine System.invariant (I := Guarded) ?_ ?_ s h
  · rintro s rfl id t ht
    cases ht
  · intro s a s' hr hs hst
    exact Guarded.stepped ((reachable_toMetadata hr.of_restrict) ▸ hg) hs hst.1 (next_stepped hst.2)

/-- **Index safety**: in runs whose messages are all `MessageOk`, no step of a
    thread that gets such a message fails, no operation of `received_block`
    and `get_block` overflows, and a message that names a piece or an offset
    outside the torrent is ignored, exactly if its handler has no occasion to
    ask for blocks. -/
theorem messages_safe (sha1 : Bytes → Bytes) {m : Metadata} (hg : m.Consistent)
    (disk : Option Bytes) {s : Swarm} {id : ℕ} {t : Thread}
    (h : ((system sha1 m disk).restrict MessagesOk).Reachable s) (ht : s.threads id = some t) :
    (∀ inp, s.MessagesOk (.thread id inp) → ∀ e, s.exec sha1 (.thread id inp) ≠ some (.error e)) ∧
      t.pc.Fits s.ctl ∧
      (∀ msg c' t', s.MessagesOk (.thread id (.recv (some msg))) → Outside m msg →
        t.advance sha1 s.ctl id (.recv (some msg)) = some (.ok (c', t')) →
        c' = s.ctl ∧ (Disregarded sha1 m id t.state t' ↔ AsksNothing m t.state msg)) := by
  have hmeta : s.ctl.toMetadata = m := reachable_toMetadata h.of_restrict
  have hg' : s.ctl.Consistent := hmeta ▸ hg
  obtain ⟨hst, hpc⟩ := reachable_guarded hg h id t ht
  refine ⟨?_, hpc.fits hg', ?_⟩
  · intro inp hok e hfault
    simp only [exec, ht, Option.bind_some] at hfault
    obtain ⟨r, hr, hmap⟩ := Option.map_eq_some_iff.mp hfault
    have hmsg : ∀ msg, inp = .recv (some msg) → MessageOk s.ctl.toMetadata t.state msg := by
      rintro msg rfl
      exact hok t ht
    refine map_no_fault (x := r) (fun e => ?_) e hmap
    rintro rfl
    exact advance_no_fault hg' hpc hmsg e hr
  · intro msg c' t' hok hout hadv
    rcases t with ⟨st, pc⟩
    cases pc with
    | read_message =>
      obtain ⟨u, hu, heq⟩ := map_ok (Option.some.inj hadv)
      cases heq
      rw [← hmeta] at hout ⊢
      exact ⟨rfl, handle_message_disregarded hst (hok _ ht) hout hu⟩
    | _ => cases hadv

/-- Every message that is read names pieces, offsets and blocks of the torrent. -/
def names_inside (s : Swarm) : Action → Bool
  | .thread _ (.recv (some ⟨.Have, p⟩)) => decide (0 ≤ ntohl p 0)
  | .thread _ (.recv (some ⟨.Request, p⟩)) => decide (s.ctl.Inside (ntohl p 0) (ntohl p 4))
  | .thread _ (.recv (some ⟨.Piece, p⟩)) =>
    decide (s.ctl.BlockOk (ntohl p 0) (ntohl p 4) (p.drop 8).length)
  | _ => true

theorem messagesOk_of_names_inside (s : Swarm) (a : Action) (h : s.names_inside a = true) :
    s.MessagesOk a := by
  unfold MessagesOk
  split
  · rename_i id msg
    intro t _
    rcases msg with ⟨mid, p⟩
    cases mid with
    | Have => exact fun _ => of_decide_eq_true h
    | Request => exact fun _ => .inr (of_decide_eq_true h)
    | Piece => exact fun _ => .inr (of_decide_eq_true h)
    | _ => trivial
  · trivial

/-- A step that is computed to be there. -/
theorem advance_of_isSome {c : Controller} {id : ℕ} {t : Thread} {inp : Input}
    (h : ((t.advance sha1 c id inp).bind Except.toOption).isSome = true) :
    ∃ c' t', t.advance sha1 c id inp = some (.ok (c', t')) := by
  obtain ⟨⟨c', t'⟩, hadv⟩ := Option.isSome_iff_exists.mp h
  obtain ⟨r, hr, hok⟩ := Option.bind_eq_some_iff.mp hadv
  exact ⟨c', t', hr.trans (congrArg some (Controller.toOption_some hok))⟩

/-- After a run in which one of two pieces has come, a Have and a Piece for piece
    5 are ignored by the thread of the peer that delivered it and now chokes. -/
theorem pair_beyond_disregarded : ∃ (s : Swarm) (t t₁ t₂ : Thread), s.threads 0 = some t ∧
    s.ctl.piece_status 0 = 1 ∧
    t.advance id s.ctl 0 (.recv (some (build_have 5))) = some (.ok (s.ctl, t₁)) ∧
      Disregarded id (.pair .LEECHER [7] [8]) 0 t.state t₁ ∧
    t.advance id s.ctl 0 (.recv (some (build_piece_msg 5 0 [9]))) = some (.ok (s.ctl, t₂)) ∧
      Disregarded id (.pair .LEECHER [7] [8]) 0 t.state t₂ := by
  obtain ⟨s, hr, hs⟩ := System.Reachable.exists_of_run
    (System.guarded_step messagesOk_of_names_inside next_step)
    (.init rfl : ((system id (.pair .LEECHER [7] [8]) none).restrict MessagesOk).Reachable _)
    (first_of_pair ++ hear 0 ⟨.Choke, []⟩ [.call])
    (P := fun s => s.ctl.piece_status 0 == 1 && (s.threads 0).any fun t : Thread =>
      t.state.am_interested && t.state.peer_choking &&
      ((t.advance id s.ctl 0 (.recv (some (build_have 5)))).bind Except.toOption).isSome &&
      ((t.advance id s.ctl 0 (.recv (some (build_piece_msg 5 0 [9])))).bind
        Except.toOption).isSome)
    (by decide +kernel)
  simp only [Bool.and_eq_true, beq_iff_eq, Option.any_eq_true] at hs
  obtain ⟨hdone, t, ht, ⟨⟨hint, hch⟩, hhave⟩, hpiece⟩ := hs
  obtain ⟨c₁, t₁, hhave⟩ := advance_of_isSome hhave
  obtain ⟨c₂, t₂, hpiece⟩ := advance_of_isSome hpiece
  have hmeta : s.ctl.toMetadata = .pair .LEECHER [7] [8] := reachable_toMetadata hr.of_restrict
  have hsafe := (messages_safe id (Metadata.pair_consistent _ _ _) none hr ht).2.2
  have hok₁ : s.MessagesOk (.thread 0 (.recv (some (build_have 5)))) := by
    apply messagesOk_of_names_inside
    show decide (0 ≤ ntohl (htonl 5) 0) = true
    decide +kernel
  have hout₁ : Outside (.pair .LEECHER [7] [8]) (build_have 5) := by
    refine ⟨by decide, ?_⟩
    show ¬ (0 ≤ ntohl (htonl 5) 0 ∧ ntohl (htonl 5) 0 < (2 : ℕ))
    decide +kernel
  have hok₂ : s.MessagesOk (.thread 0 (.recv (some (build_piece_msg 5 0 [9])))) := by
    apply messagesOk_of_names_inside
    apply decide_eq_true
    rw [hmeta]
    decide +kernel
  have hout₂ : Outside (.pair .LEECHER [7] [8]) (build_piece_msg 5 0 [9]) := by
    refine ⟨by decide, ?_⟩
    decide +kernel
  obtain ⟨rfl, hdis₁⟩ := hsafe _ c₁ t₁ hok₁ hout₁ hhave
  obtain ⟨rfl, hdis₂⟩ := hsafe _ c₂ t₂ hok₂ hout₂ hpiece
  exact ⟨s, t, t₁, t₂, ht, hdone, hhave, hdis₁.mpr (.inr hint), hpiece,
    hdis₂.mpr (.inr (.inl hch))⟩

def faults_with (e : Fault) : Except Fault Swarm → Bool
  | .error e' => e' == e
  | .ok _ => false

theorem eq_error_of_faults_with {e : Fault} {r : Except Fault Swarm}
    (h : faults_with e r = true) : r = .error e := by
  cases r with
  | error e' => rw [eq_of_beq h]
  | ok s => cases h

/-- A Have whose piece number is negative as an `int` is used as an index. -/
theorem negative_have_faults : (Metadata.tiny .LEECHER [7]).Consistent ∧ ∃ s : Swarm,
    (system id (.tiny .LEECHER [7]) none).Reachable s ∧
      s.exec id (.thread 0 (.recv (some ⟨.Have, [255, 255, 255, 255]⟩)))
        = some (.error (.index (-1))) := by
  refine ⟨Metadata.tiny_consistent _ _, ?_⟩
  obtain ⟨s, hr, hs⟩ := System.Reachable.exists_of_run next_step
    (.init rfl : (system id (.tiny .LEECHER [7]) none).Reachable _) (greet 0)
    (P := fun s => (s.exec id (.thread 0 (.recv (some ⟨.Have, [255, 255, 255, 255]⟩)))).any
      (faults_with (.index (-1)))) (by decide +kernel)
  obtain ⟨r, hexec, hfault⟩ := (Option.any_eq_true _ _).mp hs
  exact ⟨s, hr, hexec.trans (congrArg some (eq_error_of_faults_with hfault))⟩

end Swarm

end BitTorrentLite
