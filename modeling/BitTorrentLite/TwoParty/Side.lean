import BitTorrentLite.Peer.Bitfield
import BitTorrentLite.TwoParty.System
import BitTorrentLite.Wire.Connection

/-! # A Side of a Connection, Byte by Byte

    One side again, now with what is really between it and the other one: a
    stream of bytes in each direction. A thread that sends is in `send_all`,
    where each `send` takes some bytes of the message; one that reads is in
    `read_message`, where each `recv` returns some of the bytes in flight. Only
    the reply to a keep-alive is a single `send`, whatever it takes. As long as
    it takes all four bytes, each step of the side is a step of the party that
    sends and reads whole messages, or a part of one.
-/

open Machine

namespace BitTorrentLite

/-! ## Points of the Loop -/

namespace PC

/-- What `send` is called with. -/
def buffer (pc : PC) : Bytes := (pc.output.map PeerMessage.wire).getD []

/-- The reply to a keep-alive: one `send`, without a loop. -/
def sends_once : PC → Bool
  | .send_keep_alive => true
  | _ => false

def reads : PC → Bool
  | .read_message => true
  | _ => false

/-- A message that is about to be sent can be read again. -/
def Framed : PC → Prop
  | .send_bitfield bf => bf.length < 2 ^ 31
  | .send_piece _ _ _ block _ => block.length ≤ 16384
  | _ => True

variable {pc : PC} {msg : PeerMessage}

theorem Framed.output (h : pc.Framed) (hout : pc.output = some msg) : msg.Framed := by
  have small : ∀ {id : MsgId} {payload : Bytes}, payload.length < 2 ^ 31 → id ≠ .KeepAlive →
      MsgId.of_byte id.byte = id → PeerMessage.Framed ⟨id, payload⟩ := by
    intro id payload hlen hid hbyte
    exact ⟨show payload.length < _ by omega, hbyte, fun hkeep => absurd hkeep hid⟩
  cases pc with
  | send_bitfield bf =>
    obtain rfl := Option.some.inj hout
    exact small h (by decide) rfl
  | send_piece kept req rest block call =>
    obtain rfl := Option.some.inj hout
    have hblock : block.length ≤ 16384 := h
    apply small ?_ (by decide) rfl
    simp only [List.length_append, htonl_length]
    omega
  | send_have piece rest =>
    obtain rfl := Option.some.inj hout
    exact small (by simp) (by decide) rfl
  | send_request req =>
    obtain rfl := Option.some.inj hout
    exact small (by simp) (by decide) rfl
  | send_keep_alive =>
    obtain rfl := Option.some.inj hout
    exact ⟨by decide, rfl, fun _ => rfl⟩
  | send_interested =>
    obtain rfl := Option.some.inj hout
    exact small (by decide) (by decide) rfl
  | send_unchoke =>
    obtain rfl := Option.some.inj hout
    exact small (by decide) (by decide) rfl
  | send_choke =>
    obtain rfl := Option.some.inj hout
    exact small (by decide) (by decide) rfl
  | send_not_interested =>
    obtain rfl := Option.some.inj hout
    exact small (by decide) (by decide) rfl
  | _ => cases hout

theorem buffer_of_output (hout : pc.output = some msg) : pc.buffer = msg.wire := by
  unfold buffer
  rw [hout]
  rfl

theorem buffer_of_none (hout : pc.output = none) : pc.buffer = [] := by
  unfold buffer
  rw [hout]
  rfl

theorem Framed.written (h : pc.Framed) : Written pc.buffer := by
  cases hout : pc.output with
  | none => exact .inl (buffer_of_none hout)
  | some msg => exact .inr ⟨msg, h.output hout, buffer_of_output hout⟩

theorem output_of_reads (h : pc.reads = true) : pc.output = none := by
  cases pc <;> first | rfl | cases h

theorem sends_once_eq (h : pc.sends_once = true) : pc = .send_keep_alive := by
  cases pc <;> first | rfl | cases h

end PC

section moves

variable {sha1 : Bytes → Bytes} {c c' : Controller} {id : ℕ} {st st' : PeerState} {pc pc' : PC}
  {inp : Input}

/-- Where a step leads, the message to be sent can be read again. -/
theorem Move.framed (h : Move sha1 c id st pc inp c' st' pc') (hn : c.total_pieces < 2 ^ 31) :
    pc'.Framed := by
  cases h
  case opened =>
    show c.get_bitfield.length < 2 ^ 31
    rw [c.get_bitfield_length]
    omega
  case fetched kept req rest call block hget hne =>
    obtain ⟨i, f, -, hserved⟩ := Controller.get_block_served hget hne
    have hlen := hserved.length
    have hle : c.block_size i req.block_offset ≤ block_length := min_le_left _ _
    show block.length ≤ 16384
    unfold block_length at hle
    omega
  case shaken ok =>
    cases ok with
    | true => trivial
    | false => exact leave_cases trivial fun _ _ => trivial
  case finished => exact leave_cases trivial fun _ _ => trivial
  case disconnected => exact leave_cases trivial fun _ _ => trivial
  case bitfield_sent => split <;> trivial
  case drained => exact flush_cases trivial trivial (fun _ _ => trivial) fun _ _ => trivial
  case have_sent => exact flush_cases trivial trivial (fun _ _ => trivial) fun _ _ => trivial
  case have_unsent => exact serve_cases trivial trivial fun _ _ => trivial
  case unchoke_sent => exact serve_cases trivial trivial fun _ _ => trivial
  case got_request => exact serve_cases trivial trivial fun _ _ => trivial
  case passed_over => exact serve_next_cases trivial trivial fun _ _ => trivial
  case piece_sent => exact serve_next_cases trivial trivial fun _ _ => trivial
  case piece_unsent => exact call_cases _ trivial trivial
  case got_unchoke => exact request_next_blocks_cases trivial trivial
  case block_received => exact request_next_blocks_cases trivial trivial
  case request_sent => exact request_loop_cases trivial trivial
  case got_have => exact have_next_cases trivial trivial
  case got_have_beyond => exact have_next_cases trivial trivial
  case got_choke => exact choke_next_cases trivial fun _ _ => trivial
  case got_bitfield => split <;> trivial
  case bitfield_stored => split <;> trivial
  all_goals trivial

/-- Nothing is sent by a step that calls a method. -/
theorem Move.output_call (h : Move sha1 c id st pc .call c' st' pc') : pc.output = none := by
  cases h <;> rfl

/-- Only `read_message` reads. -/
theorem Move.reads {msg : Option PeerMessage} (h : Move sha1 c id st pc (.recv msg) c' st' pc') :
    pc.reads = true := by
  cases h <;> rfl

end moves

/-! ## Sides -/

/-- One side: how much of its message it has sent, and how much of the next
    one it has read. -/
structure Side where
  party : Party
  sent : ℕ
  reader : Reader

namespace Side

def buffer (p : Side) : Bytes := p.party.thread.pc.buffer

/-- One step of a side, with the bytes on their way to it and those from it.
    `send` and `recv` take `k` bytes. -/
def turn (sha1 : Bytes → Bytes) (other_closed : Bool) (p : Side) (inbox outbox : Bytes) (k : ℕ) :
    Event → Option (Side × Bytes × Bytes)
  | .call => (p.party.take sha1 .call).map fun q => ({ p with party := q }, inbox, outbox)
  | .send =>
    if 1 ≤ k ∧ p.sent + k ≤ p.buffer.length then
      let outbox := outbox ++ (p.buffer.drop p.sent).take k
      -- `send_all` goes on until everything is sent
      if p.party.thread.pc.sends_once = false ∧ p.sent + k < p.buffer.length then
        some ({ p with sent := p.sent + k }, inbox, outbox)
      else (p.party.take sha1 (.sent true)).map fun q =>
        ({ p with party := q, sent := 0 }, inbox, outbox)
    else none
  | .recv =>
    if p.party.thread.pc.reads = true ∧ 1 ≤ k ∧ k ≤ p.reader.wanted ∧ k ≤ inbox.length then
      match p.reader.take (inbox.take k) with
      | (r, none) => some ({ p with reader := r }, inbox.drop k, outbox)
      | (r, some msg) => (p.party.take sha1 (.recv (some msg))).map fun q =>
        ({ p with party := q, reader := r }, inbox.drop k, outbox)
    else none
  | .hangup =>
    -- `recv` returns 0
    if inbox.isEmpty && other_closed then
      (p.party.take sha1 (.recv none)).map fun q => ({ p with party := q }, inbox, outbox)
    else none
  | .other op => (op.exec sha1 p.party.ctl).toOption.map fun c =>
    ({ p with party := { p.party with ctl := c } }, inbox, outbox)

/-- The reply to a keep-alive is sent in one go. -/
def Whole (p : Side) (ev : Event) (k : ℕ) : Prop :=
  ev = .send → p.party.thread.pc.sends_once = true → k = 4

/-- What is left to send of the message. -/
def unsent (p : Side) : ℕ := p.buffer.length - p.sent

variable {sha1 : Bytes → Bytes} {other_closed : Bool} {p p' : Side}
  {inbox outbox inbox' outbox' obuf : Bytes} {k osent : ℕ} {ev : Event} {r : Reader}
  {qin qout : List PeerMessage}

/-- A side as it is seen by the other system: what it reads is carried from a
    buffer of the other side, what it sends to a reader there. -/
structure Linked (p : Side) (inbox outbox : Bytes) (obuf : Bytes) (osent : ℕ) (r : Reader)
    (qin qout : List PeerMessage) : Prop where
  incoming : Carries obuf osent inbox p.reader qin
  outgoing : Carries p.buffer p.sent outbox r qout

/-- What a step of a side is in the system of messages: nothing, but some bytes
    fewer to be sent or read, or a step of the party there. -/
def Matched (sha1 : Bytes → Bytes) (other_closed : Bool) (p p' : Side)
    (inbox outbox inbox' outbox' : Bytes) (ev : Event) (qin qout qin' qout' : List PeerMessage) :
    Prop :=
  (p'.party = p.party ∧ qin' = qin ∧ qout' = qout ∧
    2 * p'.unsent + inbox'.length + outbox'.length < 2 * p.unsent + inbox.length + outbox.length) ∨
    p.party.turn sha1 other_closed qin qout ev = some (p'.party, qin', qout')

/-! ### A Step of a Side -/

/-- After a step that does not send, nothing of a message is sent. -/
theorem Linked.rebuffered (h : p.Linked inbox outbox obuf osent r qin qout)
    (hnone : p.party.thread.pc.output = none) (p' : Side) (hsent : p'.sent = p.sent) :
    Carries p'.buffer p'.sent outbox r qout := by
  have hout := h.outgoing
  unfold buffer at hout
  rw [PC.buffer_of_none hnone] at hout
  have h0 := hout.sent_eq_zero
  rw [h0] at hout
  rw [hsent, h0]
  exact hout.rebuffer _

theorem Linked.called (h : p.Linked inbox outbox obuf osent r qin qout) {q : Party}
    (hq : p.party.take sha1 .call = some q) :
    ({ p with party := q } : Side).Linked inbox outbox obuf osent r qin qout := by
  obtain ⟨c', t', rfl, hmove⟩ := Party.take_move hq
  exact ⟨h.incoming, h.rebuffered hmove.output_call _ rfl⟩

theorem Linked.sent_part (h : p.Linked inbox outbox obuf osent r qin qout)
    (hk : p.sent + k < p.buffer.length) :
    ({ p with sent := p.sent + k } : Side).Linked inbox (outbox ++ (p.buffer.drop p.sent).take k)
      obuf osent r qin qout :=
  ⟨h.incoming, h.outgoing.pushed hk⟩

theorem Linked.sent_rest (h : p.Linked inbox outbox obuf osent r qin qout)
    (hframed : p.party.thread.pc.Framed) (hk : p.sent + k = p.buffer.length) {q : Party}
    (hq : p.party.take sha1 (.sent true) = some q) :
    ({ p with party := q, sent := 0 } : Side).Linked inbox
      (outbox ++ (p.buffer.drop p.sent).take k) obuf osent r qin
      (qout ++ p.party.thread.pc.output.toList) := by
  obtain ⟨c', t', rfl, hmove⟩ := Party.take_move hq
  obtain ⟨msg, hout⟩ := hmove.output_sent
  refine ⟨h.incoming, ?_⟩
  rw [hout]
  exact h.outgoing.sent_all (PC.buffer_of_output hout) (hframed.output hout) hk _

theorem Linked.received (h : p.Linked inbox outbox obuf osent r qin qout) (hobuf : Written obuf)
    (hpos : 1 ≤ k) (hle : k ≤ p.reader.wanted) (hk : k ≤ inbox.length) {r' : Reader}
    {msg : PeerMessage} (htake : p.reader.take (inbox.take k) = (r', some msg)) {q : Party}
    (hq : p.party.take sha1 (.recv (some msg)) = some q) :
    ∃ rest, qin = msg :: rest ∧ ({ p with party := q, reader := r' } : Side).Linked
      (inbox.drop k) outbox obuf osent r rest qout := by
  obtain ⟨c', t', rfl, hmove⟩ := Party.take_move hq
  obtain ⟨rest, rfl, hin⟩ := h.incoming.received hobuf hpos hle hk htake
  exact ⟨rest, rfl, hin, h.rebuffered (PC.output_of_reads hmove.reads) _ rfl⟩

theorem Linked.hung_up (h : p.Linked [] outbox obuf osent r qin qout) {q : Party}
    (hq : p.party.take sha1 (.recv none) = some q) :
    qin = [] ∧ ({ p with party := q } : Side).Linked [] outbox obuf osent r qin qout := by
  obtain ⟨c', t', rfl, hmove⟩ := Party.take_move hq
  refine ⟨?_, h.incoming, h.rebuffered (PC.output_of_reads hmove.reads) _ rfl⟩
  by_contra hne
  exact h.incoming.stream_ne_nil hne rfl

/-- **Step lemma**: a step of a side is a step of the party in the system of
    messages, or none there. -/
theorem Linked.turned (h : p.Linked inbox outbox obuf osent r qin qout) (hobuf : Written obuf)
    (hframed : p.party.thread.pc.Framed) (hwhole : p.Whole ev k)
    (hturn : p.turn sha1 other_closed inbox outbox k ev = some (p', inbox', outbox')) :
    ∃ qin' qout', p'.Linked inbox' outbox' obuf osent r qin' qout' ∧
      Matched sha1 other_closed p p' inbox outbox inbox' outbox' ev qin qout qin' qout' := by
  cases ev with
  | call =>
    obtain ⟨q, hq, heq⟩ := Option.map_eq_some_iff.mp hturn
    cases heq
    refine ⟨qin, qout, h.called hq, .inr ?_⟩
    show (p.party.take sha1 .call).map _ = _
    rw [hq]
    rfl
  | send =>
    unfold turn at hturn
    dsimp only at hturn
    split at hturn
    · rename_i hrange
      obtain ⟨hpos, hle⟩ := hrange
      split at hturn
      · rename_i hpart
        cases hturn
        refine ⟨qin, qout, h.sent_part hpart.2, .inl ⟨rfl, rfl, rfl, ?_⟩⟩
        have htaken : ((p.buffer.drop p.sent).take k).length = k := by
          rw [List.length_take_of_le]
          rw [List.length_drop]
          omega
        show 2 * (p.buffer.length - (p.sent + k)) + inbox.length + (outbox ++ _).length
          < 2 * (p.buffer.length - p.sent) + inbox.length + outbox.length
        rw [List.length_append, htaken]
        have hpart := hpart.2
        omega
      · rename_i hpart
        obtain ⟨q, hq, heq⟩ := Option.map_eq_some_iff.mp hturn
        cases heq
        -- everything is sent, also of the reply to a keep-alive
        have hk : p.sent + k = p.buffer.length := by
          cases honce : p.party.thread.pc.sends_once with
          | false =>
            by_contra hne
            exact hpart ⟨honce, by omega⟩
          | true =>
            have hfour := hwhole rfl honce
            have hlen : p.buffer.length = 4 := by
              unfold buffer
              rw [PC.sends_once_eq honce]
              decide
            omega
        refine ⟨qin, _, h.sent_rest hframed hk hq, .inr ?_⟩
        show (p.party.take sha1 (.sent true)).map _ = _
        rw [hq]
        rfl
    · cases hturn
  | recv =>
    unfold turn at hturn
    dsimp only at hturn
    split at hturn
    · rename_i hguard
      obtain ⟨-, hpos, hle, hk⟩ := hguard
      split at hturn
      · rename_i r' htake
        cases hturn
        refine ⟨qin, qout, ⟨h.incoming.pulled hpos hle hk htake, h.outgoing⟩,
          .inl ⟨rfl, rfl, rfl, ?_⟩⟩
        show 2 * p.unsent + (inbox.drop k).length + outbox.length < _
        rw [List.length_drop]
        omega
      · rename_i r' msg htake
        obtain ⟨q, hq, heq⟩ := Option.map_eq_some_iff.mp hturn
        cases heq
        obtain ⟨rest, rfl, hlinked⟩ := h.received hobuf hpos hle hk htake hq
        refine ⟨rest, qout, hlinked, .inr ?_⟩
        show (p.party.take sha1 (.recv (some msg))).map _ = _
        rw [hq]
        rfl
    · cases hturn
  | hangup =>
    unfold turn at hturn
    dsimp only at hturn
    split at hturn
    · rename_i hend
      obtain ⟨hempty, hclosed⟩ := (Bool.and_eq_true _ _).mp hend
      obtain rfl := List.isEmpty_iff.mp hempty
      obtain ⟨q, hq, heq⟩ := Option.map_eq_some_iff.mp hturn
      cases heq
      obtain ⟨rfl, hlinked⟩ := h.hung_up hq
      refine ⟨[], qout, hlinked, .inr ?_⟩
      subst hclosed
      show (p.party.take sha1 (.recv none)).map _ = _
      rw [hq]
      rfl
    · cases hturn
  | other op =>
    obtain ⟨c, hc, heq⟩ := Option.map_eq_some_iff.mp hturn
    cases heq
    refine ⟨qin, qout, ⟨h.incoming, h.outgoing⟩, .inr ?_⟩
    show (op.exec sha1 p.party.ctl).toOption.map _ = _
    rw [hc]
    rfl

/-- **Progress**: a step of the party in the system of messages can be begun
    by the side. -/
theorem Linked.turn_begins (h : p.Linked inbox outbox obuf osent r qin qout)
    (hobuf : Written obuf) (hsilent : other_closed = true → obuf = []) {q : Party}
    {qin' qout' : List PeerMessage}
    (hturn : p.party.turn sha1 other_closed qin qout ev = some (q, qin', qout')) :
    ∃ k, (p.turn sha1 other_closed inbox outbox k ev).isSome := by
  cases ev with
  | call =>
    obtain ⟨q, hq, heq⟩ := Option.map_eq_some_iff.mp hturn
    refine ⟨0, ?_⟩
    show ((p.party.take sha1 .call).map _).isSome = true
    rw [hq]
    rfl
  | send =>
    obtain ⟨q, hq, heq⟩ := Option.map_eq_some_iff.mp hturn
    obtain ⟨c', t', -, hmove⟩ := Party.take_move hq
    obtain ⟨msg, hout⟩ := hmove.output_sent
    have hlt : p.sent < p.buffer.length := by
      rcases h.outgoing.sending with hlt | h0
      · exact hlt
      · rw [h0]
        unfold buffer
        rw [PC.buffer_of_output hout]
        exact List.length_pos_iff.mpr msg.wire_ne_nil
    refine ⟨p.buffer.length - p.sent, ?_⟩
    unfold turn
    dsimp only
    rw [if_pos ⟨by omega, by omega⟩, if_neg (fun hpart => by omega), hq]
    rfl
  | recv =>
    cases qin with
    | nil => cases hturn
    | cons msg rest =>
      obtain ⟨q, hq, heq⟩ := Option.map_eq_some_iff.mp hturn
      obtain ⟨c', t', -, hmove⟩ := Party.take_move hq
      have hpos := List.length_pos_iff.mpr (h.incoming.stream_ne_nil (List.cons_ne_nil _ _))
      have hwanted := h.incoming.reading.wanted_pos
      refine ⟨1, ?_⟩
      unfold turn
      dsimp only
      rw [if_pos ⟨hmove.reads, le_rfl, hwanted, hpos⟩]
      split
      · rfl
      · rename_i r' msg' htake
        obtain ⟨rest', heq', -⟩ := h.incoming.received hobuf le_rfl hwanted hpos htake
        obtain ⟨rfl, rfl⟩ := List.cons.inj heq'
        rw [hq]
        rfl
  | hangup =>
    change (if qin.isEmpty && other_closed then
      (p.party.take sha1 (.recv none)).map fun q => (q, qin, qout) else none) = _ at hturn
    split at hturn
    · rename_i hend
      obtain ⟨hempty, hclosed⟩ := (Bool.and_eq_true _ _).mp hend
      obtain rfl := List.isEmpty_iff.mp hempty
      obtain rfl := hsilent hclosed
      obtain ⟨-, rfl⟩ := h.incoming.stream_eq_nil
      obtain ⟨q, hq, heq⟩ := Option.map_eq_some_iff.mp hturn
      subst hclosed
      refine ⟨0, ?_⟩
      show ((p.party.take sha1 (.recv none)).map _).isSome = true
      rw [hq]
      rfl
    · cases hturn
  | other op =>
    obtain ⟨c, hc, heq⟩ := Option.map_eq_some_iff.mp hturn
    refine ⟨0, ?_⟩
    show ((op.exec sha1 p.party.ctl).toOption.map _).isSome = true
    rw [hc]
    rfl

end Side

end BitTorrentLite
