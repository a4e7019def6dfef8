import BitTorrentLite.Controller.System
import BitTorrentLite.Peer.Spec

/-! # Two Peer Loops over a Connection

    Two clients run `run_peer_loop` for each other, over one reliable FIFO
    channel in each direction; sends succeed. The other peers of either client
    reach its controller through its methods at any time. A read finds the end
    of the stream once the channel is empty and the other side has closed.
-/

open Machine LTS

namespace BitTorrentLite

/-- One side: the client's controller and its thread for the other side. -/
structure Party where
  ctl : Controller
  id : ℕ
  thread : Thread

/-- The two sides, with the messages on their way in each direction. -/
structure Duo where
  A : Party
  B : Party
  ab : List PeerMessage
  ba : List PeerMessage

/-- The steps of one side. -/
inductive Event where
  | call
  | send
  | recv
  | hangup
  /-- Another thread of the client calls a method of the controller. -/
  | other (op : Controller.Op)

/-- Whose step it is. -/
inductive Turn where
  | A (ev : Event)
  | B (ev : Event)

namespace Party

/-- The thread has closed the connection. -/
def closed (p : Party) : Bool :=
  match p.thread.pc with
  | .closed => true
  | _ => false

/-- The thread takes one step. -/
def take (sha1 : Bytes → Bytes) (p : Party) (inp : Input) : Option Party :=
  ((p.thread.advance sha1 p.ctl p.id inp).bind Except.toOption).map fun (c, t) =>
    { p with ctl := c, thread := t }

/-- One step of a side, with what it has still to read and what it has sent. -/
def turn (sha1 : Bytes → Bytes) (other_closed : Bool) (p : Party)
    (inbox outbox : List PeerMessage) :
    Event → Option (Party × List PeerMessage × List PeerMessage)
  | .call => (p.take sha1 .call).map fun p' => (p', inbox, outbox)
  | .send => (p.take sha1 (.sent true)).map fun p' =>
    (p', inbox, outbox ++ p.thread.pc.output.toList)
  | .recv =>
    match inbox with
    | [] => none
    | msg :: rest => (p.take sha1 (.recv (some msg))).map fun p' => (p', rest, outbox)
  | .hangup =>
    if inbox.isEmpty && other_closed then
      (p.take sha1 (.recv none)).map fun p' => (p', inbox, outbox)
    else none
  | .other op => (op.exec sha1 p.ctl).toOption.map fun c => ({ p with ctl := c }, inbox, outbox)

/-- What one step of a side can do. -/
inductive Turned (sha1 : Bytes → Bytes) (other_closed : Bool) (p : Party) :
    List PeerMessage → List PeerMessage → Event →
      Party → List PeerMessage → List PeerMessage → Prop where
  | called (inbox outbox : List PeerMessage) (c' : Controller) (t' : Thread) :
      Move sha1 p.ctl p.id p.thread.state p.thread.pc .call c' t'.state t'.pc →
      Turned sha1 other_closed p inbox outbox .call ⟨c', p.id, t'⟩ inbox outbox
  | sent (inbox outbox : List PeerMessage) (c' : Controller) (t' : Thread) :
      Move sha1 p.ctl p.id p.thread.state p.thread.pc (.sent true) c' t'.state t'.pc →
      Turned sha1 other_closed p inbox outbox .send ⟨c', p.id, t'⟩ inbox
        (outbox ++ p.thread.pc.output.toList)
  | received (msg : PeerMessage) (inbox outbox : List PeerMessage) (c' : Controller)
      (t' : Thread) :
      Move sha1 p.ctl p.id p.thread.state p.thread.pc (.recv (some msg)) c' t'.state t'.pc →
      Turned sha1 other_closed p (msg :: inbox) outbox .recv ⟨c', p.id, t'⟩ inbox outbox
  | hung_up (outbox : List PeerMessage) (c' : Controller) (t' : Thread) : other_closed = true →
      Move sha1 p.ctl p.id p.thread.state p.thread.pc (.recv none) c' t'.state t'.pc →
      Turned sha1 other_closed p [] outbox .hangup ⟨c', p.id, t'⟩ [] outbox
  | others (inbox outbox : List PeerMessage) (op : Controller.Op) (c' : Controller) :
      Controller.Stepped sha1 p.ctl c' →
      Turned sha1 other_closed p inbox outbox (.other op) ⟨c', p.id, p.thread⟩ inbox outbox

theorem take_move {sha1 : Bytes → Bytes} {p p' : Party} {inp : Input}
    (h : p.take sha1 inp = some p') :
    ∃ c' t', p' = ⟨c', p.id, t'⟩ ∧
      Move sha1 p.ctl p.id p.thread.state p.thread.pc inp c' t'.state t'.pc := by
  obtain ⟨⟨c', t'⟩, hadv, rfl⟩ := Option.map_eq_some_iff.mp h
  obtain ⟨r, hr, hok⟩ := Option.bind_eq_some_iff.mp hadv
  cases r with
  | error e => cases hok
  | ok r =>
    obtain rfl := Option.some.inj hok
    exact ⟨c', t', rfl, advance_move hr⟩

/-- **Turn inversion**: every step of a side is one of the five. -/
theorem turn_turned {sha1 : Bytes → Bytes} {other_closed : Bool} {p p' : Party}
    {inbox outbox inbox' outbox' : List PeerMessage} {ev : Event}
    (h : p.turn sha1 other_closed inbox outbox ev = some (p', inbox', outbox')) :
    Turned sha1 other_closed p inbox outbox ev p' inbox' outbox' := by
  cases ev with
  | call =>
    obtain ⟨q, hq, heq⟩ := Option.map_eq_some_iff.mp h
    cases heq
    obtain ⟨c', t', rfl, hmove⟩ := take_move hq
    exact .called inbox outbox c' t' hmove
  | send =>
    obtain ⟨q, hq, heq⟩ := Option.map_eq_some_iff.mp h
    cases heq
    obtain ⟨c', t', rfl, hmove⟩ := take_move hq
    exact .sent inbox outbox c' t' hmove
  | recv =>
    cases inbox with
    | nil => cases h
    | cons msg rest =>
      obtain ⟨q, hq, heq⟩ := Option.map_eq_some_iff.mp h
      cases heq
      obtain ⟨c', t', rfl, hmove⟩ := take_move hq
      exact .received msg _ _ c' t' hmove
  | hangup =>
    change (if inbox.isEmpty && other_closed then
      (p.take sha1 (.recv none)).map fun p' => (p', inbox, outbox) else none) = _ at h
    by_cases hend : (inbox.isEmpty && other_closed) = true
    · rw [if_pos hend] at h
      obtain ⟨hempty, hclosed⟩ := (Bool.and_eq_true _ _).mp hend
      obtain rfl := List.isEmpty_iff.mp hempty
      obtain ⟨q, hq, heq⟩ := Option.map_eq_some_iff.mp h
      cases heq
      obtain ⟨c', t', rfl, hmove⟩ := take_move hq
      exact .hung_up _ c' t' hclosed hmove
    · rw [if_neg hend] at h
      cases h
  | other op =>
    obtain ⟨c', hc, heq⟩ := Option.map_eq_some_iff.mp h
    cases heq
    cases hop : op.exec sha1 p.ctl with
    | error e => rw [hop] at hc; cases hc
    | ok d =>
      rw [hop] at hc
      obtain rfl := Option.some.inj hc
      exact .others inbox outbox op d (Controller.exec_stepped hop)

/-- No step changes what the controller was given. -/
theorem Turned.toMetadata {sha1 : Bytes → Bytes} {other_closed : Bool} {p p' : Party}
    {inbox outbox inbox' outbox' : List PeerMessage} {ev : Event}
    (h : Turned sha1 other_closed p inbox outbox ev p' inbox' outbox') :
    p'.ctl.toMetadata = p.ctl.toMetadata := by
  cases h with
  | called _ _ c' t' hmove => exact hmove.toMetadata
  | sent _ _ c' t' hmove => exact hmove.toMetadata
  | received _ _ _ c' t' hmove => exact hmove.toMetadata
  | hung_up _ c' t' _ hmove => exact hmove.toMetadata
  | others _ _ op c' hst => exact hst.toMetadata

end Party

namespace Duo

/-- Two clients that have shaken hands and enter `run_peer_loop`. -/
def start (cA cB : Controller) (idA idB : ℕ) : Duo where
  A := ⟨cA, idA, ⟨{}, .opening⟩⟩
  B := ⟨cB, idB, ⟨{}, .opening⟩⟩
  ab := []
  ba := []

/-- The state after a step. -/
def next (sha1 : Bytes → Bytes) (d : Duo) : Turn → Option Duo
  | .A ev => (d.A.turn sha1 d.B.closed d.ba d.ab ev).map fun (p, ba, ab) => ⟨p, d.B, ab, ba⟩
  | .B ev => (d.B.turn sha1 d.A.closed d.ab d.ba ev).map fun (p, ab, ba) => ⟨d.A, p, ab, ba⟩

/-- The runs of the two clients. -/
def system (sha1 : Bytes → Bytes) (d₀ : Duo) : System Duo Turn where
  init := fun d => d = d₀
  step := fun d l d' => d.next sha1 l = some d'

/-- What one step of the two clients can do. -/
inductive Stepped (sha1 : Bytes → Bytes) (d : Duo) : Turn → Duo → Prop where
  | A (ev : Event) (p : Party) (ab ba : List PeerMessage) :
      d.A.Turned sha1 d.B.closed d.ba d.ab ev p ba ab →
      Stepped sha1 d (.A ev) ⟨p, d.B, ab, ba⟩
  | B (ev : Event) (p : Party) (ab ba : List PeerMessage) :
      d.B.Turned sha1 d.A.closed d.ab d.ba ev p ab ba →
      Stepped sha1 d (.B ev) ⟨d.A, p, ab, ba⟩

theorem next_stepped {sha1 : Bytes → Bytes} {d d' : Duo} {l : Turn}
    (h : d.next sha1 l = some d') : Stepped sha1 d l d' := by
  cases l with
  | A ev =>
    obtain ⟨⟨p, ba, ab⟩, hp, rfl⟩ := Option.map_eq_some_iff.mp h
    exact .A ev p ab ba (Party.turn_turned hp)
  | B ev =>
    obtain ⟨⟨p, ab, ba⟩, hp, rfl⟩ := Option.map_eq_some_iff.mp h
    exact .B ev p ab ba (Party.turn_turned hp)

theorem reachable_toMetadata {sha1 : Bytes → Bytes} {d₀ d : Duo}
    (h : (system sha1 d₀).Reachable d) :
    d.A.ctl.toMetadata = d₀.A.ctl.toMetadata ∧ d.B.ctl.toMetadata = d₀.B.ctl.toMetadata := by
  refine System.invariant (I := fun d => d.A.ctl.toMetadata = d₀.A.ctl.toMetadata ∧
    d.B.ctl.toMetadata = d₀.B.ctl.toMetadata) ?_ ?_ d h
  · rintro d rfl
    exact ⟨rfl, rfl⟩
  · intro d l d' _ hd hst
    cases next_stepped hst with
    | A ev p ab ba hturn => exact ⟨hturn.toMetadata.trans hd.1, hd.2⟩
    | B ev p ab ba hturn => exact ⟨hd.1, hturn.toMetadata.trans hd.2⟩

/-- A computed step is a step. -/
theorem next_step {sha1 : Bytes → Bytes} {d₀ : Duo} (d : Duo) (l : Turn) (d' : Duo)
    (h : d.next sha1 l = some d') : (system sha1 d₀).step d l d' := h

end Duo

end BitTorrentLite
