import BitTorrentLite.Announce.Url
import BitTorrentLite.LTS.System

/-! # The Tracker Exchange

    `run_leecher` and `run_seeder` send the request, receive until the end of
    the stream and close the connection. `handle_client` of the tracker also
    receives until the end of the stream before it replies. A stream ends when
    the other side closes it, and neither does so before it has received the
    end of the other one.
-/

open LTS Bencode

namespace BitTorrentLite

namespace Exchange

/-! ## The Two Sides -/

/-- `htons` of a little-endian machine. -/
def htons (x : UInt16) : UInt16 := (x <<< 8) ||| (x >>> 8)

/-- `build_tracker_response`. -/
def build_tracker_response : Bytes :=
  let port := htons 6881
  let peers : Bytes := [127, 0, 0, 1, ((port >>> 8) &&& 255).toUInt8, (port &&& 255).toUInt8]
  ascii "d"
    ++ ascii "8:completei4e"
    ++ ascii "10:incompletei0e"
    ++ ascii "8:intervali60e"
    ++ ascii "12:min intervali60e"
    ++ ascii "5:peers" ++ decimal peers.length ++ ascii ":" ++ peers
    ++ ascii "e"

/-- What `handle_client` replies, whatever the request. -/
def tracker_response : Bytes :=
  let body := build_tracker_response
  ascii "HTTP/1.1 200 OK\r\n"
    ++ ascii "Content-Length: " ++ decimal body.length ++ ascii "\r\n"
    ++ ascii "Content-Type: text/plain\r\n"
    ++ ascii "Connection: close\r\n"
    ++ ascii "\r\n"
    ++ body

/-- The client: in `send_all` with the rest of the request, in `recv_inf` with
    what was received, or through. -/
inductive Client where
  | sending (rest : Bytes)
  | receiving (response : Bytes)
  | closed (response : Bytes)
  deriving DecidableEq

/-- `handle_client`: in `recv_inf`, in `send_all`, or through. -/
inductive Server where
  | receiving (request : Bytes)
  | replying (rest : Bytes)
  | closed
  deriving DecidableEq

/-- The two sides, and the bytes on their way. -/
structure Connection where
  client : Client
  tracker : Server
  to_tracker : Bytes
  to_client : Bytes
  deriving DecidableEq

/-- `sizeof(buffer)` in the `recv_inf` of the client, where it is an array, and
    in that of the tracker, where it is a pointer. -/
def client_buffer : ℕ := 4096
def tracker_buffer : ℕ := 8

/-- The steps of the two sides. -/
inductive Act where
  | client_send (n : ℕ)
  | client_sent
  | client_recv (n : ℕ)
  | client_close
  | tracker_recv (n : ℕ)
  | tracker_reply
  | tracker_send (n : ℕ)
  | tracker_close
  deriving DecidableEq

/-- One call of `send` or `recv`, with as many bytes as it takes, or of `close`. -/
inductive Step : Connection → Act → Connection → Prop
  | client_send {s rest n} : s.client = .sending rest → 0 < n → n ≤ rest.length →
      Step s (.client_send n) { s with
        client := .sending (rest.drop n), to_tracker := s.to_tracker ++ rest.take n }
  | client_sent {s} : s.client = .sending [] → Step s .client_sent
      { s with client := .receiving [] }
  | client_recv {s response n} : s.client = .receiving response → 0 < n → n ≤ client_buffer →
      n ≤ s.to_client.length → Step s (.client_recv n) { s with
        client := .receiving (response ++ s.to_client.take n), to_client := s.to_client.drop n }
  -- `recv` returns 0: everything was received, and the tracker has closed the connection
  | client_close {s response} : s.client = .receiving response → s.to_client = [] →
      s.tracker = .closed → Step s .client_close { s with client := .closed response }
  | tracker_recv {s request n} : s.tracker = .receiving request → 0 < n → n ≤ tracker_buffer →
      n ≤ s.to_tracker.length → Step s (.tracker_recv n) { s with
        tracker := .receiving (request ++ s.to_tracker.take n)
        to_tracker := s.to_tracker.drop n }
  -- `recv` returns 0: everything was received, and the client has closed the connection
  | tracker_reply {s request response} : s.tracker = .receiving request → s.to_tracker = [] →
      s.client = .closed response → Step s .tracker_reply
      { s with tracker := .replying tracker_response }
  | tracker_send {s rest n} : s.tracker = .replying rest → 0 < n → n ≤ rest.length →
      Step s (.tracker_send n) { s with
        tracker := .replying (rest.drop n), to_client := s.to_client ++ rest.take n }
  | tracker_close {s} : s.tracker = .replying [] → Step s .tracker_close
      { s with tracker := .closed }

/-- The exchange of a request: connected, and nothing sent. -/
def exchange (request : Bytes) : System Connection Act where
  init := fun s => s = ⟨.sending request, .receiving [], [], []⟩
  step := Step

/-- Both sides wait to receive, nothing is on its way, and neither has closed. -/
def Deadlocked (s : Connection) : Prop :=
  (∃ response, s.client = .receiving response) ∧ (∃ request, s.tracker = .receiving request) ∧
    s.to_tracker = [] ∧ s.to_client = []

/-! ## No Run Gets Through -/

/-- The request is on its way and the tracker waits for more. -/
structure Waiting (s : Connection) : Prop where
  client : (∃ rest, s.client = .sending rest) ∨ s.client = .receiving []
  tracker : ∃ request, s.tracker = .receiving request
  to_client : s.to_client = []

/-- What is still to be done: each byte is sent and received. -/
def Connection.pending (s : Connection) : ℕ :=
  (match s.client with
    | .sending rest => 2 * rest.length + 1
    | _ => 0) + s.to_tracker.length

section runs

variable {s s' : Connection} {a : Act} {request : Bytes}

/-- **Step lemma**: the tracker goes on waiting, with less to come. -/
theorem Waiting.step (h : Waiting s) (hstep : Step s a s') :
    Waiting s' ∧ s'.pending < s.pending := by
  obtain ⟨hclient, ⟨got, htracker⟩, hto_client⟩ := h
  cases hstep with
  | client_send hsending hpos hle =>
    refine ⟨⟨.inl ⟨_, rfl⟩, ⟨got, htracker⟩, hto_client⟩, ?_⟩
    unfold Connection.pending
    rw [hsending]
    simp only [List.length_drop, List.length_append, List.length_take]
    omega
  | client_sent hsending =>
    refine ⟨⟨.inr rfl, ⟨got, htracker⟩, hto_client⟩, ?_⟩
    unfold Connection.pending
    rw [hsending]
    simp
  | client_recv _ hpos _ hle =>
    rw [hto_client, List.length_nil] at hle
    omega
  | client_close _ _ hclosed => cases htracker.symm.trans hclosed
  | tracker_recv hreceiving hpos _ hle =>
    refine ⟨⟨hclient, ⟨_, rfl⟩, hto_client⟩, ?_⟩
    unfold Connection.pending
    simp only [List.length_drop]
    omega
  | tracker_reply _ _ hclosed =>
    rcases hclient with ⟨rest, hsending⟩ | hreceiving
    · cases hsending.symm.trans hclosed
    · cases hreceiving.symm.trans hclosed
  | tracker_send hreplying _ _ => cases htracker.symm.trans hreplying
  | tracker_close hreplying => cases htracker.symm.trans hreplying

/-- Some side can go on until all is received. -/
theorem Waiting.progress (h : Waiting s) : Deadlocked s ∨ ∃ a s', Step s a s' := by
  obtain ⟨hclient, ⟨got, htracker⟩, hto_client⟩ := h
  cases hwire : s.to_tracker with
  | cons b wire =>
    right
    refine ⟨.tracker_recv 1, _, .tracker_recv htracker Nat.one_pos (by decide) ?_⟩
    rw [hwire, List.length_cons]
    omega
  | nil =>
    rcases hclient with ⟨rest, hsending⟩ | hreceiving
    · right
      cases rest with
      | nil => exact ⟨_, _, .client_sent hsending⟩
      | cons b rest =>
        refine ⟨.client_send 1, _, .client_send hsending Nat.one_pos ?_⟩
        rw [List.length_cons]
        omega
    · left
      exact ⟨⟨_, hreceiving⟩, ⟨got, htracker⟩, hwire, hto_client⟩

theorem waiting_of_reachable (h : (exchange request).Reachable s) : Waiting s := by
  induction h with
  | init h =>
    subst h
    exact ⟨.inl ⟨request, rfl⟩, ⟨[], rfl⟩, rfl⟩
  | step _ hstep ih => exact (ih.step hstep).1

/-- From any state on, a deadlock is reached. -/
theorem deadlock_reachable (h : (exchange request).Reachable s) :
    ∃ s', (exchange request).Reachable s' ∧ Deadlocked s' := by
  obtain ⟨s', -, hreachable, hdeadlocked⟩ := exists_goal_of_measure
    (r := fun t t' => ∃ a, Step t a t') (P := (exchange request).Reachable) (Q := Deadlocked)
    Connection.pending (by
      intro t ht
      rcases (waiting_of_reachable ht).progress with hdeadlocked | ⟨a, t', hstep⟩
      · exact .inl hdeadlocked
      · exact .inr ⟨t', ⟨a, hstep⟩, .step ht hstep,
          ((waiting_of_reachable ht).step hstep).2⟩) h
  exact ⟨s', hreachable, hdeadlocked⟩

/-- A deadlock is the end of a run. -/
theorem Deadlocked.stuck (h : Deadlocked s) : ¬ Step s a s' := by
  obtain ⟨⟨response, hclient⟩, ⟨got, htracker⟩, hto_tracker, hto_client⟩ := h
  intro hstep
  cases hstep with
  | client_send hsending _ _ => cases hclient.symm.trans hsending
  | client_sent hsending => cases hclient.symm.trans hsending
  | client_recv _ hpos _ hle =>
    rw [hto_client, List.length_nil] at hle
    omega
  | client_close _ _ hclosed => cases htracker.symm.trans hclosed
  | tracker_recv _ hpos _ hle =>
    rw [hto_tracker, List.length_nil] at hle
    omega
  | tracker_reply _ _ hclosed => cases hclient.symm.trans hclosed
  | tracker_send hreplying _ _ => cases htracker.symm.trans hreplying
  | tracker_close hreplying => cases htracker.symm.trans hreplying

/-- **Deadlock**: whatever the request is, there is a run to a deadlock, no run
    goes on for ever, and none ends in another way. -/
theorem exchange_deadlocks (request : Bytes) :
    ¬ (∀ s, (exchange request).Reachable s → ¬ Deadlocked s) ∧
      ∀ s, (exchange request).Reachable s →
        (∀ a s', Step s a s' → s'.pending < s.pending) ∧
          ((∀ a s', ¬ Step s a s') ↔ Deadlocked s) := by
  constructor
  · intro hnever
    have hstart : (exchange request).Reachable ⟨.sending request, .receiving [], [], []⟩ :=
      .init rfl
    obtain ⟨s, hs, hdeadlocked⟩ := deadlock_reachable hstart
    exact hnever s hs hdeadlocked
  · intro s hs
    have hwaiting := waiting_of_reachable hs
    refine ⟨fun a s' hstep => (hwaiting.step hstep).2, ?_, ?_⟩
    · intro hstuck
      rcases hwaiting.progress with hdeadlocked | ⟨a, s', hstep⟩
      · exact hdeadlocked
      · exact absurd hstep (hstuck a s')
    · intro hdeadlocked a s'
      exact hdeadlocked.stuck

/-- So it is for an announce. -/
theorem announce_deadlocks : ∃ s,
    (exchange (ascii "GET /announce?info_hash=x HTTP/1.1\r\n\r\n")).Reachable s ∧ Deadlocked s :=
  deadlock_reachable (.init rfl)

end runs

end Exchange

end BitTorrentLite
